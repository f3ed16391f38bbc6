import Std.Data.ExtTreeMap
import HeaderChain.Bytes

/-!
# The key-value store

What lies below the chain: bytes under keys. A call changes one key or none. A call that fails
leaves its key as it was, and which calls fail is not up to the store: `Disk.fault` is asked with
the number of calls served so far and the call itself, and may answer with what the store then says.

* `Disk.peek` — the bytes under a key, without a call;
* `Disk.serve` — one call, with its answer.
-/

namespace HeaderChain

/-- A call to the store: about one key, and one at a time. -/
inductive Call
  | get (key : String)
  | set (key : String) (value : Bytes)
  | remove (key : String)
deriving DecidableEq

/-- The key a call is about. -/
def Call.key : Call → String
  | get key | set key _ | remove key => key

/-- The name of a call. -/
def Call.method : Call → String
  | get _ => "get"
  | set .. => "set"
  | remove _ => "remove"

/-- **The store under a chain**: what lies under its keys, and which calls it is going to refuse. -/
structure Disk where
  entries : Std.ExtTreeMap String Bytes := ∅
  /-- Calls served so far, failed ones included. -/
  served : Nat := 0
  /-- What the store says if a call fails. -/
  fault : Nat → Call → Option String := fun _ _ => none

namespace Disk

/-- The bytes under a key, read without a call. -/
def peek (d : Disk) (key : String) : Option Bytes := d.entries[key]?

/-- The number of keys in use. -/
def size (d : Disk) : Nat := d.entries.size

/-- Puts bytes under a key, in place of those that were there. -/
def write (d : Disk) (key : String) (value : Bytes) : Disk :=
  { d with entries := d.entries.insert key value }

/-- Takes away what is under a key. -/
def erase (d : Disk) (key : String) : Disk := { d with entries := d.entries.erase key }

/-- What a call does to the store if it does not fail. -/
def apply (d : Disk) : Call → Disk
  | .get _ => d
  | .set key value => d.write key value
  | .remove key => d.erase key

/-- Serves one call: what the store says if it fails, and the store after it. -/
def serve (d : Disk) (call : Call) : Option String × Disk :=
  match d.fault d.served call with
  | some detail => (some detail, { d with served := d.served + 1 })
  | none => (none, { d.apply call with served := d.served + 1 })

end Disk

end HeaderChain
