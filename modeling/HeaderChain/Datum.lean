import HeaderChain.Bytes

/-!
# Data

What a document says, apart from how it is spelt: the tree that JSON text and TOML text are both
read into. Texts and names are kept as bytes, since a document may hold a text that is no Unicode in
a place nobody looks at.

A number that is no natural number, a date and so on are all `Datum.other`: they have a place in a
document, but nothing here is described by one. Such a datum keeps a spelling, so that a document
can be written again.
-/

namespace HeaderChain

/-- What a document, or a part of one, says. -/
inductive Datum
  | null
  | flag (value : Bool)
  | nat (value : Nat)
  /-- Another scalar, in a spelling of it. -/
  | other (spelling : Bytes)
  | text (content : Bytes)
  | list (items : List Datum)
  /-- Named parts, in the order in which they are written. A name may occur twice. -/
  | map (entries : List (Bytes × Datum))

namespace Datum

/-- The flag this is. -/
def flag? : Datum → Option Bool
  | flag b => some b
  | _ => none

/-- The natural number below `bound` this is. -/
def natBelow? (bound : Nat) : Datum → Option Nat
  | nat n => if n < bound then some n else none
  | _ => none

/-- The byte this is. -/
def byte? (d : Datum) : Option UInt8 := (d.natBelow? UInt8.size).map UInt8.ofNat

/-- The items of a list, each read in the same way. -/
def listOf? (read : Datum → Option α) : Datum → Option (List α)
  | list items => items.mapM read
  | _ => none

/-- A part that may be absent: nothing is written as null. -/
def ofOption (write : α → Datum) : Option α → Datum
  | none => null
  | some a => write a

/-- Reads a part that may be absent. -/
def option? (read : Datum → Option α) : Datum → Option (Option α)
  | null => some none
  | d => (read d).map some

end Datum

end HeaderChain
