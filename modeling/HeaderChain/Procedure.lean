import HeaderChain.Disk
import HeaderChain.Event
import HeaderChain.Index
import HeaderChain.Metrics
import HeaderChain.Stored

/-!
# Procedures

An operation of the chain works on three things: its own memory, the store below it, and a journal
of what an onlooker can see of it. Together these are a `Session`. A `Procedure` changes the session
and ends with a value or a failure; what it has changed before a failure stays changed.

The journal holds four kinds of entries, in the order in which they come about: calls to the store,
questions put to the collaborators (`Question`), log events and measurements.
-/

namespace HeaderChain

/-- A question put to one of the collaborators of a chain. -/
inductive Question
  /-- The verifier: which records does this proof attest to? -/
  | verify (proof : WeightProof) (skipSegments : Bool)
  /-- The adjuster: which parameters hold for a child of this record? -/
  | adjust (firstInSubSlot : Bool) (parent : BlockRecord)
  /-- The validator: does this block keep the rules, given these parameters and what is known? -/
  | validate (index : Index) (block : HeaderBlock) (difficulty subSlotIters : UInt64)
  /-- The builder: what is the record of this block? -/
  | build (block : HeaderBlock) (requiredIters : UInt64)
  /-- The fork finder: where do the chains of these two part? -/
  | findFork (candidate peak : BlockRecord)

/-- What an onlooker sees. -/
inductive Entry
  | called (call : Call) (failed : Bool)
  | asked (question : Question)
  | logged (event : Event)
  | measured (measurement : Measurement)

namespace Entry

/-- The log event an entry tells of. -/
def event? : Entry → Option Event
  | logged e => some e
  | _ => none

/-- The measurement an entry tells of. -/
def measurement? : Entry → Option Measurement
  | measured m => some m
  | _ => none

/-- Whether an entry tells that the verifier was asked. -/
def isVerification : Entry → Bool
  | asked (.verify ..) => true
  | _ => false

end Entry

/-- A memory, the store below it, and the journal of what has happened, the earliest first. -/
structure Session (σ : Type) where
  memory : σ
  disk : Disk
  journal : List Entry := []

/-- **A procedure** on a memory and the store below it. It ends with a value or a failure, and
either way leaves a session behind. -/
abbrev Procedure (σ ε α : Type) := EStateM ε (Session σ) α

namespace Procedure

variable {σ τ ε ε' α : Type}

/-- Runs a procedure from a memory and a store, with nothing in the journal. -/
def run (x : Procedure σ ε α) (memory : σ) (disk : Disk) : Except ε α × Session σ :=
  match x { memory, disk } with
  | .ok a s => (.ok a, s)
  | .error e s => (.error e, s)

/-- The memory, as it is. -/
def memory : Procedure σ ε σ := fun s => .ok s.memory s

/-- Puts another memory in place. -/
def remember (memory : σ) : Procedure σ ε Unit := fun s => .ok () { s with memory }

/-- Adds an entry to the journal. -/
def enter (e : Entry) : Procedure σ ε Unit := fun s => .ok () { s with journal := s.journal ++ [e] }

/-- Logs an event. -/
def log (e : Event) : Procedure σ ε Unit := enter (.logged e)

/-- Tells a recorder of a measurement. -/
def measure (m : Measurement) : Procedure σ ε Unit := enter (.measured m)

/-- Puts a question to a collaborator, of whom this is the answer. -/
def ask (q : Question) (answer : α) : Procedure σ ε α := do
  enter (.asked q)
  return answer

/-- Fails if an answer is a failure. -/
def expect : Except ε α → Procedure σ ε α
  | .ok a => pure a
  | .error e => throw e

/-- Logs an event if a procedure fails. -/
def logFailure (x : Procedure σ ε α) (event : ε → Event) : Procedure σ ε α := fun s =>
  match x s with
  | .ok a s' => .ok a s'
  | .error e s' => .error e { s' with journal := s'.journal ++ [.logged (event e)] }

/-- Ends with the failure of a procedure instead of failing. -/
def attempt (x : Procedure σ ε α) : Procedure σ ε' (Except ε α) := fun s =>
  match x s with
  | .ok a s' => .ok (.ok a) s'
  | .error e s' => .ok (.error e) s'

/-- A procedure on a part of the memory. -/
def on (part : σ → τ) (put : τ → σ → σ) (failure : ε → ε') (x : Procedure τ ε α) :
    Procedure σ ε' α := fun s =>
  match x { memory := part s.memory, disk := s.disk, journal := s.journal } with
  | .ok a t => .ok a { memory := put t.memory s.memory, disk := t.disk, journal := t.journal }
  | .error e t =>
    .error (failure e) { memory := put t.memory s.memory, disk := t.disk, journal := t.journal }

/-! ### The store -/

/-- Makes a call to the store, and fails if the store refuses it. -/
def call (c : Call) : Procedure σ StoreError Unit := fun s =>
  match s.disk.serve c with
  | (none, disk) => .ok () { s with disk, journal := s.journal ++ [.called c false] }
  | (some detail, disk) =>
    .error (.database detail) { s with disk, journal := s.journal ++ [.called c true] }

/-- The bytes under a key, by a call. -/
def fetch (key : String) : Procedure σ StoreError (Option Bytes) := fun s =>
  match call (.get key) s with
  | .ok () s' => .ok (s.disk.peek key) s'
  | .error e s' => .error e s'

/-- The value under a key, if there is one. -/
def fetchValue (α : Type) [Stored α] (key : String) : Procedure σ StoreError (Option α) := do
  match ← fetch key with
  | none => return none
  | some raw =>
    match (Stored.decode? raw : Option α) with
    | some a => return some a
    | none =>
      log (.undecodable key)
      throw .malformed

/-- Stores the written form of a value under a key. -/
def storeValue [Stored α] (key : String) (a : α) : Procedure σ StoreError Unit :=
  call (.set key (Stored.encode a))

/-- Removes what is stored under a key. -/
def removeValue (key : String) : Procedure σ StoreError Unit := call (.remove key)

end Procedure

end HeaderChain
