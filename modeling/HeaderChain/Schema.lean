import HeaderChain.Hash
import HeaderChain.Datum
import HeaderChain.Shape

/-!
# Schemas

How a value with named parts is found in a datum. `Schema.parts?` gives, for each name of the
schema, the part of that name, if there is one. A datum may spell the parts out in two ways:

* as a map: the names in any order, each at most once. Other names are passed over, unless the
  schema is strict; a name that is no text is refused in any case.
* as a list: the parts in the order of the schema, all of them, unless the schema knows what an
  absent part stands for.

A list may hold more items than anybody asks for. Whether these are refused (`Surplus`) depends on
the notation the datum was read from. What a notation makes of the end of a hash, on the other hand,
is known to its reader alone, and the schema only tells it where hashes are (`Schema.shape`).

The second half reads the single values that parts are made of: integers of some width, hashes, byte
strings.
-/

namespace HeaderChain

/-- What becomes of list items that nobody asks for. -/
inductive Surplus
  | refused
  | ignored
deriving DecidableEq

/-- The names of the parts of a value, and what each of them looks like. -/
structure Schema where
  parts : List (String × Shape)
  /-- Whether other names are refused. -/
  strict : Bool := false
  /-- Whether every part may be absent, in a list as well as in a map. -/
  defaults : Bool := false

namespace Schema

/-- The names of the parts, in order. -/
def names (s : Schema) : List String := s.parts.map (·.1)

/-- What is looked for where the whole value may stand. -/
def shape (s : Schema) : Shape := .parts s.parts

/-- The part of a name, if it occurs at most once. -/
def part? (entries : List (Bytes × Datum)) (name : String) : Option (Option Datum) :=
  match entries.filter fun e => e.1 == Bytes.ofString name with
  | [] => some none
  | [(_, d)] => some (some d)
  | _ => none

/-- Whether a map may have an entry of this name. -/
def admits (s : Schema) (name : Bytes) : Bool :=
  s.names.any (fun n => Bytes.ofString n == name) || (!s.strict && Bytes.isText name)

/-- The parts of a datum, in the order of the schema. -/
def parts? (s : Schema) (surplus : Surplus) : Datum → Option (List (Option Datum))
  | .map entries =>
    if entries.all fun e => s.admits e.1 then s.names.mapM (part? entries) else none
  | .list items =>
    let given := (items.take s.names.length).map some
    if s.names.length < items.length ∧ surplus = .refused then none
    else if items.length < s.names.length ∧ ¬ s.defaults then none
    else some (given ++ List.replicate (s.names.length - items.length) none)
  | _ => none

/-- The map in which these are the parts, in order. -/
def toMap (s : Schema) (parts : List Datum) : Datum :=
  .map ((s.names.map Bytes.ofString).zip parts)

end Schema

namespace Part

/-- A part that must be there. -/
def required (read : Datum → Option α) (part : Option Datum) : Option α := part.bind read

/-- A part that is nothing if it is absent. -/
def optional (read : Datum → Option α) : Option Datum → Option (Option α)
  | none => some none
  | some d => d.option? read

/-- A part that stands for `default` if it is absent. -/
def orElse (default : α) (read : Datum → Option α) : Option Datum → Option α
  | none => some default
  | some d => read d

end Part

/-! ### Single values -/

namespace Datum

/-- A byte, written as a number. -/
def ofUInt8 (x : UInt8) : Datum := .nat x.toNat

/-- A word of 32 bits, written as a number. -/
def ofUInt32 (x : UInt32) : Datum := .nat x.toNat

/-- A word of 64 bits, written as a number. -/
def ofUInt64 (x : UInt64) : Datum := .nat x.toNat

/-- A weight, written as a number. -/
def ofWeight (x : Weight) : Datum := .nat x.toNat

/-- Reads a word of 32 bits. -/
def uint32? (d : Datum) : Option UInt32 := (d.natBelow? UInt32.size).map UInt32.ofNat

/-- Reads a word of 64 bits. -/
def uint64? (d : Datum) : Option UInt64 := (d.natBelow? UInt64.size).map UInt64.ofNat

/-- Reads a weight. -/
def weight? (d : Datum) : Option Weight := (d.natBelow? Weight.size).map (BitVec.ofNat 128)

/-- A byte string, written in hexadecimal with its mark. -/
def ofBytes (b : Bytes) : Datum := .text (Hex.marked b)

/-- Reads a byte string: its hexadecimal form, or a list of bytes. -/
def bytes? : Datum → Option Bytes
  | .text content => Hex.read? content
  | .list items => items.mapM byte?
  | _ => none

/-- A hash, written in hexadecimal with its mark. -/
def ofHash (h : Hash) : Datum := .ofBytes h.toBytes

/-- Whether list items may follow the last byte of a hash: where surplus items are ignored, unless
the first of them is one byte more. -/
def mayFollow (surplus : Surplus) : List Datum → Bool
  | [] => true
  | d :: _ => surplus == .ignored && d.byte?.isNone

/-- Reads a hash: its hexadecimal form, or a list of thirty-two bytes. -/
def hash? (surplus : Surplus) : Datum → Option Hash
  | .text content => (Hex.read? content).bind Hash.ofBytes?
  | .list items =>
    if mayFollow surplus (items.drop 32) then
      ((items.take 32).mapM byte?).bind Hash.ofBytes?
    else none
  | _ => none

end Datum

end HeaderChain
