import HeaderChain.Datum

/-!
# Tables of TOML

The tree that the lines of a document build. A table remembers how it came about (`Origin`), since
that decides what may be added to it: a name is given a value only once, a table has only one
header, and a dotted name leads through no table but those that dotted names have made.
-/

namespace HeaderChain.Toml

/-- How a table came about. -/
inductive Origin
  /-- By a header of its own. -/
  | header
  /-- As a part of the name in another header. -/
  | implied
  /-- As a part of a dotted name. -/
  | dotted
deriving DecidableEq

/-- What stands under a name. -/
inductive Node
  | value (d : Datum)
  | table (origin : Origin) (entries : List (Bytes × Node))
  /-- A list of tables that have the same header; the last table comes first. -/
  | series (items : List (List (Bytes × Node)))

/-- The contents of a table. The name that was given last comes first. -/
abbrev Entries := List (Bytes × Node)

namespace Entries

/-- What stands under a name. -/
def find? (es : Entries) (name : Bytes) : Option Node := (List.find? (·.1 == name) es).map (·.2)

/-- Puts a node under a name that nothing stands under. -/
def add (es : Entries) (name : Bytes) (node : Node) : Entries := (name, node) :: es

/-- Puts a node under a name, in place of what stands there. -/
def replace (es : Entries) (name : Bytes) (node : Node) : Entries :=
  es.map fun e => if e.1 == name then (name, node) else e

/-- Gives a value to a dotted name. -/
def assign (d : Datum) : List Bytes → Entries → Option Entries
  | [], _ => none
  | [name], es => if (es.find? name).isSome then none else some (es.add name (.value d))
  | name :: path, es =>
    match es.find? name with
    | none => do return es.add name (.table .dotted (← assign d path []))
    | some (.table .dotted sub) => do
      return es.replace name (.table .dotted (← assign d path sub))
    | some _ => none

/-- Changes the table of a name; of a list of tables, the last one. -/
def modifyAt (change : Entries → Option Entries) : List Bytes → Entries → Option Entries
  | [], es => change es
  | name :: path, es =>
    match es.find? name with
    | some (.table origin sub) => do
      return es.replace name (.table origin (← modifyAt change path sub))
    | some (.series (last :: items)) => do
      return es.replace name (.series ((← modifyAt change path last) :: items))
    | _ => none

/-- Changes what stands under the last part of the name in a header. The tables of the other parts
come about if they are not there. -/
def declare (change : Bytes → Entries → Option Entries) : List Bytes → Entries → Option Entries
  | [], _ => none
  | [name], es => change name es
  | name :: path, es =>
    match es.find? name with
    | none => do return es.add name (.table .implied (← declare change path []))
    | some (.table origin sub) => do
      return es.replace name (.table origin (← declare change path sub))
    | some (.series (last :: items)) => do
      return es.replace name (.series ((← declare change path last) :: items))
    | _ => none

/-- The table of a header comes about. -/
def openTable (name : Bytes) (es : Entries) : Option Entries :=
  match es.find? name with
  | none => some (es.add name (.table .header []))
  | some (.table .implied sub) => some (es.replace name (.table .header sub))
  | some _ => none

/-- One more table of a list of tables comes about. -/
def openItem (name : Bytes) (es : Entries) : Option Entries :=
  match es.find? name with
  | none => some (es.add name (.series [[]]))
  | some (.series items) => some (es.replace name (.series ([] :: items)))
  | some _ => none

end Entries

mutual

/-- What a node says. -/
def Node.toDatum : Node → Datum
  | .value d => d
  | .table _ entries => .map (entriesToData entries).reverse
  | .series items => .list (seriesToData items).reverse

/-- What the entries of a table say, in the order in which they are kept. -/
def entriesToData : List (Bytes × Node) → List (Bytes × Datum)
  | [] => []
  | (name, node) :: rest => (name, node.toDatum) :: entriesToData rest

/-- What the tables of a list say, in the order in which they are kept. -/
def seriesToData : List (List (Bytes × Node)) → List Datum
  | [] => []
  | entries :: rest => .map (entriesToData entries).reverse :: seriesToData rest

end

/-- What a document or a table says. -/
def Entries.toDatum (es : Entries) : Datum := .map (entriesToData es).reverse

end HeaderChain.Toml
