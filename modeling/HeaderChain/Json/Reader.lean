import HeaderChain.Datum
import HeaderChain.Shape
import HeaderChain.Json.Trailing

/-!
# Reading JSON text

`Json.read` goes once through the bytes of a text. The scanner makes tokens of them (`Scan.step`),
and `Build.take` fits each token into the tree: the parts that are still open lie on a stack,
innermost first, and `Stage` says what may come next. Nothing but blanks may follow a complete
datum, since no token is taken in the stage `done`.

A reader is told what it looks for (`Shape`), and each open part knows its own shape. It makes a
difference in one place only: where a comma follows the thirty-two bytes of a hash, the bytes of the
text go to `Trailing.step` until the list ends.

Each byte is read once and by structural recursion, so a text is read to its end whatever it says.
-/

namespace HeaderChain.Json

/-- A part of a document that is still open. What has been read of it is kept newest first. -/
inductive Frame
  | list (shape : Shape) (items : List Datum)
  | map (shape : Shape) (entries : List (Bytes × Datum))
  /-- A map whose last name still lacks its value. -/
  | entry (shape : Shape) (entries : List (Bytes × Datum)) (name : Bytes)

/-- **What may come next** in a document that has been read in part. -/
inductive Stage
  /-- A value, where something of this shape is looked for. -/
  | value (shape : Shape)
  /-- The first item of a list, or its end. -/
  | firstItem
  /-- The first name of a map, or its end. -/
  | firstName
  | name
  | colon
  /-- A comma, or the end of the innermost part. -/
  | separator
  /-- What may follow the bytes of a hash, of which this has been found. -/
  | trailing (found : Trailing)
  /-- Nothing: the document says this. -/
  | done (d : Datum)

/-- A document that has been read in part. -/
structure Build where
  stack : List Frame
  stage : Stage

namespace Build

/-- A document of which nothing has been read, where something of this shape is looked for. -/
def start (shape : Shape) : Build := ⟨[], .value shape⟩

/-- Puts a complete datum in its place. -/
def close (d : Datum) : List Frame → Option Build
  | [] => some ⟨[], .done d⟩
  | .list shape items :: rest => some ⟨.list shape (d :: items) :: rest, .separator⟩
  | .entry shape entries name :: rest =>
    some ⟨.map shape ((name, d) :: entries) :: rest, .separator⟩
  | .map _ _ :: _ => none

/-- What a number says: digits alone are a natural number. -/
def number (spelling : Bytes) : Datum :=
  if spelling.all Ascii.isDigit then .nat (Ascii.valueOf 10 spelling) else .other spelling

/-- Takes a token where a value may stand. -/
def takeValue (shape : Shape) (stack : List Frame) : Token → Option Build
  | .openMap => some ⟨.map shape [] :: stack, .firstName⟩
  | .openList => some ⟨.list shape [] :: stack, .firstItem⟩
  | .null => close .null stack
  | .flag b => close (.flag b) stack
  | .number spelling => close (number spelling) stack
  | .text content => close (.text content) stack
  | .closeMap | .closeList | .colon | .comma => none

/-- What may come after a comma in a list. -/
def afterComma (shape : Shape) (items : List Datum) : Stage :=
  if shape.isComplete items then .trailing .start else .value (shape.itemAfter items)

/-- Takes a token, if it may come here. -/
def take (b : Build) (t : Token) : Option Build :=
  match b.stage, b.stack, t with
  | .value shape, stack, t => takeValue shape stack t
  | .firstItem, .list _ _ :: rest, .closeList => close (.list []) rest
  | .firstItem, .list shape items :: rest, t =>
    takeValue (shape.itemAfter items) (.list shape items :: rest) t
  | .firstName, .map _ _ :: rest, .closeMap => close (.map []) rest
  | .firstName, .map shape entries :: rest, .text name =>
    some ⟨.entry shape entries name :: rest, .colon⟩
  | .name, .map shape entries :: rest, .text name =>
    some ⟨.entry shape entries name :: rest, .colon⟩
  | .colon, .entry shape entries name :: rest, .colon =>
    some ⟨.entry shape entries name :: rest, .value (shape.part name)⟩
  | .separator, .list shape items :: rest, .comma =>
    some ⟨.list shape items :: rest, afterComma shape items⟩
  | .separator, .list _ items :: rest, .closeList => close (.list items.reverse) rest
  | .separator, .map shape entries :: rest, .comma => some ⟨.map shape entries :: rest, .name⟩
  | .separator, .map _ entries :: rest, .closeMap => close (.map entries.reverse) rest
  | _, _, _ => none

/-- Takes tokens in turn. -/
def takeAll (b : Build) (ts : List Token) : Option Build := ts.foldlM take b

/-- Takes a byte of what follows the bytes of a hash. All of it says nothing but that the list
ends. -/
def takeTrailing (stack : List Frame) (found : Trailing) (b : UInt8) : Option Build :=
  match found.step b with
  | none => none
  | some .ended => take ⟨stack, .separator⟩ .closeList
  | some found => some ⟨stack, .trailing found⟩

end Build

/-- A text that has been read in part. -/
structure Machine where
  scan : Scan
  build : Build

namespace Machine

/-- A text of which nothing has been read. -/
def start (shape : Shape) : Machine := ⟨.gap, .start shape⟩

/-- Takes a byte, if it may come here. -/
def step (m : Machine) (b : UInt8) : Option Machine :=
  match m.build.stage with
  | .trailing found => (Build.takeTrailing m.build.stack found b).map fun build => ⟨.gap, build⟩
  | _ =>
    match m.scan.step b with
    | none => none
    | some (tokens, scan) => (m.build.takeAll tokens).map fun build => ⟨scan, build⟩

/-- Takes bytes in turn. -/
def run (m : Machine) (text : Bytes) : Option Machine := text.foldlM step m

/-- Reads the end of the text: what it says, if it is complete. -/
def finish (m : Machine) : Option Datum :=
  match m.scan.finish with
  | none => none
  | some tokens =>
    match m.build.takeAll tokens with
    | some ⟨_, .done d⟩ => some d
    | _ => none

end Machine

/-- What a JSON text says, if it is one, to a reader who looks for something of this shape. -/
def read (shape : Shape) (text : Bytes) : Option Datum :=
  ((Machine.start shape).run text).bind Machine.finish

end HeaderChain.Json
