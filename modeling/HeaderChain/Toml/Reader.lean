import HeaderChain.Toml.Table
import HeaderChain.Toml.Text

/-!
# Reading TOML text

`Toml.read` is what a TOML document says, if it is one: a map of its tables and values.

Values nest, but only so deep (`maxDepth`): a reader of values is told how much room is left for
lists and tables inside each other. The readers of values and of lines are given more steps than the
bytes they start with allow, since each of them passes over one byte at least.
-/

namespace HeaderChain.Toml

open Ascii

/-- The rest after blanks, comments and ends of lines. A comment that does not run to the end of its
line stops it. Inside a comment, `comment` is where that starts. -/
def skipGaps (comment : Option Bytes) : Bytes → Bytes
  | 0x0A :: rest => skipGaps none rest
  | 0x0D :: 0x0A :: rest => skipGaps none rest
  | b :: rest =>
    match comment with
    | some start => if isPlain b then skipGaps comment rest else start
    | none =>
      if isBlank b then skipGaps none rest
      else if b = hash then skipGaps (some (b :: rest)) rest
      else b :: rest
  | [] => comment.getD []

/-! ### Values -/

/-- How many lists and tables may stand inside each other. -/
def maxDepth : Nat := 79

mutual

/-- Reads a value, in which `room` lists and tables may stand inside each other. -/
def readValue (steps room : Nat) (bytes : Bytes) : Option (Datum × Bytes) :=
  match steps with
  | 0 => none
  | steps + 1 =>
    match bytes, room with
    -- an opening bracket: a list
    | 0x5B :: _, 0 => none
    | 0x5B :: rest, room + 1 => do
      let (items, rest) ← readItems steps room (skipGaps none rest)
      return (.list items, rest)
    -- an opening brace: a table on one line
    | 0x7B :: _, 0 => none
    | 0x7B :: rest, room + 1 =>
      match skipBlanks rest with
      | 0x7D :: rest => some (.map [], rest)
      | rest => do
        let (entries, rest) ← readPairs steps room [] rest
        return (entries.toDatum, rest)
    -- a quote of either kind
    | 0x22 :: _, _ | 0x27 :: _, _ => do
      let (content, rest) ← readString bytes
      return (.text content, rest)
    -- the words for the two flags
    | 0x74 :: 0x72 :: 0x75 :: 0x65 :: rest, _ => some (.flag true, rest)
    | 0x66 :: 0x61 :: 0x6C :: 0x73 :: 0x65 :: rest, _ => some (.flag false, rest)
    | bytes, _ => numeric? bytes

/-- Reads the items of a list from the first one on, and its end. A comma may follow the last
item. -/
def readItems (steps room : Nat) (bytes : Bytes) : Option (List Datum × Bytes) :=
  match steps with
  | 0 => none
  | steps + 1 =>
    match bytes with
    | 0x5D :: rest => some ([], rest)
    | bytes => do
      let (d, rest) ← readValue steps room bytes
      match skipGaps none rest with
      -- after a comma, the closing bracket may come as well as a further item
      | 0x2C :: rest =>
        let (items, rest) ← readItems steps room (skipGaps none rest)
        return (d :: items, rest)
      | 0x5D :: rest => return ([d], rest)
      | _ => none

/-- Reads the entries of a table on one line from the next one on, and its end. -/
def readPairs (steps room : Nat) (entries : Entries) (bytes : Bytes) : Option (Entries × Bytes) :=
  match steps with
  | 0 => none
  | steps + 1 => do
    let (path, rest) ← readPath maxNames bytes
    let ((), rest) ← exactly equals rest
    let (d, rest) ← readValue steps room (skipBlanks rest)
    let entries ← entries.assign d path
    match skipBlanks rest with
    -- after a comma, only a further entry may come
    | 0x2C :: rest => readPairs steps room entries rest
    | 0x7D :: rest => return (entries, rest)
    | _ => none

end

/-- Steps enough for any value in a text: no more than two readers start at the same byte. -/
def valueSteps (text : Bytes) : Nat := 2 * text.length + 2

/-! ### Documents -/

/-- A document that has been read in part. -/
structure Document where
  entries : Entries := []
  /-- The name in the last header, where values go. -/
  current : List Bytes := []

/-- The rest after a comment, which ends before the end of the line, if one starts here. -/
def skipComment : Bytes → Bytes
  | 0x23 :: rest => rest.dropWhile isPlain
  | bytes => bytes

/-- The rest after the end of a line, with a comment in front of it perhaps. -/
def endLine? (bytes : Bytes) : Option Bytes :=
  match skipComment (skipBlanks bytes) with
  | [] => some []
  | rest => (readNewline rest).map (·.2)

/-- Reads one line that says something, and a value in so many steps at most. -/
def readLine (steps : Nat) (doc : Document) (bytes : Bytes) : Option (Document × Bytes) := do
  match bytes with
  -- two opening brackets: the header of one more table of a list
  | 0x5B :: 0x5B :: rest =>
    let (path, rest) ← readPath maxNames rest
    let ((), rest) ← exactly closeBracket rest
    let ((), rest) ← exactly closeBracket rest
    return (⟨← doc.entries.declare Entries.openItem path, path⟩, ← endLine? rest)
  -- one opening bracket: the header of a table
  | 0x5B :: rest =>
    let (path, rest) ← readPath maxNames rest
    let ((), rest) ← exactly closeBracket rest
    return (⟨← doc.entries.declare Entries.openTable path, path⟩, ← endLine? rest)
  -- anything else: a value for a name
  | bytes =>
    let (path, rest) ← readPath maxNames bytes
    let ((), rest) ← exactly equals rest
    let (d, rest) ← readValue steps maxDepth (skipBlanks rest)
    let entries ← doc.entries.modifyAt (Entries.assign d path) doc.current
    return ({ doc with entries }, ← endLine? rest)

/-- Reads lines, at most `most` of them and each value in `steps`, to the end of the text. -/
def readLines (steps : Nat) : Nat → Document → Bytes → Option Document
  | 0, _, _ => none
  | most + 1, doc, bytes =>
    match skipGaps none bytes with
    | [] => some doc
    -- a comment that the text ends in
    | 0x23 :: rest => if rest.all isPlain then some doc else none
    | bytes => do
      let (doc, rest) ← readLine steps doc bytes
      readLines steps most doc rest

/-- The rest after a mark of the byte order, if one stands here. -/
def skipMark : Bytes → Bytes
  | 0xEF :: 0xBB :: 0xBF :: rest => rest
  | bytes => bytes

/-- **What a TOML document says.** -/
def read (text : String) : Option Datum :=
  let bytes := skipMark (Bytes.ofString text)
  (readLines (valueSteps bytes) (bytes.length + 1) {} bytes).map (·.entries.toDatum)

end HeaderChain.Toml
