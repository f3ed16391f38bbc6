import HeaderChain.Toml.Scalar

/-!
# Strings and names of TOML

Strings come in four forms: with escapes or literal, on one line or on several. Each reader starts
after the opening quotes and gives the content and what follows the closing ones.

In a string of several lines, a line ends in a newline character however it is spelt, and one or two
quotes may stand in front of the closing three. A backslash at the end of a line takes the line
break with it, and all blanks and line breaks after that.
-/

namespace HeaderChain.Toml

open Ascii

/-- Whether a byte may stand in a string or a comment: no control character but a tab. -/
def isPlain (b : UInt8) : Bool := b = tab || (space ≤ b && b ≠ 0x7F)

/-- Whether a byte is a blank within a line. -/
def isBlank (b : UInt8) : Bool := b = space || b = tab

/-- The rest after blanks. -/
def skipBlanks (bytes : Bytes) : Bytes := bytes.dropWhile isBlank

/-- Reads the end of a line. -/
def readNewline : Bytes → Option (Unit × Bytes)
  | 0x0A :: rest => some ((), rest)
  | 0x0D :: 0x0A :: rest => some ((), rest)
  | _ => none

/-- The bytes of the character that a backslash and a letter stand for. -/
def escaped? (b : UInt8) : Option Bytes :=
  if b = quote ∨ b = backslash then some [b]
  else if b = letterB then some [0x08]
  else if b = letterT then some [tab]
  else if b = letterN then some [newline]
  else if b = letterF then some [0x0C]
  else if b = letterR then some [carriageReturn]
  else none

/-- The bytes of the character whose number these digits spell. -/
def scalar? (digits : Bytes) : Option Bytes :=
  let n := valueOf 16 digits
  if digits.all isHexDigit ∧ (n < 0xD800 ∨ (0xE000 ≤ n ∧ n < 0x110000)) then some (utf8 n) else none

/-- Puts bytes in front of what has been read. -/
def prepend (front : Bytes) (r : Option (Bytes × Bytes)) : Option (Bytes × Bytes) :=
  r.map fun (bs, rest) => (front ++ bs, rest)

/-- Whether only blanks stand before the end of the line. -/
def endsLine (bytes : Bytes) : Bool := (readNewline (skipBlanks bytes)).isSome

/-- Reads a string of one line with escapes. -/
def readBasic : Bytes → Option (Bytes × Bytes)
  | 0x22 :: rest => some ([], rest)
  -- a backslash and "u" or "U" stand before the digits of a code point, four or eight of them
  | 0x5C :: 0x75 :: a :: b :: c :: d :: rest => do
    prepend (← scalar? [a, b, c, d]) (readBasic rest)
  | 0x5C :: 0x55 :: a :: b :: c :: d :: e :: f :: g :: h :: rest => do
    prepend (← scalar? [a, b, c, d, e, f, g, h]) (readBasic rest)
  | 0x5C :: b :: rest => do prepend (← escaped? b) (readBasic rest)
  | b :: rest => if isPlain b ∧ b ≠ backslash then prepend [b] (readBasic rest) else none
  | [] => none

/-- Reads a literal string of one line. -/
def readLiteral : Bytes → Option (Bytes × Bytes)
  | 0x27 :: rest => some ([], rest)
  | b :: rest => if isPlain b then prepend [b] (readLiteral rest) else none
  | [] => none

/-- Reads a string of several lines with escapes; `skipping` after a backslash at the end of a
line. -/
def readBasicLines (skipping : Bool) : Bytes → Option (Bytes × Bytes)
  | 0x0A :: rest =>
    if skipping then readBasicLines true rest else prepend [newline] (readBasicLines false rest)
  | 0x0D :: 0x0A :: rest =>
    if skipping then readBasicLines true rest else prepend [newline] (readBasicLines false rest)
  -- the last three quotes in a row close the string
  | 0x22 :: 0x22 :: 0x22 :: 0x22 :: 0x22 :: rest => some ([quote, quote], rest)
  | 0x22 :: 0x22 :: 0x22 :: 0x22 :: rest => some ([quote], rest)
  | 0x22 :: 0x22 :: 0x22 :: rest => some ([], rest)
  | 0x5C :: 0x75 :: a :: b :: c :: d :: rest => do
    prepend (← scalar? [a, b, c, d]) (readBasicLines false rest)
  | 0x5C :: 0x55 :: a :: b :: c :: d :: e :: f :: g :: h :: rest => do
    prepend (← scalar? [a, b, c, d, e, f, g, h]) (readBasicLines false rest)
  | 0x5C :: b :: rest =>
    if endsLine (b :: rest) then readBasicLines true (b :: rest)
    else do prepend (← escaped? b) (readBasicLines false rest)
  | b :: rest =>
    if skipping ∧ isBlank b then readBasicLines true rest
    else if isPlain b ∧ b ≠ backslash then prepend [b] (readBasicLines false rest)
    else none
  | [] => none

/-- Reads a literal string of several lines. -/
def readLiteralLines : Bytes → Option (Bytes × Bytes)
  | 0x0A :: rest => prepend [newline] (readLiteralLines rest)
  | 0x0D :: 0x0A :: rest => prepend [newline] (readLiteralLines rest)
  | 0x27 :: 0x27 :: 0x27 :: 0x27 :: 0x27 :: rest => some ([apostrophe, apostrophe], rest)
  | 0x27 :: 0x27 :: 0x27 :: 0x27 :: rest => some ([apostrophe], rest)
  | 0x27 :: 0x27 :: 0x27 :: rest => some ([], rest)
  | b :: rest => if isPlain b then prepend [b] (readLiteralLines rest) else none
  | [] => none

/-- The rest after a line break that stands right behind opening quotes. -/
def skipFirstNewline (bytes : Bytes) : Bytes :=
  match readNewline bytes with
  | some ((), rest) => rest
  | none => bytes

/-- **Reads a string** of any form, quotes included. -/
def readString : Bytes → Option (Bytes × Bytes)
  | 0x22 :: 0x22 :: 0x22 :: rest => readBasicLines false (skipFirstNewline rest)
  | 0x27 :: 0x27 :: 0x27 :: rest => readLiteralLines (skipFirstNewline rest)
  | 0x22 :: rest => readBasic rest
  | 0x27 :: rest => readLiteral rest
  | _ => none

/-! ### Names -/

/-- Whether a byte may stand in a name without quotes. -/
def isBare (b : UInt8) : Bool := isLetter b || isDigit b || b = underscore || b = minus

/-- Reads a name, bare or in quotes. -/
def readName : Bytes → Option (Bytes × Bytes)
  | 0x22 :: rest => readBasic rest
  | 0x27 :: rest => readLiteral rest
  | bytes =>
    let name := bytes.takeWhile isBare
    if name.isEmpty then none else some (name, bytes.dropWhile isBare)

/-- How many names a dotted name may have. -/
def maxNames : Nat := 79

/-- Reads names with dots between them, at most so many. -/
def readPath : Nat → Bytes → Option (List Bytes × Bytes)
  | 0, _ => none
  | most + 1, bytes => do
    let (name, rest) ← readName (skipBlanks bytes)
    match skipBlanks rest with
    | 0x2E :: rest =>
      let (path, rest) ← readPath most rest
      return (name :: path, rest)
    | rest => return ([name], rest)

end HeaderChain.Toml
