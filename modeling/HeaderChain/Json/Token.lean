import HeaderChain.Ascii

/-!
# The tokens of JSON text

A scanner that goes through the bytes one at a time. `Scan` is where it stands: in the gap between
two tokens, or inside a word, a number or a string, with what it has collected so far. `Scan.step`
reads one byte and gives the tokens that are complete with it: one at most for most bytes, and two
where a bracket or a comma ends a number. `Scan.finish` reads the end of the text.

A string is collected as `Piece`s, bytes as they stand and the 16-bit units of `\u` escapes.
`Piece.assemble` puts them together: two units that form a surrogate pair give one character, and a
surrogate alone gives three bytes that are part of no UTF-8 text, so that a text that holds one is
refused where a text is asked for and passes where nobody looks.
-/

namespace HeaderChain.Json

open Ascii

/-- The token a JSON text is made of. -/
inductive Token
  | openMap | closeMap | openList | closeList | colon | comma
  | null
  | flag (value : Bool)
  | number (spelling : Bytes)
  | text (content : Bytes)
deriving DecidableEq

/-! ### Words -/

/-- A word is told by its first letter: what is left of it then, and what it says. -/
def word? (b : UInt8) : Option (Bytes × Token) :=
  if b = letterN then some ([letterU, 0x6C, 0x6C], .null)
  else if b = letterT then some ([letterR, letterU, letterE], .flag true)
  else if b = letterF then some ([0x61, 0x6C, 0x73, letterE], .flag false)
  else none

/-! ### Strings -/

/-- A part of a string: a byte of UTF-8 or an escaped 16-bit unit. -/
inductive Piece
  | byte (b : UInt8)
  | unit (u : Nat)

/-- Whether a 16-bit unit is the first half of a surrogate pair. -/
def isLeading (u : Nat) : Bool := 0xD800 ≤ u && u < 0xDC00

/-- Whether a 16-bit unit is the second half of a surrogate pair. -/
def isTrailing (u : Nat) : Bool := 0xDC00 ≤ u && u < 0xE000

/-- The code point that a surrogate pair stands for. -/
def pairValue (lead trail : Nat) : Nat := 0x10000 + (lead - 0xD800) * 0x400 + (trail - 0xDC00)

/-- The bytes a string stands for. -/
def Piece.assemble : List Piece → Bytes
  | [] => []
  | .byte b :: rest => b :: assemble rest
  | .unit u :: .unit v :: rest =>
    if isLeading u && isTrailing v then utf8 (pairValue u v) ++ assemble rest
    else utf8 u ++ assemble (.unit v :: rest)
  | .unit u :: rest => utf8 u ++ assemble rest

/-- Where a string stands: after a plain part, after a backslash, or inside the four digits of a
unit of which some have been read. -/
inductive Escape
  | plain
  | slash
  | digits (read : Nat) (value : Nat)

/-- The character that a backslash and a letter stand for. -/
def escaped? (b : UInt8) : Option UInt8 :=
  if b = quote ∨ b = backslash ∨ b = slash then some b
  else if b = letterB then some 0x08
  else if b = letterF then some 0x0C
  else if b = letterN then some newline
  else if b = letterR then some carriageReturn
  else if b = letterT then some tab
  else none

/-! ### Numbers -/

/-- The part of a number that was read last. -/
inductive NumberPart
  | sign | zero | integer | point | fraction | mark | markSign | exponent
deriving DecidableEq

/-- The part that a number starts with. -/
def NumberPart.first? (b : UInt8) : Option NumberPart :=
  if b = minus then some sign
  else if b = Ascii.zero then some zero
  else if isDigit b then some integer
  else none

/-- Whether a number may end here. -/
def NumberPart.isEnd : NumberPart → Bool
  | zero | integer | fraction | exponent => true
  | sign | point | mark | markSign => false

/-- The part of a number that a byte after this part belongs to, if the number goes on with it. -/
def NumberPart.next? (p : NumberPart) (b : UInt8) : Option NumberPart :=
  match p with
  | sign => if b = Ascii.zero then some zero else if isDigit b then some integer else none
  | zero => afterInteger b
  | integer => if isDigit b then some integer else afterInteger b
  | point => if isDigit b then some fraction else none
  | fraction => if isDigit b then some fraction else afterFraction b
  | mark =>
    if b = plus ∨ b = minus then some markSign else if isDigit b then some exponent else none
  | markSign => if isDigit b then some exponent else none
  | exponent => if isDigit b then some exponent else none
where
  /-- A decimal point or an exponent may follow an integer. -/
  afterInteger (b : UInt8) : Option NumberPart :=
    if b = dot then some point else afterFraction b
  /-- An exponent may follow a fraction. -/
  afterFraction (b : UInt8) : Option NumberPart :=
    if b = letterE ∨ b = capitalE then some mark else none

/-! ### The scanner -/

/-- Where a scanner stands. What a number and a string have collected is kept newest first. -/
inductive Scan
  | gap
  | word (rest : Bytes) (token : Token)
  | number (part : NumberPart) (spelling : Bytes)
  | string (pieces : List Piece) (escape : Escape)

/-- Whether a byte may stand between tokens: a space, a tab, or the end of a line. -/
def isBlank (b : UInt8) : Bool := b = space || b = tab || b = newline || b = carriageReturn

namespace Scan

/-- Reads a byte between two tokens. -/
def stepGap (b : UInt8) : Option (List Token × Scan) :=
  if isBlank b then some ([], gap)
  else if b = openBrace then some ([.openMap], gap)
  else if b = closeBrace then some ([.closeMap], gap)
  else if b = openBracket then some ([.openList], gap)
  else if b = closeBracket then some ([.closeList], gap)
  else if b = colon then some ([.colon], gap)
  else if b = comma then some ([.comma], gap)
  else if b = quote then some ([], string [] .plain)
  else
    match NumberPart.first? b, word? b with
    | some part, _ => some ([], number part [b])
    | none, some (rest, token) => some ([], word rest token)
    | none, none => none

/-- Reads a byte inside a string. -/
def stepString (pieces : List Piece) (b : UInt8) : Escape → Option (List Token × Scan)
  | .plain =>
    if b = quote then some ([.text (Piece.assemble pieces.reverse)], gap)
    else if b = backslash then some ([], string pieces .slash)
    else if b < 0x20 then none
    else some ([], string (.byte b :: pieces) .plain)
  | .slash =>
    if b = letterU then some ([], string pieces (.digits 0 0))
    else (escaped? b).map fun c => ([], string (.byte c :: pieces) .plain)
  | .digits read value =>
    (Hex.value? b).map fun d =>
      if read < 3 then ([], string pieces (.digits (read + 1) (16 * value + d.toNat)))
      else ([], string (.unit (16 * value + d.toNat) :: pieces) .plain)

/-- Reads one byte: the tokens that are complete with it, and where the scanner stands then. -/
def step (s : Scan) (b : UInt8) : Option (List Token × Scan) :=
  match s with
  | gap => stepGap b
  | word [] _ => none
  | word (c :: rest) token =>
    if b = c then some (if rest.isEmpty then ([token], gap) else ([], word rest token)) else none
  | number part spelling =>
    match part.next? b with
    | some next => some ([], number next (b :: spelling))
    | none =>
      -- a number ends where it does not go on, and the byte belongs to what follows it
      if part.isEnd then
        (stepGap b).map fun (tokens, s) => (.number spelling.reverse :: tokens, s)
      else none
  | string pieces escape => stepString pieces b escape

/-- The tokens that are complete where the text ends, unless one is left open. -/
def finish : Scan → Option (List Token)
  | gap => some []
  | number part spelling => if part.isEnd then some [.number spelling.reverse] else none
  | word .. | string .. => none

end Scan

end HeaderChain.Json
