import HeaderChain.Json.Token

/-!
# What follows the bytes of a hash

A hash may be written as a list of its thirty-two bytes. Where a comma follows the last of them, one
byte more is looked for, and finding one is an error. If there is none, it does not matter what kept
it from being read but only where reading broke off: nothing but the end of the list may follow
there. So the list may go on with one item that is no byte, and this item need not even be whole.

`Trailing.step` reads one byte of what follows the comma. Where reading breaks off depends on what
has been found:

* in a word, a sign, the mark of an exponent or an escape, behind the first byte that does not fit,
  and likewise behind a control character in a string;
* after a decimal point, in front of the first byte if that is no digit;
* in an exponent that is too large, behind the digit that makes it so;
* in a string, behind the four bytes after `\u` if they are no digits, or if they are one half of a
  surrogate pair where the other half has to stand;
* behind the word, number or string if it is whole, and at once if the list ends here.

A number from 0 to 255 is a byte, and a list or a map is not read into: all of these are refused.
-/

namespace HeaderChain.Json

open Ascii

/-- Where a string stands that is looked at only for its end. -/
inductive StringPlace
  | plain
  /-- After a backslash. -/
  | slash
  /-- After `\u` and the bytes `read`, newest first; `paired` if the first half of a surrogate pair
  stands in front. -/
  | digits (paired : Bool) (read : Bytes)
  /-- After the first half of a surrogate pair. -/
  | half
  /-- After the first half of a surrogate pair and a backslash. -/
  | halfSlash

/-- What has been found after the thirty-two bytes of a hash and a comma. -/
inductive Trailing
  /-- Nothing but blanks. -/
  | start
  /-- A word, of which this is still to come. -/
  | word (rest : Bytes)
  /-- A number, with what has been read of it newest first. -/
  | number (part : NumberPart) (spelling : Bytes)
  /-- A number that is too large as soon as its exponent is. The exponent has this value so far. -/
  | exponent (value : Nat)
  | string (place : StringPlace)
  /-- The place where reading broke off. -/
  | stopped
  /-- The end of the list. -/
  | ended

namespace Trailing

/-- The largest exponent that is read. -/
def maxExponent : Nat := Nat.pow 2 31 - 1

/-- Whether a number grows with its exponent, which starts next: zero does not, and a minus in front
of the exponent makes a number small. The number is spelt newest first. -/
def grows (spelling : Bytes) : Bool :=
  spelling.head? != some minus && spelling.any fun b => isDigit b && b != zero

/-- Whether a number is a byte. The number is spelt newest first. -/
def isByte (spelling : Bytes) : Bool :=
  spelling.all isDigit && valueOf 10 spelling.reverse < UInt8.size

/-- Reads a byte where the item may start. -/
def stepStart (b : UInt8) : Option Trailing :=
  if isBlank b then some start
  else if b = closeBracket then some ended
  else if b = quote then some (string .plain)
  else
    match NumberPart.first? b, word? b with
    | some part, _ => some (number part [b])
    | none, some (rest, _) => some (word rest)
    | none, none => none

/-- Reads a byte where the list has to end. -/
def stepStopped (b : UInt8) : Option Trailing :=
  if isBlank b then some stopped else if b = closeBracket then some ended else none

/-- Reads a byte of an exponent, or what follows it. -/
def stepExponent (value : Nat) (b : UInt8) : Option Trailing :=
  if isDigit b then
    let value := 10 * value + valueOf 10 [b]
    some (if maxExponent < value then stopped else exponent value)
  else stepStopped b

/-- Reads a byte of a number, or what follows it. -/
def stepNumber (part : NumberPart) (spelling : Bytes) (b : UInt8) : Option Trailing :=
  match part.next? b, part with
  | some .exponent, .mark | some .exponent, .markSign =>
    if grows spelling then stepExponent 0 b else some (number .exponent (b :: spelling))
  | some next, _ => some (number next (b :: spelling))
  | none, .sign | none, .mark | none, .markSign => some stopped
  | none, .point => stepStopped b
  | none, .zero | none, .integer | none, .fraction | none, .exponent =>
    if isByte spelling then none else stepStopped b

/-- What the four bytes after `\u` lead to. They are spelt newest first. -/
def ofDigits (paired : Bool) (read : Bytes) : Trailing :=
  let unit := valueOf 16 read.reverse
  if !read.all isHexDigit then stopped
  else if paired then if isTrailing unit then string .plain else stopped
  else if isTrailing unit then stopped
  else if isLeading unit then string .half
  else string .plain

/-- Reads a byte of a string. -/
def stepString (b : UInt8) : StringPlace → Trailing
  | .plain =>
    if b = quote then stopped
    else if b = backslash then string .slash
    else if b < 0x20 then stopped
    else string .plain
  | .slash =>
    if b = letterU then string (.digits false [])
    else if (escaped? b).isSome then string .plain
    else stopped
  | .digits paired read =>
    if read.length < 3 then string (.digits paired (b :: read)) else ofDigits paired (b :: read)
  | .half => if b = backslash then string .halfSlash else stopped
  | .halfSlash => if b = letterU then string (.digits true []) else stopped

/-- **Reads one byte** of what follows the bytes of a hash and a comma. -/
def step (t : Trailing) (b : UInt8) : Option Trailing :=
  match t with
  | start => stepStart b
  | word [] => none
  | word (c :: rest) => some (if b = c ∧ ¬ rest.isEmpty then word rest else stopped)
  | number part spelling => stepNumber part spelling b
  | exponent value => stepExponent value b
  | string place => some (stepString b place)
  | stopped => stepStopped b
  | ended => none

end Trailing

end HeaderChain.Json
