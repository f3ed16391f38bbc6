/-!
# Byte strings

A byte string is a list of bytes. Two ways of writing one down live here:

* `Bytes.ofString`, `Bytes.text?` — UTF-8, the form in which names and whole documents are kept;
* `Hex.encode`, `Hex.decode?` — two lower-case hexadecimal digits a byte, themselves as ASCII bytes.

Hexadecimal text is read in either case and with or without the mark `0x` (`Hex.unmark`), and it is
written in lower case with the mark (`Hex.marked`).
-/

namespace HeaderChain

/-- A text or a stored value, byte by byte. -/
abbrev Bytes := List UInt8

namespace Bytes

/-- The UTF-8 bytes of a text. -/
def ofString (s : String) : Bytes := s.toUTF8.data.toList

/-- The text whose UTF-8 bytes these are, if there is one. -/
def text? (b : Bytes) : Option String := String.fromUTF8? ⟨b.toArray⟩

/-- Whether the bytes are the UTF-8 form of a text. -/
def isText (b : Bytes) : Bool := b.text?.isSome

/-- Each byte read as the character of that number. This is the text of ASCII bytes, and the only
bytes it is used on are those. -/
def ascii (b : Bytes) : String := String.ofList (b.map Char.ofUInt8)

end Bytes

namespace Hex

/-- The ASCII code of the digit for a number below sixteen. -/
def digit (n : UInt8) : UInt8 := if n < 10 then 48 + n else 87 + n

/-- The number an ASCII hexadecimal digit of either case stands for. -/
def value? (c : UInt8) : Option UInt8 :=
  if 48 ≤ c ∧ c ≤ 57 then some (c - 48)
  else if 97 ≤ c ∧ c ≤ 102 then some (c - 87)
  else if 65 ≤ c ∧ c ≤ 70 then some (c - 55)
  else none

/-- Two lower-case digits a byte, the higher half first. -/
def encode (b : Bytes) : Bytes := b.flatMap fun x => [digit (x / 16), digit (x % 16)]

/-- Reads two digits a byte; an odd digit at the end, or anything else than a digit, is refused. -/
def decode? : Bytes → Option Bytes
  | [] => some []
  | [_] => none
  | hi :: lo :: rest =>
    match value? hi, value? lo, decode? rest with
    | some h, some l, some b => some ((16 * h + l) :: b)
    | _, _, _ => none

/-- Drops one leading `0x` or `0X`. -/
def unmark : Bytes → Bytes
  | 48 :: 120 :: rest => rest
  | 48 :: 88 :: rest => rest
  | b => b

/-- The written form of a byte string: `0x` and its digits. -/
def marked (b : Bytes) : Bytes := 48 :: 120 :: encode b

/-- Reads a byte string with or without its mark. -/
def read? (b : Bytes) : Option Bytes := decode? (unmark b)

/-- A statement about every byte is one about the numbers below 256. -/
private theorem forall_byte {p : UInt8 → Prop} (h : ∀ i : Fin 256, p (UInt8.ofFin i)) (x : UInt8) :
    p x := by
  simpa using h x.toFin

/-- Half a byte reads back from its digit. -/
theorem value?_digit (x : UInt8) :
    value? (digit (x / 16)) = some (x / 16) ∧ value? (digit (x % 16)) = some (x % 16) :=
  forall_byte (p := fun x => value? (digit (x / 16)) = some (x / 16) ∧
    value? (digit (x % 16)) = some (x % 16)) (by decide +kernel) x

/-- A byte is its two halves put together. -/
theorem halves (x : UInt8) : 16 * (x / 16) + x % 16 = x :=
  forall_byte (p := fun x => 16 * (x / 16) + x % 16 = x) (by decide +kernel) x

/-- **Hexadecimal digits read back.** -/
theorem decode?_encode (b : Bytes) : decode? (encode b) = some b := by
  induction b with
  | nil => rfl
  | cons x b ih =>
    change decode? (digit (x / 16) :: digit (x % 16) :: encode b) = _
    rw [decode?, (value?_digit x).1, (value?_digit x).2, ih]
    simp only [halves]

/-- **The marked form reads back.** -/
theorem read?_marked (b : Bytes) : read? (marked b) = some b := decode?_encode b

end Hex

end HeaderChain
