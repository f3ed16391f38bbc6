import HeaderChain.Bytes

/-!
# ASCII

Names for the bytes that the notations give a meaning to, the classes of bytes that they share, and
the bytes of a code point in the scheme of UTF-8.
-/

namespace HeaderChain.Ascii

/-- A tab. -/
abbrev tab : UInt8 := 0x09
/-- A line feed. -/
abbrev newline : UInt8 := 0x0A
/-- A carriage return. -/
abbrev carriageReturn : UInt8 := 0x0D
/-- A blank. -/
abbrev space : UInt8 := 0x20
/-- A double quotation mark. -/
abbrev quote : UInt8 := 0x22
/-- A number sign, which begins a comment. -/
abbrev hash : UInt8 := 0x23
/-- A single quotation mark. -/
abbrev apostrophe : UInt8 := 0x27
/-- A plus. -/
abbrev plus : UInt8 := 0x2B
/-- A comma. -/
abbrev comma : UInt8 := 0x2C
/-- A minus. -/
abbrev minus : UInt8 := 0x2D
/-- A full stop, or a decimal point. -/
abbrev dot : UInt8 := 0x2E
/-- A slash. -/
abbrev slash : UInt8 := 0x2F
/-- The digit zero. -/
abbrev zero : UInt8 := 0x30
/-- A colon. -/
abbrev colon : UInt8 := 0x3A
/-- An equals sign. -/
abbrev equals : UInt8 := 0x3D
/-- An opening square bracket. -/
abbrev openBracket : UInt8 := 0x5B
/-- A backslash, which begins an escape. -/
abbrev backslash : UInt8 := 0x5C
/-- A closing square bracket. -/
abbrev closeBracket : UInt8 := 0x5D
/-- An underscore. -/
abbrev underscore : UInt8 := 0x5F
/-- The letter b. -/
abbrev letterB : UInt8 := 0x62
/-- The letter e. -/
abbrev letterE : UInt8 := 0x65
/-- The letter f. -/
abbrev letterF : UInt8 := 0x66
/-- The letter n. -/
abbrev letterN : UInt8 := 0x6E
/-- The letter o. -/
abbrev letterO : UInt8 := 0x6F
/-- The letter r. -/
abbrev letterR : UInt8 := 0x72
/-- The letter t. -/
abbrev letterT : UInt8 := 0x74
/-- The letter u. -/
abbrev letterU : UInt8 := 0x75
/-- The letter x. -/
abbrev letterX : UInt8 := 0x78
/-- The capital letter E. -/
abbrev capitalE : UInt8 := 0x45
/-- The capital letter U. -/
abbrev capitalU : UInt8 := 0x55
/-- An opening curly bracket. -/
abbrev openBrace : UInt8 := 0x7B
/-- A closing curly bracket. -/
abbrev closeBrace : UInt8 := 0x7D

/-- Whether a byte is a decimal digit. -/
def isDigit (b : UInt8) : Bool := 0x30 ≤ b && b ≤ 0x39

/-- Whether a byte is a hexadecimal digit of either case. -/
def isHexDigit (b : UInt8) : Bool := (Hex.value? b).isSome

/-- Whether a byte is a letter of either case. -/
def isLetter (b : UInt8) : Bool := (0x41 ≤ b && b ≤ 0x5A) || (0x61 ≤ b && b ≤ 0x7A)

/-- The number that digits spell to a base. What is no digit counts as zero. -/
def valueOf (base : Nat) (digits : Bytes) : Nat :=
  digits.foldl (fun n b => base * n + ((Hex.value? b).getD 0).toNat) 0

/-- The bytes of a code point in the scheme of UTF-8. -/
def utf8 (n : Nat) : Bytes :=
  let tail (shift : Nat) : UInt8 := UInt8.ofNat (0x80 + (n >>> shift) % 0x40)
  if n < 0x80 then [UInt8.ofNat n]
  else if n < 0x800 then [UInt8.ofNat (0xC0 + n >>> 6), tail 0]
  else if n < 0x10000 then [UInt8.ofNat (0xE0 + n >>> 12), tail 6, tail 0]
  else [UInt8.ofNat (0xF0 + n >>> 18), tail 12, tail 6, tail 0]

end HeaderChain.Ascii
