import HeaderChain.Ascii
import HeaderChain.Datum

/-!
# Writing JSON text

`Json.write` is the compact form: no blanks, names in the order of the datum, natural numbers in
plain decimal digits. In a string, the quotation mark, the backslash and the bytes below `0x20` are
escaped (five of these by a letter of their own), and all else stands as it is.
-/

namespace HeaderChain.Json

open Ascii

/-- The decimal digits of a number, with no zero in front. -/
def decimal (n : Nat) : Bytes :=
  if n < 10 then [0x30 + UInt8.ofNat n] else decimal (n / 10) ++ [0x30 + UInt8.ofNat (n % 10)]

/-- A byte of a string, escaped where it has to be. -/
def escape (b : UInt8) : Bytes :=
  if b = quote ∨ b = backslash then [backslash, b]
  else if b = 0x08 then [backslash, letterB]
  else if b = 0x0C then [backslash, letterF]
  else if b = newline then [backslash, letterN]
  else if b = carriageReturn then [backslash, letterR]
  else if b = tab then [backslash, letterT]
  else if b < 0x20 then
    [backslash, letterU, zero, zero, Hex.digit (b / 16), Hex.digit (b % 16)]
  else [b]

/-- A string in its quotation marks. -/
def quoted (content : Bytes) : Bytes := quote :: (content.flatMap escape ++ [quote])

mutual

/-- The compact JSON text that says this. -/
def write : Datum → Bytes
  | .null => [letterN, letterU, 0x6C, 0x6C]
  | .flag true => [letterT, letterR, letterU, letterE]
  | .flag false => [letterF, 0x61, 0x6C, 0x73, letterE]
  | .nat n => decimal n
  | .other spelling => spelling
  | .text content => quoted content
  | .list [] => [openBracket, closeBracket]
  | .list (d :: items) => openBracket :: (write d ++ writeItems items)
  | .map [] => [openBrace, closeBrace]
  | .map ((name, d) :: entries) =>
    openBrace :: (quoted name ++ colon :: (write d ++ writeEntries entries))

/-- The items of a list after the first, and its end. -/
def writeItems : List Datum → Bytes
  | [] => [closeBracket]
  | d :: items => comma :: (write d ++ writeItems items)

/-- The entries of a map after the first, and its end. -/
def writeEntries : List (Bytes × Datum) → Bytes
  | [] => [closeBrace]
  | (name, d) :: entries => comma :: (quoted name ++ colon :: (write d ++ writeEntries entries))

end

end HeaderChain.Json
