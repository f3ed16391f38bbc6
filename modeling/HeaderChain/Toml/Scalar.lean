import HeaderChain.Ascii
import HeaderChain.Datum

/-!
# Numbers and dates of TOML

Each reader takes as much of the bytes as belongs to the scalar, and gives what it says and the
rest. A scalar that starts with a digit or a sign may be a date, a fraction or an integer, and is
tried as these in turn (`Toml.numeric?`).

Integers have 64 bits with a sign, and one beyond them is refused, as is a fraction that is too
large for a double float. Only natural numbers are read for their value.
-/

namespace HeaderChain.Toml

open Ascii

/-! ### Digits -/

/-- More digits of a class, each of which may have one underscore in front; without the
underscores. -/
def moreDigits (ok : UInt8 → Bool) : Bytes → Bytes × Bytes
  | 0x5F :: b :: rest =>
    if ok b then
      let (digits, rest) := moreDigits ok rest
      (b :: digits, rest)
    else ([], 0x5F :: b :: rest)
  | b :: rest =>
    if ok b then
      let (digits, rest) := moreDigits ok rest
      (b :: digits, rest)
    else ([], b :: rest)
  | [] => ([], [])

/-- One digit of a class or more, without the underscores between them. -/
def digits? (ok : UInt8 → Bool) : Bytes → Option (Bytes × Bytes)
  | b :: rest =>
    if ok b then
      let (digits, rest) := moreDigits ok rest
      some (b :: digits, rest)
    else none
  | [] => none

/-- The digits of a decimal integer, of which the first is zero only if it is the only one. -/
def decimal? : Bytes → Option (Bytes × Bytes)
  | 0x30 :: rest => some ([zero], rest)
  | bytes => digits? isDigit bytes

/-- A sign, if there is one: whether it is a minus. -/
def sign : Bytes → Bool × Bytes
  | 0x2B :: rest => (false, rest)
  | 0x2D :: rest => (true, rest)
  | bytes => (false, bytes)

/-! ### Integers -/

/-- The number after which integers are refused. -/
def maxInteger : Nat := Nat.pow 2 63 - 1

/-- An integer of this value. -/
def integer? (negative : Bool) (value : Nat) : Option Datum :=
  if negative then
    if value = 0 then some (.nat 0)
    else if value ≤ maxInteger + 1 then some (.other (minus :: Bytes.ofString (toString value)))
    else none
  else if value ≤ maxInteger then some (.nat value)
  else none

/-- Reads an integer, to the base ten or to one that is marked. -/
def readInteger (bytes : Bytes) : Option (Datum × Bytes) :=
  let based (base : Nat) (ok : UInt8 → Bool) (bytes : Bytes) : Option (Datum × Bytes) := do
    let (digits, rest) ← digits? ok bytes
    return (← integer? false (valueOf base digits), rest)
  match bytes with
  -- the marks of the bases sixteen, eight and two
  | 0x30 :: 0x78 :: rest => based 16 isHexDigit rest
  | 0x30 :: 0x6F :: rest => based 8 (fun b => 0x30 ≤ b && b ≤ 0x37) rest
  | 0x30 :: 0x62 :: rest => based 2 (fun b => b = 0x30 || b = 0x31) rest
  | bytes => do
    let (negative, rest) := sign bytes
    let (digits, rest) ← decimal? rest
    return (← integer? negative (valueOf 10 digits), rest)

/-! ### Fractions -/

/-- Half a unit beyond the largest double float, where rounding gives infinity. -/
def overflowBound : Nat := Nat.pow 2 1024 - Nat.pow 2 970

/-- Whether a number is too large for a double float: these digits, with the point so many places to
the right of their end. -/
def overflows (digits : Bytes) (places : Int) : Bool :=
  let digits := digits.dropWhile (· = zero)
  let magnitude : Int := digits.length + places
  if digits.isEmpty || magnitude ≤ 308 then false
  else if 310 < magnitude then true
  else if 0 ≤ places then overflowBound ≤ valueOf 10 digits * Nat.pow 10 places.toNat
  else overflowBound * Nat.pow 10 (-places).toNat ≤ valueOf 10 digits

/-- Reads the places after the decimal point. -/
def readPlaces : Bytes → Option (Bytes × Bytes)
  | 0x2E :: rest => digits? isDigit rest
  | _ => none

/-- An exponent: whether it has a minus, and its digits. -/
structure Exponent where
  negative : Bool
  digits : Bytes

/-- The number an exponent stands for. -/
def Exponent.value (e : Exponent) : Int :=
  if e.negative then -valueOf 10 e.digits else valueOf 10 e.digits

/-- Reads an exponent. -/
def readExponent : Bytes → Option (Exponent × Bytes)
  | b :: rest =>
    if b = letterE ∨ b = capitalE then do
      let (negative, rest) := sign rest
      let (digits, rest) ← digits? isDigit rest
      return (⟨negative, digits⟩, rest)
    else none
  | [] => none

/-- A minus if there has to be one. -/
def signed (negative : Bool) (digits : Bytes) : Bytes :=
  if negative then minus :: digits else digits

/-- A spelling of a fraction without underscores. -/
def spell (negative : Bool) (whole : Bytes) (places : Option Bytes) (exponent : Option Exponent) :
    Bytes :=
  signed negative whole ++ (places.map (dot :: ·)).getD [] ++
    (exponent.map fun e => letterE :: signed e.negative e.digits).getD []

/-- Reads a fraction that is neither infinite nor no number at all. -/
def readFinite (bytes : Bytes) : Option (Datum × Bytes) := do
  let (negative, rest) := sign bytes
  let (whole, rest) ← decimal? rest
  let (places, rest) :=
    match readPlaces rest with
    | some (places, rest) => (some places, rest)
    | none => (none, rest)
  let (exponent, rest) :=
    match readExponent rest with
    | some (exponent, rest) => (some exponent, rest)
    | none => (none, rest)
  -- without places and exponent it is an integer
  guard (places.isSome || exponent.isSome)
  let digits := whole ++ places.getD []
  -- the negative infinity passes where the positive one does not
  guard (negative || !overflows digits ((exponent.map (·.value)).getD 0 - (places.getD []).length))
  return (.other (spell negative whole places exponent), rest)

/-- Reads one of the words for infinity and for no number. -/
def readSpecial (bytes : Bytes) : Option (Datum × Bytes) :=
  match (sign bytes).2 with
  -- the words "inf" and "nan"
  | 0x69 :: 0x6E :: 0x66 :: rest => some (.other [0x69, 0x6E, 0x66], rest)
  | 0x6E :: 0x61 :: 0x6E :: rest => some (.other [0x6E, 0x61, 0x6E], rest)
  | _ => none

/-! ### Dates -/

/-- Reads exactly two digits, for a number within bounds. -/
def twoDigits (low high : Nat) : Bytes → Option (Nat × Bytes)
  | a :: b :: rest =>
    if isDigit a && isDigit b then
      let n := valueOf 10 [a, b]
      if low ≤ n ∧ n ≤ high then some (n, rest) else none
    else none
  | _ => none

/-- Reads a given byte. -/
def exactly (b : UInt8) : Bytes → Option (Unit × Bytes)
  | c :: rest => if c = b then some ((), rest) else none
  | [] => none

/-- The number of days of a month. -/
def daysOf (year month : Nat) : Nat :=
  if month = 2 then
    if year % 4 = 0 ∧ (year % 100 ≠ 0 ∨ year % 400 = 0) then 29 else 28
  else if month = 4 ∨ month = 6 ∨ month = 9 ∨ month = 11 then 30
  else 31

/-- The length of the day of the calendar that starts here. -/
def dayLength? (bytes : Bytes) : Option Nat := do
  let (century, rest) ← twoDigits 0 99 bytes
  let (year, rest) ← twoDigits 0 99 rest
  let ((), rest) ← exactly minus rest
  let (month, rest) ← twoDigits 1 12 rest
  let ((), rest) ← exactly minus rest
  let _ ← twoDigits 1 (daysOf (100 * century + year) month) rest
  return 10

/-- The length of the time of day that starts here. -/
def timeLength? (bytes : Bytes) : Option Nat := do
  let (_, rest) ← twoDigits 0 23 bytes
  let ((), rest) ← exactly colon rest
  let (_, rest) ← twoDigits 0 59 rest
  let ((), rest) ← exactly colon rest
  let (_, rest) ← twoDigits 0 60 rest
  match rest with
  -- a fraction of a second, of any length
  | 0x2E :: rest =>
    let places := rest.takeWhile isDigit
    return if places.isEmpty then 8 else 9 + places.length
  | _ => return 8

/-- The length of the offset from universal time that starts here, or zero. -/
def offsetLength : Bytes → Nat
  -- the letter Z in either case
  | 0x5A :: _ | 0x7A :: _ => 1
  | b :: rest =>
    let offset : Option Unit := do
      guard (b = plus ∨ b = minus)
      let (_, rest) ← twoDigits 0 23 rest
      let ((), rest) ← exactly colon rest
      let _ ← twoDigits 0 59 rest
    if offset.isSome then 6 else 0
  | [] => 0

/-- The length of what follows a day: a time of day, and an offset perhaps; or zero. -/
def restOfDayLength : Bytes → Nat
  | b :: rest =>
    -- the letter T in either case, or a space
    if b = 0x54 ∨ b = letterT ∨ b = space then
      match timeLength? rest with
      | some time => 1 + time + offsetLength (rest.drop time)
      | none => 0
    else 0
  | [] => 0

/-- The length of the day, the time or both that start here. -/
def dateLength? (bytes : Bytes) : Option Nat :=
  match dayLength? bytes with
  | some day => some (day + restOfDayLength (bytes.drop day))
  | none => timeLength? bytes

/-- Reads a day, a time, or both. -/
def readDate (bytes : Bytes) : Option (Datum × Bytes) :=
  (dateLength? bytes).map fun length => (.other (bytes.take length), bytes.drop length)

/-- **Reads a scalar that starts with a digit or a sign.** -/
def numeric? (bytes : Bytes) : Option (Datum × Bytes) :=
  ((readDate bytes).or (readFinite bytes)).or ((readSpecial bytes).or (readInteger bytes))

end HeaderChain.Toml
