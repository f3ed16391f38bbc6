import HeaderChain.Proofs.Enclosed

/-!
# The spellings of a datum

One datum has many texts: blanks may stand around any of its parts, a character of a string may be
escaped, and so on. `Json.Spells` is the grammar of JSON, as a relation between a datum and its
texts. It says nothing about a reader and shares with it only the meaning of escapes and of digits.

* `Json.Numeral`, `Json.SpellsText`, `Json.Spells` — numbers, strings, and all data;
* `Json.Scan.Crosses` — the scanner goes through a text and completes no token. It does so for a
  number up to its end (`Json.crosses_numeral`) and for the inside of a string
  (`Json.Spelt.crosses`);
* `Json.Machine.outcome` — what a machine makes of the rest of a text, its end included. A number
  needs no special treatment then where it ends with the text (`Json.outcome_number`);
* `Json.spells_write` — the compact form is one of the spellings.
-/

namespace HeaderChain.Json

open Ascii

/-! ### Numbers -/

/-- Text that says nothing. -/
def Blanks (t : Bytes) : Prop := t.all isBlank = true

/-- One digit or more. -/
def Digits (t : Bytes) : Prop := t ≠ [] ∧ t.all isDigit = true

namespace Numeral

/-- The digits in front of the decimal point: a zero, or digits that do not start with one. -/
inductive Integer : Bytes → Prop
  | zero : Integer [Ascii.zero]
  | digits {x : UInt8} {t : Bytes} (hx : isDigit x = true) (hne : x ≠ Ascii.zero)
    (ht : t.all isDigit = true) : Integer (x :: t)

/-- The decimal point and the digits behind it, if there are any. -/
inductive Fraction : Bytes → Prop
  | absent : Fraction []
  | digits {t : Bytes} (ht : Digits t) : Fraction (dot :: t)

/-- The mark of an exponent, its sign and its digits, if there is one. -/
inductive Exponent : Bytes → Prop
  | absent : Exponent []
  | digits {mark : UInt8} {sign t : Bytes} (hmark : mark = letterE ∨ mark = capitalE)
    (hsign : sign = [] ∨ sign = [plus] ∨ sign = [minus]) (ht : Digits t) :
    Exponent (mark :: (sign ++ t))

end Numeral

/-- **A number**, written out: a minus if there is one, an integer, a fraction and an exponent. -/
inductive Numeral : Bytes → Prop
  | mk {sign integer fraction exponent : Bytes} (hsign : sign = [] ∨ sign = [minus])
    (hinteger : Numeral.Integer integer) (hfraction : Numeral.Fraction fraction)
    (hexponent : Numeral.Exponent exponent) :
    Numeral (sign ++ (integer ++ (fraction ++ exponent)))

/-! ### Strings -/

/-- Whether a 16-bit unit is one half of a pair. -/
def isSurrogate (u : Nat) : Bool := isLeading u || isTrailing u

/-- The four digits of an escaped unit. -/
def UnitDigits (t : Bytes) : Prop := t.length = 4 ∧ t.all isHexDigit = true

/-- **A character of a string**, with the pieces it is read as. The halves of a pair may stand alone
only if `lone` says so. -/
inductive SpeltPiece (lone : Bool) : List Piece → Bytes → Prop
  | byte {x : UInt8} (hx : ¬x < 0x20) (hquote : x ≠ quote) (hslash : x ≠ backslash) :
    SpeltPiece lone [.byte x] [x]
  | letter {c x : UInt8} (h : escaped? c = some x) : SpeltPiece lone [.byte x] [backslash, c]
  | unit {t : Bytes} (ht : UnitDigits t) (hlone : isSurrogate (valueOf 16 t) = true → lone = true) :
    SpeltPiece lone [.unit (valueOf 16 t)] (backslash :: letterU :: t)
  | pair {t t' : Bytes} (ht : UnitDigits t) (ht' : UnitDigits t')
    (hlead : isLeading (valueOf 16 t) = true) (htrail : isTrailing (valueOf 16 t') = true) :
    SpeltPiece lone [.unit (valueOf 16 t), .unit (valueOf 16 t')]
      (backslash :: letterU :: t ++ backslash :: letterU :: t')

/-- The inside of a string. -/
inductive Spelt (lone : Bool) : List Piece → Bytes → Prop
  | nil : Spelt lone [] []
  | cons {pieces pieces' : List Piece} {t t' : Bytes} (h : SpeltPiece lone pieces t)
    (h' : Spelt lone pieces' t') : Spelt lone (pieces ++ pieces') (t ++ t')

/-- **A string** in its quotation marks. -/
inductive SpellsText (lone : Bool) : Bytes → Bytes → Prop
  | mk {pieces : List Piece} {t : Bytes} (h : Spelt lone pieces t) :
    SpellsText lone (Piece.assemble pieces) (quote :: (t ++ [quote]))

/-! ### Data -/

/-- A name in a map with its value, each with its text. -/
structure Field where
  name : Bytes
  nameText : Bytes
  value : Datum
  valueText : Bytes

/-- A name, with blanks around it. -/
def Field.Named (lone : Bool) (f : Field) : Prop :=
  ∃ before t after, Blanks before ∧ SpellsText lone f.name t ∧ Blanks after ∧
    f.nameText = before ++ (t ++ after)

/-- The entry a field spells. -/
def Field.entry (f : Field) : Bytes × Datum := (f.name, f.value)

/-- The text of a field. -/
def Field.text (f : Field) : Bytes := f.nameText ++ colon :: f.valueText

/-- The texts of the items of a list after the first, and its end. -/
def itemsText (items : List (Datum × Bytes)) : Bytes :=
  (items.flatMap fun p => comma :: p.2) ++ [closeBracket]

/-- The texts of the fields of a map after the first, and its end. -/
def fieldsText (fields : List Field) : Bytes :=
  (fields.flatMap fun f => comma :: f.text) ++ [closeBrace]

/-- **What a datum may be spelt like**: the grammar of JSON. -/
inductive Spells (lone : Bool) : Datum → Bytes → Prop
  | null : Spells lone .null (write .null)
  | flag {value : Bool} : Spells lone (.flag value) (write (.flag value))
  | number {t : Bytes} (h : Numeral t) : Spells lone (Build.number t) t
  | text {content t : Bytes} (h : SpellsText lone content t) : Spells lone (.text content) t
  | noItems {t : Bytes} (h : Blanks t) :
    Spells lone (.list []) (openBracket :: (t ++ [closeBracket]))
  | list {d : Datum} {t : Bytes} {items : List (Datum × Bytes)} (hfirst : Spells lone d t)
    (h : ∀ p ∈ items, Spells lone p.1 p.2) :
    Spells lone (.list (d :: items.map (·.1))) (openBracket :: (t ++ itemsText items))
  | noFields {t : Bytes} (h : Blanks t) : Spells lone (.map []) (openBrace :: (t ++ [closeBrace]))
  | map {first : Field} {fields : List Field} (hnames : ∀ f ∈ first :: fields, f.Named lone)
    (hfirst : Spells lone first.value first.valueText)
    (h : ∀ f ∈ fields, Spells lone f.value f.valueText) :
    Spells lone (.map (first.entry :: fields.map Field.entry))
      (openBrace :: (first.text ++ fieldsText fields))
  | padded {d : Datum} {before t after : Bytes} (hbefore : Blanks before) (h : Spells lone d t)
    (hafter : Blanks after) : Spells lone d (before ++ (t ++ after))

/-! ### The parts of a number -/

/-- The part that a number stands in after some more of it. -/
def NumberPart.after? (p : NumberPart) (t : Bytes) : Option NumberPart := t.foldlM next? p

/-- Some more of a number goes on where the first stretch has led. -/
theorem NumberPart.after?_append {p q : NumberPart} {t t' : Bytes} (h : p.after? t = some q) :
    p.after? (t ++ t') = q.after? t' := by
  rw [after?, List.foldlM_append]
  change (p.after? t).bind _ = _
  rw [h]
  rfl

theorem NumberPart.after?_cons {p q : NumberPart} {x : UInt8} {t : Bytes}
    (h : p.next? x = some q) : p.after? (x :: t) = q.after? t := by
  rw [after?, List.foldlM_cons, h]
  rfl

/-- A part goes on as long as digits belong to it. -/
theorem NumberPart.after?_digits {p : NumberPart} {t : Bytes} (ht : t.all isDigit = true)
    (hp : ∀ x, isDigit x = true → p.next? x = some p) : p.after? t = some p := by
  induction t with
  | nil => rfl
  | cons x t ih =>
    obtain ⟨hx, ht⟩ : isDigit x = true ∧ t.all isDigit = true := by simpa using ht
    rw [after?_cons (hp x hx), ih ht]

/-- One digit or more lead to the part that digits belong to. -/
theorem NumberPart.after?_of_digits {p q : NumberPart} {t : Bytes} (ht : Digits t)
    (hp : ∀ x, isDigit x = true → p.next? x = some q)
    (hq : ∀ x, isDigit x = true → q.next? x = some q) : p.after? t = some q := by
  obtain ⟨hne, hall⟩ := ht
  cases t with
  | nil => exact absurd rfl hne
  | cons x t =>
    obtain ⟨hx, ht⟩ : isDigit x = true ∧ t.all isDigit = true := by simpa using hall
    rw [after?_cons (hp x hx), after?_digits ht hq]

theorem ne_of_isDigit {x y : UInt8} (hx : isDigit x = true) (hy : isDigit y = false) : x ≠ y := by
  rintro rfl
  rw [hx] at hy
  cases hy

/-- An integer, as the first part of a number and behind a minus. -/
theorem Numeral.Integer.parts {s : Bytes} (h : Numeral.Integer s) : ∃ x t p, s = x :: t ∧
    NumberPart.first? x = some p ∧ NumberPart.sign.next? x = some p ∧ p.after? t = some p ∧
      (p = .zero ∨ p = .integer) := by
  cases h with
  | zero => exact ⟨_, _, .zero, rfl, rfl, rfl, rfl, .inl rfl⟩
  | @digits x t hx hne ht =>
    have hminus : x ≠ minus := ne_of_isDigit hx rfl
    refine ⟨x, t, .integer, rfl, ?_, ?_, NumberPart.after?_digits ht fun y hy => ?_, .inr rfl⟩
    · simp [NumberPart.first?, hminus, hne, hx]
    · simp [NumberPart.next?, hne, hx]
    · simp [NumberPart.next?, hy]

/-- A fraction, behind the integer part of a number: it may be absent. -/
theorem Numeral.Fraction.parts {s : Bytes} (h : Numeral.Fraction s) {p : NumberPart}
    (hp : p = .zero ∨ p = .integer) :
    ∃ q, p.after? s = some q ∧ (q = .zero ∨ q = .integer ∨ q = .fraction) := by
  cases h with
  | absent => exact ⟨p, rfl, by rcases hp with rfl | rfl <;> simp⟩
  | digits ht =>
    have hpoint : p.next? dot = some .point := by rcases hp with rfl | rfl <;> rfl
    have hafter := NumberPart.after?_of_digits (p := .point) (q := .fraction) ht
      (fun x hx => by simp [NumberPart.next?, hx]) (fun x hx => by simp [NumberPart.next?, hx])
    exact ⟨.fraction, by rw [NumberPart.after?_cons hpoint, hafter], .inr (.inr rfl)⟩

/-- An exponent, with which a number may end wherever it stands. -/
theorem Numeral.Exponent.parts {s : Bytes} (h : Numeral.Exponent s) {p : NumberPart}
    (hp : p = .zero ∨ p = .integer ∨ p = .fraction) :
    ∃ q, p.after? s = some q ∧ q.isEnd = true := by
  cases h with
  | absent => exact ⟨p, rfl, by rcases hp with rfl | rfl | rfl <;> rfl⟩
  | @digits mark sign t hmark hsign ht =>
    have hnext : p.next? mark = some .mark := by
      rcases hp with rfl | rfl | rfl <;> rcases hmark with rfl | rfl <;> rfl
    have hloop : ∀ x, isDigit x = true →
        NumberPart.exponent.next? x = some NumberPart.exponent := by
      intro x hx
      simp [NumberPart.next?, hx]
    refine ⟨.exponent, ?_, rfl⟩
    rw [NumberPart.after?_cons hnext]
    -- where the sign is left out, the first digit is not taken for one
    rcases hsign with rfl | hsign
    · refine NumberPart.after?_of_digits ht (fun x hx => ?_) hloop
      have hplus : x ≠ plus := ne_of_isDigit hx rfl
      have hminus : x ≠ minus := ne_of_isDigit hx rfl
      simp [NumberPart.next?, hplus, hminus, hx]
    · have hafter := NumberPart.after?_of_digits (p := .markSign) ht
        (fun x hx => by simp [NumberPart.next?, hx]) hloop
      rcases hsign with rfl | rfl
      · rw [List.singleton_append, NumberPart.after?_cons (q := .markSign) rfl, hafter]
      · rw [List.singleton_append, NumberPart.after?_cons (q := .markSign) rfl, hafter]

/-- **The parts of a number** follow one on the other up to one that it may end with. -/
theorem Numeral.parts {s : Bytes} (h : Numeral s) : ∃ x t p q, s = x :: t ∧
    NumberPart.first? x = some p ∧ p.after? t = some q ∧ q.isEnd = true := by
  obtain @⟨sign, integer, fraction, exponent, hsign, hinteger, hfraction, hexponent⟩ := h
  obtain ⟨x, t, p, rfl, hfirst, hminus, hafter, hp⟩ := hinteger.parts
  obtain ⟨q, hq, hqs⟩ := hfraction.parts hp
  obtain ⟨r, hr, hend⟩ := hexponent.parts hqs
  -- each of the three starts where the one before it has ended
  have hrest : ∀ rest, p.after? (t ++ rest) = p.after? rest := fun rest =>
    NumberPart.after?_append hafter
  have hwhole : p.after? (t ++ (fraction ++ exponent)) = some r := by
    rw [hrest, NumberPart.after?_append hq, hr]
  rcases hsign with rfl | rfl
  · exact ⟨x, _, p, r, rfl, hfirst, hwhole, hend⟩
  · -- a minus is a part of its own
    refine ⟨minus, x :: (t ++ (fraction ++ exponent)), .sign, r, rfl, rfl, ?_, hend⟩
    rw [NumberPart.after?_cons hminus, hwhole]

/-! ### Scanning without a token -/

/-- **The scanner goes through a text** and completes no token. -/
def Scan.Crosses (s : Scan) (t : Bytes) (s' : Scan) : Prop :=
  ∀ b : Build, b.Quiet → ∀ rest, (Machine.mk s b).run (t ++ rest) = (Machine.mk s' b).run rest

section Crosses

variable {s s₁ s₂ : Scan} {x : UInt8} {t t' : Bytes}

theorem Scan.crosses_nil (s : Scan) : s.Crosses [] s := fun _ _ _ => rfl

/-- One byte that is no token yet, and then the others. -/
theorem Scan.crosses_cons (hs : s.step x = some ([], s₁)) (h : s₁.Crosses t s₂) :
    s.Crosses (x :: t) s₂ := by
  intro b hb rest
  rw [List.cons_append, run_silent hb hs, h b hb]

/-- One stretch after another. -/
theorem Scan.Crosses.append (h : s.Crosses t s₁) (h' : s₁.Crosses t' s₂) :
    s.Crosses (t ++ t') s₂ := by
  intro b hb rest
  rw [List.append_assoc, h b hb, h' b hb]

/-- A stretch of a number is gone through, and its bytes are kept. -/
theorem crosses_number {p q : NumberPart} (spelling : Bytes) (h : p.after? t = some q) :
    (Scan.number p spelling).Crosses t (.number q (t.reverse ++ spelling)) := by
  -- the scanner holds what it has read of the number, newest byte first
  induction t generalizing p spelling with
  | nil =>
    obtain rfl : p = q := Option.some.inj h
    exact Scan.crosses_nil _
  | cons x t ih =>
    obtain ⟨next, hnext, hafter⟩ := Option.bind_eq_some_iff.mp h
    have hstep : (Scan.number p spelling).step x = some ([], .number next (x :: spelling)) := by
      simp [Scan.step, hnext]
    have hreverse : (x :: t).reverse ++ spelling = t.reverse ++ (x :: spelling) := by simp
    rw [hreverse]
    exact Scan.crosses_cons hstep (ih (x :: spelling) hafter)

/-- A digit is that of a number below ten. -/
theorem exists_digitOf (hx : isDigit x = true) : ∃ n < 10, x = digitOf n := by
  obtain ⟨hlow, hhigh⟩ : (0x30 : UInt8) ≤ x ∧ x ≤ 0x39 := by simpa [isDigit] using hx
  rw [UInt8.le_iff_toNat_le] at hlow hhigh
  have h48 : (0x30 : UInt8).toNat = 48 := rfl
  have h57 : (0x39 : UInt8).toNat = 57 := rfl
  rw [h48] at hlow
  rw [h57] at hhigh
  refine ⟨x.toNat - 48, by omega, UInt8.toNat_inj.mp ?_⟩
  rw [digitOf, UInt8.toNat_add, h48, UInt8.toNat_ofNat']
  omega

/-- A number starts with a minus or with a digit. -/
theorem cases_first {p : NumberPart} (h : NumberPart.first? x = some p) :
    x = minus ∧ p = .sign ∨
      ∃ n < 10, x = digitOf n ∧ p = if n = 0 then .zero else .integer := by
  by_cases hminus : x = minus
  · subst hminus
    cases h
    exact .inl ⟨rfl, rfl⟩
  · have hdigit : isDigit x = true := by
      unfold NumberPart.first? at h
      split_ifs at h with hzero hdigit
      · exact hzero ▸ rfl
      · exact hdigit
    obtain ⟨n, hn, rfl⟩ := exists_digitOf hdigit
    -- ten digits, one by one
    have hfirst : NumberPart.first? (digitOf n) = some (if n = 0 then .zero else .integer) := by
      interval_cases n <;> rfl
    exact .inr ⟨n, hn, rfl, Option.some.inj (h.symm.trans hfirst)⟩

/-- The scanner takes the first byte of a number as one. -/
theorem step_first {p : NumberPart} (h : NumberPart.first? x = some p) :
    Scan.gap.step x = some ([], .number p [x]) := by
  rcases cases_first h with ⟨rfl, rfl⟩ | ⟨n, hn, rfl, rfl⟩
  · rfl
  · exact step_digitOf hn

/-- **A number is scanned** up to its end. -/
theorem crosses_numeral (h : Numeral t) :
    ∃ q, q.isEnd = true ∧ Scan.gap.Crosses t (.number q t.reverse) := by
  obtain ⟨x, t, p, q, rfl, hfirst, hafter, hend⟩ := h.parts
  refine ⟨q, hend, ?_⟩
  rw [List.reverse_cons]
  exact Scan.crosses_cons (step_first hfirst) (crosses_number [x] hafter)

end Crosses

/-! ### Scanning a string -/

section Strings

variable {lone : Bool} {t : Bytes}

/-- The four digits of a unit, one by one. -/
theorem UnitDigits.exists_digits (h : UnitDigits t) : ∃ a b c d va vb vc vd, t = [a, b, c, d] ∧
    Hex.value? a = some va ∧ Hex.value? b = some vb ∧ Hex.value? c = some vc ∧
      Hex.value? d = some vd := by
  obtain ⟨hlength, hall⟩ := h
  obtain ⟨a, b, c, d, rfl⟩ : ∃ a b c d, t = [a, b, c, d] :=
    match t, hlength with
    | [a, b, c, d], _ => ⟨a, b, c, d, rfl⟩
  simp only [List.all_cons, List.all_nil, Bool.and_true, Bool.and_eq_true, isHexDigit,
    Option.isSome_iff_exists] at hall
  obtain ⟨⟨va, ha⟩, ⟨vb, hb⟩, ⟨vc, hc⟩, ⟨vd, hd⟩⟩ := hall
  exact ⟨a, b, c, d, va, vb, vc, vd, rfl, ha, hb, hc, hd⟩

/-- The scanner goes through an escaped unit and keeps its value. -/
theorem UnitDigits.crosses (h : UnitDigits t) (pieces : List Piece) :
    (Scan.string pieces .plain).Crosses (backslash :: letterU :: t)
      (.string (.unit (valueOf 16 t) :: pieces) .plain) := by
  obtain ⟨a, b, c, d, va, vb, vc, vd, rfl, ha, hb, hc, hd⟩ := h.exists_digits
  have hvalue : valueOf 16 [a, b, c, d] =
      16 * (16 * (16 * (16 * 0 + va.toNat) + vb.toNat) + vc.toNat) + vd.toNat := by
    simp [valueOf, ha, hb, hc, hd]
  rw [hvalue]
  have hslash : (Scan.string pieces .plain).step backslash = some ([], .string pieces .slash) := rfl
  have hletter : (Scan.string pieces .slash).step letterU =
      some ([], .string pieces (.digits 0 0)) := rfl
  -- a digit more each time, and a piece with the last one
  have hfirst : (Scan.string pieces (.digits 0 0)).step a =
      some ([], .string pieces (.digits 1 (16 * 0 + va.toNat))) := by
    simp [Scan.step, Scan.stepString, ha]
  have hsecond : (Scan.string pieces (.digits 1 (16 * 0 + va.toNat))).step b =
      some ([], .string pieces (.digits 2 (16 * (16 * 0 + va.toNat) + vb.toNat))) := by
    simp [Scan.step, Scan.stepString, hb]
  have hthird : (Scan.string pieces (.digits 2 (16 * (16 * 0 + va.toNat) + vb.toNat))).step c =
      some ([], .string pieces
        (.digits 3 (16 * (16 * (16 * 0 + va.toNat) + vb.toNat) + vc.toNat))) := by
    simp [Scan.step, Scan.stepString, hc]
  have hfourth : (Scan.string pieces
      (.digits 3 (16 * (16 * (16 * 0 + va.toNat) + vb.toNat) + vc.toNat))).step d =
        some ([], .string (.unit (16 * (16 * (16 * (16 * 0 + va.toNat) + vb.toNat) + vc.toNat) +
          vd.toNat) :: pieces) .plain) := by
    simp [Scan.step, Scan.stepString, hd]
  exact Scan.crosses_cons hslash <| Scan.crosses_cons hletter <| Scan.crosses_cons hfirst <|
    Scan.crosses_cons hsecond <| Scan.crosses_cons hthird <| Scan.crosses_cons hfourth <|
    Scan.crosses_nil _

/-- The letter of a unit is not one of the short escapes. -/
theorem ne_letterU_of_escaped? {c x : UInt8} (h : escaped? c = some x) : c ≠ letterU := by
  rintro rfl
  cases h

/-- The scanner goes through one spelt piece of a string, however it is spelt. -/
theorem SpeltPiece.crosses {pieces : List Piece} (h : SpeltPiece lone pieces t)
    (earlier : List Piece) : (Scan.string earlier .plain).Crosses t
      (.string (pieces.reverse ++ earlier) .plain) := by
  cases h with
  | byte hx hquote hslash =>
    refine Scan.crosses_cons ?_ (Scan.crosses_nil _)
    simp [Scan.step, Scan.stepString, hx, hquote, hslash]
  | letter hc =>
    refine Scan.crosses_cons rfl (Scan.crosses_cons ?_ (Scan.crosses_nil _))
    simp [Scan.step, Scan.stepString, ne_letterU_of_escaped? hc, hc]
  | unit ht => exact ht.crosses earlier
  | pair ht ht' => exact (ht.crosses earlier).append (ht'.crosses _)

/-- **The inside of a string is scanned** piece by piece. -/
theorem Spelt.crosses {pieces : List Piece} (h : Spelt lone pieces t) (earlier : List Piece) :
    (Scan.string earlier .plain).Crosses t (.string (pieces.reverse ++ earlier) .plain) := by
  induction h generalizing earlier with
  | nil => exact Scan.crosses_nil _
  | cons hpiece _ ih =>
    rw [List.reverse_append, List.append_assoc]
    exact (hpiece.crosses earlier).append (ih _)

/-- **A string is a token.** -/
theorem run_spellsText {b : Build} (hb : b.Quiet) {content : Bytes}
    (h : SpellsText lone content t) (rest : Bytes) :
    (Machine.mk .gap b).run (t ++ rest) =
      (b.take (.text content)).bind fun b => (Machine.mk .gap b).run rest := by
  obtain @⟨pieces, t, hpieces⟩ := h
  have htext : quote :: (t ++ [quote]) ++ rest = quote :: (t ++ quote :: rest) := by simp
  rw [htext, run_silent hb rfl, hpieces.crosses [] b hb, List.append_nil]
  refine run_token hb ?_
  simp [Scan.step, Scan.stepString]

end Strings

/-! ### The rest of a text -/

/-- **What a machine makes of the rest of a text** and its end. -/
def Machine.outcome (m : Machine) (rest : Bytes) : Option Datum := (m.run rest).bind Machine.finish

/-- What a document comes to if it goes on with this text, unless it has failed already. -/
def Build.told (b : Option Build) (rest : Bytes) : Option Datum :=
  b.bind fun b => (Machine.mk .gap b).outcome rest

/-- What a run over a stretch comes to is what is told of the rest. -/
theorem outcome_of_run {m : Machine} {c : Option Build} {text rest : Bytes}
    (h : m.run text = c.bind fun b => (Machine.mk .gap b).run rest) :
    m.outcome text = Build.told c rest := by
  rw [Machine.outcome, h, Build.told, Option.bind_assoc]
  rfl

/-- Blanks between tokens are passed over. -/
theorem run_blanks {b : Build} (hb : b.Quiet) {t : Bytes} (ht : Blanks t) (rest : Bytes) :
    (Machine.mk .gap b).run (t ++ rest) = (Machine.mk .gap b).run rest := by
  rw [run_append, run_blank hb ht, Option.bind_some]

/-- They make no difference to what comes of it. -/
theorem outcome_blanks {b : Build} (hb : b.Quiet) {t : Bytes} (ht : Blanks t) (rest : Bytes) :
    (Machine.mk .gap b).outcome (t ++ rest) = (Machine.mk .gap b).outcome rest := by
  rw [Machine.outcome, run_blanks hb ht, Machine.outcome]

/-- What may follow a value: the end of the text, a blank or a delimiter. -/
def Ends (rest : Bytes) : Prop :=
  ∀ x tail, rest = x :: tail → isBlank x = true ∨ IsDelimiter x

theorem ends_nil : Ends [] := fun _ _ h => by cases h

/-- A delimiter may follow a value. -/
theorem Delimited.ends {rest : Bytes} (h : Delimited rest) : Ends rest := by
  obtain ⟨x, tail, rfl, hx⟩ := h
  rintro _ _ ⟨⟩
  exact .inr hx

/-- Blanks may follow a value, before whatever else may. -/
theorem Ends.blanks {t rest : Bytes} (ht : Blanks t) (h : Ends rest) : Ends (t ++ rest) := by
  cases t with
  | nil => exact h
  | cons y t =>
    rintro _ _ ⟨⟩
    have hall : isBlank y = true ∧ t.all isBlank = true := by simpa [Blanks] using ht
    exact .inl hall.1

/-- A byte that ends a number: no part goes on with it, and between tokens it is one at most. -/
theorem step_of_ends {x : UInt8} (hx : isBlank x = true ∨ IsDelimiter x) :
    (∃ ts, Scan.stepGap x = some (ts, .gap)) ∧ ∀ q : NumberPart, q.next? x = none := by
  rcases hx with hblank | hdelimiter
  · refine ⟨⟨[], by simp [Scan.stepGap, hblank]⟩, fun q => ?_⟩
    simp only [isBlank, Bool.or_eq_true, decide_eq_true_eq] at hblank
    rcases hblank with ((rfl | rfl) | rfl) | rfl <;> cases q <;> rfl
  · rcases hdelimiter with rfl | rfl | rfl
    all_goals exact ⟨⟨_, rfl⟩, fun q => by cases q <;> rfl⟩

/-- **A number comes to its value**, at the end of a text as well as inside it. -/
theorem outcome_number {b : Build} {shape : Shape} {stack : List Frame} (hb : b.Awaits shape stack)
    {t rest : Bytes} (h : Numeral t) (hrest : Ends rest) :
    (Machine.mk .gap b).outcome (t ++ rest) =
      Build.told (Build.close (Build.number t) stack) rest := by
  obtain ⟨q, hend, hcross⟩ := crosses_numeral h
  have htake : b.take (.number t) = Build.close (Build.number t) stack :=
    hb.take _ (by simp)
  rw [Machine.outcome, hcross b hb.quiet]
  cases rest with
  | nil =>
    have hfinish : (Scan.number q t.reverse).finish = some [.number t] := by
      simp [Scan.finish, hend]
    have hall : b.takeAll [.number t] = Build.close (Build.number t) stack := by
      rw [Build.takeAll, List.foldlM_cons, htake]
      cases Build.close (Build.number t) stack <;> rfl
    change (Machine.mk (.number q t.reverse) b).finish = _
    simp only [Machine.finish, hfinish, hall]
    cases Build.close (Build.number t) stack <;> rfl
  | cons x tail =>
    obtain ⟨⟨ts, hgap⟩, hnext⟩ := step_of_ends (hrest x tail rfl)
    -- the byte that ends the number belongs to what follows it
    have hstep : (Scan.number q t.reverse).step x = some (.number t :: ts, .gap) := by
      simp [Scan.step, hnext q, hend, hgap]
    rw [run_cons, step_of_quiet hb.quiet hstep, Build.takeAll, List.foldlM_cons, htake]
    cases hclose : Build.close (Build.number t) stack with
    | none => rfl
    | some b' =>
      have hgap' : Scan.gap.step x = some (ts, .gap) := hgap
      change _ = ((Machine.mk .gap b').run (x :: tail)).bind Machine.finish
      rw [run_cons, step_of_quiet (quiet_of_close hclose) hgap']
      rfl

/-! ### The compact form -/

section Write

variable {lone : Bool}

/-- The digits of a number that is not zero do not start with a zero. -/
theorem integer_decimal (n : Nat) : Numeral.Integer (decimal n) := by
  induction n using Nat.strongRecOn with
  | ind n ih =>
    by_cases hn : n < 10
    · rw [decimal_of_lt hn]
      interval_cases n
      · exact .zero
      all_goals exact .digits rfl (by decide) rfl
    · have hlast : isDigit (digitOf (n % 10)) = true :=
        isDigit_digitOf (Nat.mod_lt n (by omega))
      have hquot : n / 10 ≠ 0 := by omega
      have hquotient := ih (n / 10) (by omega)
      rw [decimal_of_ge (Nat.not_lt.mp hn)]
      generalize hdigits : decimal (n / 10) = digits at hquotient
      cases hquotient with
      | zero =>
        -- only zero is spelt so
        have hvalue := valueOf_decimal (n / 10)
        rw [hdigits] at hvalue
        exact absurd hvalue.symm hquot
      | digits hx hne ht => exact .digits hx hne (by simp [ht, hlast])

/-- A number, in decimal. -/
theorem spells_nat (n : Nat) : Spells lone (.nat n) (decimal n) := by
  have hnumeral : Numeral (decimal n) := by
    simpa using Numeral.mk (.inl rfl) (integer_decimal n) .absent .absent
  have hspells : Spells lone (Build.number (decimal n)) (decimal n) := .number hnumeral
  rwa [number_decimal] at hspells

/-- A byte of a string, escaped where it has to be. -/
theorem speltPiece_escape (x : UInt8) : SpeltPiece lone [pieceOf x] (escape x) := by
  unfold escape
  -- the marks and the five short escapes first, then the other control characters, then all else
  split_ifs with hself hb8 hff hnl hcr htab hlow
  · have hpiece : pieceOf x = .byte x := by rcases hself with rfl | rfl <;> rfl
    rw [hpiece]
    exact .letter (by rcases hself with rfl | rfl <;> rfl)
  · subst hb8
    exact .letter rfl
  · subst hff
    exact .letter rfl
  · subst hnl
    exact .letter rfl
  · subst hcr
    exact .letter rfl
  · subst htab
    exact .letter rfl
  · have hpiece : pieceOf x = .unit x.toNat := by simp_all [pieceOf]
    have hvalue : valueOf 16 [zero, zero, Hex.digit (x / 16), Hex.digit (x % 16)] = x.toNat := by
      have hdiv : (x / 16).toNat = x.toNat / 16 := UInt8.toNat_div x 16
      have hmod : (x % 16).toNat = x.toNat % 16 := UInt8.toNat_mod x 16
      have hzero : ((Hex.value? zero).getD 0).toNat = 0 := rfl
      simp only [valueOf, List.foldl_cons, List.foldl_nil, (Hex.value?_digit x).1,
        (Hex.value?_digit x).2, Option.getD_some, hzero]
      omega
    have hdigits : UnitDigits [zero, zero, Hex.digit (x / 16), Hex.digit (x % 16)] := by
      refine ⟨rfl, ?_⟩
      have hzero : (Hex.value? zero).isSome = true := rfl
      simp [isHexDigit, (Hex.value?_digit x).1, (Hex.value?_digit x).2, hzero]
    rw [hpiece, ← hvalue]
    refine .unit hdigits fun hsurrogate => ?_
    -- a byte is no surrogate
    have hbound := x.toNat_lt
    rw [hvalue] at hsurrogate
    simp [isSurrogate, isLeading, isTrailing] at hsurrogate
    omega
  · have hpiece : pieceOf x = .byte x := by simp [pieceOf, hlow]
    rw [hpiece]
    simp only [not_or] at hself
    exact .byte hlow hself.1 hself.2

/-- **A text as the writer quotes it** is one of its spellings. -/
theorem spellsText_quoted (content : Bytes) : SpellsText lone content (quoted content) := by
  have hspelt : Spelt lone (content.map pieceOf) (content.flatMap escape) := by
    induction content with
    | nil => exact .nil
    | cons x content ih => exact .cons (speltPiece_escape x) ih
  have hspells := SpellsText.mk hspelt
  rwa [assemble_map_pieceOf] at hspells

/-- A field in its compact form. -/
def compactField (e : Bytes × Datum) : Field := ⟨e.1, quoted e.1, e.2, write e.2⟩

/-- The writer spells the name of a field. -/
theorem named_compactField (e : Bytes × Datum) : (compactField e).Named lone :=
  ⟨[], quoted e.1, [], rfl, spellsText_quoted e.1, rfl, by simp [compactField]⟩

/-- The items of a list as the writer puts them, with no blanks. -/
theorem itemsText_write (items : List Datum) :
    itemsText (items.map fun d => (d, write d)) = writeItems items := by
  induction items with
  | nil => rfl
  | cons d items ih =>
    rw [writeItems, ← ih]
    simp [itemsText]

/-- The fields of a map as the writer puts them, with no blanks. -/
theorem fieldsText_write (entries : List (Bytes × Datum)) :
    fieldsText (entries.map compactField) = writeEntries entries := by
  induction entries with
  | nil => rfl
  | cons e entries ih =>
    rw [writeEntries, ← ih]
    simp [fieldsText, Field.text, compactField]

/-- **The compact form spells its datum**, if this has a form that reads back. -/
theorem spells_write {shape : Shape} {d : Datum} (h : Reads shape d) :
    Spells lone d (write d) := by
  induction h with
  | null => exact .null
  | flag => exact .flag
  | nat => exact spells_nat _
  | text => exact .text (spellsText_quoted _)
  | @list _ _ items _ _ _ ih =>
    -- blanks are allowed between the brackets only where there is no item, as in the grammar
    cases items with
    | nil =>
      have hblanks : Blanks [] := rfl
      exact .noItems hblanks
    | cons d items =>
      obtain ⟨hd, hitems⟩ := List.forall_mem_cons.mp ih
      have hspelt : ∀ p ∈ items.map fun d => (d, write d), Spells lone p.1 p.2 :=
        List.forall_mem_map.mpr hitems
      have hspells := Spells.list hd hspelt
      -- the items that were spelt are those of the list again
      have hdata : (items.map fun d => (d, write d)).map (·.1) = items := by
        simp [Function.comp_def]
      rw [itemsText_write, hdata] at hspells
      rwa [write]
  | @map _ entries _ ih =>
    -- a map is like a list whose items have names
    cases entries with
    | nil =>
      have hblanks : Blanks [] := rfl
      exact .noFields hblanks
    | cons e entries =>
      obtain ⟨he, hentries⟩ := List.forall_mem_cons.mp ih
      have hnames : ∀ f ∈ (e :: entries).map compactField, f.Named lone :=
        List.forall_mem_map.mpr fun e _ => named_compactField e
      have hspelt : ∀ f ∈ entries.map compactField, Spells lone f.value f.valueText :=
        List.forall_mem_map.mpr hentries
      rw [List.map_cons] at hnames
      have hspells := Spells.map hnames he hspelt
      have hdata : (entries.map compactField).map Field.entry = entries := by
        simp [Function.comp_def, Field.entry, compactField]
      rw [fieldsText_write, hdata] at hspells
      simpa [write, Field.text, compactField, Field.entry] using hspells

end Write

end HeaderChain.Json
