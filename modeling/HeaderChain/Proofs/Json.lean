import Mathlib.Tactic.IntervalCases
import Mathlib.Tactic.SplitIfs
import HeaderChain.Json.Reader
import HeaderChain.Json.Writer

/-!
# What is written reads back

* `Json.Reads` — the data whose text says the same to a reader who looks for a given shape: no
  number but natural ones, and no list where a hash is looked for;
* `Json.Reads.run` — a machine that awaits a value goes through the text of one and comes out where
  the value is closed, whatever text follows. The induction is over the datum; strings and decimal
  numbers have lemmas of their own (`run_text`, `run_decimal`);
* `Json.read_write` — the same for a whole document.
-/

namespace HeaderChain.Json

open Ascii

/-! ### Running the machine -/

/-- A document of which no hash has just been completed. -/
def Build.Quiet (b : Build) : Prop := ∀ found, b.stage ≠ .trailing found

section Machine

variable {b : Build} {s s' : Scan} {x : UInt8} {t : Token} {ts : List Token} {rest : Bytes}

theorem run_cons (m : Machine) (x : UInt8) (rest : Bytes) :
    m.run (x :: rest) = (m.step x).bind (·.run rest) := rfl

/-- A text after another is read where the first has led. -/
theorem run_append (m : Machine) (text rest : Bytes) :
    m.run (text ++ rest) = (m.run text).bind (·.run rest) :=
  List.foldlM_append

/-- Where no hash has just been completed, a byte is scanned, and the tokens it completes are
taken. -/
theorem step_of_quiet (hb : b.Quiet) (hs : s.step x = some (ts, s')) :
    (Machine.mk s b).step x = (b.takeAll ts).map (Machine.mk s') := by
  unfold Machine.step
  split
  next found hstage => exact absurd hstage (hb found)
  next => simp [hs]

/-- A byte with which no token is complete. -/
theorem run_silent (hb : b.Quiet) (hs : s.step x = some ([], s')) :
    (Machine.mk s b).run (x :: rest) = (Machine.mk s' b).run rest := by
  rw [run_cons, step_of_quiet hb hs]
  rfl

/-- A byte with which one token is complete. -/
theorem run_token (hb : b.Quiet) (hs : s.step x = some ([t], .gap)) :
    (Machine.mk s b).run (x :: rest) = (b.take t).bind fun b => (Machine.mk .gap b).run rest := by
  rw [run_cons, step_of_quiet hb hs]
  cases h : b.take t <;> simp [Build.takeAll, h]

end Machine

/-! ### Words -/

section Words

variable {b : Build} {rest : Bytes} (hb : b.Quiet)

include hb

theorem run_null : (Machine.mk .gap b).run (write .null ++ rest) =
    (b.take .null).bind fun b => (Machine.mk .gap b).run rest := by
  simp only [write, List.cons_append, List.nil_append]
  rw [run_silent hb rfl, run_silent hb rfl, run_silent hb rfl, run_token hb rfl]

/-- The words of the two flags. -/
theorem run_flag (value : Bool) : (Machine.mk .gap b).run (write (.flag value) ++ rest) =
    (b.take (.flag value)).bind fun b => (Machine.mk .gap b).run rest := by
  cases value with
  | true =>
    simp only [write, List.cons_append, List.nil_append]
    rw [run_silent hb rfl, run_silent hb rfl, run_silent hb rfl, run_token hb rfl]
  | false =>
    simp only [write, List.cons_append, List.nil_append]
    rw [run_silent hb rfl, run_silent hb rfl, run_silent hb rfl, run_silent hb rfl,
      run_token hb rfl]

end Words

/-! ### Strings -/

/-- The piece that an escaped byte is read as. -/
def pieceOf (x : UInt8) : Piece :=
  if x = quote ∨ x = backslash ∨ x = 0x08 ∨ x = 0x0C ∨ x = newline ∨ x = carriageReturn ∨
      x = tab then
    .byte x
  else if x < 0x20 then .unit x.toNat
  else .byte x

section Strings

variable {b : Build} (hb : b.Quiet) (pieces : List Piece) (rest : Bytes)

include hb

/-- A backslash and a letter. -/
theorem run_letter {c x : UInt8} (hc : c ≠ letterU) (hx : escaped? c = some x) :
    (Machine.mk (.string pieces .plain) b).run (backslash :: c :: rest) =
      (Machine.mk (.string (.byte x :: pieces) .plain) b).run rest := by
  have hletter : (Scan.string pieces .slash).step c =
      some ([], .string (.byte x :: pieces) .plain) := by
    simp [Scan.step, Scan.stepString, hc, hx]
  rw [run_silent hb rfl, run_silent hb hletter]

/-- The escape of a byte by its two digits. -/
theorem run_unit (x : UInt8) :
    (Machine.mk (.string pieces .plain) b).run
        (backslash :: letterU :: zero :: zero :: Hex.digit (x / 16) :: Hex.digit (x % 16) :: rest) =
      (Machine.mk (.string (.unit x.toNat :: pieces) .plain) b).run rest := by
  -- a byte is its two hexadecimal digits
  have hvalue : 16 * (16 * 0 + (x / 16).toNat) + (x % 16).toNat = x.toNat := by
    have hdiv : (x / 16).toNat = x.toNat / 16 := UInt8.toNat_div x 16
    have hmod : (x % 16).toNat = x.toNat % 16 := UInt8.toNat_mod x 16
    omega
  have hhigh : (Scan.string pieces (.digits 2 0)).step (Hex.digit (x / 16)) =
      some ([], .string pieces (.digits 3 (16 * 0 + (x / 16).toNat))) := by
    simp only [Scan.step, Scan.stepString, (Hex.value?_digit x).1]
    rfl
  have hlow : (Scan.string pieces (.digits 3 (16 * 0 + (x / 16).toNat))).step (Hex.digit (x % 16)) =
      some ([], .string (.unit x.toNat :: pieces) .plain) := by
    simp only [Scan.step, Scan.stepString, (Hex.value?_digit x).2, Option.map_some, hvalue]
    rfl
  have hzeros : ∀ rest, (Machine.mk (.string pieces .plain) b).run
      (backslash :: letterU :: zero :: zero :: rest) =
        (Machine.mk (.string pieces (.digits 2 0)) b).run rest := by
    intro rest
    rw [run_silent hb rfl, run_silent hb rfl, run_silent hb rfl, run_silent hb rfl]
    rfl
  rw [hzeros, run_silent hb hhigh, run_silent hb hlow]

/-- **An escaped byte** reads back as its piece. -/
theorem run_escape (x : UInt8) :
    (Machine.mk (.string pieces .plain) b).run (escape x ++ rest) =
      (Machine.mk (.string (pieceOf x :: pieces) .plain) b).run rest := by
  -- along the branches of the writer: a letter for some bytes, digits for others, else the byte
  unfold escape
  split_ifs with hself hb8 hff hnl hcr htab hlow
  · have hpiece : pieceOf x = .byte x := by rcases hself with rfl | rfl <;> rfl
    rw [hpiece]
    rcases hself with rfl | rfl <;> exact run_letter hb pieces rest (by decide) rfl
  · subst hb8
    exact run_letter hb pieces rest (by decide) rfl
  · subst hff
    exact run_letter hb pieces rest (by decide) rfl
  · subst hnl
    exact run_letter hb pieces rest (by decide) rfl
  · subst hcr
    exact run_letter hb pieces rest (by decide) rfl
  · subst htab
    exact run_letter hb pieces rest (by decide) rfl
  · have hpiece : pieceOf x = .unit x.toNat := by
      simp_all [pieceOf]
    rw [hpiece]
    exact run_unit hb pieces rest x
  · have hpiece : pieceOf x = .byte x := by simp [pieceOf, hlow]
    rw [hpiece]
    refine run_silent hb ?_
    simp_all [Scan.step, Scan.stepString]

/-- A text as the writer escapes it, inside the string. -/
theorem run_escapes (content : Bytes) :
    (Machine.mk (.string pieces .plain) b).run (content.flatMap escape ++ rest) =
      (Machine.mk (.string ((content.map pieceOf).reverse ++ pieces) .plain) b).run rest := by
  induction content generalizing pieces with
  | nil => rfl
  | cons x content ih =>
    rw [List.flatMap_cons, List.append_assoc, run_escape hb, ih]
    simp

end Strings

/-- A byte below `0x80` is its own UTF-8 form. -/
theorem utf8_toNat {x : UInt8} (hx : x < 0x20) : utf8 x.toNat = [x] := by
  have hlt : x.toNat < 0x80 := by
    have := UInt8.lt_iff_toNat_lt.mp hx
    simp at this
    omega
  simp [utf8, hlt]

/-- A unit that is not half of a pair stands for a character of its own. -/
theorem assemble_unit {u : Nat} (hu : isLeading u = false) (pieces : List Piece) :
    Piece.assemble (.unit u :: pieces) = utf8 u ++ Piece.assemble pieces := by
  cases pieces with
  | nil => simp [Piece.assemble]
  | cons piece pieces => cases piece <;> simp [Piece.assemble, hu]

/-- **A string is put together again** from the pieces of its bytes. -/
theorem assemble_map_pieceOf (content : Bytes) :
    Piece.assemble (content.map pieceOf) = content := by
  induction content with
  | nil => rfl
  | cons x content ih =>
    rw [List.map_cons]
    -- a unit that stands for a byte is none of a pair
    by_cases hunit : ∃ u, pieceOf x = .unit u
    · obtain ⟨u, hu⟩ := hunit
      unfold pieceOf at hu
      split_ifs at hu with hletter hlow
      cases hu
      have hlead : isLeading x.toNat = false := by
        have := UInt8.lt_iff_toNat_lt.mp hlow
        simp at this
        simp [isLeading]
        omega
      have hpiece : pieceOf x = .unit x.toNat := by simp [pieceOf, hletter, hlow]
      rw [hpiece, assemble_unit hlead, ih, utf8_toNat hlow]
      rfl
    · have hpiece : pieceOf x = .byte x := by
        unfold pieceOf at hunit ⊢
        split_ifs at hunit ⊢ <;> simp_all
      rw [hpiece, Piece.assemble, ih]

/-- **A string in its quotation marks reads back.** -/
theorem run_text {b : Build} (hb : b.Quiet) (content rest : Bytes) :
    (Machine.mk .gap b).run (quoted content ++ rest) =
      (b.take (.text content)).bind fun b => (Machine.mk .gap b).run rest := by
  have hquoted : quoted content ++ rest =
      quote :: (content.flatMap escape ++ quote :: rest) := by simp [quoted]
  rw [hquoted, run_silent hb rfl, run_escapes hb, List.append_nil]
  refine run_token hb ?_
  simp [Scan.step, Scan.stepString, assemble_map_pieceOf]

/-! ### Numbers -/

/-- The digit for a number below ten. -/
def digitOf (n : Nat) : UInt8 := 0x30 + UInt8.ofNat n

/-- A number below ten has one digit. -/
theorem decimal_of_lt {n : Nat} (hn : n < 10) : decimal n = [digitOf n] := by
  rw [decimal, if_pos hn, digitOf]

/-- Any other number has those of its tenth, and one more. -/
theorem decimal_of_ge {n : Nat} (hn : 10 ≤ n) :
    decimal n = decimal (n / 10) ++ [digitOf (n % 10)] := by
  rw [decimal, if_neg (Nat.not_lt.mpr hn), digitOf]

theorem isDigit_digitOf {n : Nat} (hn : n < 10) : isDigit (digitOf n) = true := by
  interval_cases n <;> rfl

theorem value?_digitOf {n : Nat} (hn : n < 10) : Hex.value? (digitOf n) = some (UInt8.ofNat n) := by
  interval_cases n <;> rfl

theorem step_digitOf {n : Nat} (hn : n < 10) : Scan.gap.step (digitOf n) =
    some ([], .number (if n = 0 then .zero else .integer) [digitOf n]) := by
  interval_cases n <;> rfl

/-- A number is written in digits only. -/
theorem all_isDigit_decimal (n : Nat) : (decimal n).all isDigit = true := by
  induction n using Nat.strongRecOn with
  | ind n ih =>
    by_cases hn : n < 10
    · simp [decimal_of_lt hn, isDigit_digitOf hn]
    · rw [decimal_of_ge (Nat.not_lt.mp hn), List.all_append, ih (n / 10) (by omega)]
      simp [isDigit_digitOf (Nat.mod_lt n (by omega : 0 < 10))]

/-- **Decimal digits spell their number.** -/
theorem valueOf_decimal (n : Nat) : valueOf 10 (decimal n) = n := by
  have hdigit : ∀ {k : Nat}, k < 10 → ((Hex.value? (digitOf k)).getD 0).toNat = k := by
    intro k hk
    rw [value?_digitOf hk]
    exact UInt8.toNat_ofNat_of_lt (Nat.lt_trans hk (by decide))
  induction n using Nat.strongRecOn with
  | ind n ih =>
    by_cases hn : n < 10
    · simp [decimal_of_lt hn, valueOf, hdigit hn]
    · -- the last digit, and by induction the number that the others make
      have hmod : n % 10 < 10 := Nat.mod_lt n (by omega)
      have hdiv := ih (n / 10) (by omega)
      rw [valueOf] at hdiv
      rw [decimal_of_ge (Nat.not_lt.mp hn), valueOf, List.foldl_append, hdiv]
      simp only [List.foldl_cons, List.foldl_nil, hdigit hmod]
      omega

/-- **A number reads back** from its digits. -/
theorem number_decimal (n : Nat) : Build.number (decimal n) = .nat n := by
  rw [Build.number, if_pos (all_isDigit_decimal n), valueOf_decimal]

/-- A machine goes through decimal digits and is inside a number then. -/
theorem run_decimal {b : Build} (hb : b.Quiet) (n : Nat) :
    (Machine.mk .gap b).run (decimal n) =
      some ⟨.number (if n = 0 then .zero else .integer) (decimal n).reverse, b⟩ := by
  induction n using Nat.strongRecOn with
  | ind n ih =>
    -- a number of more than one digit begins with a digit that is not zero, so it stays an integer
    by_cases hn : n < 10
    · rw [decimal_of_lt hn, run_silent hb (step_digitOf hn)]
      rfl
    · have hdigit := isDigit_digitOf (Nat.mod_lt n (by omega : 0 < 10))
      have hquot : n / 10 ≠ 0 := by omega
      have hne : n ≠ 0 := by omega
      have hnext : (Scan.number .integer (decimal (n / 10)).reverse).step (digitOf (n % 10)) =
          some ([], .number .integer (digitOf (n % 10) :: (decimal (n / 10)).reverse)) := by
        simp [Scan.step, NumberPart.next?, hdigit]
      rw [decimal_of_ge (Nat.not_lt.mp hn), run_append, ih (n / 10) (by omega), if_neg hquot,
        if_neg hne, Option.bind_some, run_silent hb hnext]
      simp only [List.reverse_append, List.reverse_singleton, List.singleton_append]
      rfl

/-! ### Values -/

/-- What may follow a value that is a part of another. -/
def IsDelimiter (x : UInt8) : Prop := x = comma ∨ x = closeBracket ∨ x = closeBrace

/-- A text that tells that a number has ended. -/
def Delimited (rest : Bytes) : Prop := ∃ x tail, rest = x :: tail ∧ IsDelimiter x

/-- A document that awaits a value where this shape is looked for. -/
structure Build.Awaits (b : Build) (shape : Shape) (stack : List Frame) : Prop where
  quiet : b.Quiet
  take : ∀ t, t ≠ .closeList → b.take t = Build.takeValue shape stack t

/-- A document that is to have a value awaits it. -/
theorem awaits_value (shape : Shape) (stack : List Frame) :
    (Build.mk stack (.value shape)).Awaits shape stack :=
  ⟨fun _ h => (by cases h), fun _ _ => rfl⟩

/-- A list that has been opened awaits its first item. -/
theorem awaits_firstItem (shape : Shape) (stack : List Frame) :
    (Build.mk (.list shape [] :: stack) .firstItem).Awaits (shape.itemAfter (α := Datum) [])
      (.list shape [] :: stack) := by
  refine ⟨fun _ h => (by cases h), fun t ht => ?_⟩
  cases t <;> first | rfl | exact absurd rfl ht

/-- What stands after a closed value is no list of the bytes of a hash. -/
theorem quiet_of_close {d : Datum} {stack : List Frame} {b : Build}
    (h : Build.close d stack = some b) : b.Quiet := by
  intro found hstage
  unfold Build.close at h
  split at h <;> cases h <;> cases hstage

/-- A number that is followed by something reads back. -/
theorem run_nat {b : Build} {shape : Shape} {stack : List Frame} (hb : b.Awaits shape stack)
    (n : Nat) {rest : Bytes} (hrest : Delimited rest) :
    (Machine.mk .gap b).run (decimal n ++ rest) =
      (Build.close (.nat n) stack).bind fun b => (Machine.mk .gap b).run rest := by
  obtain ⟨x, tail, rfl, hx⟩ := hrest
  -- a delimiter is a token of its own, and no digit
  obtain ⟨t, hgap, hnext⟩ : ∃ t, Scan.gap.step x = some ([t], .gap) ∧
      (NumberPart.zero.next? x = none ∧ NumberPart.integer.next? x = none) := by
    rcases hx with rfl | rfl | rfl <;> exact ⟨_, rfl, rfl, rfl⟩
  -- the byte that ends the number belongs to the next token
  have hstep : (Scan.number (if n = 0 then .zero else .integer) (decimal n).reverse).step x =
      some ([.number (decimal n), t], .gap) := by
    have hgap' : Scan.stepGap x = some ([t], .gap) := hgap
    split_ifs <;> simp [Scan.step, hnext, NumberPart.isEnd, hgap']
  have hnumber : b.take (.number (decimal n)) = Build.close (.nat n) stack := by
    rw [hb.take _ (by simp), Build.takeValue, number_decimal]
  rw [run_append, run_decimal hb.quiet, Option.bind_some, run_cons, step_of_quiet hb.quiet hstep]
  simp only [Build.takeAll, List.foldlM_cons, List.foldlM_nil, hnumber]
  cases hclose : Build.close (.nat n) stack with
  | none => rfl
  | some b' =>
    rw [Option.bind_some, run_token (quiet_of_close hclose) hgap]
    change ((b'.take t).bind some).map _ >>= _ = _
    cases b'.take t <;> rfl

/-! ### Data -/

/-- **Data that reads back** where a shape is looked for: no list stands where a hash is looked for,
and all items of a list have one shape. -/
inductive Reads : Shape → Datum → Prop
  | null {shape : Shape} : Reads shape .null
  | flag {shape : Shape} {value : Bool} : Reads shape (.flag value)
  | nat {shape : Shape} {n : Nat} : Reads shape (.nat n)
  | text {shape : Shape} {content : Bytes} : Reads shape (.text content)
  | list {shape item : Shape} {items : List Datum}
    (hitem : ∀ acc : List Datum, shape.itemAfter acc = item)
    (hhash : ∀ acc : List Datum, shape.isComplete acc = false)
    (h : ∀ d ∈ items, Reads item d) : Reads shape (.list items)
  | map {shape : Shape} {entries : List (Bytes × Datum)}
    (h : ∀ e ∈ entries, Reads (shape.part e.1) e.2) : Reads shape (.map entries)

/-- A machine that awaits the value `d` goes through its text. Only a number needs to be told that
it has ended. -/
def Passes (shape : Shape) (d : Datum) : Prop :=
  ∀ {b : Build} {stack : List Frame} {rest : Bytes}, b.Awaits shape stack →
    (Delimited rest ∨ ∀ n, d ≠ .nat n) → (Machine.mk .gap b).run (write d ++ rest) =
      (Build.close d stack).bind fun b => (Machine.mk .gap b).run rest

/-- Behind an item stands a comma or the closing bracket. -/
theorem delimited_writeItems (items : List Datum) (rest : Bytes) :
    Delimited (writeItems items ++ rest) := by
  cases items with
  | nil => exact ⟨closeBracket, rest, by simp [writeItems], .inr (.inl rfl)⟩
  | cons d items =>
    exact ⟨comma, write d ++ (writeItems items ++ rest), by simp [writeItems], .inl rfl⟩

/-- Behind an entry stands a comma or the closing brace. -/
theorem delimited_writeEntries (entries : List (Bytes × Datum)) (rest : Bytes) :
    Delimited (writeEntries entries ++ rest) := by
  cases entries with
  | nil => exact ⟨closeBrace, rest, by simp [writeEntries], .inr (.inr rfl)⟩
  | cons e entries =>
    exact ⟨comma, quoted e.1 ++ colon :: (write e.2 ++ (writeEntries entries ++ rest)),
      by simp [writeEntries], .inl rfl⟩

/-- The items of a list after the first, and its end. -/
theorem run_writeItems {shape item : Shape} {items : List Datum}
    (hitem : ∀ acc : List Datum, shape.itemAfter acc = item)
    (hhash : ∀ acc : List Datum, shape.isComplete acc = false)
    (h : ∀ d ∈ items, Passes item d) (acc : List Datum) (stack : List Frame) (rest : Bytes) :
    (Machine.mk .gap ⟨.list shape acc :: stack, .separator⟩).run (writeItems items ++ rest) =
      (Build.close (.list (acc.reverse ++ items)) stack).bind
        fun b => (Machine.mk .gap b).run rest := by
  have hquiet : (Build.mk (.list shape acc :: stack) .separator).Quiet := fun _ h => (by cases h)
  induction items generalizing acc with
  | nil =>
    rw [writeItems, List.singleton_append, run_token hquiet rfl, List.append_nil]
    rfl
  | cons d items ih =>
    obtain ⟨hd, hitems⟩ := List.forall_mem_cons.mp h
    rw [writeItems, List.cons_append, List.append_assoc, run_token hquiet rfl]
    -- after the comma the next item is awaited
    have hcomma : (Build.mk (.list shape acc :: stack) .separator).take .comma =
        some ⟨.list shape acc :: stack, .value item⟩ := by
      simp [Build.take, Build.afterComma, hhash, hitem]
    rw [hcomma, Option.bind_some, hd (awaits_value _ _) (.inl (delimited_writeItems items rest)),
      Build.close, Option.bind_some, ih hitems (d :: acc) (fun _ h => (by cases h))]
    simp

/-- The name of an entry and what follows it. -/
theorem run_entry {shape : Shape} {name : Bytes} {d : Datum} (hd : Passes (shape.part name) d)
    {b : Build} (hb : b.Quiet) {acc : List (Bytes × Datum)} {stack : List Frame}
    (hname : b.take (.text name) = some ⟨.entry shape acc name :: stack, .colon⟩) {rest : Bytes}
    (hrest : Delimited rest) :
    (Machine.mk .gap b).run (quoted name ++ (colon :: (write d ++ rest))) =
      (Machine.mk .gap ⟨.map shape ((name, d) :: acc) :: stack, .separator⟩).run rest := by
  have hquiet : (Build.mk (.entry shape acc name :: stack) .colon).Quiet := fun _ h => (by cases h)
  rw [run_text hb, hname, Option.bind_some, run_token hquiet rfl]
  exact hd (awaits_value _ _) (.inl hrest)

/-- The entries of a map after the first, and its end. -/
theorem run_writeEntries {shape : Shape} {entries : List (Bytes × Datum)}
    (h : ∀ e ∈ entries, Passes (shape.part e.1) e.2) (acc : List (Bytes × Datum))
    (stack : List Frame) (rest : Bytes) :
    (Machine.mk .gap ⟨.map shape acc :: stack, .separator⟩).run (writeEntries entries ++ rest) =
      (Build.close (.map (acc.reverse ++ entries)) stack).bind
        fun b => (Machine.mk .gap b).run rest := by
  have hquiet : (Build.mk (.map shape acc :: stack) .separator).Quiet := fun _ h => (by cases h)
  -- the entries that have been read are carried along, newest first
  induction entries generalizing acc with
  | nil =>
    rw [writeEntries, List.singleton_append, run_token hquiet rfl, List.append_nil]
    rfl
  | cons e entries ih =>
    obtain ⟨name, d⟩ := e
    obtain ⟨hd, hentries⟩ := List.forall_mem_cons.mp h
    have hname : (Build.mk (.map shape acc :: stack) .name).Quiet := fun _ h => (by cases h)
    have htext : writeEntries ((name, d) :: entries) ++ rest =
        comma :: (quoted name ++ (colon :: (write d ++ (writeEntries entries ++ rest)))) := by
      simp [writeEntries]
    rw [htext, run_token hquiet rfl]
    change (Machine.mk .gap ⟨.map shape acc :: stack, .name⟩).run _ = _
    rw [run_entry hd hname rfl (delimited_writeEntries entries rest),
      ih hentries ((name, d) :: acc) (fun _ h => (by cases h))]
    simp

/-- **A machine goes through the text of a datum** and comes out where the datum is closed. -/
theorem Reads.passes {shape : Shape} {d : Datum} (h : Reads shape d) : Passes shape d := by
  -- a part that is closed leaves a document that awaits what follows it
  induction h with
  | null =>
    intro b stack rest hb _
    rw [run_null hb.quiet, hb.take _ (by simp)]
    rfl
  | flag =>
    intro b stack rest hb _
    rw [run_flag hb.quiet, hb.take _ (by simp)]
    rfl
  | nat =>
    intro b stack rest hb hrest
    exact run_nat hb _ (hrest.resolve_right fun h => h _ rfl)
  | text =>
    intro b stack rest hb _
    rw [write, run_text hb.quiet, hb.take _ (by simp)]
    rfl
  -- a list is opened, its first item follows at once, and each further one after a comma
  | @list shape item items hitem hhash _ ih =>
    intro b stack rest hb hrest
    have hopen : b.take .openList = some ⟨.list shape [] :: stack, .firstItem⟩ :=
      hb.take _ (by simp)
    have hfirst := awaits_firstItem shape stack
    cases items with
    | nil =>
      rw [write, List.cons_append, run_token hb.quiet rfl, hopen, Option.bind_some,
        List.singleton_append, run_token hfirst.quiet rfl]
      rfl
    | cons d items =>
      obtain ⟨hd, hitems⟩ := List.forall_mem_cons.mp ih
      rw [hitem] at hfirst
      rw [write, List.cons_append, run_token hb.quiet rfl, hopen, Option.bind_some,
        List.append_assoc, hd hfirst (.inl (delimited_writeItems items rest)), Build.close,
        Option.bind_some, run_writeItems hitem hhash hitems]
      rfl
  -- a map is read the same way, with a name and a colon before each value
  | @map shape entries _ ih =>
    intro b stack rest hb hrest
    have hopen : b.take .openMap = some ⟨.map shape [] :: stack, .firstName⟩ := hb.take _ (by simp)
    have hfirst : (Build.mk (.map shape [] :: stack) .firstName).Quiet := fun _ h => (by cases h)
    cases entries with
    | nil =>
      rw [write, List.cons_append, run_token hb.quiet rfl, hopen, Option.bind_some,
        List.singleton_append, run_token hfirst rfl]
      rfl
    | cons e entries =>
      obtain ⟨name, d⟩ := e
      obtain ⟨hd, hentries⟩ := List.forall_mem_cons.mp ih
      have htext : write (.map ((name, d) :: entries)) ++ rest =
          openBrace :: (quoted name ++ (colon :: (write d ++ (writeEntries entries ++ rest)))) := by
        simp [write]
      rw [htext, run_token hb.quiet rfl, hopen, Option.bind_some,
        run_entry hd hfirst rfl (delimited_writeEntries entries rest), run_writeEntries hentries]
      rfl

/-! ### Documents -/

/-- **What is written reads back.** -/
theorem read_write {shape : Shape} {d : Datum} (h : Reads shape d) :
    read shape (write d) = some d := by
  have hawaits := awaits_value shape []
  by_cases hnat : ∃ n, d = .nat n
  · obtain ⟨n, rfl⟩ := hnat
    -- the number ends with the text
    have hfinish : Scan.finish (.number (if n = 0 then .zero else .integer) (decimal n).reverse) =
        some [.number (decimal n)] := by
      split_ifs <;> simp [Scan.finish, NumberPart.isEnd]
    have htake : (Build.start shape).takeAll [.number (decimal n)] = some ⟨[], .done (.nat n)⟩ := by
      change (Build.takeValue shape [] (.number (decimal n))).bind some = _
      rw [Build.takeValue, number_decimal]
      rfl
    rw [read, write, Machine.start, Build.start, run_decimal hawaits.quiet]
    simp only [Option.bind_some, Machine.finish, hfinish]
    rw [← Build.start, htake]
  · have hrun : (Machine.mk .gap ⟨[], .value shape⟩).run (write d ++ []) =
        (Build.close d []).bind fun b => (Machine.mk .gap b).run [] :=
      h.passes hawaits (.inr fun n heq => hnat ⟨n, heq⟩)
    rw [List.append_nil] at hrun
    rw [read, Machine.start, Build.start, hrun]
    rfl

end HeaderChain.Json
