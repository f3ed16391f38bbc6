import HeaderChain.Proofs.Spelling

/-!
# Every spelling is read

Whatever a datum is spelt like, its text is read as this datum, with one exception: of a list where
a hash is looked for, the items after the thirty-second are not read but passed over
(`Json.Trailing`). `Json.seen` is what is left of a datum then.

* `Json.Trailing.Leads`, `Json.Spells.leads` — what follows the bytes of a hash, if it is an item in
  any spelling: reading fails, or it comes to a place where the list may end and not go on;
* `Json.Spells.reaches` — a machine that awaits a value goes through any text of one and comes out
  where it is closed. The induction is over the grammar;
* `Json.read_of_spells` — the same for a whole document: it is read as itself if nothing of it is
  passed over. If something is, it is read as what is left, or not at all. This does not hold where
  half a surrogate pair stands alone: reading breaks off behind it, inside the string.
-/

namespace HeaderChain.Json

open Ascii

/-! ### What is seen of a datum -/

mutual

/-- **What is seen of a datum** by a reader that looks for a shape: a list has thirty-two items at
most where a hash is looked for. -/
def seen : Shape → Datum → Datum
  | shape, .list items => .list (seenItems shape [] items)
  | shape, .map entries => .map (seenEntries shape entries)
  | _, d => d

/-- The items of a list after those that have been read, newest first. -/
def seenItems : Shape → List Datum → List Datum → List Datum
  | _, _, [] => []
  | shape, read, d :: items =>
    if shape.isComplete read then []
    else
      seen (shape.itemAfter read) d :: seenItems shape (seen (shape.itemAfter read) d :: read) items

/-- What is seen of the entries of a map: the parts that its schema names. -/
def seenEntries : Shape → List (Bytes × Datum) → List (Bytes × Datum)
  | _, [] => []
  | shape, (name, d) :: entries => (name, seen (shape.part name) d) :: seenEntries shape entries

end

/-- A datum of which nothing is passed over. -/
def Whole (shape : Shape) (d : Datum) : Prop := seen shape d = d

/-- Of a map, each entry is seen by the shape of its part. -/
theorem seenEntries_eq_map (shape : Shape) (entries : List (Bytes × Datum)) :
    seenEntries shape entries = entries.map fun e => (e.1, seen (shape.part e.1) e.2) := by
  induction entries with
  | nil => rw [seenEntries, List.map_nil]
  | cons e entries ih => rw [seenEntries, ih, List.map_cons]

theorem seen_map (shape : Shape) (entries : List (Bytes × Datum)) :
    seen shape (.map entries) = .map (entries.map fun e => (e.1, seen (shape.part e.1) e.2)) := by
  rw [seen, seenEntries_eq_map]

/-- Where every item has one shape and no list is complete early, each is seen by that shape. -/
theorem seenItems_eq_map {shape item : Shape}
    (hitem : ∀ acc : List Datum, shape.itemAfter acc = item)
    (hhash : ∀ acc : List Datum, shape.isComplete acc = false) (acc items : List Datum) :
    seenItems shape acc items = items.map (seen item) := by
  induction items generalizing acc with
  | nil => rw [seenItems, List.map_nil]
  | cons d items ih => simp [seenItems, hhash, hitem, ih]

/-- Of a list of one shape, each item is seen by it. -/
theorem seen_listOf (item : Shape) (items : List Datum) :
    seen (.listOf item) (.list items) = .list (items.map (seen item)) := by
  rw [seen, seenItems_eq_map (fun _ => rfl) (fun _ => rfl)]

/-- A map is whole if the values of its entries are. -/
theorem whole_map_iff {shape : Shape} {entries : List (Bytes × Datum)} :
    Whole shape (.map entries) ↔ ∀ e ∈ entries, Whole (shape.part e.1) e.2 := by
  have hentry : ∀ e : Bytes × Datum, (e.1, seen (shape.part e.1) e.2) = id e ↔
      Whole (shape.part e.1) e.2 := fun e => by simp [Prod.ext_iff, Whole]
  rw [Whole, seen_map, Datum.map.injEq]
  nth_rewrite 2 [← List.map_id entries]
  rw [List.map_inj_left]
  exact forall₂_congr fun e _ => hentry e

/-- A list is whole if its items are. -/
theorem whole_listOf_iff {item : Shape} {items : List Datum} :
    Whole (.listOf item) (.list items) ↔ ∀ d ∈ items, Whole item d := by
  rw [Whole, seen_listOf, Datum.list.injEq]
  nth_rewrite 2 [← List.map_id items]
  exact List.map_inj_left

/-- Of what has no parts nothing is passed over. -/
theorem whole_scalar (shape : Shape) {d : Datum} (hlist : ∀ items, d ≠ .list items)
    (hmap : ∀ entries, d ≠ .map entries) : Whole shape d := by
  cases d with
  | list items => exact absurd rfl (hlist items)
  | map entries => exact absurd rfl (hmap entries)
  | _ => rw [Whole, seen] <;> simp

/-- A datum that reads back from its compact form is whole. -/
theorem Reads.whole {shape : Shape} {d : Datum} (h : Reads shape d) : Whole shape d := by
  induction h with
  | null | flag | nat | text => exact whole_scalar _ (by simp) (by simp)
  | list hitem hhash _ ih =>
    rw [Whole, seen, seenItems_eq_map hitem hhash]
    exact congrArg Datum.list ((List.map_congr_left ih).trans (List.map_id _))
  | map _ ih => exact whole_map_iff.mpr ih

mutual

/-- **Where no hash is looked for** a datum is whole. -/
theorem whole_anything : ∀ d : Datum, seen .anything d = d
  | .null | .flag _ | .nat _ | .other _ | .text _ => whole_scalar _ (by simp) (by simp)
  | .list items => by rw [seen, whole_anything_items]
  | .map entries => by rw [seen, whole_anything_entries]

/-- A shape that takes anything sees every item of a list whole. -/
theorem whole_anything_items : ∀ read items : List Datum, seenItems .anything read items = items
  | _, [] => by rw [seenItems]
  | read, d :: items => by
    have hd : seen (Shape.anything.itemAfter read) d = d := whole_anything d
    have hhash : Shape.anything.isComplete read = false := rfl
    rw [seenItems, hd, hhash, if_neg (by simp), whole_anything_items]

/-- And every entry of a map. -/
theorem whole_anything_entries : ∀ entries : List (Bytes × Datum),
    seenEntries .anything entries = entries
  | [] => by rw [seenEntries]
  | (name, d) :: entries => by
    have hd : seen (Shape.anything.part name) d = d := whole_anything d
    rw [seenEntries, hd, whole_anything_entries]

end

/-! ### What follows the bytes of a hash -/

/-- A machine that reads what follows the bytes of a hash. -/
def Machine.passing (stack : List Frame) (found : Trailing) : Machine :=
  ⟨.gap, ⟨stack, .trailing found⟩⟩

namespace Trailing

variable {found next : Trailing} {t t' : Bytes} {x : UInt8} {p q : NumberPart}
  {P Q : Trailing → Prop}

/-- **Reading what follows the bytes of a hash** over a text: it fails, or it is somewhere in the
list still, with something found that has a property. -/
def Leads (found : Trailing) (t : Bytes) (P : Trailing → Prop) : Prop :=
  ∀ stack, (Machine.passing stack found).run t = none ∨
    ∃ next, P next ∧ (Machine.passing stack found).run t = some (Machine.passing stack next)

theorem leads_nil (h : P found) : found.Leads [] P := fun _ => .inr ⟨found, h, rfl⟩

theorem leads_of_none (h : found.step x = none) : found.Leads (x :: t) P := by
  intro stack
  have hstep : (Machine.passing stack found).step x = none := by
    simp [Machine.step, Machine.passing, Build.takeTrailing, h]
  exact .inl (by rw [run_cons, hstep, Option.bind_none])

theorem leads_cons (h : found.step x = some next) (hne : next ≠ .ended) (hnext : next.Leads t P) :
    found.Leads (x :: t) P := by
  intro stack
  have hstep : (Machine.passing stack found).step x = some (Machine.passing stack next) := by
    cases next with
    | ended => exact absurd rfl hne
    | _ => simp [Machine.step, Machine.passing, Build.takeTrailing, h]
  rw [run_cons, hstep, Option.bind_some]
  exact hnext stack

/-- What leads somewhere is led on by what follows. -/
theorem Leads.append (h : found.Leads t P) (h' : ∀ next, P next → next.Leads t' Q) :
    found.Leads (t ++ t') Q := by
  intro stack
  rw [run_append]
  rcases h stack with hnone | ⟨next, hnext, hrun⟩
  · exact .inl (by rw [hnone, Option.bind_none])
  · rw [hrun, Option.bind_some]
    exact h' next hnext stack

/-- **A place where the list may end**, and not go on: a blank or a delimiter is read as if reading
had broken off, if it is read. -/
def Settles (found : Trailing) : Prop :=
  ∀ x, isBlank x = true ∨ IsDelimiter x → found.step x = none ∨ found.step x = stepStopped x

theorem settles_stopped : Settles .stopped := fun _ _ => .inr rfl

/-- Where the list may end, blanks change nothing. -/
theorem Settles.blanks (h : found.Settles) (ht : Blanks t) : found.Leads t Settles := by
  induction t generalizing found with
  | nil => exact leads_nil h
  | cons x t ih =>
    obtain ⟨hx, ht⟩ : isBlank x = true ∧ t.all isBlank = true := by simpa [Blanks] using ht
    rcases h x (.inl hx) with hnone | hstopped
    · exact leads_of_none hnone
    · -- from the first blank on, nothing is awaited but the end
      have hstep : found.step x = some .stopped := by simp [hstopped, stepStopped, hx]
      exact leads_cons hstep (by simp) (ih settles_stopped ht)

/-- Blanks before the item are passed over. -/
theorem start_blanks (ht : Blanks t) : Trailing.start.Leads t (· = .start) := by
  induction t with
  | nil => exact leads_nil rfl
  | cons x t ih =>
    obtain ⟨hx, ht⟩ : isBlank x = true ∧ t.all isBlank = true := by simpa [Blanks] using ht
    have hstep : Trailing.start.step x = some .start := by simp [step, stepStart, hx]
    exact leads_cons hstep (by simp) (ih ht)

/-! ### A number behind the bytes of a hash -/

/-- What may have been found where a number stands in this part. The digits of an exponent that is
too large end it early. -/
def Follows (p : NumberPart) (found : Trailing) : Prop :=
  (∃ spelling, found = .number p spelling) ∨
    p = .exponent ∧ (found = .stopped ∨ ∃ value, found = .exponent value)

/-- A number never ends the list by itself. -/
theorem Follows.ne_ended (h : Follows p found) : found ≠ .ended := by
  rcases h with ⟨_, rfl⟩ | ⟨-, rfl | ⟨_, rfl⟩⟩ <;> exact nofun

/-- Only digits belong to an exponent. -/
theorem isDigit_of_next? (hp : p = .mark ∨ p = .markSign ∨ p = .exponent)
    (h : p.next? x = some .exponent) : isDigit x = true := by
  by_contra hdigit
  rcases hp with rfl | rfl | rfl <;> simp [NumberPart.next?, hdigit] at h

/-- Within an exponent, only a digit goes on, and it stays an exponent. -/
theorem next?_exponent (h : NumberPart.exponent.next? x = some q) :
    q = .exponent ∧ isDigit x = true := by
  simp only [NumberPart.next?] at h
  split_ifs at h with hdigit
  exact ⟨(Option.some.inj h).symm, hdigit⟩

/-- One more digit of an exponent, whatever the value so far. -/
theorem follows_stepExponent (value : Nat) (hx : isDigit x = true) :
    ∃ next, Follows .exponent next ∧ stepExponent value x = some next := by
  refine ⟨_, ?_, by rw [stepExponent, if_pos hx]⟩
  split_ifs
  · exact .inr ⟨rfl, .inl rfl⟩
  · exact .inr ⟨rfl, .inr ⟨_, rfl⟩⟩

/-- Each byte that the grammar allows in a number is taken. -/
theorem follows_stepNumber (spelling : Bytes) (h : p.next? x = some q) :
    ∃ next, Follows q next ∧ stepNumber p spelling x = some next := by
  unfold stepNumber
  split
  next _ _ hnext =>
    -- the first digit of an exponent
    obtain rfl := Option.some.inj (h.symm.trans hnext)
    split_ifs
    · exact follows_stepExponent 0 (isDigit_of_next? (.inl rfl) h)
    · exact ⟨_, .inl ⟨_, rfl⟩, rfl⟩
  next _ _ hnext =>
    obtain rfl := Option.some.inj (h.symm.trans hnext)
    split_ifs
    · exact follows_stepExponent 0 (isDigit_of_next? (.inr (.inl rfl)) h)
    · exact ⟨_, .inl ⟨_, rfl⟩, rfl⟩
  next _ _ hnext =>
    obtain rfl := Option.some.inj (h.symm.trans hnext)
    exact ⟨_, .inl ⟨_, rfl⟩, rfl⟩
  all_goals
    rename_i hnext
    cases h.symm.trans hnext

/-- **A number that goes on** is followed, unless reading has broken off inside it. -/
theorem Follows.step (h : Follows p found) (hx : p.next? x = some q) :
    found.step x = none ∨ ∃ next, Follows q next ∧ found.step x = some next := by
  rcases h with ⟨spelling, rfl⟩ | ⟨rfl, rfl | ⟨value, rfl⟩⟩
  · exact .inr (follows_stepNumber spelling hx)
  · -- no digit may follow where reading has broken off
    obtain ⟨-, hdigit⟩ := next?_exponent hx
    obtain ⟨n, hn, rfl⟩ := exists_digitOf hdigit
    exact .inl (by interval_cases n <;> rfl)
  · obtain ⟨rfl, hdigit⟩ := next?_exponent hx
    exact .inr (follows_stepExponent value hdigit)

/-- A stretch of a number is taken, byte by byte. -/
theorem Follows.leads (h : Follows p found) (ht : p.after? t = some q) :
    found.Leads t (Follows q) := by
  induction t generalizing p found with
  | nil => exact leads_nil (Option.some.inj ht ▸ h)
  | cons x t ih =>
    obtain ⟨next, hnext, hafter⟩ := Option.bind_eq_some_iff.mp ht
    rcases h.step hnext with hnone | ⟨found', hfound, hstep⟩
    · exact leads_of_none hnone
    · exact leads_cons hstep hfound.ne_ended (ih hfound hafter)

/-- Where a number may end, the list may. -/
theorem Follows.settles (h : Follows q found) (hend : q.isEnd = true) : found.Settles := by
  intro x hx
  have hnext : ∀ p : NumberPart, p.next? x = none := (step_of_ends hx).2
  -- a number that would be one byte more is refused; behind any other nothing more is read
  rcases h with ⟨spelling, rfl⟩ | ⟨-, rfl | ⟨value, rfl⟩⟩
  · have hstep : stepNumber q spelling x = if isByte spelling then none else stepStopped x := by
      cases q <;> first | simp [stepNumber, hnext]; done | cases hend
    change stepNumber q spelling x = none ∨ stepNumber q spelling x = stepStopped x
    rw [hstep]
    split_ifs
    · exact .inl rfl
    · exact .inr rfl
  · exact .inr rfl
  · have hdigit : ¬isDigit x = true := by
      intro hdigit
      have hnone := hnext .exponent
      simp [NumberPart.next?, hdigit] at hnone
    exact .inr (if_neg hdigit)

/-- The first byte of a number is taken as one. -/
theorem start_first (h : NumberPart.first? x = some p) :
    Trailing.start.step x = some (.number p [x]) := by
  rcases cases_first h with ⟨rfl, rfl⟩ | ⟨n, hn, rfl, rfl⟩
  · rfl
  · interval_cases n <;> rfl

/-- A number behind the bytes of a hash. -/
theorem start_numeral (h : Numeral t) : Trailing.start.Leads t Settles := by
  obtain ⟨x, t, p, q, rfl, hfirst, hafter, hend⟩ := h.parts
  have hfollows : Follows p (.number p [x]) := .inl ⟨[x], rfl⟩
  have hleads : (number p [x]).Leads (t ++ []) Settles :=
    (hfollows.leads hafter).append fun next hnext => leads_nil (hnext.settles hend)
  rw [List.append_nil] at hleads
  exact leads_cons (start_first hfirst) (by simp) hleads

/-! ### A string behind the bytes of a hash -/

/-- What the four digits of an escape come to: a leading half of a pair waits for the other, and
half of a pair that stands alone breaks reading off. -/
theorem ofDigits_reverse (ht : UnitDigits t) (paired : Bool) : ofDigits paired t.reverse =
    if paired then if isTrailing (valueOf 16 t) then string .plain else stopped
    else if isTrailing (valueOf 16 t) then stopped
    else if isLeading (valueOf 16 t) then string .half
    else string .plain := by
  simp [ofDigits, ht.2]

/-- The four digits of an escape are taken one by one. -/
theorem leads_digits (ht : UnitDigits t) (paired : Bool) (hnext : ofDigits paired t.reverse = next)
    (hne : next ≠ .ended) : (string (.digits paired [])).Leads t (· = next) := by
  obtain ⟨a, b, c, d, -, -, -, -, rfl, -⟩ := ht.exists_digits
  exact leads_cons rfl nofun <| leads_cons rfl nofun <| leads_cons rfl nofun <|
    leads_cons (congrArg some hnext) hne (leads_nil rfl)

/-- An escaped unit in a string. -/
theorem leads_unit (ht : UnitDigits t) (hnext : ofDigits false t.reverse = next)
    (hne : next ≠ .ended) : (string .plain).Leads (backslash :: letterU :: t) (· = next) := by
  have hslash : (string .plain).step backslash = some (string .slash) := rfl
  have hletter : (string .slash).step letterU = some (string (.digits false [])) := rfl
  exact leads_cons hslash (by simp) (leads_cons hletter (by simp) (leads_digits ht false hnext hne))

/-- **A string goes on** behind each of its characters, as long as no surrogate stands alone. -/
theorem leads_piece {pieces : List Piece} (h : SpeltPiece false pieces t) :
    (string .plain).Leads t (· = string .plain) := by
  -- without lone halves, each piece leaves the string where it was
  cases h with
  | @byte x hx hquote hslash =>
    have hstep : (string .plain).step x = some (string .plain) := by
      simp [step, stepString, hquote, hslash, hx]
    exact leads_cons hstep (by simp) (leads_nil rfl)
  | @letter c x hc =>
    have hslash : (string .plain).step backslash = some (string .slash) := rfl
    have hletter : (string .slash).step c = some (string .plain) := by
      simp [step, stepString, ne_letterU_of_escaped? hc, hc]
    exact leads_cons hslash (by simp) (leads_cons hletter (by simp) (leads_nil rfl))
  | @unit t ht hlone =>
    have hsurrogate : isTrailing (valueOf 16 t) = false ∧ isLeading (valueOf 16 t) = false := by
      simpa [isSurrogate, and_comm] using hlone
    have hplain : ofDigits false t.reverse = string .plain := by
      simp [ofDigits_reverse ht, hsurrogate]
    exact leads_unit ht hplain (by simp)
  | @pair t t' ht ht' hlead htrail =>
    have hno : isTrailing (valueOf 16 t) = false := by
      simp [isLeading, isTrailing] at hlead ⊢
      omega
    have hhalf : ofDigits false t.reverse = string .half := by
      simp [ofDigits_reverse ht, hlead, hno]
    have hpair : ofDigits true t'.reverse = string .plain := by
      simp [ofDigits_reverse ht', htrail]
    -- the other half has to follow at once
    have hslash : (string .half).step backslash = some (string .halfSlash) := rfl
    have hletter : (string .halfSlash).step letterU = some (string (.digits true [])) := rfl
    have hsecond : (string .half).Leads (backslash :: letterU :: t') (· = string .plain) :=
      leads_cons hslash (by simp) <| leads_cons hletter (by simp) <|
        leads_digits ht' true hpair (by simp)
    exact (leads_unit ht hhalf (by simp)).append fun _ hnext => hnext ▸ hsecond

/-- A text without lone halves is gone through, inside the string. -/
theorem leads_spelt {pieces : List Piece} (h : Spelt false pieces t) :
    (string .plain).Leads t (· = string .plain) := by
  induction h with
  | nil => exact leads_nil rfl
  | cons hpiece _ ih => exact (leads_piece hpiece).append fun _ hnext => hnext ▸ ih

/-- A string behind the bytes of a hash. -/
theorem start_text {content : Bytes} (h : SpellsText false content t) :
    Trailing.start.Leads t Settles := by
  obtain @⟨pieces, t, hpieces⟩ := h
  have hopen : Trailing.start.step quote = some (string .plain) := rfl
  have hclose : (string .plain).step quote = some .stopped := rfl
  have hquote : (string .plain).Leads [quote] Settles :=
    leads_cons hclose (by simp) (leads_nil settles_stopped)
  have hrest : (string .plain).Leads (t ++ [quote]) Settles :=
    (leads_spelt hpieces).append fun _ hnext => hnext ▸ hquote
  exact leads_cons hopen (by simp) hrest

/-- A word behind the bytes of a hash. -/
theorem start_word {d : Datum} (hd : d = .null ∨ ∃ value, d = .flag value) :
    Trailing.start.Leads (write d) Settles := by
  rcases hd with rfl | ⟨value, rfl⟩
  · exact fun _ => .inr ⟨.stopped, settles_stopped, rfl⟩
  · cases value <;> exact fun _ => .inr ⟨.stopped, settles_stopped, rfl⟩

end Trailing

/-- **An item behind the bytes of a hash**: it is passed over, and the list may end behind it and
not go on, or reading fails. -/
theorem Spells.leads {d : Datum} {t : Bytes} (h : Spells false d t) :
    Trailing.start.Leads t Trailing.Settles := by
  induction h with
  | null => exact Trailing.start_word (.inl rfl)
  | flag => exact Trailing.start_word (.inr ⟨_, rfl⟩)
  | number h => exact Trailing.start_numeral h
  | text h => exact Trailing.start_text h
  -- a list or a map is not read into
  | noItems | list | noFields | map => exact Trailing.leads_of_none rfl
  | padded hbefore _ hafter ih =>
    refine (Trailing.start_blanks hbefore).append fun _ hstart => ?_
    subst hstart
    exact ih.append fun _ hsettles => hsettles.blanks hafter

/-! ### The machine on a spelling -/

section Reaches

variable {lone : Bool} {shape : Shape} {d : Datum} {t rest : Bytes} {b : Build}
  {stack : List Frame}

/-- **A machine goes through a text of a datum** and comes out where what is seen of it is closed.
Where something is passed over, the text may also be no text. -/
def Reaches (lone : Bool) (shape : Shape) (d : Datum) (t : Bytes) : Prop :=
  ∀ {b : Build} {stack : List Frame} {rest : Bytes}, b.Awaits shape stack → Ends rest →
    (Machine.mk .gap b).outcome (t ++ rest) = Build.told (Build.close (seen shape d) stack) rest ∨
      seen shape d ≠ d ∧ (lone = false → (Machine.mk .gap b).outcome (t ++ rest) = none)

/-- A byte that is a token by itself, with what is told of the rest. -/
theorem outcome_token (hb : b.Quiet) {x : UInt8} {token : Token}
    (hs : Scan.gap.step x = some ([token], .gap)) :
    (Machine.mk .gap b).outcome (x :: rest) = Build.told (b.take token) rest :=
  outcome_of_run (run_token hb hs)

/-- Blanks after a value change nothing that is told of it. -/
theorem told_blanks (ht : Blanks t) (rest : Bytes) :
    Build.told (Build.close d stack) (t ++ rest) = Build.told (Build.close d stack) rest := by
  cases hclose : Build.close d stack with
  | none => rfl
  | some b => exact outcome_blanks (quiet_of_close hclose) ht rest

/-- An item behind the bytes of a hash, with what follows it: the list ends, or reading fails. -/
theorem outcome_passing {p : Datum × Bytes} (hp : Spells false p.1 p.2)
    (items : List (Datum × Bytes)) (read : List Datum) :
    (Machine.passing (.list shape read :: stack) .start).outcome
        (p.2 ++ (itemsText items ++ rest)) = none ∨
      (Machine.passing (.list shape read :: stack) .start).outcome
        (p.2 ++ (itemsText items ++ rest)) =
          Build.told (Build.close (.list read.reverse) stack) rest := by
  rw [Machine.outcome, run_append]
  rcases hp.leads (.list shape read :: stack) with hnone | ⟨next, hsettles, hrun⟩
  · exact .inl (by rw [hnone]; rfl)
  rw [hrun, Option.bind_some]
  have hstep : ∀ x, (Machine.passing (.list shape read :: stack) next).step x =
      (Build.takeTrailing (.list shape read :: stack) next x).map (Machine.mk .gap) := fun _ => rfl
  -- behind the item stands the closing bracket, with which the list ends, or a comma, which is
  -- refused
  cases items with
  | nil =>
    have htext : itemsText [] ++ rest = closeBracket :: rest := rfl
    rw [htext, run_cons, hstep, Build.takeTrailing]
    rcases hsettles closeBracket (.inr (.inr (.inl rfl))) with hnone | hended
    · exact .inl (by rw [hnone]; rfl)
    · rw [hended]
      refine .inr ?_
      change ((Option.map _ (Build.close (.list read.reverse) stack)).bind _).bind _ = _
      rw [Build.told, Option.bind_assoc, Option.bind_map]
      rfl
  | cons q items =>
    have htext : itemsText (q :: items) ++ rest = comma :: (q.2 ++ (itemsText items ++ rest)) := by
      simp [itemsText]
    have hcomma : next.step comma = none := by
      rcases hsettles comma (.inr (.inl rfl)) with hnone | hstopped
      · exact hnone
      · rw [hstopped]
        rfl
    rw [htext, run_cons, hstep, Build.takeTrailing, hcomma]
    exact .inl rfl

/-- Behind an item of a list stands a comma or the closing bracket. -/
theorem ends_itemsText (items : List (Datum × Bytes)) (rest : Bytes) :
    Ends (itemsText items ++ rest) := by
  cases items with
  | nil => exact Delimited.ends ⟨closeBracket, rest, rfl, .inr (.inl rfl)⟩
  | cons p items =>
    exact Delimited.ends ⟨comma, p.2 ++ (itemsText items ++ rest), by simp [itemsText], .inl rfl⟩

/-- Behind a field of a map stands a comma or the closing brace. -/
theorem ends_fieldsText (fields : List Field) (rest : Bytes) :
    Ends (fieldsText fields ++ rest) := by
  cases fields with
  | nil => exact Delimited.ends ⟨closeBrace, rest, rfl, .inr (.inr rfl)⟩
  | cons f fields =>
    exact Delimited.ends ⟨comma, f.text ++ (fieldsText fields ++ rest), by simp [fieldsText],
      .inl rfl⟩

/-- The items of a list after those that have been read, and its end. -/
theorem outcome_items {items : List (Datum × Bytes)} (hspells : ∀ p ∈ items, Spells lone p.1 p.2)
    (h : ∀ p ∈ items, ∀ shape, Reaches lone shape p.1 p.2) (read : List Datum) :
    (Machine.mk .gap ⟨.list shape read :: stack, .separator⟩).outcome (itemsText items ++ rest) =
        Build.told (Build.close
          (.list (read.reverse ++ seenItems shape read (items.map (·.1)))) stack) rest ∨
      seenItems shape read (items.map (·.1)) ≠ items.map (·.1) ∧ (lone = false →
        (Machine.mk .gap ⟨.list shape read :: stack, .separator⟩).outcome
          (itemsText items ++ rest) = none) := by
  have hquiet : ∀ read, (Build.mk (.list shape read :: stack) .separator).Quiet :=
    fun _ _ h => by cases h
  -- the frame holds the items before these, and how many they are decides what is looked for
  induction items generalizing read with
  | nil =>
    have htext : itemsText [] ++ rest = closeBracket :: rest := rfl
    rw [htext, outcome_token (hquiet read) rfl, List.map_nil, seenItems, List.append_nil]
    exact .inl rfl
  | cons p items ih =>
    obtain ⟨hp, hitems⟩ := List.forall_mem_cons.mp h
    obtain ⟨hspells, hrest⟩ := List.forall_mem_cons.mp hspells
    have htext : itemsText (p :: items) ++ rest = comma :: (p.2 ++ (itemsText items ++ rest)) := by
      simp [itemsText]
    rw [htext, outcome_token (hquiet read) rfl, List.map_cons, seenItems]
    by_cases hhash : shape.isComplete read = true
    · -- a hash has all its bytes
      have hcomma : (Build.mk (.list shape read :: stack) .separator).take .comma =
          some (Machine.passing (.list shape read :: stack) .start).build := by
        simp [Build.take, Build.afterComma, hhash, Machine.passing]
      rw [hcomma, if_pos hhash, List.append_nil]
      cases lone with
      | true => exact .inr ⟨by simp, by simp⟩
      | false =>
        rcases outcome_passing hspells items read with hnone | htold
        · exact .inr ⟨by simp, fun _ => hnone⟩
        · exact .inl htold
    · -- the next item is awaited
      have hcomma : (Build.mk (.list shape read :: stack) .separator).take .comma =
          some ⟨.list shape read :: stack, .value (shape.itemAfter read)⟩ := by
        simp [Build.take, Build.afterComma, hhash]
      rw [hcomma, if_neg hhash]
      rcases hp (shape.itemAfter read) (awaits_value _ _) (ends_itemsText items rest) with
        hclosed | ⟨hne, hnone⟩
      · have hread := ih hrest hitems (seen (shape.itemAfter read) p.1 :: read)
        rw [List.reverse_cons, List.append_assoc, List.singleton_append] at hread
        refine hread.imp hclosed.trans ?_
        rintro ⟨hne, hnone⟩
        exact ⟨fun heq => hne (List.cons.inj heq).2, fun hlone => hclosed.trans (hnone hlone)⟩
      · exact .inr ⟨fun heq => hne (List.cons.inj heq).1, hnone⟩

/-- A name with its value, where a name may stand. -/
theorem outcome_field {f : Field} (hname : f.Named lone)
    (h : Reaches lone (shape.part f.name) f.value f.valueText) (hb : b.Quiet)
    {read : List (Bytes × Datum)}
    (htake : b.take (.text f.name) = some ⟨.entry shape read f.name :: stack, .colon⟩)
    (hrest : Ends rest) :
    (Machine.mk .gap b).outcome (f.text ++ rest) =
        (Machine.mk .gap ⟨.map shape ((f.name, seen (shape.part f.name) f.value) :: read) :: stack,
          .separator⟩).outcome rest ∨
      seen (shape.part f.name) f.value ≠ f.value ∧
        (lone = false → (Machine.mk .gap b).outcome (f.text ++ rest) = none) := by
  obtain ⟨before, t, after, hbefore, hspells, hafter, hnameText⟩ := hname
  have htext : f.text ++ rest =
      before ++ (t ++ (after ++ colon :: (f.valueText ++ rest))) := by
    simp [Field.text, hnameText]
  have hcolon : (Build.mk (.entry shape read f.name :: stack) .colon).Quiet :=
    fun _ h => by cases h
  -- up to the colon everything is taken, so that the value decides
  have hvalue : (Machine.mk .gap b).outcome (f.text ++ rest) =
      (Machine.mk .gap ⟨.entry shape read f.name :: stack, .value (shape.part f.name)⟩).outcome
        (f.valueText ++ rest) := by
    rw [htext, outcome_blanks hb hbefore, outcome_of_run (run_spellsText hb hspells _), htake]
    change (Machine.mk .gap ⟨.entry shape read f.name :: stack, .colon⟩).outcome _ = _
    rw [outcome_blanks hcolon hafter, outcome_token hcolon rfl]
    rfl
  rw [hvalue]
  exact h (awaits_value _ _) hrest

/-- The fields of a map after those that have been read, and its end. -/
theorem outcome_fields {fields : List Field} (hnames : ∀ f ∈ fields, f.Named lone)
    (h : ∀ f ∈ fields, ∀ shape, Reaches lone shape f.value f.valueText)
    (read : List (Bytes × Datum)) :
    (Machine.mk .gap ⟨.map shape read :: stack, .separator⟩).outcome (fieldsText fields ++ rest) =
        Build.told (Build.close
          (.map (read.reverse ++ seenEntries shape (fields.map Field.entry))) stack) rest ∨
      seenEntries shape (fields.map Field.entry) ≠ fields.map Field.entry ∧ (lone = false →
        (Machine.mk .gap ⟨.map shape read :: stack, .separator⟩).outcome
          (fieldsText fields ++ rest) = none) := by
  have hquiet : ∀ read, (Build.mk (.map shape read :: stack) .separator).Quiet :=
    fun _ _ h => by cases h
  -- what is read so far is carried along, newest first
  induction fields generalizing read with
  | nil =>
    have htext : fieldsText [] ++ rest = closeBrace :: rest := rfl
    rw [htext, outcome_token (hquiet read) rfl, List.map_nil, seenEntries, List.append_nil]
    exact .inl rfl
  | cons f fields ih =>
    obtain ⟨hf, hfields⟩ := List.forall_mem_cons.mp h
    obtain ⟨hname, hrest⟩ := List.forall_mem_cons.mp hnames
    have htext : fieldsText (f :: fields) ++ rest =
        comma :: (f.text ++ (fieldsText fields ++ rest)) := by
      simp [fieldsText]
    have hawaits : (Build.mk (.map shape read :: stack) .name).Quiet := fun _ h => by cases h
    rw [htext, outcome_token (hquiet read) rfl, List.map_cons, Field.entry, seenEntries]
    -- either this field is read and the rest decides, or something of it is passed over
    rcases outcome_field hname (hf _) hawaits rfl (ends_fieldsText fields rest) with
      hclosed | ⟨hne, hnone⟩
    · have hread := ih hrest hfields ((f.name, seen (shape.part f.name) f.value) :: read)
      rw [List.reverse_cons, List.append_assoc, List.singleton_append] at hread
      refine hread.imp hclosed.trans ?_
      rintro ⟨hne, hnone⟩
      exact ⟨fun heq => hne (List.cons.inj heq).2, fun hlone => hclosed.trans (hnone hlone)⟩
    · exact .inr ⟨fun heq => hne (Prod.ext_iff.mp (List.cons.inj heq).1).2, hnone⟩

/-- A number is seen whole, whatever the shape. -/
theorem whole_number (shape : Shape) (t : Bytes) : Whole shape (Build.number t) := by
  unfold Build.number
  split_ifs <;> exact whole_scalar _ (by simp) (by simp)

/-- A list is seen item by item, each with the shape of its place. -/
theorem seen_cons (shape : Shape) (d : Datum) (items : List Datum) :
    seen shape (.list (d :: items)) = .list (seen (shape.itemAfter (α := Datum) []) d ::
      seenItems shape [seen (shape.itemAfter (α := Datum) []) d] items) := by
  have hhash : shape.isComplete (α := Datum) [] = false := by cases shape <;> rfl
  rw [seen, seenItems, hhash, if_neg (by simp)]

/-- A value that is one token. -/
theorem reaches_token {token : Token} (hwhole : Whole shape d) (hopens : token ≠ .closeList)
    (hvalue : ∀ stack, Build.takeValue shape stack token = Build.close d stack)
    (hread : ∀ {b : Build} {rest : Bytes}, b.Quiet →
      (Machine.mk .gap b).outcome (t ++ rest) = Build.told (b.take token) rest) :
    Reaches lone shape d t := by
  intro b stack rest hb _
  rw [hread hb.quiet, hb.take _ hopens, hvalue, hwhole]
  exact .inl rfl

/-- An empty list is reached, with blanks between its brackets. -/
theorem reaches_noItems (ht : Blanks t) :
    Reaches lone shape (.list []) (openBracket :: (t ++ [closeBracket])) := by
  intro b stack rest hb _
  have htext : openBracket :: (t ++ [closeBracket]) ++ rest =
      openBracket :: (t ++ closeBracket :: rest) := by simp
  have hopen : b.take .openList = some ⟨.list shape [] :: stack, .firstItem⟩ :=
    hb.take _ (by simp)
  have hfirst := awaits_firstItem shape stack
  rw [htext, outcome_token hb.quiet rfl, hopen, seen, seenItems]
  change (Machine.mk .gap ⟨.list shape [] :: stack, .firstItem⟩).outcome _ = _ ∨ _
  rw [outcome_blanks hfirst.quiet ht, outcome_token hfirst.quiet rfl]
  exact .inl rfl

/-- **A list is reached** if each of its items is, whatever the shape of its place. -/
theorem reaches_list {items : List (Datum × Bytes)} (hspells : ∀ p ∈ items, Spells lone p.1 p.2)
    (hfirst : ∀ shape, Reaches lone shape d t)
    (h : ∀ p ∈ items, ∀ shape, Reaches lone shape p.1 p.2) :
    Reaches lone shape (.list (d :: items.map (·.1))) (openBracket :: (t ++ itemsText items)) := by
  intro b stack rest hb _
  have htext : openBracket :: (t ++ itemsText items) ++ rest =
      openBracket :: (t ++ (itemsText items ++ rest)) := by simp
  have hopen : b.take .openList = some ⟨.list shape [] :: stack, .firstItem⟩ :=
    hb.take _ (by simp)
  rw [htext, outcome_token hb.quiet rfl, hopen, seen_cons]
  -- the first item has no comma before it; from there on it is item by item
  rcases hfirst _ (awaits_firstItem shape stack) (ends_itemsText items rest) with
    hclosed | ⟨hne, hnone⟩
  · refine (outcome_items hspells h _).imp hclosed.trans ?_
    rintro ⟨hne, hnone⟩
    exact ⟨fun heq => hne (List.cons.inj (Datum.list.inj heq)).2,
      fun hlone => hclosed.trans (hnone hlone)⟩
  · exact .inr ⟨fun heq => hne (List.cons.inj (Datum.list.inj heq)).1, hnone⟩

/-- Before the first name of a map, blanks are passed over. -/
theorem quiet_firstName (shape : Shape) (stack : List Frame) :
    (Build.mk (.map shape [] :: stack) .firstName).Quiet := fun _ h => by cases h

/-- An empty map is reached, with blanks between its braces. -/
theorem reaches_noFields (ht : Blanks t) :
    Reaches lone shape (.map []) (openBrace :: (t ++ [closeBrace])) := by
  intro b stack rest hb _
  have htext : openBrace :: (t ++ [closeBrace]) ++ rest =
      openBrace :: (t ++ closeBrace :: rest) := by simp
  have hopen : b.take .openMap = some ⟨.map shape [] :: stack, .firstName⟩ :=
    hb.take _ (by simp)
  have hfirst := quiet_firstName shape stack
  rw [htext, outcome_token hb.quiet rfl, hopen, seen, seenEntries]
  change (Machine.mk .gap ⟨.map shape [] :: stack, .firstName⟩).outcome _ = _ ∨ _
  rw [outcome_blanks hfirst ht, outcome_token hfirst rfl]
  exact .inl rfl

/-- **A map is reached** if the value of each of its fields is, whatever the shape of its part. -/
theorem reaches_map {first : Field} {fields : List Field}
    (hnames : ∀ f ∈ first :: fields, f.Named lone)
    (hfirst : ∀ shape, Reaches lone shape first.value first.valueText)
    (h : ∀ f ∈ fields, ∀ shape, Reaches lone shape f.value f.valueText) :
    Reaches lone shape (.map ((first :: fields).map Field.entry))
      (openBrace :: (first.text ++ fieldsText fields)) := by
  intro b stack rest hb _
  have htext : openBrace :: (first.text ++ fieldsText fields) ++ rest =
      openBrace :: (first.text ++ (fieldsText fields ++ rest)) := by simp
  have hopen : b.take .openMap = some ⟨.map shape [] :: stack, .firstName⟩ :=
    hb.take _ (by simp)
  obtain ⟨hnamed, hrest⟩ := List.forall_mem_cons.mp hnames
  rw [htext, outcome_token hb.quiet rfl, hopen, List.map_cons, seen, Field.entry, seenEntries]
  -- the first field has no comma before it; from there on it is field by field
  rcases outcome_field hnamed (hfirst _) (quiet_firstName shape stack) rfl
    (ends_fieldsText fields rest) with hclosed | ⟨hne, hnone⟩
  · refine (outcome_fields hrest h _).imp hclosed.trans ?_
    rintro ⟨hne, hnone⟩
    exact ⟨fun heq => hne (List.cons.inj (Datum.map.inj heq)).2,
      fun hlone => hclosed.trans (hnone hlone)⟩
  · exact .inr ⟨fun heq => hne (Prod.ext_iff.mp (List.cons.inj (Datum.map.inj heq)).1).2, hnone⟩

/-- Blanks around a value are passed over. -/
theorem Reaches.padded {before after : Bytes} (h : Reaches lone shape d t) (hbefore : Blanks before)
    (hafter : Blanks after) : Reaches lone shape d (before ++ (t ++ after)) := by
  intro b stack rest hb hrest
  have htext : before ++ (t ++ after) ++ rest = before ++ (t ++ (after ++ rest)) := by simp
  rw [htext, outcome_blanks hb.quiet hbefore, ← told_blanks hafter rest]
  exact h hb (hrest.blanks hafter)

/-- **A machine goes through every spelling** of a datum. -/
theorem Spells.reaches (h : Spells lone d t) (shape : Shape) : Reaches lone shape d t := by
  induction h generalizing shape with
  | null =>
    exact reaches_token (whole_scalar _ (by simp) (by simp)) (by simp) (fun _ => rfl)
      fun hb => outcome_of_run (run_null hb)
  | @flag value =>
    exact reaches_token (whole_scalar _ (by simp) (by simp)) (by simp) (fun _ => rfl)
      fun hb => outcome_of_run (run_flag hb value)
  | @number t h =>
    -- a number is no token until something ends it
    intro b stack rest hb hrest
    rw [whole_number shape t]
    exact .inl (outcome_number hb h hrest)
  | text h =>
    exact reaches_token (whole_scalar _ (by simp) (by simp)) (by simp) (fun _ => rfl)
      fun hb => outcome_of_run (run_spellsText hb h _)
  | noItems h => exact reaches_noItems h
  | list _ h ihfirst ih => exact reaches_list h ihfirst ih
  | noFields h => exact reaches_noFields h
  | map hnames _ _ ihfirst ih => exact reaches_map hnames ihfirst ih
  | padded hbefore _ hafter ih => exact Reaches.padded (ih shape) hbefore hafter

end Reaches

/-! ### Documents -/

/-- **Every spelling of a datum is read** as this datum, as far as it is seen. A text of a datum of
which not everything is seen may also not be read at all. -/
theorem read_of_spells {lone : Bool} {d : Datum} {t : Bytes} (h : Spells lone d t) (shape : Shape) :
    read shape t = some (seen shape d) ∨ ¬Whole shape d ∧ (lone = false → read shape t = none) := by
  have hreaches := h.reaches shape (awaits_value shape []) ends_nil
  rw [List.append_nil] at hreaches
  exact hreaches

end HeaderChain.Json
