import HeaderChain.Proofs.Json

/-!
# Texts that were cut short

The text of a datum that stands between two marks — quotation marks, brackets or braces — says
nothing as long as the second mark is missing. Inside it there are texts that say something, for a
shortened number is a number; but the document is complete with its last token only, and that token
is the mark.

* `Json.Build.IsDone`, `Json.Build.Entered` — a document that is complete, and one of which a part
  is open or that is complete. Nothing but blanks can follow the former (`Json.blank_of_run`);
* `Json.Machine.Within` — what every machine keeps that has read the first mark: its document is
  entered, or it is a string of which the end is missing. The end of the text comes too early for
  such a machine unless the document is complete (`Json.Machine.Within.isDone`);
* `Json.read_eq_none_of_cut` — a text that was cut short says nothing;
* `Json.read_write_append` — a text that goes on says what it said if the rest is blank, and else
  nothing.
-/

namespace HeaderChain

/-- A datum whose text stands between two marks: quotation marks, brackets or braces. -/
def Datum.isEnclosed : Datum → Bool
  | .text _ | .list _ | .map _ => true
  | _ => false

namespace Json

open Ascii

variable {b b' : Build} {m m' : Machine} {s s' : Scan} {x : UInt8} {t : Token} {ts : List Token}
  {pieces : List Piece} {escape : Escape} {stack : List Frame} {d d' : Datum} {shape : Shape}
  {text rest : Bytes}

/-! ### Scanning without a token -/

/-- **A string goes on** until its token is complete. -/
theorem Scan.string_of_silent (h : Scan.stepString pieces x escape = some ([], s')) :
    ∃ pieces escape, s' = .string pieces escape := by
  -- inside a string only its closing mark makes a token
  cases escape with
  | plain =>
    simp only [Scan.stepString] at h
    split_ifs at h <;> cases h <;> exact ⟨_, _, rfl⟩
  | slash =>
    simp only [Scan.stepString] at h
    split_ifs at h
    · cases h
      exact ⟨_, _, rfl⟩
    · obtain ⟨c, -, hc⟩ := Option.map_eq_some_iff.mp h
      cases hc
      exact ⟨_, _, rfl⟩
  | digits read value =>
    simp only [Scan.stepString] at h
    obtain ⟨digit, -, hdigit⟩ := Option.map_eq_some_iff.mp h
    split_ifs at hdigit <;> cases hdigit <;> exact ⟨_, _, rfl⟩

/-- From gap to gap leads a blank only. -/
theorem Scan.isBlank_of_stepGap (h : Scan.stepGap x = some ([], .gap)) : isBlank x = true := by
  unfold Scan.stepGap at h
  by_cases hblank : isBlank x = true
  · exact hblank
  · rw [if_neg hblank] at h
    split_ifs at h <;> first | cases h | (split at h <;> cases h)

/-- **Without a token** the scanner comes to a gap from a gap only, over a blank. -/
theorem Scan.gap_of_silent (h : s.step x = some ([], .gap)) : s = .gap ∧ isBlank x = true := by
  -- a word and a number end with a token, and a string stays one
  cases s with
  | gap => exact ⟨rfl, isBlank_of_stepGap h⟩
  | word word token =>
    cases word with
    | nil => cases h
    | cons c word =>
      simp only [Scan.step] at h
      split_ifs at h <;> cases h
  | number part spelling =>
    simp only [Scan.step] at h
    split at h
    · cases h
    · split_ifs at h
      obtain ⟨read, -, hread⟩ := Option.map_eq_some_iff.mp h
      cases hread
  | string pieces escape =>
    obtain ⟨pieces, escape, hgap⟩ := string_of_silent h
    cases hgap

/-! ### Complete documents -/

/-- A document that says something already. -/
def Build.IsDone (b : Build) : Prop := ∃ d, b.stage = .done d

/-- **Nothing may follow a complete document.** -/
theorem Build.IsDone.take (h : b.IsDone) (t : Token) : b.take t = none := by
  obtain ⟨stack, stage⟩ := b
  obtain ⟨d, rfl⟩ : ∃ d, stage = .done d := h
  rfl

/-- A complete document takes no token, and stays as it is. -/
theorem Build.IsDone.takeAll (h : b.IsDone) (htake : b.takeAll ts = some b') :
    ts = [] ∧ b' = b := by
  cases ts with
  | nil => exact ⟨rfl, (Option.some.inj htake).symm⟩
  | cons t ts =>
    rw [Build.takeAll, List.foldlM_cons, h.take] at htake
    cases htake

theorem Build.IsDone.quiet (h : b.IsDone) : b.Quiet := by
  obtain ⟨d, hd⟩ := h
  intro found hfound
  cases hd.symm.trans hfound

/-- What a machine has scanned where no hash has just been completed. -/
theorem exists_of_step (hb : m.build.Quiet) (h : m.step x = some m') :
    ∃ ts, m.scan.step x = some (ts, m'.scan) ∧ m.build.takeAll ts = some m'.build := by
  unfold Machine.step at h
  split at h
  next hfound => exact absurd hfound (hb _)
  next =>
    split at h
    next => cases h
    next ts scan hscan =>
      obtain ⟨build, htake, rfl⟩ := Option.map_eq_some_iff.mp h
      exact ⟨ts, hscan, htake⟩

/-- **Behind a complete document** only blanks can be read to the end. -/
theorem blank_of_run (hdone : m.build.IsDone) (h : m.run text = some m') (hgap : m'.scan = .gap) :
    m.scan = .gap ∧ text.all isBlank = true := by
  induction text generalizing m with
  | nil =>
    obtain rfl : m = m' := Option.some.inj h
    exact ⟨hgap, rfl⟩
  | cons x text ih =>
    rw [run_cons] at h
    obtain ⟨next, hstep, hrun⟩ := Option.bind_eq_some_iff.mp h
    -- no token is taken, so that the document stays as it is
    obtain ⟨ts, hscan, htake⟩ := exists_of_step hdone.quiet hstep
    obtain ⟨rfl, hbuild⟩ := hdone.takeAll htake
    obtain ⟨hnext, hblank⟩ := ih (hbuild ▸ hdone) hrun
    rw [hnext] at hscan
    obtain ⟨hgap', hx⟩ := Scan.gap_of_silent hscan
    exact ⟨hgap', by simp [hx, hblank]⟩

/-- Blanks between tokens are passed over. -/
theorem run_blank (hb : b.Quiet) (hblank : text.all isBlank = true) :
    (Machine.mk .gap b).run text = some ⟨.gap, b⟩ := by
  induction text with
  | nil => rfl
  | cons x text ih =>
    obtain ⟨hx, htext⟩ : isBlank x = true ∧ text.all isBlank = true := by simpa using hblank
    have hstep : Scan.gap.step x = some ([], .gap) := by simp [Scan.step, Scan.stepGap, hx]
    rw [run_silent hb hstep]
    exact ih htext

/-! ### Documents that are entered -/

/-- **A document of which a part is open**, or that is complete. -/
def Build.Entered (b : Build) : Prop := b.stack ≠ [] ∨ b.IsDone

/-- Where something is closed, a part is still open or the document is complete. -/
theorem Build.entered_close (h : Build.close d stack = some b) : b.Entered := by
  unfold Build.close at h
  split at h <;> cases h
  · exact .inr ⟨d, rfl⟩
  · exact .inl (List.cons_ne_nil _ _)
  · exact .inl (List.cons_ne_nil _ _)

/-- With a value, or the opening of one, a document is entered. -/
theorem Build.entered_takeValue (h : Build.takeValue shape stack t = some b) : b.Entered := by
  unfold Build.takeValue at h
  split at h
  all_goals first | exact entered_close h | cases h
  · exact .inl (List.cons_ne_nil _ _)
  · exact .inl (List.cons_ne_nil _ _)

/-- **With its first token** a document is entered. -/
theorem Build.entered_take (h : b.take t = some b') : b'.Entered := by
  unfold Build.take at h
  split at h
  all_goals first | exact entered_takeValue h | exact entered_close h | cases h
  all_goals exact .inl (List.cons_ne_nil _ _)

/-- Once entered, a document stays so. -/
theorem Build.Entered.takeAll (h : b.Entered) (htake : b.takeAll ts = some b') : b'.Entered := by
  induction ts generalizing b with
  | nil => exact Option.some.inj htake ▸ h
  | cons t ts ih =>
    rw [Build.takeAll, List.foldlM_cons] at htake
    obtain ⟨next, hnext, hrest⟩ := Option.bind_eq_some_iff.mp htake
    exact ih (entered_take hnext) hrest

/-- With any token at all it is entered. -/
theorem Build.entered_takeAll (h : b.takeAll (t :: ts) = some b') : b'.Entered := by
  rw [Build.takeAll, List.foldlM_cons] at h
  obtain ⟨next, hnext, hrest⟩ := Option.bind_eq_some_iff.mp h
  exact (entered_take hnext).takeAll hrest

/-- **A text that is enclosed**, read in part: the document is entered, or it is a string that goes
on. -/
def Machine.Within (m : Machine) : Prop :=
  m.build.Entered ∨ m.build.Quiet ∧ ∃ pieces escape, m.scan = .string pieces escape

/-- **What each byte keeps.** Tokens enter the document, and without a token a string goes on. -/
theorem Machine.Within.step (h : m.Within) (hstep : m.step x = some m') : m'.Within := by
  by_cases hquiet : m.build.Quiet
  · obtain ⟨ts, hscan, htake⟩ := exists_of_step hquiet hstep
    -- a document that is entered stays so; a string goes on until its token is complete
    rcases h with hentered | ⟨-, pieces, escape, hstring⟩
    · exact .inl (hentered.takeAll htake)
    · cases ts with
      | nil =>
        rw [hstring] at hscan
        exact .inr ⟨Option.some.inj htake ▸ hquiet, Scan.string_of_silent hscan⟩
      | cons t ts => exact .inl (Build.entered_takeAll htake)
  · -- what follows the bytes of a hash leaves the list open, or closes it
    obtain ⟨found, hfound⟩ : ∃ found, m.build.stage = .trailing found := by
      simpa [Build.Quiet] using hquiet
    have hopen : m.build.stack ≠ [] := by
      rcases h with (hopen | ⟨d, hdone⟩) | ⟨hq, -⟩
      · exact hopen
      · cases hfound.symm.trans hdone
      · exact absurd hq hquiet
    unfold Machine.step at hstep
    rw [hfound] at hstep
    obtain ⟨build, htake, rfl⟩ := Option.map_eq_some_iff.mp hstep
    unfold Build.takeTrailing at htake
    split at htake
    · cases htake
    · exact .inl (Build.entered_take htake)
    · cases htake
      exact .inl (.inl hopen)

/-- **What a whole text keeps**, after its first mark. -/
theorem Machine.Within.run (h : m.Within) (hrun : m.run text = some m') : m'.Within := by
  induction text generalizing m with
  | nil => exact Option.some.inj hrun ▸ h
  | cons x text ih =>
    rw [run_cons] at hrun
    obtain ⟨next, hstep, hrest⟩ := Option.bind_eq_some_iff.mp hrun
    exact ih (h.step hstep) hrest

/-- What is closed inside something else does not complete the document. -/
theorem Build.not_isDone_close (hopen : stack ≠ []) (h : Build.close d stack = some b) :
    ¬b.IsDone := by
  rintro ⟨d', hd⟩
  unfold Build.close at h
  split at h
  · exact hopen rfl
  · cases h
    cases hd
  · cases h
    cases hd
  · cases h

/-- A number is no document where a part is open. -/
theorem Build.not_isDone_number (hopen : b.stack ≠ []) {spelling : Bytes}
    (h : b.take (.number spelling) = some b') : ¬b'.IsDone := by
  obtain ⟨stack, stage⟩ := b
  -- a number is taken only as a value, and closes nothing but itself
  cases stage with
  | value shape => exact not_isDone_close hopen h
  | firstItem =>
    match stack, h with
    | .list shape items :: rest, h =>
      have hclose : close (number spelling) (.list shape items :: rest) = some b' := h
      exact not_isDone_close (List.cons_ne_nil _ _) hclose
  | firstName | name | colon | separator =>
    match stack, h with
    | .list .. :: _, h | .map .. :: _, h | .entry .. :: _, h => cases h
  | trailing | done => cases h

/-- **An enclosed text is complete** only with its last token. -/
theorem Machine.Within.isDone (h : m.Within) (hfinish : m.finish = some d) :
    m.build.IsDone ∧ m.scan = .gap := by
  unfold Machine.finish at hfinish
  split at hfinish
  next => cases hfinish
  next tokens hscan =>
    split at hfinish
    next stack d' htake =>
      -- a text can end in a gap, and behind a number, which is finished by its end
      cases hs : m.scan with
      | gap =>
        rw [hs] at hscan
        cases hscan
        refine ⟨⟨d', ?_⟩, rfl⟩
        rw [Option.some.inj htake]
      | word | string =>
        rw [hs] at hscan
        cases hscan
      | number part spelling =>
        -- a number would have to be the whole document
        rw [hs] at hscan
        simp only [Scan.finish] at hscan
        split_ifs at hscan
        cases hscan
        obtain ⟨next, hnext, hrest⟩ := Option.bind_eq_some_iff.mp htake
        obtain rfl := Option.some.inj hrest
        rcases h with (hopen | hdone) | ⟨-, _, _, hstring⟩
        · exact absurd ⟨d', rfl⟩ (Build.not_isDone_number hopen hnext)
        · cases (hdone.take _).symm.trans hnext
        · cases hs.symm.trans hstring
    next => cases hfinish

/-! ### The marks around a text -/

/-- A list ends with its bracket. -/
theorem exists_writeItems (items : List Datum) :
    ∃ body, writeItems items = body ++ [closeBracket] := by
  induction items with
  | nil => exact ⟨[], rfl⟩
  | cons d items ih =>
    obtain ⟨body, hbody⟩ := ih
    exact ⟨comma :: (write d ++ body), by simp [writeItems, hbody]⟩

/-- A map ends with its brace. -/
theorem exists_writeEntries (entries : List (Bytes × Datum)) :
    ∃ body, writeEntries entries = body ++ [closeBrace] := by
  induction entries with
  | nil => exact ⟨[], rfl⟩
  | cons e entries ih =>
    obtain ⟨body, hbody⟩ := ih
    exact ⟨comma :: (quoted e.1 ++ colon :: (write e.2 ++ body)), by simp [writeEntries, hbody]⟩

/-- **A text is enclosed by two marks**: with the first of them it is entered, and the last of them
is no blank. -/
theorem exists_marks (h : d.isEnclosed = true) : ∃ first body last,
    write d = first :: (body ++ [last]) ∧
      (first = quote ∨ first = openBracket ∨ first = openBrace) ∧ isBlank last = false := by
  -- what is enclosed starts and ends with its marks; a word or a number does not
  cases d with
  | null | flag | nat | other => cases h
  | text content => exact ⟨quote, content.flatMap escape, quote, rfl, .inl rfl, rfl⟩
  | list items =>
    cases items with
    | nil => exact ⟨openBracket, [], closeBracket, by simp [write], .inr (.inl rfl), rfl⟩
    | cons d items =>
      obtain ⟨body, hbody⟩ := exists_writeItems items
      exact ⟨openBracket, write d ++ body, closeBracket, by simp [write, hbody], .inr (.inl rfl),
        rfl⟩
  | map entries =>
    cases entries with
    | nil => exact ⟨openBrace, [], closeBrace, by simp [write], .inr (.inr rfl), rfl⟩
    | cons e entries =>
      obtain ⟨body, hbody⟩ := exists_writeEntries entries
      exact ⟨openBrace, quoted e.1 ++ colon :: (write e.2 ++ body), closeBrace,
        by simp [write, hbody], .inr (.inr rfl), rfl⟩

/-- **With its first mark** a text is entered. -/
theorem within_of_first (hx : x = quote ∨ x = openBracket ∨ x = openBrace)
    (h : (Machine.start shape).step x = some m) : m.Within := by
  have hstart : (Machine.start shape).build.Quiet := fun _ hfound => by cases hfound
  obtain ⟨ts, hscan, htake⟩ := exists_of_step hstart h
  obtain ⟨scan, build⟩ := m
  rcases hx with rfl | rfl | rfl
  · cases hscan
    exact .inr ⟨Option.some.inj htake ▸ hstart, _, _, rfl⟩
  all_goals
    cases hscan
    exact .inl (Build.entered_takeAll htake)

/-! ### Damaged texts -/

/-- **Behind a complete document** the rest of a text is blank, or the text says nothing. -/
theorem Build.IsDone.all_isBlank (hdone : b.IsDone)
    (hread : ((Machine.mk .gap b).run text).bind Machine.finish = some d) :
    text.all isBlank = true := by
  obtain ⟨m, hrun, hfinish⟩ := Option.bind_eq_some_iff.mp hread
  have hwithin : m.Within := Machine.Within.run (m := ⟨.gap, b⟩) (.inl (.inr hdone)) hrun
  exact (blank_of_run (m := ⟨.gap, b⟩) hdone hrun (hwithin.isDone hfinish).2).2

/-- The text of an enclosed datum, read to its end. -/
theorem Reads.run_write (h : Reads shape d) (henclosed : d.isEnclosed = true) (rest : Bytes) :
    (Machine.start shape).run (write d ++ rest) = (Machine.mk .gap ⟨[], .done d⟩).run rest := by
  have hnat : ∀ n, d ≠ .nat n := by
    rintro n rfl
    cases henclosed
  exact h.passes (awaits_value shape []) (.inr hnat)

/-- What follows an enclosed text may be blank and nothing else. -/
theorem read_write_append (h : Reads shape d) (henclosed : d.isEnclosed = true) (rest : Bytes) :
    read shape (write d ++ rest) = if rest.all isBlank then some d else none := by
  have hdone : (Build.mk [] (.done d)).IsDone := ⟨d, rfl⟩
  rw [read, h.run_write henclosed]
  split_ifs with hblank
  · rw [run_blank hdone.quiet hblank]
    rfl
  · exact Option.eq_none_iff_forall_ne_some.mpr fun _ hread => hblank (hdone.all_isBlank hread)

/-- **No part of an enclosed text** that lacks its end says anything. -/
theorem read_eq_none_of_cut (h : Reads shape d) (henclosed : d.isEnclosed = true)
    (hcut : write d = text ++ rest) (hrest : rest ≠ []) : read shape text = none := by
  obtain ⟨first, body, last, hmarks, hfirst, hlast⟩ := exists_marks henclosed
  refine Option.eq_none_iff_forall_ne_some.mpr fun d' hread => ?_
  obtain ⟨m, hrun, hfinish⟩ := Option.bind_eq_some_iff.mp hread
  cases text with
  | nil =>
    -- nothing has been said before the first byte
    cases hrun
    cases hfinish
  | cons x text =>
    obtain rfl : x = first := by
      rw [hmarks] at hcut
      exact (List.cons.inj hcut).1.symm
    rw [run_cons] at hrun
    obtain ⟨next, hnext, hrun'⟩ := Option.bind_eq_some_iff.mp hrun
    obtain ⟨hdone, hgap⟩ := ((within_of_first hfirst hnext).run hrun').isDone hfinish
    -- the document would be complete, and the rest of its text blank
    have hwhole := h.run_write henclosed []
    rw [List.append_nil, hcut, run_append, run_cons, hnext, Option.bind_some, hrun',
      Option.bind_some] at hwhole
    have hrest' : m.run rest = some ⟨.gap, ⟨[], .done d⟩⟩ := hwhole
    have hblank := (blank_of_run hdone hrest' rfl).2
    have hmem : last ∈ rest := by
      rw [hmarks, ← List.cons_append] at hcut
      have hends := congrArg List.getLast? hcut
      rw [List.getLast?_concat, List.getLast?_append, List.getLast?_eq_some_getLast hrest,
        Option.some_or] at hends
      exact Option.some.inj hends ▸ List.getLast_mem hrest
    rw [List.all_eq_true.mp hblank last hmem] at hlast
    cases hlast

end Json
end HeaderChain
