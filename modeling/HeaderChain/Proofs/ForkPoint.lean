import Mathlib.Logic.Relation
import HeaderChain.Proofs.Lookup

/-!
# The fork point

What the search for a fork point finds, through any view of records: no index is needed, heights may
have gaps, and the search may start from records that are not in the view.

* `ForkSearch` — the search without a limit of steps, with the number of its steps and its result;
  the limited one is this one as soon as the limit is high enough (`ForkSearch.walkBack_eq`);
* `forkPoint_swap` — it does not matter which of the two records comes first;
* `Ancestor`, `Shared`, `HighestShared` — what the search looks for, without the search;
* `Orderly` — hashes tell records apart, and parents stand lower. There the search ends
  (`Orderly.exists_forkSearch`), and it never passes a common ancestor: a step is taken by the
  higher record, or by both where they differ, so what they share is still ahead of both
  (`Shared.exists_stepBack`);
* `ForkFound`, `forkPoint_highest` — so what it finds is the highest one, and it fails only where
  there is none, for want of a parent.
-/

namespace HeaderChain

namespace Index

/-- Two records at which a walk back has come to its end. -/
abbrev Met (a b : BlockRecord) : Prop := a.height = b.height ∧ a.hash = b.hash

theorem height_ne_zero_of_lt {h k : Height} (hlt : h < k) : k ≠ 0 :=
  (UInt32.ne_of_lt (UInt32.lt_of_le_of_lt UInt32.zero_le hlt)).symm

end Index

open Index (Met height_ne_zero_of_lt)

variable {record? : Hash → Option BlockRecord} {a b k m p q r : BlockRecord} {n steps known : Nat}
  {e : ChainError} {f : Option Height} {result : Except ChainError (Option Height)}

/-! ### Single steps -/

/-- The higher of two blocks steps back: the first one. -/
theorem stepBack_first (hlt : b.height < a.height) (hp : record? a.parent = some p) :
    stepBack record? a b = .ok (p, b) := by
  simp [stepBack, hlt, Index.parentOf_eq_ok.mpr hp, bind, pure, Except.bind, Except.pure]

/-- The higher of two blocks steps back: the second one. -/
theorem stepBack_second (hlt : a.height < b.height) (hq : record? b.parent = some q) :
    stepBack record? a b = .ok (a, q) := by
  have hnot : ¬b.height < a.height := UInt32.not_lt.mpr (UInt32.le_of_lt hlt)
  simp [stepBack, hlt, hnot, Index.parentOf_eq_ok.mpr hq, bind, pure, Except.bind, Except.pure]

/-- At one height both step back. -/
theorem stepBack_both (heq : a.height = b.height) (hp : record? a.parent = some p)
    (hq : record? b.parent = some q) : stepBack record? a b = .ok (p, q) := by
  simp [stepBack, heq, UInt32.lt_irrefl, Index.parentOf_eq_ok.mpr hp, Index.parentOf_eq_ok.mpr hq,
    bind, pure, Except.bind, Except.pure]

/-- A step that fails does so for want of the parent of one of the records. -/
theorem missing_of_stepBack (hzero : ¬(a.height = 0 ∧ b.height = 0))
    (h : stepBack record? a b = .error e) :
    ∃ r, (r = a ∨ r = b) ∧ r.height ≠ 0 ∧ record? r.parent = none ∧
      e = .blockNotFound r.parent := by
  have hparent : ∀ {r : BlockRecord}, parentOf record? r = .error e →
      record? r.parent = none ∧ e = .blockNotFound r.parent := by
    intro r h
    unfold parentOf at h
    cases hp : record? r.parent <;> simp [hp] at h
    exact ⟨rfl, h.symm⟩
  unfold stepBack at h
  split_ifs at h with hba hab
  · cases ha : parentOf record? a <;> simp [ha, bind, pure, Except.bind, Except.pure] at h
    exact ⟨a, .inl rfl, height_ne_zero_of_lt hba, hparent (h ▸ ha)⟩
  · cases hb : parentOf record? b <;> simp [hb, bind, pure, Except.bind, Except.pure] at h
    exact ⟨b, .inr rfl, height_ne_zero_of_lt hab, hparent (h ▸ hb)⟩
  · have heq : a.height = b.height :=
      UInt32.le_antisymm (UInt32.not_lt.mp hba) (UInt32.not_lt.mp hab)
    have hpos : a.height ≠ 0 := fun ha => hzero ⟨ha, heq ▸ ha⟩
    -- the first record is asked for its parent before the second one is
    cases ha : parentOf record? a with
    | error e' =>
      simp only [ha, bind, Except.bind, Except.error.injEq] at h
      exact ⟨a, .inl rfl, hpos, hparent (h ▸ ha)⟩
    | ok p =>
      cases hb : parentOf record? b <;>
        simp [ha, hb, bind, pure, Except.bind, Except.pure] at h
      exact ⟨b, .inr rfl, heq ▸ hpos, hparent (h ▸ hb)⟩

/-- A walk goes on from where a step has led, unless the blocks have met or are both at height
zero. -/
theorem walkBack_of_stepBack (hmet : ¬Met a b) (hzero : ¬(a.height = 0 ∧ b.height = 0))
    (hstep : stepBack record? a b = .ok (p, q)) :
    walkBack record? (steps + 1) a b = walkBack record? steps p q := by
  conv_lhs => unfold walkBack
  rw [if_neg hmet, if_neg hzero]
  simp [hstep, bind, Except.bind]

/-! ### The search without a limit -/

/-- **The search for a fork point**, with the number of its steps and its result. -/
inductive ForkSearch (record? : Hash → Option BlockRecord) :
    BlockRecord → BlockRecord → Nat → Except ChainError (Option Height) → Prop
  | meets {a b : BlockRecord} (h : Met a b) : ForkSearch record? a b 0 (.ok (some a.height))
  | parts {a b : BlockRecord} (h : ¬Met a b) (hzero : a.height = 0 ∧ b.height = 0) :
    ForkSearch record? a b 0 (.ok none)
  | lost {a b : BlockRecord} {e : ChainError} (h : ¬Met a b)
    (hzero : ¬(a.height = 0 ∧ b.height = 0)) (hstep : stepBack record? a b = .error e) :
    ForkSearch record? a b 0 (.error e)
  | step {a b p q : BlockRecord} {n : Nat} {result : Except ChainError (Option Height)}
    (h : ¬Met a b) (hzero : ¬(a.height = 0 ∧ b.height = 0))
    (hstep : stepBack record? a b = .ok (p, q)) (hrest : ForkSearch record? p q n result) :
    ForkSearch record? a b (n + 1) result

/-- **As many steps as the search takes, and one to fail, are enough.** -/
theorem ForkSearch.walkBack_eq (h : ForkSearch record? a b n result) (hsteps : n < steps) :
    walkBack record? steps a b = result := by
  -- the limit is one step ahead of the search, so it is never what ends it
  induction h generalizing steps with
  | meets hmet =>
    unfold walkBack
    exact if_pos hmet
  | parts hmet hzero =>
    unfold walkBack
    exact (if_neg hmet).trans (if_pos hzero)
  | lost hmet hzero hstep =>
    obtain ⟨steps, rfl⟩ := Nat.exists_eq_add_of_le' hsteps
    unfold walkBack
    rw [if_neg hmet, if_neg hzero]
    simp [hstep, bind, Except.bind]
  | step hmet hzero hstep _ ih =>
    obtain ⟨steps, rfl⟩ := Nat.exists_eq_add_of_lt (Nat.zero_lt_of_lt hsteps)
    rw [Nat.zero_add, walkBack_of_stepBack hmet hzero hstep]
    exact ih (by omega)

/-! ### The other way round -/

/-- It does not matter which block is named first. -/
theorem stepBack_swap (h : stepBack record? a b = .ok (p, q)) :
    stepBack record? b a = .ok (q, p) := by
  obtain ⟨hlt, hp, rfl⟩ | ⟨hlt, rfl, hq⟩ | ⟨heq, hp, hq⟩ := Index.stepBack_cases h
  · exact stepBack_second hlt hp
  · exact stepBack_first hlt hq
  · exact stepBack_both heq.symm hq hp

/-- So it does not for a walk. -/
theorem walkBack_swap (h : walkBack record? steps a b = .ok f) :
    walkBack record? steps b a = .ok f := by
  -- both walks stop at the same place, for the same reason, and else go one step back
  induction steps generalizing a b with
  | zero =>
    unfold walkBack at h ⊢
    split_ifs at h with hmet hzero
    · rw [if_pos ⟨hmet.1.symm, hmet.2.symm⟩, ← hmet.1, h]
    · rw [if_neg fun hmet' => hmet ⟨hmet'.1.symm, hmet'.2.symm⟩, if_pos hzero.symm, h]
  | succ steps ih =>
    by_cases hmet : Met a b
    · rw [walkBack, if_pos hmet] at h
      rw [walkBack, if_pos ⟨hmet.1.symm, hmet.2.symm⟩, ← hmet.1, h]
    have hmet' : ¬Met b a := fun hmet' => hmet ⟨hmet'.1.symm, hmet'.2.symm⟩
    by_cases hzero : a.height = 0 ∧ b.height = 0
    · rw [walkBack, if_neg hmet, if_pos hzero] at h
      rw [walkBack, if_neg hmet', if_pos hzero.symm, h]
    cases hstep : stepBack record? a b with
    | error e =>
      rw [walkBack, if_neg hmet, if_neg hzero] at h
      simp [hstep, bind, Except.bind] at h
    | ok places =>
      obtain ⟨p, q⟩ := places
      rw [walkBack_of_stepBack hmet hzero hstep] at h
      rw [walkBack_of_stepBack hmet' (fun hzero' => hzero hzero'.symm) (stepBack_swap hstep)]
      exact ih h

/-- **Either record may come first**: what is found, if anything is, is the same. -/
theorem forkPoint_swap :
    forkPoint record? known b a = .ok f ↔ forkPoint record? known a b = .ok f := by
  have hsteps : walkSteps known b a = walkSteps known a b := by
    unfold walkSteps
    rw [Nat.add_comm b.height.toNat]
  unfold forkPoint
  rw [hsteps]
  exact ⟨walkBack_swap, walkBack_swap⟩

/-! ### Ancestors -/

/-- One step to the parent. A record at height zero counts as a first one, whatever it names as its
parent. -/
def StepsTo (record? : Hash → Option BlockRecord) (r p : BlockRecord) : Prop :=
  r.height ≠ 0 ∧ record? r.parent = some p

/-- The second record is the first one or an ancestor of it. -/
abbrev Ancestor (record? : Hash → Option BlockRecord) : BlockRecord → BlockRecord → Prop :=
  Relation.ReflTransGen (StepsTo record?)

/-- A common ancestor or self of two records. -/
structure Shared (record? : Hash → Option BlockRecord) (a b m : BlockRecord) : Prop where
  left : Ancestor record? a m
  right : Ancestor record? b m

/-- **The highest common ancestor** or self of two records. -/
structure HighestShared (record? : Hash → Option BlockRecord) (a b m : BlockRecord) : Prop extends
    Shared record? a b m where
  highest : ∀ k, Shared record? a b k → k.height ≤ m.height

/-- **A record whose parent has to be known**: one of the two or an ancestor, above height zero and
above all that they share. -/
structure Needed (record? : Hash → Option BlockRecord) (a b r : BlockRecord) : Prop where
  ancestor : Ancestor record? a r ∨ Ancestor record? b r
  pos : r.height ≠ 0
  above : ∀ m, Shared record? a b m → m.height < r.height

/-- A step back goes to ancestors. -/
theorem ancestor_of_stepBack (hzero : ¬(a.height = 0 ∧ b.height = 0))
    (h : stepBack record? a b = .ok (p, q)) : Ancestor record? a p ∧ Ancestor record? b q := by
  obtain ⟨hlt, hp, rfl⟩ | ⟨hlt, rfl, hq⟩ | ⟨heq, hp, hq⟩ := Index.stepBack_cases h
  · exact ⟨.single ⟨height_ne_zero_of_lt hlt, hp⟩, .refl⟩
  · exact ⟨.refl, .single ⟨height_ne_zero_of_lt hlt, hq⟩⟩
  · have hpos : a.height ≠ 0 := fun ha => hzero ⟨ha, heq ▸ ha⟩
    exact ⟨.single ⟨hpos, hp⟩, .single ⟨heq ▸ hpos, hq⟩⟩

/-- **Where a search ends** it has come to ancestors, from which it makes no further step. -/
theorem ForkSearch.exists_end (h : ForkSearch record? a b n result) :
    ∃ x y, Ancestor record? a x ∧ Ancestor record? b y ∧ ForkSearch record? x y 0 result := by
  induction h with
  | meets hmet => exact ⟨_, _, .refl, .refl, .meets hmet⟩
  | parts hmet hzero => exact ⟨_, _, .refl, .refl, .parts hmet hzero⟩
  | lost hmet hzero hstep => exact ⟨_, _, .refl, .refl, .lost hmet hzero hstep⟩
  | step _ hzero hstep _ ih =>
    obtain ⟨x, y, hx, hy, hend⟩ := ih
    obtain ⟨hp, hq⟩ := ancestor_of_stepBack hzero hstep
    exact ⟨x, y, hp.trans hx, hq.trans hy, hend⟩

/-! ### Views in order -/

/-- What a search that starts from two records can come across. -/
def Seen (record? : Hash → Option BlockRecord) (a b r : BlockRecord) : Prop :=
  r = a ∨ r = b ∨ ∃ x, record? x = some r

/-- **A view in order**, with two records that need not be in it: a hash belongs to one record, and
a parent stands lower than its child, by however much. -/
structure Orderly (record? : Hash → Option BlockRecord) (a b : BlockRecord) : Prop where
  determined : ∀ {r s}, Seen record? a b r → Seen record? a b s → r.hash = s.hash → r = s
  falls : ∀ {r p}, Seen record? a b r → StepsTo record? r p → p.height < r.height

/-- What is below a block that is seen is seen. -/
theorem seen_left : Seen record? a b a := .inl rfl

theorem seen_right : Seen record? a b b := .inr (.inl rfl)

namespace Orderly

theorem seen (hr : Seen record? a b r) (h : Ancestor record? r m) : Seen record? a b m := by
  obtain rfl | ⟨c, -, hstep⟩ := h.cases_tail
  · exact hr
  · exact .inr (.inr ⟨_, hstep.2⟩)

/-- It is in order for the ancestors of the two records as well. -/
theorem ancestors (ho : Orderly record? a b) (hp : Ancestor record? a p)
    (hq : Ancestor record? b q) : Orderly record? p q := by
  have hseen : ∀ {r}, Seen record? p q r → Seen record? a b r := by
    rintro r (rfl | rfl | hr)
    · exact seen seen_left hp
    · exact seen seen_right hq
    · exact .inr (.inr hr)
  exact ⟨fun hr hs => ho.determined (hseen hr) (hseen hs), fun hr => ho.falls (hseen hr)⟩

/-- **Ancestors stand lower.** -/
theorem height_le (ho : Orderly record? a b) (hr : Seen record? a b r)
    (h : Ancestor record? r m) : m.height ≤ r.height := by
  induction h with
  | refl => exact UInt32.le_refl _
  | tail hprefix hstep ih =>
    exact UInt32.le_trans (UInt32.le_of_lt (ho.falls (seen hr hprefix) hstep)) ih

/-- An ancestor at the height of a record is the record itself. -/
theorem eq_of_height (ho : Orderly record? a b) (hr : Seen record? a b r)
    (h : Ancestor record? r m) (heq : m.height = r.height) : r = m := by
  obtain rfl | ⟨p, hstep, hm⟩ := h.cases_head
  · rfl
  · have hle := ho.height_le (seen hr (.single hstep)) hm
    exact absurd (ho.falls hr hstep) (UInt32.not_lt.mpr (heq ▸ hle))

end Orderly

/-- **The search does not pass what two records share**: if it does not end, it can make a step, and
what they share is still ahead of both. -/
theorem Shared.exists_stepBack (hk : Shared record? a b k) (ho : Orderly record? a b)
    (hmet : ¬Met a b) : ¬(a.height = 0 ∧ b.height = 0) ∧
      ∃ p q, stepBack record? a b = .ok (p, q) ∧ Shared record? p q k := by
  have hka := ho.height_le seen_left hk.left
  have hkb := ho.height_le seen_right hk.right
  by_cases hba : b.height < a.height
  · -- what the lower record descends from is not the higher one
    obtain rfl | ⟨p, hp, hpk⟩ := hk.left.cases_head
    · exact absurd hkb (UInt32.not_le.mpr hba)
    · exact ⟨fun h => hp.1 h.1, p, b, stepBack_first hba hp.2, hpk, hk.right⟩
  by_cases hab : a.height < b.height
  · obtain rfl | ⟨q, hq, hqk⟩ := hk.right.cases_head
    · exact absurd hka (UInt32.not_le.mpr hab)
    · exact ⟨fun h => hq.1 h.2, a, q, stepBack_second hab hq.2, hk.left, hqk⟩
  -- at one height they would share one of them only if they were one record
  have heq : a.height = b.height :=
    UInt32.le_antisymm (UInt32.not_lt.mp hba) (UInt32.not_lt.mp hab)
  obtain rfl | ⟨p, hp, hpk⟩ := hk.left.cases_head
  · obtain rfl := ho.eq_of_height seen_right hk.right heq
    exact absurd ⟨rfl, rfl⟩ hmet
  obtain rfl | ⟨q, hq, hqk⟩ := hk.right.cases_head
  · obtain rfl := ho.eq_of_height seen_left hk.left heq.symm
    exact absurd ⟨rfl, rfl⟩ hmet
  exact ⟨fun h => hp.1 h.1, p, q, stepBack_both heq hp.2 hq.2, hpk, hqk⟩

/-! ### What is found -/

/-- **Where two records share anything the search succeeds**, no lower than there. -/
theorem ForkSearch.of_shared (h : ForkSearch record? a b n result) (ho : Orderly record? a b)
    (hk : Shared record? a b k) :
    ∃ m, Shared record? a b m ∧ k.height ≤ m.height ∧ result = .ok (some m.height) := by
  -- a step never passes over what is shared, so the search cannot part or be lost before it
  induction h with
  | meets hmet =>
    obtain rfl := ho.determined seen_left seen_right hmet.2
    exact ⟨_, ⟨.refl, .refl⟩, ho.height_le seen_left hk.left, rfl⟩
  | parts hmet hzero => exact absurd hzero (hk.exists_stepBack ho hmet).1
  | lost hmet _ hstep =>
    obtain ⟨-, p, q, hok, -⟩ := hk.exists_stepBack ho hmet
    cases hok.symm.trans hstep
  | step hmet hzero hstep _ ih =>
    obtain ⟨-, p, q, hok, hpq⟩ := hk.exists_stepBack ho hmet
    cases hok.symm.trans hstep
    obtain ⟨hp, hq⟩ := ancestor_of_stepBack hzero hok
    obtain ⟨m, hm, hle, rfl⟩ := ih (ho.ancestors hp hq) hpq
    exact ⟨m, ⟨hp.trans hm.left, hq.trans hm.right⟩, hle, rfl⟩

/-- **What a result of the search says** about the two records. -/
structure ForkFound (record? : Hash → Option BlockRecord) (a b : BlockRecord)
    (result : Except ChainError (Option Height)) : Prop where
  /-- A height is that of their highest common ancestor. -/
  highest : ∀ h, result = .ok (some h) → ∃ m, HighestShared record? a b m ∧ m.height = h
  /-- None means that both go back to height zero and share nothing. -/
  apart : result = .ok none → (∃ x, Ancestor record? a x ∧ x.height = 0) ∧
    (∃ y, Ancestor record? b y ∧ y.height = 0) ∧ ∀ m, ¬Shared record? a b m
  /-- A failure names a parent that is needed and not known. -/
  missing : ∀ e, result = .error e →
    ∃ r, Needed record? a b r ∧ record? r.parent = none ∧ e = .blockNotFound r.parent
  /-- If all that are needed are known there is no failure. -/
  complete : (∀ r, Needed record? a b r → ∃ p, record? r.parent = some p) → ∃ f, result = .ok f

/-- **What the search finds is so.** -/
theorem ForkSearch.found (h : ForkSearch record? a b n result) (ho : Orderly record? a b) :
    ForkFound record? a b result := by
  obtain ⟨x, y, hx, hy, hend⟩ := h.exists_end
  have hmissing : ∀ e, result = .error e →
      ∃ r, Needed record? a b r ∧ record? r.parent = none ∧ e = .blockNotFound r.parent := by
    rintro e rfl
    -- nothing is shared, or else the search would have succeeded
    have hnone : ∀ m, ¬Shared record? a b m := by
      intro m hm
      obtain ⟨_, -, -, hok⟩ := h.of_shared ho hm
      cases hok
    cases hend with
    | lost _ hzero hstep =>
      obtain ⟨r, hr, hpos, hunknown, rfl⟩ := missing_of_stepBack hzero hstep
      refine ⟨r, ⟨?_, hpos, fun m hm => absurd hm (hnone m)⟩, hunknown, rfl⟩
      obtain rfl | rfl := hr
      · exact .inl hx
      · exact .inr hy
  refine ⟨?_, ?_, hmissing, ?_⟩
  · -- what they share is never passed over, so where they meet is the highest of it
    rintro f rfl
    cases hend with
    | meets hmet =>
      obtain rfl := ho.determined (Orderly.seen seen_left hx) (Orderly.seen seen_right hy) hmet.2
      refine ⟨x, ⟨⟨hx, hy⟩, fun k hk => ?_⟩, rfl⟩
      obtain ⟨m, -, hle, hsame⟩ := h.of_shared ho hk
      exact Option.some.inj (Except.ok.inj hsame) ▸ hle
  · rintro rfl
    cases hend with
    | parts _ hzero =>
      refine ⟨⟨x, hx, hzero.1⟩, ⟨y, hy, hzero.2⟩, fun m hm => ?_⟩
      obtain ⟨_, -, -, hok⟩ := h.of_shared ho hm
      cases hok
  · intro hknown
    cases result with
    | ok f => exact ⟨f, rfl⟩
    | error e =>
      obtain ⟨r, hr, hunknown, -⟩ := hmissing e rfl
      obtain ⟨p, hp⟩ := hknown r hr
      cases hp.symm.trans hunknown

/-! ### The end of the search -/

/-- **The search ends**: every step lowers the sum of the heights. -/
theorem Orderly.exists_forkSearch (ho : Orderly record? a b) :
    ∃ n result, ForkSearch record? a b n result ∧ n ≤ a.height.toNat + b.height.toNat := by
  -- the heights of both together fall with each step, which bounds the number of steps as well
  induction hsum : a.height.toNat + b.height.toNat using Nat.strong_induction_on
    generalizing a b with
  | _ sum ih =>
    by_cases hmet : Met a b
    · exact ⟨0, _, .meets hmet, Nat.zero_le _⟩
    by_cases hzero : a.height = 0 ∧ b.height = 0
    · exact ⟨0, _, .parts hmet hzero, Nat.zero_le _⟩
    cases hstep : stepBack record? a b with
    | error e => exact ⟨0, _, .lost hmet hzero hstep, Nat.zero_le _⟩
    | ok places =>
      obtain ⟨p, q⟩ := places
      obtain ⟨hp, hq⟩ := ancestor_of_stepBack hzero hstep
      have hlt : p.height.toNat + q.height.toNat < sum := by
        have hle := UInt32.le_iff_toNat_le.mp (ho.height_le seen_left hp)
        have hle' := UInt32.le_iff_toNat_le.mp (ho.height_le seen_right hq)
        obtain ⟨hba, hup, rfl⟩ | ⟨hab, rfl, hup⟩ | ⟨heq, hup, -⟩ := Index.stepBack_cases hstep
        · have := ho.falls seen_left ⟨height_ne_zero_of_lt hba, hup⟩
          rw [UInt32.lt_iff_toNat_lt] at this
          omega
        · have := ho.falls seen_right ⟨height_ne_zero_of_lt hab, hup⟩
          rw [UInt32.lt_iff_toNat_lt] at this
          omega
        · have := ho.falls seen_left ⟨fun ha => hzero ⟨ha, heq ▸ ha⟩, hup⟩
          rw [UInt32.lt_iff_toNat_lt] at this
          omega
      obtain ⟨n, result, hrest, hn⟩ := ih _ hlt (ho.ancestors hp hq) rfl
      exact ⟨n + 1, result, .step hmet hzero hstep hrest, by omega⟩

/-- **The limit of steps is high enough.** -/
theorem ForkSearch.forkPoint_eq (h : ForkSearch record? a b n result)
    (hn : n ≤ a.height.toNat + b.height.toNat) (known : Nat) :
    forkPoint record? known a b = result := by
  have hpos : 0 < (known + 1) * (known + 1) := Nat.mul_pos (Nat.succ_pos _) (Nat.succ_pos _)
  refine h.walkBack_eq ?_
  unfold walkSteps
  omega

/-- **What the search says of two orderly records is so**, however many heights are known. -/
theorem Orderly.forkFound (ho : Orderly record? a b) (known : Nat) :
    ForkFound record? a b (forkPoint record? known a b) := by
  obtain ⟨n, result, hsearch, hn⟩ := ho.exists_forkSearch
  exact hsearch.forkPoint_eq hn known ▸ hsearch.found ho

/-- **The search for a fork point finds the highest common ancestor.** In a view in order it ends,
after no more steps than the heights of the two records together, and what it then says of them is
so. Started from them the other way round it finds the same, and fails if it failed. -/
theorem forkPoint_highest (ho : Orderly record? a b) :
    ∃ n result, ForkSearch record? a b n result ∧ n ≤ a.height.toNat + b.height.toNat ∧
      ForkFound record? a b result ∧
      ∀ known, forkPoint record? known a b = result ∧
        (∀ f, forkPoint record? known b a = .ok f ↔ result = .ok f) ∧
        ((∃ e, forkPoint record? known b a = .error e) ↔ ∃ e, result = .error e) := by
  obtain ⟨n, result, hsearch, hn⟩ := ho.exists_forkSearch
  refine ⟨n, result, hsearch, hn, hsearch.found ho, fun known => ?_⟩
  have hresult := hsearch.forkPoint_eq hn known
  have hswap : ∀ f, forkPoint record? known b a = .ok f ↔ result = .ok f := by
    intro f
    rw [forkPoint_swap, hresult]
  refine ⟨hresult, hswap, ?_⟩
  -- one of the two fails if it does not end with a value, and these are the same
  cases hba : forkPoint record? known b a with
  | ok f => simp [(hswap f).mp hba]
  | error e =>
    cases result with
    | ok f => cases hba.symm.trans ((hswap f).mpr rfl)
    | error e' => simp

/-! ### Branches with gaps -/

namespace Sample

/-- A child of the first block, three heights above it. -/
def trunk : HeaderBlock := block 7 3 root.hash 10 none

/-- A child of that one. -/
def twig : HeaderBlock := block 8 5 trunk.hash 20 none

/-- Another child of it, much higher. -/
def bough : HeaderBlock := block 9 12 trunk.hash 30 none

/-- A view of some records. -/
def view (records : List BlockRecord) (x : Hash) : Option BlockRecord :=
  records.find? (·.hash == x)

/-- A view is in order if its records and the two others are. -/
theorem orderly_view {records : List BlockRecord} {a b : BlockRecord}
    (hhash : ∀ r ∈ a :: b :: records, ∀ s ∈ a :: b :: records, r.hash = s.hash → r = s)
    (hheight : ∀ r ∈ a :: b :: records, ∀ p ∈ records,
      r.height ≠ 0 → p.hash = r.parent → p.height < r.height) : Orderly (view records) a b := by
  have hmem : ∀ {r}, Seen (view records) a b r → r ∈ a :: b :: records := by
    rintro r (rfl | rfl | ⟨x, hx⟩)
    · exact List.mem_cons_self
    · exact List.mem_cons_of_mem _ List.mem_cons_self
    · exact List.mem_cons_of_mem _ (List.mem_cons_of_mem _ (List.mem_of_find?_eq_some hx))
  refine ⟨fun hr hs => hhash _ (hmem hr) _ (hmem hs), fun {r p} hr hstep => ?_⟩
  have hfound : records.find? (·.hash == r.parent) = some p := hstep.2
  have hp : p.hash = r.parent := by simpa using List.find?_some hfound
  exact hheight r (hmem hr) p (List.mem_of_find?_eq_some hfound) hstep.1 hp

theorem orderly_spaced :
    Orderly (view ([root, trunk, twig].map record)) (record bough) (record twig) :=
  orderly_view (by decide +kernel) (by decide +kernel)

end Sample

/-- The search starts from a record that is not in the view, and passes over the heights that are
not there. -/
theorem forkPoint_highest_spaced :
    forkPoint (Sample.view ([Sample.root, Sample.trunk, Sample.twig].map Sample.record)) 3
        (Sample.record Sample.bough) (Sample.record Sample.twig) = .ok (some 3) ∧
      ∃ m, HighestShared (Sample.view ([Sample.root, Sample.trunk, Sample.twig].map Sample.record))
        (Sample.record Sample.bough) (Sample.record Sample.twig) m ∧ m.height = 3 := by
  obtain ⟨n, result, -, -, hfound, hresult⟩ := forkPoint_highest Sample.orderly_spaced
  have heval : forkPoint (Sample.view ([Sample.root, Sample.trunk, Sample.twig].map Sample.record))
      3 (Sample.record Sample.bough) (Sample.record Sample.twig) = .ok (some 3) := by
    decide +kernel
  exact ⟨heval, hfound.highest 3 ((hresult 3).1.symm.trans heval)⟩

end HeaderChain
