import HeaderChain.Proofs.FiniteTree
import HeaderChain.Proofs.ForkPoint
import HeaderChain.Proofs.Offer

/-!
# Candidates that are children of the peak, and others

The fork finder is not asked about a child of the peak. This shortcut saves a search and changes
nothing else: the search would have gone one step back and met the peak there.

* `KnowsPeak` — what the search looks up records in: the record under a hash has that hash, and the
  peak is under its own;
* `Choice.searched` — how a candidate stands to the peak if the finder is asked about every heavier
  one;
* `ShortcutAgrees` — for a child of the peak the shortcut and the search come to the same;
* `RewriteBounded` — for any other heavier candidate, the lowest height whose canonical block
  changes is at most its own. The search finds an ancestor, which is lower than a candidate that
  nobody has seen before, so that the height after it is one that exists (`KnowsPeak.lt_of_shared`).
-/

namespace HeaderChain

open Procedure

/-- How a candidate stands to a peak, if a search is made whenever it is heavier. -/
def Choice.searched (find : ForkFinder) (i : Index) (candidate peak : BlockRecord) :
    Except ChainError Choice :=
  if isBetter candidate.weight peak.weight then (find i candidate peak).map .reorganise
  else .ok .orphan

/-- **A view of records that knows the peak.** -/
structure KnowsPeak (view : Hash → Option BlockRecord) (peak : BlockRecord) : Prop where
  keyed : ∀ {x r}, view x = some r → r.hash = x
  peak : view peak.hash = some peak

/-- **The shortcut agrees with the search**: it gives the fork point that the search would find, and
the candidate becomes the peak, if it does, from its own height on. -/
structure ShortcutAgrees {σ : Type} (find : ForkFinder) (i : Index) (s : Session σ)
    (candidate peak : BlockRecord) : Prop where
  found : find i candidate peak = .ok (some peak.height)
  forkHeight : (forkHeight find i candidate peak).result s = find i candidate peak
  choice : ∃ taken searched, (choose find i candidate (some peak)).result s = .ok taken ∧
    Choice.searched find i candidate peak = .ok searched ∧
    taken.changedFrom? candidate.height = searched.changedFrom? candidate.height ∧
    taken.changedFrom? candidate.height =
      if isBetter candidate.weight peak.weight then some candidate.height else none

/-- **What becomes of a heavier candidate** that is found by a search. -/
structure RewriteBounded {σ : Type} (view : Hash → Option BlockRecord) (find : ForkFinder)
    (i : Index) (s : Session σ) (candidate peak : BlockRecord) : Prop where
  /-- The height after the fork point is no greater than the candidate's, and the fork point none
  greater than the peak's. -/
  bounded : ∀ choice, (choose find i candidate (some peak)).result s = .ok choice →
    ∃ fork changedFrom, choice = .reorganise fork ∧
      choice.changedFrom? candidate.height = some changedFrom ∧
      changedFrom ≤ candidate.height ∧ (fork = none → changedFrom = 0) ∧
      ∀ h, fork = some h → h ≤ peak.height ∧ changedFrom.toNat = h.toNat + 1
  /-- A failure names a parent that is needed and not known. -/
  missing : ∀ e, (choose find i candidate (some peak)).result s = .error e →
    ∃ r, Needed view candidate peak r ∧ view r.parent = none ∧ e = .blockNotFound r.parent
  /-- If all that are needed are known there is no failure. -/
  complete : (∀ r, Needed view candidate peak r → ∃ p, view r.parent = some p) →
    ∃ choice, (choose find i candidate (some peak)).result s = .ok choice

section Views

variable {view : Hash → Option BlockRecord} {find : ForkFinder} {i : Index}
  {candidate peak m : BlockRecord} {known : Nat} {σ : Type}

/-! ### Children of the peak -/

/-- **The search meets the peak after one step.** -/
theorem KnowsPeak.forkSearch_child (hview : KnowsPeak view peak)
    (hchild : candidate.parent = peak.hash)
    (hheight : candidate.height.toNat = peak.height.toNat + 1) :
    ForkSearch view candidate peak 1 (.ok (some peak.height)) := by
  have hlt : peak.height < candidate.height := UInt32.lt_iff_toNat_lt.mpr (by omega)
  have hmet : ¬Index.Met candidate peak := fun h => UInt32.lt_irrefl _ (h.1 ▸ hlt)
  have hzero : ¬(candidate.height = 0 ∧ peak.height = 0) := fun h =>
    Index.height_ne_zero_of_lt hlt h.1
  have hparent : view candidate.parent = some peak := hchild ▸ hview.peak
  exact .step hmet hzero (stepBack_first hlt hparent) (.meets ⟨rfl, rfl⟩)

theorem KnowsPeak.forkPoint_child (hview : KnowsPeak view peak)
    (hchild : candidate.parent = peak.hash)
    (hheight : candidate.height.toNat = peak.height.toNat + 1) (known : Nat) :
    forkPoint view known candidate peak = .ok (some peak.height) :=
  (hview.forkSearch_child hchild hheight).forkPoint_eq (by omega) known

theorem KnowsPeak.shortcutAgrees (hview : KnowsPeak view peak)
    (hfind : find i candidate peak = forkPoint view known candidate peak)
    (hchild : candidate.parent = peak.hash)
    (hheight : candidate.height.toNat = peak.height.toNat + 1) (s : Session σ) :
    ShortcutAgrees find i s candidate peak := by
  have hfound : find i candidate peak = .ok (some peak.height) :=
    hfind.trans (hview.forkPoint_child hchild hheight known)
  have hnext : peak.height + 1 = candidate.height := by
    have hlt : peak.height < candidate.height := UInt32.lt_iff_toNat_lt.mpr (by omega)
    exact UInt32.toNat_inj.mp (by rw [toNat_add_one hlt, hheight])
  have hchoose := (gives_choose find i candidate (some peak) s).result
  refine ⟨hfound, ?_, ?_⟩
  · rw [hfound, HeaderChain.forkHeight, if_pos hchild]
    exact (gives_pure s _).result
  -- a lighter block is an orphan on both paths
  by_cases hbetter : isBetter candidate.weight peak.weight = true
  · refine ⟨.extend peak.height, .reorganise (some peak.height), ?_, ?_, rfl, ?_⟩
    · rw [hchoose, Choice.of, if_pos hbetter, if_pos hchild]
    · rw [Choice.searched, if_pos hbetter, hfound]
      rfl
    · rw [if_pos hbetter, ← hnext]
      rfl
  · refine ⟨.orphan, .orphan, ?_, if_neg hbetter, rfl, (if_neg hbetter).symm⟩
    rw [hchoose, Choice.of, if_neg hbetter]

/-! ### Other candidates -/

/-- The parent of the candidate, and that of every record in the view, stands one height lower, if
it is known. -/
def Consecutive (view : Hash → Option BlockRecord) (candidate : BlockRecord) : Prop :=
  ∀ r p, (r = candidate ∨ ∃ x, view x = some r) → StepsTo view r p →
    r.height.toNat = p.height.toNat + 1

theorem KnowsPeak.orderly (hview : KnowsPeak view peak) (hnew : view candidate.hash = none)
    (hparents : Consecutive view candidate) : Orderly view candidate peak := by
  have hseen : ∀ {r}, Seen view candidate peak r → r = candidate ∨ view r.hash = some r := by
    rintro r (rfl | rfl | ⟨x, hx⟩)
    · exact .inl rfl
    · exact .inr hview.peak
    · exact .inr (hview.keyed hx ▸ hx)
  refine ⟨fun {r s} hr hs heq => ?_, fun {r p} hr hstep => ?_⟩
  · -- the candidate is the only one whose hash is not in the view
    rcases hseen hr with rfl | hr' <;> rcases hseen hs with rfl | hs'
    · rfl
    · cases hnew.symm.trans (heq ▸ hs')
    · cases hnew.symm.trans (heq ▸ hr')
    · exact Option.some.inj (hr'.symm.trans (heq ▸ hs'))
  · have hone := hparents r p ((hseen hr).imp_right fun h => ⟨_, h⟩) hstep
    exact UInt32.lt_iff_toNat_lt.mpr (by omega)

/-- **What a new candidate shares with the peak** is lower than the candidate. -/
theorem KnowsPeak.lt_of_shared (hview : KnowsPeak view peak) (hnew : view candidate.hash = none)
    (ho : Orderly view candidate peak) (hm : Shared view candidate peak m) :
    m.height ≤ peak.height ∧ m.height < candidate.height := by
  refine ⟨ho.height_le seen_right hm.right, ?_⟩
  have hne : m ≠ candidate := by
    rintro rfl
    obtain rfl | ⟨_, -, hstep⟩ := hm.right.cases_tail
    · cases hnew.symm.trans hview.peak
    · cases hnew.symm.trans (hview.keyed hstep.2 ▸ hstep.2)
  refine UInt32.lt_of_le_of_ne (ho.height_le seen_left hm.left) fun heq => hne ?_
  exact (ho.eq_of_height seen_left hm.left heq).symm

theorem KnowsPeak.rewriteBounded (hview : KnowsPeak view peak)
    (hfind : find i candidate peak = forkPoint view known candidate peak)
    (hbetter : isBetter candidate.weight peak.weight = true) (hnew : view candidate.hash = none)
    (hother : candidate.parent ≠ peak.hash) (hparents : Consecutive view candidate)
    (s : Session σ) : RewriteBounded view find i s candidate peak := by
  have ho := hview.orderly hnew hparents
  have hfound : ForkFound view candidate peak (find i candidate peak) :=
    hfind ▸ ho.forkFound known
  -- not being a child of the peak, the block goes by what the finder says
  have hchoose : (choose find i candidate (some peak)).result s =
      (find i candidate peak).map .reorganise := by
    rw [(gives_choose find i candidate (some peak) s).result, Choice.of, if_pos hbetter,
      if_neg hother]
  cases hf : find i candidate peak with
  | error e =>
    rw [hf] at hfound hchoose
    refine ⟨fun choice h => (by cases hchoose.symm.trans h), fun e' h => ?_, fun hknown => ?_⟩
    · cases hchoose.symm.trans h
      exact hfound.missing e rfl
    · obtain ⟨f, hf⟩ := hfound.complete hknown
      cases hf
  | ok fork =>
    rw [hf] at hfound hchoose
    refine ⟨fun choice h => ?_, fun e h => (by cases hchoose.symm.trans h), fun _ => ⟨_, hchoose⟩⟩
    cases hchoose.symm.trans h
    cases fork with
    -- nothing is shared: all heights are rewritten, from zero
    | none =>
      refine ⟨none, 0, rfl, rfl, UInt32.zero_le, fun _ => rfl, fun _ h => ?_⟩
      cases h
    | some height =>
      -- the fork point lies below both, so one height above it does not wrap
      obtain ⟨m, hm, rfl⟩ := hfound.highest height rfl
      obtain ⟨hle, hlt⟩ := hview.lt_of_shared hnew ho hm.toShared
      have hnext := toNat_add_one hlt
      refine ⟨some m.height, m.height + 1, rfl, rfl, ?_, fun h => (by cases h), ?_⟩
      · rw [UInt32.le_iff_toNat_le, hnext]
        exact UInt32.lt_iff_toNat_lt.mp hlt
      · rintro _ ⟨⟩
        exact ⟨hle, hnext⟩

/-- **The two ways of finding a fork point agree** on a child of the peak, and for other candidates
the height after the fork point lies between zero and their own. -/
theorem shortcut_agrees_and_rewrite_bounded (hview : KnowsPeak view peak)
    (hfind : ∀ candidate, find i candidate peak = forkPoint view known candidate peak)
    (s : Session σ) :
    (∀ candidate, candidate.parent = peak.hash →
      candidate.height.toNat = peak.height.toNat + 1 →
      (∀ known, forkPoint view known candidate peak = .ok (some peak.height)) ∧
        ShortcutAgrees find i s candidate peak) ∧
    ∀ candidate, isBetter candidate.weight peak.weight = true → view candidate.hash = none →
      candidate.parent ≠ peak.hash → Consecutive view candidate →
      RewriteBounded view find i s candidate peak := by
  refine ⟨fun candidate hchild hheight => ?_, fun candidate hbetter hnew hother hparents => ?_⟩
  · exact ⟨hview.forkPoint_child hchild hheight,
      hview.shortcutAgrees (hfind candidate) hchild hheight s⟩
  · exact hview.rewriteBounded (hfind candidate) hbetter hnew hother hparents s

end Views

/-! ### A fork below the peak -/

namespace Sample

/-- What is known of the two branches before the heavier one is. -/
def early : List BlockRecord := [root, child].map record

/-- A finder that searches among them. -/
def finder : ForkFinder := fun _ => forkPoint (view early) early.length

theorem keyed_view {records : List BlockRecord} {x : Hash} {r : BlockRecord}
    (h : view records x = some r) : r.hash = x := by
  simpa using List.find?_some h

theorem knowsPeak_early : KnowsPeak (view early) (record child) :=
  ⟨keyed_view, by decide +kernel⟩

theorem consecutive_early : Consecutive (view early) (record rival) := by
  have hstep : ∀ r ∈ record rival :: early, ∀ p ∈ early, r.height ≠ 0 → p.hash = r.parent →
      r.height.toNat = p.height.toNat + 1 := by decide +kernel
  rintro r p hr ⟨hpos, hp⟩
  have hmem : r ∈ record rival :: early := by
    rcases hr with rfl | ⟨x, hx⟩
    · exact List.mem_cons_self
    · exact List.mem_cons_of_mem _ (List.mem_of_find?_eq_some hx)
  exact hstep r hmem p (List.mem_of_find?_eq_some hp) hpos (keyed_view hp)

end Sample

/-- Both ways at one peak: a child of it, and a heavier block that parts from it at height zero. -/
theorem shortcut_agrees_and_rewrite_bounded_forked :
    ShortcutAgrees Sample.finder {} (⟨(), {}, []⟩ : Session Unit)
        (Sample.record Sample.grandchild) (Sample.record Sample.child) ∧
      RewriteBounded (Sample.view Sample.early) Sample.finder {}
        (⟨(), {}, []⟩ : Session Unit) (Sample.record Sample.rival) (Sample.record Sample.child) ∧
      Sample.finder {} (Sample.record Sample.rival) (Sample.record Sample.child) =
        .ok (some 0) := by
  obtain ⟨hchild, hother⟩ := shortcut_agrees_and_rewrite_bounded Sample.knowsPeak_early
    (fun _ => rfl : ∀ candidate, Sample.finder {} candidate (Sample.record Sample.child) =
      forkPoint (Sample.view Sample.early) 2 candidate (Sample.record Sample.child))
    (⟨(), {}, []⟩ : Session Unit)
  refine ⟨(hchild _ (by decide +kernel) (by decide +kernel)).2, ?_, by decide +kernel⟩
  exact hother _ (by decide +kernel) (by decide +kernel) (by decide +kernel)
    Sample.consecutive_early

end HeaderChain
