import HeaderChain.Proofs.Determined
import HeaderChain.Proofs.Heaviest
import HeaderChain.Proofs.Reachable
import HeaderChain.Proofs.Window

/-!
# Look-ups that fail

Eviction and weight proofs leave gaps in what is known, and an operation that comes upon one fails.
A valid block is not lost by that. The two walks of an offer go the same way: whatever the search
for the fork point has passed, the walk down to it finds again, so that nothing fails any more once
the fork choice has come to a result.

* `Index.walk_of_walkBack`, `Index.Walk.pathDown_ok` — from the fork point that one walk has found
  follows the path that the other one finds;
* `Index.Within.blockNotFound_of_forkPoint` — over a tree the search comes to an end, and fails for
  want of a record only;
* `Setting.over` — the setting of these results, in which all records are of one tree, on any store;
* `Chain.NeverLost`, `Chain.Reachable.never_lost` — what offering a block can come to there;
* `Chain.Entire` — what is known of a chain that has never taken a proof and evicts nothing: there
  are no gaps.
-/

namespace HeaderChain

namespace Index

variable {tree : BlockTree} {i : Index} {a b a' b' p r : BlockRecord} {floor : Height}
  {path : List BlockRecord} {e : ChainError}

/-! ### One walk after another -/

/-- **What the search for a fork point has passed is a way down**, as far as to the fork point, or
to height zero if there is none. -/
theorem walk_of_walkBack {steps : Nat} {f : Option Height}
    (h : walkBack i.record? steps a b = .ok f) (hfloor : ∀ k, f = some k → k ≤ floor) :
    ∃ path, i.Walk floor a path := by
  induction steps generalizing a b with
  | zero =>
    unfold walkBack at h
    split_ifs at h with hsame hroots
    · exact ⟨[a], .stop (hfloor _ (Except.ok.inj h).symm)⟩
    · exact ⟨[a], .stop (hroots.1 ▸ UInt32.zero_le)⟩
  | succ steps ih =>
    unfold walkBack at h
    split_ifs at h with hsame hroots
    · exact ⟨[a], .stop (hfloor _ (Except.ok.inj h).symm)⟩
    · exact ⟨[a], .stop (hroots.1 ▸ UInt32.zero_le)⟩
    · dsimp only at h
      cases hstep : stepBack i.record? a b with
      | error e => simp [hstep, bind, Except.bind] at h
      | ok places =>
        obtain ⟨a', b'⟩ := places
        simp only [hstep, bind, Except.bind] at h
        obtain ⟨path, hpath⟩ := ih h
        -- the first record has stayed where it is, or gone one step of the way
        rcases (of_stepBack hstep).1 with rfl | hparent
        · exact ⟨path, hpath⟩
        · by_cases hlow : a.height ≤ floor
          · exact ⟨[a], .stop hlow⟩
          · exact ⟨a :: path, .step (UInt32.not_le.mp hlow) hparent hpath⟩

/-- A walk down is found in as many steps as it takes. -/
theorem Walk.walkDown_ok (h : i.Walk floor r path) {steps : Nat}
    (hsteps : path.length ≤ steps + 1) : i.walkDown floor steps r = .ok path := by
  induction h generalizing steps with
  | stop hlow =>
    unfold walkDown
    exact if_pos hlow
  | @step r p path hhigh hp hpath ih =>
    have hpos : 0 < path.length := by cases hpath <;> simp
    rw [List.length_cons] at hsteps
    -- each step of the walk costs one of the limit
    cases steps with
    | zero => omega
    | succ steps =>
      have hrest : i.walkDown floor steps p = .ok path := ih (by omega)
      unfold walkDown
      simp [UInt32.not_le.mpr hhigh, record_eq_ok.mpr hp, hrest, bind, pure, Except.bind,
        Except.pure]

/-- The parent of a record of the tree is one as well, and stands one below it. -/
theorem Within.records_parent (hi : i.Within tree) (hr : tree.Records r)
    (hp : i.record? r.parent = some p) :
    tree.Records p ∧ r.height.toNat = p.height.toNat + 1 := by
  obtain ⟨x, hx, hcopies⟩ := hr
  obtain ⟨z, hz, hpz, hlink⟩ := hi.parent hcopies hp
  refine ⟨⟨z, hz, hpz⟩, ?_⟩
  rw [hcopies.height, hpz.height]
  exact tree.height_of_parent hz hx hlink

/-- On a walk down the heights fall, so that it is not long. -/
theorem Walk.length_le (h : i.Walk floor r path) (hi : i.Within tree) (hr : tree.Records r) :
    path.length ≤ r.height.toNat + 1 := by
  induction h with
  | stop => simp
  | step _ hp _ ih =>
    obtain ⟨hrecord, hheight⟩ := hi.records_parent hr hp
    have hlength := ih hrecord
    rw [List.length_cons]
    omega

/-- **The path is found** if there is one. -/
theorem Walk.pathDown_ok (h : i.Walk floor r path) (hi : i.Within tree) (hr : tree.Records r) :
    i.pathDown floor r = .ok path := by
  have hlength := h.length_le hi hr
  refine h.walkDown_ok ?_
  unfold pathSteps
  omega

/-! ### Walks that fail -/

/-- A parent is missing for one reason: it has no record. -/
theorem blockNotFound_of_parentOf {record? : Hash → Option BlockRecord}
    (h : parentOf record? a = .error e) : ∃ x, e = .blockNotFound x := by
  unfold parentOf at h
  cases hp : record? a.parent <;> simp [hp] at h
  exact ⟨_, h.symm⟩

/-- So is a step of the walk. -/
theorem blockNotFound_of_stepBack {record? : Hash → Option BlockRecord}
    (h : stepBack record? a b = .error e) : ∃ x, e = .blockNotFound x := by
  unfold stepBack at h
  split_ifs at h
  all_goals
    cases ha : parentOf record? a <;> cases hb : parentOf record? b <;>
      simp only [ha, hb, bind, pure, Except.bind, Except.pure, Except.error.injEq,
        reduceCtorEq] at h
  all_goals
    subst h
    first
      | exact blockNotFound_of_parentOf ha
      | exact blockNotFound_of_parentOf hb

/-- A step back lowers the sum of the heights. -/
theorem Within.stepBack_lt (hi : i.Within tree) (ha : tree.Records a) (hb : tree.Records b)
    (h : stepBack i.record? a b = .ok (a', b')) :
    tree.Records a' ∧ tree.Records b' ∧
      a'.height.toNat + b'.height.toNat < a.height.toNat + b.height.toNat := by
  obtain ⟨-, hpa, rfl⟩ | ⟨-, rfl, hpb⟩ | ⟨-, hpa, hpb⟩ := stepBack_cases h
  · obtain ⟨hra, hheight⟩ := hi.records_parent ha hpa
    exact ⟨hra, hb, by omega⟩
  · obtain ⟨hrb, hheight⟩ := hi.records_parent hb hpb
    exact ⟨ha, hrb, by omega⟩
  · obtain ⟨hra, hheight⟩ := hi.records_parent ha hpa
    obtain ⟨hrb, hheight'⟩ := hi.records_parent hb hpb
    exact ⟨hra, hrb, by omega⟩

/-- **A walk that is long enough fails for a missing record** and for nothing else. -/
theorem Within.blockNotFound_of_walkBack (hi : i.Within tree) {steps : Nat} (ha : tree.Records a)
    (hb : tree.Records b) (hsteps : a.height.toNat + b.height.toNat ≤ steps)
    (h : walkBack i.record? steps a b = .error e) : ∃ x, e = .blockNotFound x := by
  -- heights fall with each step, so the walk never runs out of steps before both are at zero
  induction steps generalizing a b with
  | zero =>
    have hzero : a.height = 0 ∧ b.height = 0 :=
      ⟨UInt32.toNat_inj.mp (by simp; omega), UInt32.toNat_inj.mp (by simp; omega)⟩
    unfold walkBack at h
    split_ifs at h
  | succ steps ih =>
    unfold walkBack at h
    split_ifs at h with hsame hroots
    dsimp only at h
    cases hstep : stepBack i.record? a b with
    | error e' =>
      simp only [hstep, bind, Except.bind, Except.error.injEq] at h
      exact h ▸ blockNotFound_of_stepBack hstep
    | ok places =>
      obtain ⟨a', b'⟩ := places
      simp only [hstep, bind, Except.bind] at h
      obtain ⟨hra, hrb, hlt⟩ := hi.stepBack_lt ha hb hstep
      exact ih hra hrb (by omega) h

/-- **The search for a fork point fails for want of a record only**: over a tree it does not go
round in a circle. -/
theorem Within.blockNotFound_of_forkPoint (hi : i.Within tree) (ha : tree.Records a)
    (hb : tree.Records b) (h : i.forkPoint a b = .error e) : ∃ x, e = .blockNotFound x :=
  hi.blockNotFound_of_walkBack ha hb (Nat.le_add_right _ _) h

/-- What is not known lies above the fork point. -/
theorem Within.forkPoint_lt (hi : i.Within tree) {x y : HeaderBlock} (hx : tree.has x)
    (ha : a.Copies x) (hnew : i.contains x.hash = false) (hy : tree.has y)
    (hb : i.record? y.hash = some b) {f : Height} (h : i.forkPoint a b = .ok (some f)) :
    f < a.height := by
  obtain ⟨m, l, -, hl, -, rfl, hm⟩ := descents_of_walkBack hi hx ha hy hb h
  rw [ha.height]
  refine UInt32.lt_of_le_of_ne (hl.height_le hl.last_mem) fun heq => ?_
  obtain rfl := hl.eq_of_height hl.last_mem hl.head_mem heq
  exact Bool.noConfusion (hm.symm.trans hnew)

end Index

/-- Collaborators that find parameters for every child of a block of the tree, and build the record
of every block of it. -/
structure Consensus.Unfailing (k : Consensus) (tree : BlockTree) : Prop where
  adjust : ∀ constants first i {parent}, tree.Records parent →
    ∃ p, k.adjust constants first parent i = .ok p
  build : ∀ constants i iters {b}, tree.has b → ∃ r, k.build constants i iters b = .ok r

namespace Chain

open Procedure

/-- **The setting in which all records are of one tree**: those that are built and those that come
with a proof. Of stores nothing is asked. -/
def Setting.over (tree : BlockTree) : Setting :=
  .of (·.Obeys tree) (fun _ rs => ∀ r ∈ rs, tree.Records r) fun _ => True

variable {tree : BlockTree} {k : Consensus} {v : Verifier} {config : Config} {c m : Chain}
  {d : Disk} {cs : List Call} {b : HeaderBlock} {r : BlockRecord} {choice : Choice}
  {changedFrom : Height} {e : ChainError} {s : Session Chain}

/-- In this setting every record of the index copies a block of the tree. -/
theorem Reachable.within (h : Reachable (.over tree) s) : s.memory.index.Within tree :=
  h.lasts (Index.lasts_all tree.Records)
    (fun hk hr => by
      obtain ⟨hb, hcopies⟩ := hr.copies hk
      exact ⟨_, hb, hcopies⟩)
    fun hrs => hrs

/-! ### How a record stands to the peak -/

/-- **Where the heights change, the path is found**: for the first peak and for a child of the peak
there is nothing to be walked, and in all other cases the search for the fork point has come the
same way. -/
theorem exists_pathDown (hi : c.index.Within tree) (hfind : k.findFork = Index.forkPoint)
    (hb : tree.has b) (hr : r.Copies b) (hnew : c.index.contains b.hash = false)
    (hs : c.standing? k r = .ok choice) (hc : choice.changedFrom? r.height = some changedFrom) :
    ∃ path, c.index.pathDown changedFrom r = .ok path := by
  -- a walk down is all that is needed, since it is never longer than the limit
  suffices ∃ path, c.index.Walk changedFrom r path by
    obtain ⟨path, hpath⟩ := this
    exact ⟨path, hpath.pathDown_ok hi ⟨b, hb, hr⟩⟩
  rcases standing?_eq_ok hs with ⟨-, rfl⟩ | ⟨peak, p, -, hpr, hof⟩
  · cases hc
    exact ⟨[r], .stop (UInt32.le_refl _)⟩
  obtain ⟨hhash, y, hy, hpy⟩ := hi _ _ hpr
  have hpr' : c.index.record? y.hash = some p := by rw [← hpy.hash, hhash, hpr]
  rcases (Choice.of_changedFrom hof hc).2 with ⟨hchild, rfl⟩ | ⟨hfork, rfl⟩ | ⟨f, hfork, rfl⟩
  · -- a child stands one above the peak
    have hlink : b.parent = y.hash := by rw [← hr.parent, hchild, hpy.hash]
    have hstep := tree.height_of_parent hy hb hlink
    refine ⟨[r], .stop (UInt32.le_of_eq (UInt32.toNat_inj.mp ?_))⟩
    have hlt : p.height < r.height := by
      rw [UInt32.lt_iff_toNat_lt, hpy.height, hr.height]
      omega
    rw [toNat_add_one hlt, hpy.height, hr.height, hstep]
  · -- the walk back has gone through the very records that lead down to the fork point
    rw [hfind] at hfork
    exact Index.walk_of_walkBack hfork (by simp)
  · rw [hfind] at hfork
    have hlt := hi.forkPoint_lt hb hr hnew hy hpr' hfork
    refine Index.walk_of_walkBack hfork fun h hh => ?_
    cases hh
    rw [UInt32.le_iff_toNat_le, toNat_add_one hlt]
    omega

/-- **A fork choice fails for want of a record only.** -/
theorem blockNotFound_of_standing? (hi : c.index.Within tree)
    (hfind : k.findFork = Index.forkPoint) (hr : tree.Records r)
    (hs : c.standing? k r = .error e) : ∃ x, e = .blockNotFound x := by
  unfold standing? peakRecord at hs
  cases hp : c.peak? with
  | none => simp [hp, Except.bind, Choice.of] at hs
  | some peak =>
    -- the record of the peak may be missing, or one that the search for the fork needs
    cases hpr : c.index.record? peak.hash with
    | none =>
      simp only [hp, Index.record, hpr, Except.map, Except.bind, Except.error.injEq] at hs
      exact ⟨_, hs.symm⟩
    | some p =>
      simp only [hp, Index.record_eq_ok.mpr hpr, Except.map, Except.bind, Choice.of, hfind] at hs
      split_ifs at hs
      cases hfork : c.index.forkPoint r p with
      | ok f => simp [hfork] at hs
      | error e' =>
        simp only [hfork, Except.error.injEq] at hs
        exact hs ▸ hi.blockNotFound_of_forkPoint hr (hi _ _ hpr).2 hfork

/-! ### What becomes of a block -/

/-- Parameters are found for every block with a known parent, and for a first block. -/
theorem exists_parameters (hi : c.index.Within tree) (hk : k.Unfailing tree)
    (hparent : b.height = 0 ∨ c.index.contains b.parent = true) :
    ∃ p, c.parameters? k b = .ok (some p) := by
  unfold parameters?
  by_cases hzero : b.height = 0
  · exact ⟨_, if_pos hzero⟩
  · obtain ⟨parent, hparent⟩ := Index.contains_iff.mp (hparent.resolve_left hzero)
    obtain ⟨p, hp⟩ := hk.adjust c.config.constants b.firstInSubSlot c.index (hi _ _ hparent).2
    exact ⟨p, by simp [hzero, hparent, hp, Except.map]⟩

/-- The search for parameters does not fail: if the parent is unknown the block is refused. -/
theorem parameters?_ne_error (hi : c.index.Within tree) (hk : k.Unfailing tree) :
    c.parameters? k b ≠ .error e := by
  intro he
  by_cases hparent : b.height = 0 ∨ c.index.contains b.parent = true
  · obtain ⟨p, hp⟩ := exists_parameters hi hk hparent
    cases hp.symm.trans he
  · obtain ⟨hzero, hunknown⟩ := not_or.mp hparent
    have hnone : c.index.record? b.parent = none := by
      simpa [Index.contains] using hunknown
    simp [parameters?, hzero, hnone] at he

/-- **An offer that fails** does so because the store has refused the new peak, or because the fork
choice has come upon a gap; and then the record of the block is kept, and nothing else changes. -/
theorem store_or_kept_of_offered (hi : c.index.Within tree) (hk : k.Obeys tree)
    (hk' : k.Unfailing tree) (h : Offered k b c d (.error e) m cs) :
    (∃ detail, e = .store (.database detail)) ∨
      (∃ x, e = .blockNotFound x) ∧ ∃ r, Validated k b c r ∧ c.standing? k r = .error e ∧
        m = c.kept r ∧ cs = [] := by
  -- in such a tree no collaborator fails, and a path that is asked for is there
  cases h with
  | unadjusted _ hp => exact absurd hp (parameters?_ne_error hi hk')
  | @unbuilt p iters _ _ _ hv hbuild =>
    have hb := hk.has_of_validate (validate_of_verdict hv)
    obtain ⟨r, hr⟩ := hk'.build c.config.constants c.index iters hb
    cases hr.symm.trans hbuild
  | @unresolved r _ hr hs =>
    obtain ⟨hb, hcopies⟩ := hr.copies hk
    have hgap := blockNotFound_of_standing? hi hk.findFork ⟨b, hb, hcopies⟩ hs
    exact .inr ⟨hgap, r, hr, hs, rfl, rfl⟩
  | pathless hr hs hc hpath =>
    obtain ⟨hb, hcopies⟩ := hr.copies hk
    obtain ⟨path, hpath'⟩ := exists_pathDown hi hk.findFork hb hcopies hr.fresh hs hc
    cases hpath'.symm.trans hpath
  | refused => exact .inl ⟨_, rfl⟩

/-- **No valid block is lost** to a failed look-up when this one is offered. -/
structure NeverLost (k : Consensus) (b : HeaderBlock) (s : Session Chain) : Prop where
  /-- A new block whose parent is known, or that needs none, is put to the validator, and if it is
  accepted its record is built. -/
  valid : s.memory.index.contains b.hash = false →
    b.height = 0 ∨ s.memory.index.contains b.parent = true →
    ∃ p, s.memory.parameters? k b = .ok (some p) ∧
      ∀ iters, s.memory.verdict k b p = .ok iters → ∃ r, Validated k b s.memory r
  /-- If the fork choice comes to a result by which the block wins, every record on the way down to
  where the heights change is found, and only the store can still fail. -/
  wins : ∀ {r choice changedFrom}, Validated k b s.memory r →
    s.memory.standing? k r = .ok choice → choice.changedFrom? r.height = some changedFrom →
    (∃ path, s.memory.index.pathDown changedFrom r = .ok path) ∧
      ((offer k b).result s = .ok .newPeak ∨
        ∃ cause, (offer k b).result s = .error (.store cause))
  /-- Nothing fails but the store and look-ups. -/
  fails : ∀ e, (offer k b).result s = .error e →
    (∃ cause, e = .store cause) ∨ ∃ x, e = .blockNotFound x
  /-- If a look-up fails it is one of the fork choice. The record of the block is indexed all the
  same, and nothing else changes. -/
  kept : ∀ x, (offer k b).result s = .error (.blockNotFound x) →
    ∃ r, Validated k b s.memory r ∧ r.Copies b ∧
      s.memory.standing? k r = .error (.blockNotFound x) ∧
      ((offer k b).after s).memory = s.memory.kept r ∧
      ((offer k b).after s).memory.index.record? b.hash = some r ∧
      ((offer k b).after s).disk = s.disk

/-- **No valid block is lost**, as far as the index is within the tree. -/
theorem neverLost_of_within (hi : s.memory.index.Within tree) (hk : k.Obeys tree)
    (hk' : k.Unfailing tree) : NeverLost k b s := by
  obtain ⟨a, m, cs, hgives, hoffered⟩ := offer_cases k b s
  refine ⟨fun hnew hparent => ?_, fun {r choice changedFrom} hr hs hc => ?_, fun e he => ?_,
    fun x hx => ?_⟩
  · -- a block whose parent is known gets a record
    obtain ⟨p, hp⟩ := exists_parameters hi hk' hparent
    refine ⟨p, hp, fun iters hv => ?_⟩
    have hb := hk.has_of_validate (validate_of_verdict hv)
    obtain ⟨r, hr⟩ := hk'.build s.memory.config.constants s.memory.index iters hb
    exact ⟨r, hnew, p, iters, hp, hv, hr⟩
  · -- once the fork choice has come to a result, the path down is found, and only the store can
    -- refuse
    obtain ⟨hb, hcopies⟩ := hr.copies hk
    obtain ⟨path, hpath⟩ := exists_pathDown hi hk.findFork hb hcopies hr.fresh hs hc
    refine ⟨⟨path, hpath⟩, ?_⟩
    rw [hgives.result]
    rcases hr.newPeak_or_refused hs hc hpath hoffered with ⟨rfl, -⟩ | ⟨detail, -, rfl⟩
    · exact .inl rfl
    · exact .inr ⟨_, rfl⟩
  · obtain rfl : a = .error e := hgives.result.symm.trans he
    rcases store_or_kept_of_offered hi hk hk' hoffered with ⟨detail, rfl⟩ | ⟨hgap, -⟩
    · exact .inl ⟨_, rfl⟩
    · exact .inr hgap
  · -- if a look-up fails, the record is kept
    obtain rfl : a = .error (.blockNotFound x) := hgives.result.symm.trans hx
    rcases store_or_kept_of_offered hi hk hk' hoffered with ⟨detail, hd⟩ | ⟨-, r, hr, hs, rfl, rfl⟩
    · cases hd
    · have hcopies := (hr.copies hk).2
      refine ⟨r, hr, hcopies, hs, hgives.memory, ?_, hgives.disk⟩
      rw [hgives.memory]
      show (s.memory.index.add r).record? b.hash = some r
      rw [Index.record?_add, if_pos hcopies.hash]

/-! ### Chains without gaps -/

/-- **A chain without gaps**: every known block has its parent indexed, if it has one, and so has
the peak its record. -/
structure Entire (c : Chain) : Prop where
  closed : c.index.Closed
  peak : ∀ p, c.peak? = some p → c.index.contains p.hash = true

/-- Only the records and the peak matter. -/
theorem Entire.congr (hc : c.Entire) (hi : m.index.record? = c.index.record?)
    (hp : m.peak? = c.peak?) : m.Entire where
  closed x r hr := by
    rw [hi] at hr ⊢
    exact hc.closed x r hr
  peak p hpeak := by
    rw [Index.contains, hi]
    exact hc.peak p (hp ▸ hpeak)

/-- An empty chain has no gap. -/
theorem entire_of_empty (hi : c.index = .empty) (hp : c.peak? = none) : c.Entire where
  closed x r hr := by simp [hi] at hr
  peak p hpeak := by cases hp.symm.trans hpeak

/-- A valid block that is no first one has its parent indexed. -/
theorem Validated.exists_parent (hr : Validated k b c r) (hheight : b.height ≠ 0) :
    ∃ p, c.index.record? b.parent = some p := by
  obtain ⟨-, p, -, hp, -⟩ := hr
  unfold parameters? at hp
  rw [if_neg hheight] at hp
  cases hparent : c.index.record? b.parent with
  | none => simp [hparent] at hp
  | some parent => exact ⟨parent, rfl⟩

/-- A valid block has its parent indexed, or needs none. -/
theorem Validated.rests (hr : Validated k b c r) (hcopies : r.Copies b) : c.index.Rests r := by
  intro hheight
  rw [hcopies.height] at hheight
  rw [hcopies.parent]
  exact hr.exists_parent hheight

/-- A record whose parent is known leaves no gap. -/
theorem Entire.kept (hc : c.Entire) (hr : c.index.Rests r) : (c.kept r).Entire where
  closed x r' hr' hheight := by
    have hparent : ∃ p, c.index.record? r'.parent = some p := by
      change (c.index.add r).record? x = some r' at hr'
      rw [Index.record?_add] at hr'
      -- the record is the new one, which rests, or was there before
      split at hr'
      · cases hr'
        exact hr hheight
      · exact hc.closed x r' hr' hheight
    obtain ⟨p, hp⟩ := hparent
    show ∃ p, (c.index.add r).record? r'.parent = some p
    rw [Index.record?_add]
    split
    · exact ⟨r, rfl⟩
    · exact ⟨p, hp⟩
  peak p hp := contains_add.mpr (.inr (hc.peak p hp))

/-- **Offering a block leaves no gap** if nothing is evicted. -/
theorem Entire.offered (hc : c.Entire) (hret : c.config.blockRetention = 0) (hk : k.Obeys tree)
    {a : Except ChainError Outcome} (h : Offered k b c d a m cs) : m.Entire := by
  -- without retention nothing is evicted, so the block is one record more, at most
  cases h with
  | known | disconnected | unadjusted | invalid | unbuilt | pathless | refused => exact hc
  | unresolved hr | orphan hr => exact hc.kept (hr.rests (hr.copies hk).2)
  | newPeak hr =>
    have hcopies := (hr.copies hk).2
    have hkept := hc.kept (hr.rests hcopies)
    rw [adopted_of_retention hret]
    refine ⟨fun x r' hr' => ?_, fun p hp => ?_⟩
    · rw [Index.record?_replaceFrom] at hr' ⊢
      exact hkept.closed x r' hr'
    · obtain rfl : b = p := Option.some.inj hp
      show (replaceFrom _ _ _).contains b.hash = true
      rw [Index.contains, Index.record?_replaceFrom, Index.record?_add, if_pos hcopies.hash]
      rfl

/-- Where there are no gaps the fork choice comes to a result. -/
theorem Entire.standing?_ok (hc : c.Entire) (hi : c.index.Within tree)
    (hfind : k.findFork = Index.forkPoint) (hr : tree.Records r) (hrests : c.index.Rests r) :
    ∃ choice, c.standing? k r = .ok choice := by
  unfold standing? peakRecord
  cases hp : c.peak? with
  | none => exact ⟨.firstPeak, rfl⟩
  | some peak =>
    obtain ⟨p, hpr⟩ := Index.contains_iff.mp (hc.peak peak hp)
    simp only [Index.record_eq_ok.mpr hpr, Except.map, Except.bind, Choice.of, hfind]
    -- without gaps the search for the fork comes to an end
    split_ifs
    · exact ⟨_, rfl⟩
    · obtain ⟨f, hf⟩ := hc.closed.forkPoint_ok hi hr hrests (hi _ _ hpr).2
        fun hheight => hc.closed _ _ hpr hheight
      exact ⟨.reorganise f, by simp [hf]⟩
    · exact ⟨_, rfl⟩

/-- No operation changes the configuration. -/
theorem Offered.config_eq {a : Except ChainError Outcome} (h : Offered k b c d a m cs) :
    m.config = c.config := by
  cases h with
  | newPeak => simp [adopted]
  | _ => rfl

/-- A proof that is not taken leaves the chain as it was, but for the slot of the proof. -/
theorem ProofOffered.eq_of_not_taken {w : WeightProof} {records : Option (List BlockRecord)}
    {a : Except ChainError Bool} (h : ProofOffered v w c d records a m cs) (ha : a ≠ .ok true) :
    m = c ∨ m = c.withProof w true := by
  cases h with
  | empty | tooLight | rejected => exact .inl rfl
  | seeding _ _ _ hs =>
    cases hs with
    | empty | tipMissing | proofRefused => exact .inl rfl
    | peakRefused => exact .inr rfl
    | seeded => exact absurd rfl ha

/-- A reset leaves no gap, finished or not. -/
theorem Resetting.entire (hc : c.Entire) {a : Except ChainError Unit}
    (h : Resetting c d a m cs) : m.Entire := by
  cases h with
  | proofRefused => exact hc
  | peakRefused => exact hc.congr rfl rfl
  | done => exact entire_of_empty rfl rfl

/-- A reset leaves the configuration. -/
theorem Resetting.config_eq {a : Except ChainError Unit} (h : Resetting c d a m cs) :
    m.config = c.config := by
  cases h <;> rfl

/-- **Without a proof and without eviction there are never gaps.** -/
theorem Reachable.entire (h : Reachable (Setting.over tree).proofless s)
    (hret : s.memory.config.blockRetention = 0) : s.memory.Entire := by
  revert hret
  refine h.invariant (P := fun c _ => c.config.blockRetention = 0 → c.Entire) ?_ ?_ ?_ ?_
  · intro v k config d m cs hopens hloading _
    -- there is no proof in the store, so the chain begins with nothing
    have hnone : ∀ x, (fresh config).index.record? x = none := Index.record?_empty
    cases hloading with
    | unseeded _ _ hr =>
      obtain ⟨-, rfl, -⟩ := hr.eq_of_orphan fun x r hr => absurd hr (by simp [hnone])
      exact entire_of_empty rfl rfl
    | seeded hw => cases hopens.2.symm.trans hw
  · intro s k b a m cs hq hs hoffered hret
    rw [hoffered.config_eq] at hret
    exact (hs hret).offered hret hq.1 hoffered
  · intro s v w records a m cs hq hs hresult hoffered hret
    have ha : a ≠ .ok true := fun ha => hq.2 (hresult.trans ha)
    rcases hoffered.eq_of_not_taken ha with rfl | rfl
    · exact hs hret
    · exact (hs hret).congr rfl rfl
  · intro s a m cs hs hreset hret
    rw [hreset.config_eq] at hret
    exact hreset.entire (hs hret)

/-- **A valid block is never lost to a failed look-up.** If the fork choice comes to a result, every
record on the way down to where the heights change is found; and if it comes upon a gap, the record
of the block is kept and nothing else changes. A chain that has never taken a proof and keeps every
record comes upon no gap. -/
theorem Reachable.never_lost (h : Reachable (.over tree) s) (hk : k.Obeys tree)
    (hk' : k.Unfailing tree) (b : HeaderBlock) :
    NeverLost k b s ∧
      (Reachable (Setting.over tree).proofless s → s.memory.config.blockRetention = 0 →
        ∀ x, (offer k b).result s ≠ .error (.blockNotFound x)) := by
  have hlost := neverLost_of_within (b := b) h.within hk hk'
  refine ⟨hlost, fun hproofless hret x hx => ?_⟩
  obtain ⟨r, hr, hcopies, hs, -⟩ := hlost.kept x hx
  obtain ⟨choice, hs'⟩ := (hproofless.entire hret).standing?_ok h.within hk.findFork
    ⟨b, (hr.copies hk).1, hcopies⟩ (hr.rests hcopies)
  cases hs'.symm.trans hs

end Chain

namespace Sample

/-- A first block apart from the others, and heavier than they are. -/
def stranger : HeaderBlock := block 2 0 Hash.zero 100 none

/-- A first block with a child, and another first block. -/
def parted : List HeaderBlock := [root, child, stranger]

/-- The tree of the two first blocks and the child. -/
def partedTree : BlockTree := .ofList parted (by decide +kernel) (by decide +kernel)

/-- A chain that stands on a proof of a block whose parent is not known. -/
def gapped : Session Chain :=
  (Chain.offerProof (.only parted) { recent := [child] } none).after
    (Chain.opened (.only parted) (.only parted) {} {})

theorem follows_parted :
    (Verifier.only parted).Follows fun _ rs => ∀ r ∈ rs, partedTree.Records r := by
  intro w skip rs h r hr
  obtain ⟨run, hrun, hcovers⟩ := Verifier.covers_of_only h
  obtain ⟨b, hb, hrb⟩ := BlockRecord.exists_block hcovers.copies hr
  exact ⟨b, hrun b hb, hrb⟩

theorem obeys_parted : (Consensus.only parted).Obeys partedTree := Consensus.only_obeys

theorem reachable_gapped : Chain.Reachable (.over partedTree) gapped := by
  have hopens : (Chain.Setting.over partedTree).opens (.only parted) {} :=
    ⟨follows_parted, trivial⟩
  exact (Chain.Reachable.opened_empty hopens rfl fun _ _ => rfl).asked
    (q := .offerProof (.only parted) { recent := [child] } none) ⟨follows_parted, by simp⟩

/-- A chain that keeps every record and was offered a block with its child. -/
def whole : Session Chain :=
  Chain.offerAll (.only parted) [root, child]
    (Chain.opened (.only parted) (.only parted) { blockRetention := 0 } {})

/-- That chain is reached without a proof. -/
theorem reachable_whole : Chain.Reachable (Chain.Setting.over partedTree).proofless whole := by
  have hopens : (Chain.Setting.over partedTree).proofless.opens (.only parted) {} :=
    ⟨⟨follows_parted, trivial⟩, rfl⟩
  exact (Chain.Reachable.opened_empty hopens rfl fun _ _ => rfl).offerAll
    (fun _ _ => ⟨obeys_parted, not_false⟩) _

end Sample

set_option maxRecDepth 4000 in
/-- A valid block is kept although the fork choice comes upon a gap, the missing parent of the peak.
Where that parent is known no look-up fails. -/
theorem Chain.never_lost_stranger :
    (Chain.offer (.only Sample.parted) Sample.stranger).result Sample.gapped =
        .error (.blockNotFound Sample.root.hash) ∧
      (∃ r, ((Chain.offer (.only Sample.parted) Sample.stranger).after
        Sample.gapped).memory.index.record? Sample.stranger.hash = some r ∧
          r.Copies Sample.stranger) ∧
      ∀ x, (Chain.offer (.only Sample.parted) Sample.stranger).result Sample.whole ≠
        .error (.blockNotFound x) := by
  have hk' : (Consensus.only Sample.parted).Unfailing Sample.partedTree :=
    ⟨fun _ _ _ _ _ => ⟨_, rfl⟩, fun _ _ _ _ _ => ⟨_, rfl⟩⟩
  have hresult : (Chain.offer (.only Sample.parted) Sample.stranger).result Sample.gapped =
      .error (.blockNotFound Sample.root.hash) := by cbv
  have hret : Sample.whole.memory.config.blockRetention = 0 := by cbv
  obtain ⟨hlost, -⟩ := Sample.reachable_gapped.never_lost Sample.obeys_parted hk' Sample.stranger
  obtain ⟨-, hnever⟩ :=
    Sample.reachable_whole.of_proofless.never_lost Sample.obeys_parted hk' Sample.stranger
  obtain ⟨r, -, hcopies, -, -, hr, -⟩ := hlost.kept _ hresult
  exact ⟨hresult, ⟨r, hr, hcopies⟩, hnever Sample.reachable_whole hret⟩

end HeaderChain
