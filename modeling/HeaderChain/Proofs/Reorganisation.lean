import HeaderChain.Proofs.ForkPoint
import HeaderChain.Proofs.Peak

/-!
# What a new peak rewrites

Over a tree of blocks the search for a fork point, which only sees what is indexed, finds the fork
of the two blocks in the tree, and a new peak rewrites the heights above that fork and no others.

* `BlockTree.Below`, `BlockTree.IsFork` — the ancestors of a block in the tree, and the highest one
  that two blocks have in common, if there is any;
* `Index.Within.ancestor_of_below` — an ancestor in the tree is one in the index as well, as long as
  it lies above one that is. So what two records share in the tree above the point where the search
  has ended they would share in the index (`Index.Within.isFork_of_found`, `…_of_apart`);
* `Chain.exists_fork` — the heights of a new peak change from right above the fork on, whichever way
  the fork choice takes;
* `Chain.Reorganised`, `Chain.Reachable.reorganises` — what becomes of the canonical map and of the
  records of displaced blocks.
-/

namespace HeaderChain

/-! ### Forks in the tree -/

namespace BlockTree

variable {tree : BlockTree} {x y m n : HeaderBlock} {l : List HeaderBlock}

/-- The second block is the first one or an ancestor of it. -/
def Below (tree : BlockTree) (x m : HeaderBlock) : Prop := ∃ l, tree.Descent l x m

theorem below_self (hx : tree.has x) : tree.Below x x := ⟨[x], .self hx⟩

theorem Below.step (hx : tree.has x) (hlink : x.parent = y.hash) (h : tree.Below y m) :
    tree.Below x m := by
  obtain ⟨l, hl⟩ := h
  exact ⟨x :: l, .step hx hlink hl⟩

theorem Below.has (h : tree.Below x m) : tree.has x ∧ tree.has m := by
  obtain ⟨l, hl⟩ := h
  exact ⟨hl.has_of_mem hl.head_mem, hl.has_of_mem hl.last_mem⟩

theorem Below.height_le (h : tree.Below x m) : m.height ≤ x.height := by
  obtain ⟨l, hl⟩ := h
  exact hl.height_le hl.last_mem

/-- An ancestor that stands as high as the block is the block itself. -/
theorem Below.eq_of_height_le (h : tree.Below x m) (hle : x.height ≤ m.height) : x = m := by
  have heq := UInt32.le_antisymm hle h.height_le
  obtain ⟨l, hl⟩ := h
  exact hl.eq_of_height hl.head_mem hl.last_mem heq

theorem Below.cases (h : tree.Below x m) :
    x = m ∨ ∃ y, x.parent = y.hash ∧ tree.Below y m := by
  obtain ⟨l, hl⟩ := h
  cases hl with
  | self => exact .inl rfl
  | step _ hlink hl => exact .inr ⟨_, hlink, _, hl⟩

/-- All blocks of a descent are ancestors of the first one. -/
theorem Descent.below_of_mem (h : tree.Descent l x m) (hy : y ∈ l) : tree.Below x y := by
  induction h with
  | self hx =>
    obtain rfl := List.mem_singleton.mp hy
    exact below_self hx
  | step hx hlink h ih =>
    rcases List.mem_cons.mp hy with rfl | hy
    · exact below_self hx
    · exact (ih hy).step hx hlink

/-- **The fork of two blocks**: their highest common ancestor or self, or nothing if they have
none. -/
def IsFork (tree : BlockTree) (x y : HeaderBlock) : Option HeaderBlock → Prop
  | some m => tree.Below x m ∧ tree.Below y m ∧
      ∀ n, tree.Below x n → tree.Below y n → n.height ≤ m.height
  | none => ∀ n, tree.Below x n → ¬tree.Below y n

/-- The fork of a block and its parent is the parent. -/
theorem isFork_of_parent (hx : tree.has x) (hy : tree.has y) (hlink : x.parent = y.hash) :
    tree.IsFork x y (some y) :=
  ⟨(below_self hy).step hx hlink, below_self hy, fun _ _ hn => hn.height_le⟩

end BlockTree

/-- The lowest height above a fork; without one that is zero. -/
def aboveFork (fork : Option HeaderBlock) : Nat := fork.elim 0 (·.height.toNat + 1)

/-! ### Forks in an index over the tree -/

namespace Index

variable {tree : BlockTree} {i : Index} {a p r : BlockRecord} {b x y n peak : HeaderBlock}

/-- **An index over a tree is a view in order**, for a record that is not in it and one that is. -/
theorem Within.orderly (hi : i.Within tree) (hb : tree.has b) (hr : r.Copies b)
    (hnew : i.contains b.hash = false) (hp : i.record? y.hash = some p) :
    Orderly i.record? r p := by
  -- all that is seen is of the tree, and all but the new record is indexed under its own hash
  have hseen : ∀ {s}, Seen i.record? r p s →
      tree.Records s ∧ (s = r ∨ i.record? s.hash = some s) := by
    rintro s (rfl | rfl | ⟨z, hz⟩)
    · exact ⟨⟨b, hb, hr⟩, .inl rfl⟩
    · obtain ⟨hhash, hrecords⟩ := hi _ _ hp
      exact ⟨hrecords, .inr (hhash.symm ▸ hp)⟩
    · obtain ⟨hhash, hrecords⟩ := hi _ _ hz
      exact ⟨hrecords, .inr (hhash.symm ▸ hz)⟩
  have hunknown : i.record? r.hash = none := by
    rw [hr.hash]
    simpa [contains] using hnew
  refine ⟨fun {s t} hs ht hhash => ?_, fun {s t} hs hstep => ?_⟩
  · obtain ⟨-, rfl | hsi⟩ := hseen hs <;> obtain ⟨-, rfl | hti⟩ := hseen ht
    · rfl
    · cases hunknown.symm.trans (hhash ▸ hti)
    · cases hunknown.symm.trans (hhash ▸ hsi)
    · exact Option.some.inj (hsi.symm.trans (hhash ▸ hti))
  · obtain ⟨-, hheight⟩ := hi.records_parent (hseen hs).1 hstep.2
    exact UInt32.lt_iff_toNat_lt.mpr (by omega)

/-- An ancestor in the index is one in the tree. -/
theorem Within.below_of_ancestor (hi : i.Within tree) (hx : tree.has x) (ha : a.Copies x)
    (h : Ancestor i.record? a p) : ∃ y, p.Copies y ∧ tree.Below x y := by
  induction h using Relation.ReflTransGen.head_induction_on generalizing x with
  | refl => exact ⟨x, ha, BlockTree.below_self hx⟩
  | head hstep _ ih =>
    obtain ⟨z, hz, hcopies, hlink⟩ := hi.parent ha hstep.2
    obtain ⟨y, hy, hbelow⟩ := ih hz hcopies
    exact ⟨y, hy, hbelow.step hx hlink⟩

/-- **An ancestor in the tree is one in the index** if it lies no lower than one that is. -/
theorem Within.ancestor_of_below (hi : i.Within tree) (hx : tree.has x) (ha : a.Copies x)
    (h : Ancestor i.record? a p) (hn : tree.Below x n) (hle : p.height ≤ n.height) :
    ∃ q, Ancestor i.record? a q ∧ q.Copies n := by
  induction h using Relation.ReflTransGen.head_induction_on generalizing x with
  | refl =>
    obtain rfl := hn.eq_of_height_le (ha.height ▸ hle)
    exact ⟨p, .refl, ha⟩
  | @head a c hstep _ ih =>
    obtain ⟨z, hz, hcopies, hlink⟩ := hi.parent ha hstep.2
    rcases hn.cases with rfl | ⟨y, hlink', hn⟩
    · exact ⟨a, .refl, ha⟩
    · -- both go on to the only block with the hash of the parent
      obtain rfl := tree.eq_of_hash hz hn.has.1 (hlink.symm.trans hlink')
      obtain ⟨q, hq, hqn⟩ := ih hz hcopies hn
      exact ⟨q, .head hstep hq, hqn⟩

section Forks

variable (hi : i.Within tree) (hb : tree.has b) (hr : r.Copies b)
  (hnew : i.contains b.hash = false) (hpeak : tree.has peak)
  (hp : i.record? peak.hash = some p)

include hi hb hr hnew hpeak hp

/-- What two blocks share in the tree their records share in the index, if it lies no lower than
ancestors of both records there. -/
theorem Within.exists_shared {q q' : BlockRecord} (hq : Ancestor i.record? r q)
    (hq' : Ancestor i.record? p q') (hn : tree.Below b n) (hn' : tree.Below peak n)
    (hle : q.height ≤ n.height) (hle' : q'.height ≤ n.height) :
    ∃ s, Shared i.record? r p s ∧ s.height = n.height := by
  obtain ⟨s, hs, hcopies⟩ := hi.ancestor_of_below hb hr hq hn hle
  obtain ⟨s', hs', hcopies'⟩ := hi.ancestor_of_below hpeak (hi.copies hpeak hp) hq' hn' hle'
  have hhash : s.hash = s'.hash := hcopies.hash.trans hcopies'.hash.symm
  obtain rfl := (hi.orderly hb hr hnew hp).determined (Orderly.seen seen_left hs)
    (Orderly.seen seen_right hs') hhash
  exact ⟨s, ⟨hs, hs'⟩, hcopies.height⟩

/-- **A fork point in the index is the fork in the tree.** -/
theorem Within.isFork_of_found {f : Height} (hf : i.forkPoint r p = .ok (some f)) :
    ∃ m, tree.IsFork b peak (some m) ∧ m.height = f := by
  have hpc := hi.copies hpeak hp
  obtain ⟨s, hs, rfl⟩ := ((hi.orderly hb hr hnew hp).forkFound i.size).highest f hf
  obtain ⟨m, hm, hbm⟩ := hi.below_of_ancestor hb hr hs.left
  obtain ⟨m', hm', hpm⟩ := hi.below_of_ancestor hpeak hpc hs.right
  obtain rfl := tree.eq_of_hash hbm.has.2 hpm.has.2 (hm.hash.symm.trans hm'.hash)
  refine ⟨m, ⟨hbm, hpm, fun n hn hn' => ?_⟩, hm.height.symm⟩
  -- one that lies higher would be shared in the index, too
  by_contra hlt
  have hle : s.height ≤ n.height := hm.height ▸ UInt32.le_of_lt (UInt32.not_le.mp hlt)
  obtain ⟨t, ht, hheight⟩ := hi.exists_shared hb hr hnew hpeak hp hs.left hs.right hn hn' hle hle
  exact hlt (hm.height ▸ hheight ▸ hs.highest t ht)

/-- **If none is found there is no fork in the tree**, as both walks have come down to height
zero. -/
theorem Within.isFork_of_apart (hf : i.forkPoint r p = .ok none) :
    tree.IsFork b peak none := by
  intro n hn hn'
  obtain ⟨⟨q, hq, hzero⟩, ⟨q', hq', hzero'⟩, hnone⟩ :=
    ((hi.orderly hb hr hnew hp).forkFound i.size).apart hf
  obtain ⟨s, hs, -⟩ := hi.exists_shared hb hr hnew hpeak hp hq hq' hn hn'
    (hzero ▸ UInt32.zero_le) (hzero' ▸ UInt32.zero_le)
  exact hnone s hs

end Forks

end Index

namespace Chain

open Procedure

variable {tree : BlockTree} {k : Consensus} {c m : Chain} {d : Disk} {b peak : HeaderBlock}
  {r p : BlockRecord} {choice : Choice} {changedFrom : Height} {path : List BlockRecord}
  {fork : Option HeaderBlock} {s : Session Chain}

/-- **A new peak changes the heights above its fork with the old one**, and these are heights up to
its own. -/
theorem exists_fork (hi : c.index.Within tree) (hfind : k.findFork = Index.forkPoint)
    (hb : tree.has b) (hr : r.Copies b) (hnew : c.index.contains b.hash = false)
    (hpeak : tree.has peak) (hp : c.index.record? peak.hash = some p)
    (hof : Choice.of k.findFork c.index r (some p) = .ok choice)
    (hc : choice.changedFrom? r.height = some changedFrom) :
    ∃ fork, tree.IsFork b peak fork ∧ changedFrom.toNat = aboveFork fork ∧
      changedFrom ≤ b.height := by
  have hpc := hi.copies hpeak hp
  obtain ⟨-, ⟨hchild, rfl⟩ | ⟨hnone, rfl⟩ | ⟨f, hf, rfl⟩⟩ := Choice.of_changedFrom hof hc
  · -- the block extends the peak
    have hlink : b.parent = peak.hash := by rw [← hr.parent, hchild, hpc.hash]
    have hheight := tree.height_of_parent hpeak hb hlink
    have hlt : peak.height < b.height := UInt32.lt_iff_toNat_lt.mpr (by omega)
    rw [hpc.height]
    refine ⟨some peak, BlockTree.isFork_of_parent hb hpeak hlink, toNat_add_one hlt, ?_⟩
    exact UInt32.le_iff_toNat_le.mpr (by rw [toNat_add_one hlt]; omega)
  · exact ⟨none, hi.isFork_of_apart hb hr hnew hpeak hp (hfind ▸ hnone), rfl, UInt32.zero_le⟩
  · rw [hfind] at hf
    obtain ⟨m, hm, rfl⟩ := hi.isFork_of_found hb hr hnew hpeak hp hf
    -- the fork is known and the block is not, so that it lies lower
    have hlt : m.height < b.height := hr.height ▸ hi.forkPoint_lt hb hr hnew hpeak hp hf
    refine ⟨some m, hm, toNat_add_one hlt, UInt32.le_iff_toNat_le.mpr ?_⟩
    rw [UInt32.lt_iff_toNat_lt] at hlt
    rw [toNat_add_one (UInt32.lt_iff_toNat_lt.mpr hlt)]
    omega

/-- **What becoming the peak rewrites**, told by the fork with the old peak. -/
structure Reorganised (tree : BlockTree) (fork : Option HeaderBlock) (b : HeaderBlock)
    (c m : Chain) : Prop where
  /-- Up to the fork the canonical map is what it was. -/
  below : ∀ h : Height, h.toNat < aboveFork fork → m.index.hashAt? h = c.index.hashAt? h
  /-- From there up to the block its ancestors are canonical. -/
  ancestors : ∀ h : Height, aboveFork fork ≤ h.toNat → h ≤ b.height →
    ∃ y, tree.Below b y ∧ y.height = h ∧ m.index.hashAt? h = some y.hash
  /-- Above the block nothing is. -/
  top : ∀ h, b.height < h → m.index.hashAt? h = none
  /-- What was indexed at the floor of the block or above it still is, canonical or not. -/
  kept : ∀ x r, c.index.record? x = some r →
    (∀ floor, c.config.floor? b.height = some floor → floor ≤ r.height) →
    m.index.record? x = some r

/-- **A block that becomes the peak rewrites what lies above its fork**, and nothing else. -/
theorem reorganised_adopted (hi : c.index.Within tree)
    (hfiled : c.index.All tree.Weighed ∧ c.index.Filed) (hb : tree.has b) (hr : r.Copies b)
    (hnew : c.index.contains b.hash = false) (hpath : c.index.pathDown changedFrom r = .ok path)
    (hfork : changedFrom.toNat = aboveFork fork) (hle : changedFrom ≤ b.height) :
    Reorganised tree fork b c (c.adopted b r changedFrom path) := by
  obtain ⟨q, l, hl, hcopies, -, hfloor⟩ := (Index.walk_of_walkDown hpath).descent hi hb hr
  have hq := hfloor hle
  -- the path is that of a descent from the block to right above the fork
  have hpairwise : path.Pairwise fun r s => r.height ≠ s.height :=
    BlockRecord.pairwise_height hcopies (hl.pairwise_lt.imp fun hlt => (UInt32.ne_of_lt hlt).symm)
  have hhash : ∀ h z, (c.adopted b r changedFrom path).index.hashAt? h = some z ↔
      (∃ r ∈ path, r.height = h ∧ r.hash = z) ∨
        (∀ r ∈ path, r.height ≠ h) ∧ h < changedFrom ∧ c.index.hashAt? h = some z := by
    intro h z
    rw [Index.hashAt?, adopted, canonical_evicted]
    exact Index.hashAt?_replaceFrom hpairwise
  have hrange : ∀ s ∈ path, changedFrom ≤ s.height ∧ s.height ≤ b.height := by
    intro s hs
    obtain ⟨y, hy, hsy⟩ := BlockRecord.exists_block hcopies hs
    exact hsy.height ▸ ⟨hq ▸ hl.le_height hy, hl.height_le hy⟩
  constructor
  · -- below the fork and at it: what was canonical stays so
    intro h hh
    have hlt : h < changedFrom := UInt32.lt_iff_toNat_lt.mpr (hfork ▸ hh)
    have hnot : ∀ s ∈ path, s.height ≠ h := by
      rintro s hs rfl
      exact UInt32.not_lt.mpr (hrange s hs).1 hlt
    refine Option.ext fun z => (hhash h z).trans ⟨?_, fun hz => .inr ⟨hnot, hlt, hz⟩⟩
    rintro (⟨s, hs, hsh, -⟩ | ⟨-, -, hz⟩)
    · exact absurd hsh (hnot s hs)
    · exact hz
  · -- above the fork: the new branch, which has a block at each of these heights
    intro h hlow hhigh
    have hle : q.height ≤ h := hq ▸ UInt32.le_iff_toNat_le.mpr (hfork ▸ hlow)
    obtain ⟨y, hy, rfl⟩ := hl.exists_height hle hhigh
    obtain ⟨s, hs, hsy⟩ := BlockRecord.exists_record hcopies hy
    exact ⟨y, hl.below_of_mem hy, rfl, (hhash _ _).mpr (.inl ⟨s, hs, hsy.height, hsy.hash⟩)⟩
  · -- above the new peak: nothing
    intro h hh
    refine Option.eq_none_iff_forall_ne_some.mpr fun z hz => ?_
    rcases (hhash h z).mp hz with ⟨s, hs, rfl, -⟩ | ⟨-, hlt, -⟩
    · exact UInt32.not_lt.mpr (hrange s hs).2 hh
    · exact UInt32.not_lt.mpr hle (UInt32.lt_trans hh hlt)
  · -- the records that stand at the floor or above are all kept
    intro x old hold hfloor
    have hweighed : tree.Weighed r := ⟨b, hb, hr.weighs⟩
    refine record?_evicted_of_floor_le (tree.lasts_weighed.replaceFrom
      (tree.lasts_weighed.add hfiled hweighed) changedFrom path).2 ?_ (hr.height ▸ hfloor)
    -- the new record lies under a hash that was not known before
    have hne : r.hash ≠ x := by
      rintro rfl
      rw [hr.hash] at hold
      simp [Index.contains, hold] at hnew
    rw [Index.record?_replaceFrom, Index.record?_add, if_neg hne]
    exact hold

/-! ### Runs -/

/-- **The setting in which everything is of one tree**: the records that are built, those that come
with a proof and its tip, and a stored peak. -/
def Setting.within (tree : BlockTree) : Setting :=
  .of (·.Obeys tree)
    (fun w rs => (∀ tip, w.tip? = some tip → tree.has tip) ∧ ∀ r ∈ rs, tree.Records r)
    (·.Holds tree.toBlocks)

theorem Reachable.over_of_within (h : Reachable (.within tree) s) : Reachable (.over tree) s :=
  h.of_imp id (fun hw => hw.2) fun _ => trivial

theorem Reachable.weighing_of_within (h : Reachable (.within tree) s) :
    Reachable (.weighing tree.toBlocks) s := by
  refine h.of_imp Consensus.Obeys.weighs (fun hw => ⟨hw.1, fun r hr => ?_⟩) id
  obtain ⟨b, hb, hcopies⟩ := hw.2 r hr
  exact ⟨b, hb, hcopies.weighs⟩

/-- **A reorganisation rewrites exactly the part above the fork.** Whenever a chain with a peak
takes an offered block as its new peak, the canonical map stays what it was up to the highest common
ancestor of the two blocks in the tree, all of the block's ancestors above that are canonical, the
block is the highest one, and no record is lost that lies at the new floor or above it. -/
theorem Reachable.reorganises (h : Reachable (.within tree) s) (hk : k.Obeys tree)
    (hpeak : s.memory.peak? = some peak) (hresult : (offer k b).result s = .ok .newPeak) :
    ∃ fork, tree.IsFork b peak fork ∧
      Reorganised tree fork b s.memory ((offer k b).after s).memory := by
  have hi := h.over_of_within.within
  have hgrounded := h.weighing_of_within.grounded
  obtain ⟨a, m, cs, hgives, hoffered⟩ := offer_cases k b s
  obtain rfl : a = .ok .newPeak := hgives.result.symm.trans hresult
  rw [hgives.memory]
  cases hoffered with
  | newPeak hr hs hc hpath =>
    obtain ⟨hb, hcopies⟩ := hr.copies hk
    -- there is a peak, so the block was weighed against it
    rcases standing?_eq_ok hs with ⟨hnone, -⟩ | ⟨peak', p, hpeak', hp, hof⟩
    · cases hnone.symm.trans hpeak
    cases hpeak'.symm.trans hpeak
    obtain ⟨fork, hfork, habove, hle⟩ := exists_fork hi hk.findFork hb hcopies hr.fresh
      (hgrounded.peak _ hpeak).1 hp hof hc
    exact ⟨fork, hfork,
      reorganised_adopted hi hgrounded.index hb hcopies hr.fresh hpath habove hle⟩

theorem reachable_within_forked (blocks : List HeaderBlock) :
    Reachable (.within Sample.forkedTree) (offerAll (.only Sample.forked) blocks
      (opened (.only Sample.forked) (.only Sample.forked) {} {})) := by
  have hv : (Verifier.only Sample.forked).Follows fun w rs =>
      (∀ tip, w.tip? = some tip → Sample.forkedTree.has tip) ∧
        ∀ r ∈ rs, Sample.forkedTree.Records r := by
    intro w skip rs h
    have hw : Sample.forkedTree.attests w rs := Verifier.only_obeys h
    obtain ⟨run, hrun, hlinks⟩ := BlockTree.runs_of_attests _ hw
    exact ⟨(BlockTree.supports_of_runs ⟨run, hrun, hlinks⟩).tip, fun r hr => hlinks.records hrun hr⟩
  have hopens : (Setting.within Sample.forkedTree).opens (.only Sample.forked) {} :=
    ⟨hv, Disk.holds_of_empty rfl⟩
  have hk : (Consensus.only Sample.forked).Obeys Sample.forkedTree := Consensus.only_obeys
  exact (Reachable.opened_empty hopens rfl fun _ _ => rfl).offerAll (fun _ _ => hk) blocks

set_option maxRecDepth 4000 in
/-- A heavier block takes the place of another one, above the parent that they have in common. -/
theorem reorganises_forked :
    ∃ s, Reachable (.within Sample.forkedTree) s ∧ s.memory.peak? = some Sample.child ∧
      (offer (.only Sample.forked) Sample.rival).result s = .ok .newPeak ∧
      ∃ fork, Sample.forkedTree.IsFork Sample.rival Sample.child fork ∧
        Reorganised Sample.forkedTree fork Sample.rival s.memory
          ((offer (.only Sample.forked) Sample.rival).after s).memory := by
  have hreachable := reachable_within_forked [Sample.root, Sample.child]
  -- one evaluation for all that is read off the sample
  have hfacts : ((offerAll (.only Sample.forked) [Sample.root, Sample.child]
      (opened (.only Sample.forked) (.only Sample.forked) {} {})).memory.peak?,
      (offer (.only Sample.forked) Sample.rival).result
        (offerAll (.only Sample.forked) [Sample.root, Sample.child]
          (opened (.only Sample.forked) (.only Sample.forked) {} {}))) =
      (some Sample.child, .ok .newPeak) := by cbv
  obtain ⟨hpeak, hresult⟩ := Prod.mk.inj hfacts
  exact ⟨_, hreachable, hpeak, hresult,
    hreachable.reorganises Consensus.only_obeys hpeak hresult⟩

end Chain

end HeaderChain
