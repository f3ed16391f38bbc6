import HeaderChain.Proofs.Ancestry
import HeaderChain.Proofs.Seed

/-!
# What a new peak makes of the canonical map

* `Index.Spine.replaceFrom` — how the canonical map is rewritten, told as a change to the list of
  blocks that it is;
* `Chain.Sound` — what is known of a chain between operations: its records are of the tree, and its
  canonical map is a descent that starts at the peak;
* `Chain.Sound.adopted` — a new peak keeps that. The old spine is cut at the height from which the
  heights change (`Chain.Cut`), and the path of the new peak is put on what remains, if anything
  does: a descent again, since the path goes down to right above the fork point. A block that is
  known already may be an ancestor of the peak; then the spine is cut at the block itself
  (`Chain.Sound.cut_below`).
-/

namespace HeaderChain

/-- The height above one that is not the highest does not wrap. -/
theorem toNat_add_one {a b : Height} (h : a < b) : (a + 1).toNat = a.toNat + 1 := by
  have hb := b.toNat_lt
  rw [UInt32.lt_iff_toNat_lt] at h
  rw [UInt32.toNat_add, UInt32.toNat_one]
  omega

namespace Index

variable {tree : BlockTree} {i : Index} {r : BlockRecord} {k h : Height} {x : Hash}
  {l low pre : List HeaderBlock} {path : List BlockRecord}

/-! ### Rewriting the map -/

section Overlay

variable {f : Index → BlockRecord → Index}
  (hf : ∀ i r k, (f i r).hashAt? k = if r.height = k then some r.hash else i.hashAt? k)

include hf

/-- Records put into the map in turn, no two of them at one height, stand in it before all that was
there. -/
theorem hashAt?_foldl (hpath : path.Pairwise fun r s => r.height ≠ s.height) :
    (path.foldl f i).hashAt? h = some x ↔
      (∃ r ∈ path, r.height = h ∧ r.hash = x) ∨
        (∀ r ∈ path, r.height ≠ h) ∧ i.hashAt? h = some x := by
  induction path generalizing i with
  | nil => simp
  | cons s path ih =>
    obtain ⟨hs, hpath⟩ := List.pairwise_cons.mp hpath
    rw [List.foldl_cons, ih hpath, hf]
    by_cases hsh : s.height = h
    · -- no later record stands at this height
      have hlater : ∀ r ∈ path, r.height ≠ h := fun r hr heq => hs r hr (hsh.trans heq.symm)
      have hnone : ¬∃ r ∈ path, r.height = h ∧ r.hash = x :=
        fun ⟨r, hr, hrh, _⟩ => hlater r hr hrh
      simp only [hsh, hnone, if_true, List.mem_cons, forall_eq_or_imp, exists_eq_or_imp,
        false_or, Option.some.injEq, ne_eq, not_true_eq_false, false_and, or_false, true_and,
        and_iff_right_iff_imp]
      exact fun _ => hlater
    · simp [hsh]

/-- The blocks of the records are put on those that were there. -/
theorem Spine.foldl (hi : i.Spine low) (hcopies : List.Forall₂ BlockRecord.Copies path l)
    (hl : l.Pairwise fun b a => b.height ≠ a.height)
    (habove : ∀ b ∈ l, ∀ a ∈ low, b.height ≠ a.height) : (path.foldl f i).Spine (l ++ low) := by
  have hpath := BlockRecord.pairwise_height hcopies hl
  intro h x
  rw [hashAt?_foldl hf hpath, hi h x]
  constructor
  · rintro (⟨r, hr, rfl, rfl⟩ | ⟨-, a, ha, rfl, rfl⟩)
    · obtain ⟨b, hb, hrb⟩ := BlockRecord.exists_block hcopies hr
      exact ⟨b, List.mem_append_left low hb, hrb.height.symm, hrb.hash.symm⟩
    · exact ⟨a, List.mem_append_right l ha, rfl, rfl⟩
  · rintro ⟨b, hb, rfl, rfl⟩
    rcases List.mem_append.mp hb with hb | hb
    · obtain ⟨r, hr, hrb⟩ := BlockRecord.exists_record hcopies hb
      exact .inl ⟨r, hr, hrb.height, hrb.hash⟩
    · -- no block of the path stands where one of those below it does
      refine .inr ⟨fun r hr heq => ?_, b, hb, rfl, rfl⟩
      obtain ⟨a, ha, hra⟩ := BlockRecord.exists_block hcopies hr
      exact habove a ha b hb (hra.height ▸ heq)

end Overlay

/-- **What a path makes canonical**: its own records, and below it what was canonical before. -/
theorem hashAt?_replaceFrom (hpath : path.Pairwise fun r s => r.height ≠ s.height) :
    (Chain.replaceFrom i k path).hashAt? h = some x ↔
      (∃ r ∈ path, r.height = h ∧ r.hash = x) ∨
        (∀ r ∈ path, r.height ≠ h) ∧ h < k ∧ i.hashAt? h = some x := by
  unfold Chain.replaceFrom
  rw [hashAt?_foldl (fun i r k => hashAt?_setHeight i r.hash r.height k) hpath,
    hashAt?_dropHeightsFrom]
  by_cases hk : h < k <;> simp [hk]

/-- A drop leaves the blocks below the height. -/
theorem Spine.dropHeightsFrom (hi : i.Spine (pre ++ low)) (hpre : ∀ a ∈ pre, k ≤ a.height)
    (hlow : ∀ a ∈ low, a.height < k) : (i.dropHeightsFrom k).Spine low := by
  intro h x
  rw [hashAt?_dropHeightsFrom]
  by_cases hk : h < k
  · rw [if_pos hk, hi h x]
    constructor
    · rintro ⟨a, ha, rfl, rfl⟩
      -- the upper part of the chain lies where everything is dropped
      rcases List.mem_append.mp ha with ha | ha
      · exact absurd hk (UInt32.not_lt.mpr (hpre a ha))
      · exact ⟨a, ha, rfl, rfl⟩
    · rintro ⟨a, ha, hah, hax⟩
      exact ⟨a, List.mem_append_right pre ha, hah, hax⟩
  · rw [if_neg hk]
    constructor
    · simp
    · rintro ⟨a, ha, rfl, -⟩
      exact absurd (hlow a ha) hk

/-- **A path takes the place of what was at its heights and above.** -/
theorem Spine.replaceFrom (hi : i.Spine (pre ++ low)) (hpre : ∀ a ∈ pre, k ≤ a.height)
    (hlow : ∀ a ∈ low, a.height < k) (hcopies : List.Forall₂ BlockRecord.Copies path l)
    (hl : l.Pairwise fun b a => a.height < b.height) (hbase : ∀ b ∈ l, k ≤ b.height) :
    (Chain.replaceFrom (i.add r) k path).Spine (l ++ low) := by
  have hadd : (i.add r).Spine (pre ++ low) := spine_congr (canonical_add i r).symm hi
  refine Spine.foldl (fun i r k => hashAt?_setHeight i r.hash r.height k)
    (hadd.dropHeightsFrom hpre hlow) hcopies ?_ ?_
  · exact hl.imp fun hlt => (UInt32.ne_of_lt hlt).symm
  · intro b hb a ha
    exact (UInt32.ne_of_lt (UInt32.lt_of_lt_of_le (hlow a ha) (hbase b hb))).symm

/-- A record is put at its own height, whether the heights are dropped from there on or from right
above. -/
theorem hashAt?_replaceFrom_above {top : Height} (hlt : r.height < top) :
    (Chain.replaceFrom i (r.height + 1) [r]).hashAt? h =
      (Chain.replaceFrom i r.height [r]).hashAt? h := by
  unfold Chain.replaceFrom
  rw [List.foldl_cons, List.foldl_nil, List.foldl_cons, List.foldl_nil, hashAt?_setHeight,
    hashAt?_setHeight, hashAt?_dropHeightsFrom, hashAt?_dropHeightsFrom]
  by_cases hh : r.height = h
  · rw [if_pos hh, if_pos hh]
  · have hne : r.height.toNat ≠ h.toNat := fun heq => hh (UInt32.toNat_inj.mp heq)
    have hiff : h < r.height + 1 ↔ h < r.height := by
      rw [UInt32.lt_iff_toNat_lt, UInt32.lt_iff_toNat_lt, toNat_add_one hlt]
      omega
    simp only [if_neg hh, hiff]

/-- A walk down that is to go no further than to where it starts stays there. -/
theorem pathDown_of_le (i : Index) (hle : r.height ≤ k) : i.pathDown k r = .ok [r] := by
  unfold pathDown
  cases i.pathSteps r <;> exact if_pos hle

/-- What holds after the drop and is kept by every height that is set holds after all of them. -/
theorem replaceFrom_induction {P : Index → Prop} (hdrop : P (i.dropHeightsFrom k))
    (hset : ∀ j, P j → ∀ r ∈ path, P (j.setHeight r.height r.hash)) :
    P (Chain.replaceFrom i k path) :=
  List.foldlRecOn path _ hdrop hset

@[simp] theorem record?_replaceFrom : (Chain.replaceFrom i k path).record? = i.record? :=
  replaceFrom_induction (P := (·.record? = i.record?)) (record?_dropHeightsFrom i k)
    fun _ hj _ _ => hj

@[simp] theorem buckets_replaceFrom : (Chain.replaceFrom i k path).buckets = i.buckets :=
  replaceFrom_induction (P := (·.buckets = i.buckets)) (buckets_dropHeightsFrom i k)
    fun _ hj _ _ => hj

/-- What is canonical afterwards is on the path, or was canonical before. -/
theorem mem_of_hashAt?_replaceFrom (hx : (Chain.replaceFrom i k path).hashAt? h = some x) :
    (∃ r ∈ path, r.hash = x) ∨ i.hashAt? h = some x := by
  refine replaceFrom_induction
    (P := fun j => j.hashAt? h = some x → (∃ r ∈ path, r.hash = x) ∨ i.hashAt? h = some x)
    (fun hx => ?_) (fun j hj r hr hx => ?_) hx
  · rw [hashAt?_dropHeightsFrom] at hx
    split at hx
    · exact .inr hx
    · cases hx
  · rw [hashAt?_setHeight] at hx
    split at hx
    · exact .inl ⟨r, hr, Option.some.inj hx⟩
    · exact hj hx

end Index

/-! ### Where the old spine is cut -/

section Choosing

variable {find : ForkFinder} {i : Index} {r p : BlockRecord} {choice : Choice} {k : Height}

/-- A heavier block changes the heights from right above the peak on, from right above the fork
point on, or all of them. -/
theorem Choice.of_changedFrom (h : Choice.of find i r (some p) = .ok choice)
    (hc : choice.changedFrom? r.height = some k) :
    p.weight < r.weight ∧
      (r.parent = p.hash ∧ k = p.height + 1 ∨
        find i r p = .ok none ∧ k = 0 ∨
        ∃ f, find i r p = .ok (some f) ∧ k = f + 1) := by
  unfold Choice.of at h
  dsimp only at h
  -- a child of the peak, a block behind a fork, and a lighter one, for which no height changes
  split_ifs at h with hbetter hchild
  · cases h
    exact ⟨by simpa [isBetter] using hbetter, .inl ⟨hchild, (Option.some.inj hc).symm⟩⟩
  · cases hfind : find i r p with
    | error e => simp [hfind, Except.map] at h
    | ok fork =>
      rw [hfind] at h
      cases h
      refine ⟨by simpa [isBetter] using hbetter, .inr ?_⟩
      cases fork with
      | none => exact .inl ⟨rfl, (Option.some.inj hc).symm⟩
      | some f => exact .inr ⟨f, rfl, (Option.some.inj hc).symm⟩
  · cases h
    simp [Choice.changedFrom?] at hc

/-- A block that changes no height does not outweigh the peak. -/
theorem Choice.of_unchanged (h : Choice.of find i r (some p) = .ok choice)
    (hc : choice.changedFrom? r.height = none) : r.weight ≤ p.weight := by
  unfold Choice.of at h
  dsimp only at h
  split_ifs at h with hbetter hchild
  · cases h
    cases hc
  · cases hfind : find i r p with
    | error e => simp [hfind, Except.map] at h
    | ok fork =>
      rw [hfind] at h
      cases h
      cases fork <;> cases hc
  · simpa [isBetter] using hbetter

end Choosing

namespace Chain

variable {tree : BlockTree} {rooted : Prop} {consensus : Consensus} {c : Chain}
  {b peak : HeaderBlock} {r : BlockRecord} {choice : Choice} {k : Height}
  {path : List BlockRecord}

/-- **What is known of a chain between operations.** -/
structure Sound (tree : BlockTree) (rooted : Prop) (c : Chain) : Prop where
  /-- All that is indexed is of the tree. -/
  within : c.index.Within tree
  /-- Without a peak nothing is indexed. -/
  idle : c.peak? = none → (∀ x, c.index.record? x = none) ∧ c.index.Spine []
  /-- The canonical map is a descent from the peak, down to a first block if the chain is rooted. -/
  spine : ∀ peak, c.peak? = some peak → ∃ l low, tree.Descent l peak low ∧ c.index.Spine l ∧
    (rooted → low.height = 0)

/-- A chain that knows of nothing is sound. -/
theorem sound_of_empty (hp : c.peak? = none) (hi : c.index = .empty) : c.Sound tree rooted where
  within := hi ▸ Index.within_empty
  idle _ := by
    rw [hi]
    exact ⟨fun x => Index.record?_empty x, Index.spine_empty⟩
  spine peak hpeak := by
    rw [hp] at hpeak
    cases hpeak

/-- **The old spine, cut** where the heights of a new peak begin to change. Either nothing of it
remains, or what remains goes down from the parent of the lowest block that is new. -/
structure Cut (tree : BlockTree) (rooted : Prop) (i : Index) (b : HeaderBlock) (k : Height)
    (pre low : List HeaderBlock) : Prop where
  spine : i.Spine (pre ++ low)
  above : ∀ a ∈ pre, k ≤ a.height
  below : ∀ a ∈ low, a.height < k
  base : k ≤ b.height
  joins : low = [] ∧ (rooted → k = 0) ∨ ∃ m foot, tree.Descent low m foot ∧
    (rooted → foot.height = 0) ∧ ∀ l q, tree.Descent l b q → q.height = k → q.parent = m.hash

/-- **How a record stands to the peak**, if that can be found out: it is the first peak, or it has
been compared with the record of the peak. -/
theorem standing?_eq_ok (h : c.standing? consensus r = .ok choice) :
    c.peak? = none ∧ choice = .firstPeak ∨
      ∃ peak p, c.peak? = some peak ∧ c.index.record? peak.hash = some p ∧
        Choice.of consensus.findFork c.index r (some p) = .ok choice := by
  unfold standing? peakRecord at h
  cases hp : c.peak? with
  | none =>
    rw [hp] at h
    exact .inl ⟨rfl, (Except.ok.inj h).symm⟩
  | some peak =>
    rw [hp] at h
    dsimp only at h
    -- a peak without a record would be a failure
    cases hr : c.index.record peak.hash with
    | error e => simp [hr, Except.map, Except.bind] at h
    | ok p =>
      rw [hr] at h
      exact .inr ⟨peak, p, rfl, Index.record_eq_ok.mp hr, h⟩

/-- **The cut at the lower end of the old spine, or below it, leaves nothing.** Only a chain that
stands on a proof ends above height zero. -/
theorem Cut.of_le_foot {i : Index} {l : List HeaderBlock} {foot : HeaderBlock}
    (hspine : i.Spine l) (hl : tree.Descent l peak foot) (hfoot : rooted → foot.height = 0)
    (hk : k ≤ foot.height) (hbase : k ≤ b.height) : Cut tree rooted i b k l [] where
  spine := by rwa [List.append_nil]
  above _ ha := UInt32.le_trans hk (hl.le_height ha)
  below := by simp
  base := hbase
  joins := .inl ⟨rfl, fun hrooted => UInt32.le_antisymm (hfoot hrooted ▸ hk) UInt32.zero_le⟩

/-- The cut below a child of the peak takes nothing away. -/
theorem Sound.cut_extend (hs : c.Sound tree rooted) (hb : tree.has b) (hp : c.peak? = some peak)
    (hlink : b.parent = peak.hash) (hk : k = peak.height + 1) :
    ∃ pre low, Cut tree rooted c.index b k pre low := by
  obtain ⟨l, foot, hl, hspine, hfoot⟩ := hs.spine peak hp
  have hstep := BlockTree.Descent.height_step hb hlink hl
  have hlt : peak.height < b.height := UInt32.lt_iff_toNat_lt.mpr (by omega)
  have hkb : k = b.height := UInt32.toNat_inj.mp (by rw [hk, toNat_add_one hlt, hstep])
  refine ⟨[], l, hspine, by simp, fun a ha => ?_, UInt32.le_of_eq hkb,
    .inr ⟨peak, foot, hl, hfoot, ?_⟩⟩
  · exact hkb ▸ UInt32.lt_of_le_of_lt (hl.height_le ha) hlt
  · intro l' q hl' hq
    obtain rfl : b = q := hl'.eq_of_height hl'.head_mem hl'.last_mem (hkb.symm.trans hq.symm)
    exact hlink

/-- The fork point of a block that is not known yet lies below it. -/
theorem Sound.forkPoint_lt (hs : c.Sound tree rooted) (hb : tree.has b) (hr : r.Copies b)
    (hnew : c.index.contains b.hash = false) (hp : c.peak? = some peak) {p : BlockRecord}
    (hpr : c.index.record? peak.hash = some p) {f : Height}
    (hf : c.index.forkPoint r p = .ok (some f)) : f < b.height := by
  obtain ⟨l, foot, hl, -, -⟩ := hs.spine peak hp
  obtain ⟨m, lb, lp, hlb, hlp, rfl, hm⟩ :=
    Index.descents_of_walkBack hs.within hb hr (hl.has_of_mem hl.head_mem) hpr hf
  refine UInt32.lt_of_le_of_ne (hlb.height_le hlb.last_mem) fun heq => ?_
  -- the fork point is known and the block is not
  obtain rfl := hlb.eq_of_height hlb.last_mem hlb.head_mem heq
  rw [hm] at hnew
  exact Bool.noConfusion hnew

/-- The cut above a fork point takes all that is higher, and everything if the fork point lies below
the spine. -/
theorem Sound.cut_fork (hs : c.Sound tree rooted) (hb : tree.has b) (hr : r.Copies b)
    (hp : c.peak? = some peak) {p : BlockRecord} (hpr : c.index.record? peak.hash = some p)
    {f : Height} (hf : c.index.forkPoint r p = .ok (some f)) (hlt : f < b.height)
    (hk : k = f + 1) : ∃ pre low, Cut tree rooted c.index b k pre low := by
  obtain ⟨l, foot, hl, hspine, hfoot⟩ := hs.spine peak hp
  obtain ⟨m, lb, lp, hlb, hlp, rfl, -⟩ :=
    Index.descents_of_walkBack hs.within hb hr (hl.has_of_mem hl.head_mem) hpr hf
  have hknat : k.toNat = m.height.toNat + 1 := by rw [hk, toNat_add_one hlt]
  have habove : ∀ {h : Height}, m.height < h → k ≤ h := by
    intro h hmh
    rw [UInt32.lt_iff_toNat_lt] at hmh
    exact UInt32.le_iff_toNat_le.mpr (by omega)
  have hbelow : ∀ {h : Height}, h ≤ m.height → h < k := by
    intro h hhm
    rw [UInt32.le_iff_toNat_le] at hhm
    exact UInt32.lt_iff_toNat_lt.mpr (by omega)
  by_cases hlow : foot.height ≤ m.height
  · -- the fork point is on the old spine, which goes on below it
    obtain ⟨rest, rfl⟩ := hlp.isPrefix hl hlow
    have hrest := hlp.rest hl
    obtain ⟨above, rfl, hhigh⟩ := hlp.exists_above
    rw [List.append_assoc, List.singleton_append] at hspine
    refine ⟨above, m :: rest, hspine, fun a ha => habove (hhigh a ha),
      fun a ha => hbelow (hrest.height_le ha), habove hlt, .inr ⟨m, foot, hrest, hfoot, ?_⟩⟩
    -- right above the fork point there is one way only
    intro l' q hl' hq
    have hle : m.height ≤ q.height := hq ▸ UInt32.le_of_lt (hbelow (UInt32.le_refl _))
    obtain ⟨t, rfl⟩ := hl'.isPrefix hlb hle
    exact (hl'.rest hlb).parent_of_height (by rw [hq, hknat])
  · -- the old spine ends above the fork point, which only one that stands on a proof may
    have hfoot' : k ≤ foot.height := habove (UInt32.not_le.mp hlow)
    exact ⟨l, [], .of_le_foot hspine hl hfoot hfoot' (habove hlt)⟩

/-- The cut at an ancestor of the peak leaves what lies below it, and nothing if the spine ends
above it. -/
theorem Sound.cut_below (hs : c.Sound tree rooted) (hp : c.peak? = some peak)
    {lp : List HeaderBlock} (hlp : tree.Descent lp peak b) :
    ∃ pre low, Cut tree rooted c.index b b.height pre low := by
  obtain ⟨l, foot, hl, hspine, hfoot⟩ := hs.spine peak hp
  by_cases hlow : foot.height ≤ b.height
  · -- the block is on the old spine
    obtain ⟨rest, rfl⟩ := hlp.isPrefix hl hlow
    have hrest := hlp.rest hl
    have habove : ∀ a ∈ lp, b.height ≤ a.height := fun a ha => hlp.le_height ha
    have hbelow := (List.pairwise_cons.mp hrest.pairwise_lt).1
    refine ⟨lp, rest, hspine, habove, hbelow, UInt32.le_refl _, ?_⟩
    cases hrest with
    | self => exact .inl ⟨rfl, hfoot⟩
    | @step _ m _ _ _ hlink hrest =>
      refine .inr ⟨m, foot, hrest, hfoot, fun l' q hl' hq => ?_⟩
      obtain rfl := hl'.eq_of_height hl'.last_mem hl'.head_mem hq
      exact hlink
  · -- the old spine ends above the block, which only one that stands on a proof may
    have hfoot' : b.height ≤ foot.height := UInt32.le_of_lt (UInt32.not_le.mp hlow)
    exact ⟨l, [], .of_le_foot hspine hl hfoot hfoot' (UInt32.le_refl _)⟩

/-- **Where the heights change, the old spine can be cut**, unless the block is an ancestor of the
peak. Then they change from right above it on. -/
theorem Sound.cut_or_below (hs : c.Sound tree rooted) (hfind : consensus.findFork = Index.forkPoint)
    (hb : tree.has b) (hr : r.Copies b) (hroot : c.peak? = none → b.height = 0)
    (hstanding : c.standing? consensus r = .ok choice)
    (hc : choice.changedFrom? r.height = some k) :
    (∃ pre low, Cut tree rooted c.index b k pre low) ∨
      ∃ peak l, c.peak? = some peak ∧ tree.Descent l peak b ∧ b.height < peak.height ∧
        k = b.height + 1 := by
  rcases standing?_eq_ok hstanding with ⟨hp, rfl⟩ | ⟨peak, p, hp, hpr, hof⟩
  · -- nothing is canonical yet, and the block is a first one
    obtain rfl : r.height = k := Option.some.inj hc
    have hzero : r.height = 0 := hr.height.trans (hroot hp)
    exact .inl ⟨[], [], (hs.idle hp).2, by simp, by simp, UInt32.le_of_eq hr.height,
      .inl ⟨rfl, fun _ => hzero⟩⟩
  · obtain ⟨l, foot, hl, hspine, hfoot⟩ := hs.spine peak hp
    have hpeak := hl.has_of_mem hl.head_mem
    have hpc : p.Copies peak := hs.within.copies hpeak hpr
    obtain ⟨hheavier, hchanged⟩ := Choice.of_changedFrom hof hc
    rcases hchanged with ⟨hchild, hk⟩ | ⟨-, rfl⟩ | ⟨f, hf, hk⟩
    · refine .inl (hs.cut_extend hb hp ?_ (hpc.height ▸ hk))
      rw [← hr.parent, hchild, hpc.hash]
    · -- the two chains have no common block, so nothing remains
      exact .inl ⟨l, [], .of_le_foot hspine hl hfoot UInt32.zero_le UInt32.zero_le⟩
    · rw [hfind] at hf
      by_cases hlt : f < b.height
      · exact .inl (hs.cut_fork hb hr hp hpr hf hlt hk)
      · obtain ⟨m, lb, lp, hlb, hlp, rfl, -⟩ :=
          Index.descents_of_walkBack hs.within hb hr hpeak hpr hf
        -- the block itself is the fork point, and it is not the peak, which is lighter
        have heq := UInt32.le_antisymm (UInt32.not_lt.mp hlt) (hlb.height_le hlb.last_mem)
        obtain rfl := hlb.eq_of_height hlb.head_mem hlb.last_mem heq
        refine .inr ⟨peak, lp, hp, hlp, ?_, hk⟩
        refine UInt32.lt_of_le_of_ne (hlp.height_le hlp.last_mem) fun hsame => ?_
        obtain rfl := hlp.eq_of_height hlp.last_mem hlp.head_mem hsame
        rw [hpc.weight, hr.weight] at hheavier
        exact absurd hheavier (BitVec.lt_irrefl _)

/-! ### The new spine -/

/-- **The path on what remains of the old spine** is a descent from the new peak. -/
theorem Cut.spine_replaceFrom {pre low : List HeaderBlock}
    (hcut : Cut tree rooted c.index b k pre low) (hs : c.Sound tree rooted) (hb : tree.has b)
    (hr : r.Copies b) (hpath : c.index.pathDown k r = .ok path) :
    ∃ l foot, tree.Descent l b foot ∧ (replaceFrom (c.index.add r) k path).Spine l ∧
      (rooted → foot.height = 0) := by
  obtain ⟨q, l, hl, hcopies, -, hfloor⟩ := (Index.walk_of_walkDown hpath).descent hs.within hb hr
  have hq := hfloor hcut.base
  have hspine : (replaceFrom (c.index.add r) k path).Spine (l ++ low) :=
    hcut.spine.replaceFrom hcut.above hcut.below hcopies hl.pairwise_lt
      fun y hy => hq ▸ hl.le_height hy
  rcases hcut.joins with ⟨rfl, hzero⟩ | ⟨m, foot, hlow, hfoot, hlink⟩
  · rw [List.append_nil] at hspine
    exact ⟨l, q, hl, hspine, fun hrooted => hq.trans (hzero hrooted)⟩
  · exact ⟨l ++ low, foot, hl.append (hlink l q hl hq) hlow, hspine, hfoot⟩

/-- **The canonical map is a descent from the new peak**, whether its block was known before or
not. -/
theorem Sound.spine_replaceFrom (hs : c.Sound tree rooted)
    (hfind : consensus.findFork = Index.forkPoint) (hb : tree.has b) (hr : r.Copies b)
    (hroot : c.peak? = none → b.height = 0) (hstanding : c.standing? consensus r = .ok choice)
    (hc : choice.changedFrom? r.height = some k) (hpath : c.index.pathDown k r = .ok path) :
    ∃ l foot, tree.Descent l b foot ∧ (replaceFrom (c.index.add r) k path).Spine l ∧
      (rooted → foot.height = 0) := by
  rcases hs.cut_or_below hfind hb hr hroot hstanding hc with
    ⟨pre, low, hcut⟩ | ⟨peak, l, hp, hl, hlt, rfl⟩
  · exact hcut.spine_replaceFrom hs hb hr hpath
  · -- the path is the block alone, and it makes no difference to cut the spine at its height
    rw [← hr.height] at hlt hpath ⊢
    have hle : r.height ≤ r.height + 1 :=
      UInt32.le_iff_toNat_le.mpr (by rw [toNat_add_one hlt]; omega)
    obtain rfl : [r] = path := Except.ok.inj ((Index.pathDown_of_le _ hle).symm.trans hpath)
    obtain ⟨pre, low, hcut⟩ := hs.cut_below hp hl
    obtain ⟨l', foot, hl', hspine, hfoot⟩ :=
      hcut.spine_replaceFrom hs hb hr (Index.pathDown_of_le _ (UInt32.le_of_eq hr.height))
    rw [← hr.height] at hspine
    refine ⟨l', foot, hl', fun h x => ?_, hfoot⟩
    rw [Index.hashAt?_replaceFrom_above hlt, hspine h x]

@[simp] theorem slots_evicted (h : Height) : (c.evicted h).slots = c.slots := by
  unfold evicted
  split <;> rfl

@[simp] theorem peak?_adopted : (c.adopted b r k path).peak? = some b := by
  simp [Chain.peak?, Chain.adopted]

@[simp] theorem syncedProof?_adopted :
    (c.adopted b r k path).syncedProof? = c.syncedProof? := by
  simp [syncedProof?, adopted]

@[simp] theorem canonical_evicted (h : Height) :
    (c.evicted h).index.canonical = c.index.canonical := by
  unfold evicted
  split <;> rfl

theorem Sound.evicted (hs : c.Sound tree rooted) (h : Height) :
    (c.evicted h).Sound tree rooted := by
  unfold Chain.evicted
  cases c.config.floor? h with
  | none => exact hs
  | some floor =>
    refine ⟨hs.within.pruneBelow floor, fun hp => ?_, fun peak hp => hs.spine peak hp⟩
    obtain ⟨hnone, hspine⟩ := hs.idle hp
    refine ⟨fun x => ?_, hspine⟩
    cases hr : (c.index.pruneBelow floor).1.record? x with
    | none => rfl
    | some r => exact absurd (Index.record?_of_pruneBelow hr) (by simp [hnone x])

/-- **A new peak keeps a chain sound.** -/
theorem Sound.adopted (hs : c.Sound tree rooted) (hfind : consensus.findFork = Index.forkPoint)
    (hb : tree.has b) (hr : r.Copies b) (hroot : c.peak? = none → b.height = 0)
    (hstanding : c.standing? consensus r = .ok choice)
    (hc : choice.changedFrom? r.height = some k) (hpath : c.index.pathDown k r = .ok path) :
    (c.adopted b r k path).Sound tree rooted := by
  obtain ⟨l, foot, hl, hspine, hfoot⟩ :=
    hs.spine_replaceFrom hfind hb hr hroot hstanding hc hpath
  refine Sound.evicted ⟨?_, ?_, ?_⟩ r.height
  · exact Index.within_congr Index.record?_replaceFrom.symm (hs.within.add ⟨b, hb, hr⟩)
  · simp [Chain.peak?]
  · intro peak hp
    obtain rfl : b = peak := Option.some.inj hp
    exact ⟨l, foot, hl, hspine, hfoot⟩

/-- A block that is kept beside the canonical ones keeps a chain sound if there is a peak. -/
theorem Sound.kept (hs : c.Sound tree rooted) (hr : tree.Records r) (hp : c.peak? ≠ none) :
    (c.kept r).Sound tree rooted :=
  ⟨hs.within.add hr, fun hnone => absurd hnone hp, hs.spine⟩

end Chain

end HeaderChain
