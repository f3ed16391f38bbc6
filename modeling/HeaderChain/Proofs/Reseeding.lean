import HeaderChain.Proofs.Adoption

/-!
# What a weight proof makes of the chain

The records of a proof take the place of all that was canonical.

* `Index.spine_reseed`, `Chain.sound_reseeded` — the canonical map is then the blocks of the proof,
  and the chain is sound whatever it was before;
* `Chain.hashAt?_reseeded`, `Chain.exists_record?_reseeded` — what is found in a chain that had
  nothing in memory: at the heights of the records their hashes, and the record of the tip, which no
  eviction reaches;
* `Chain.standing?_reseeded` — if the tip is the heaviest block of the proof, none outweighs it. So
  a stored peak is left aside (`Chain.LeftAside`), and not adopted again
  (`Chain.Readopting.eq_of_orphan`), whatever it is.
-/

namespace HeaderChain

namespace WeightProof

variable {tree : BlockTree} {w : WeightProof} {rs : List BlockRecord} {blocks : List HeaderBlock}
  {tip : HeaderBlock}

/-- The blocks of a proof are a descent from its tip, told from its other end. -/
theorem Links.descent (h : w.Links rs blocks) (hblocks : ∀ b ∈ blocks, tree.has b)
    (ht : w.tip? = some tip) : ∃ low, tree.Descent blocks.reverse tip low := by
  have hlast : blocks.getLast? = some tip := h.last.trans ht
  have hlinked := h.linked
  clear h
  induction blocks with
  | nil => simp at hlast
  | cons a blocks ih =>
    cases blocks with
    | nil =>
      obtain rfl : a = tip := by simpa using hlast
      exact ⟨a, .self (hblocks a List.mem_cons_self)⟩
    | cons b blocks =>
      obtain ⟨hlink, hlinked⟩ := List.isChain_cons_cons.mp hlinked
      obtain ⟨low, hlow⟩ := ih (fun x hx => hblocks x (List.mem_cons_of_mem a hx))
        (by simpa using hlast) hlinked
      -- the lowest block so far is the one after this one
      obtain ⟨above, habove, -⟩ := hlow.exists_above
      have hb : low = b := by
        rw [List.reverse_cons] at habove
        exact (List.singleton_inj.mp (List.append_inj' habove rfl).2).symm
      rw [List.reverse_cons]
      exact ⟨a, hlow.append (hb ▸ hlink) (.self (hblocks a List.mem_cons_self))⟩

/-- No two blocks of a proof stand at one height. -/
theorem Links.pairwise_height (h : w.Links rs blocks) (hblocks : ∀ b ∈ blocks, tree.has b)
    (ht : w.tip? = some tip) : blocks.Pairwise fun a b => a.height ≠ b.height := by
  obtain ⟨low, hl⟩ := h.descent hblocks ht
  exact (List.pairwise_reverse.mp hl.pairwise_lt).imp UInt32.ne_of_lt

theorem Links.records (h : w.Links rs blocks) (hblocks : ∀ b ∈ blocks, tree.has b)
    {r : BlockRecord} (hr : r ∈ rs) : tree.Records r := by
  obtain ⟨b, hb, hrb⟩ := BlockRecord.exists_block h.copies hr
  exact ⟨b, hblocks b hb, hrb⟩

/-- The tip has a record. -/
theorem Links.exists_tip (h : w.Links rs blocks) (ht : w.tip? = some tip) :
    ∃ r ∈ rs, r.Copies tip :=
  BlockRecord.exists_record h.copies (List.mem_of_getLast? (h.last.trans ht))

end WeightProof

/-! ### The index -/

namespace Index

variable {tree : BlockTree} {i : Index} {r : BlockRecord} {h : Height} {x : Hash}
  {l : List HeaderBlock} {rs : List BlockRecord}

theorem spine_dropHeightsFrom_zero (i : Index) : (i.dropHeightsFrom 0).Spine [] := by
  intro h x
  simp [hashAt?_dropHeightsFrom]

/-- **The records of a proof are all that is canonical** after it was adopted. -/
theorem spine_reseed (i : Index) (hcopies : List.Forall₂ BlockRecord.Copies rs l)
    (hl : l.Pairwise fun a b => a.height ≠ b.height) : (Chain.reseed i rs).Spine l := by
  have hf : ∀ (i : Index) (r : BlockRecord) (k : Height),
      ((i.setHeight r.height r.hash).add r).hashAt? k =
        if r.height = k then some r.hash else i.hashAt? k :=
    fun i r k => hashAt?_setHeight i r.hash r.height k
  have hspine := (spine_dropHeightsFrom_zero i).foldl hf hcopies hl (by simp)
  rwa [List.append_nil] at hspine

/-- What holds of an index and is kept whenever a record of the proof is added holds after all of
them. -/
theorem reseed_induction {P : Index → Prop} (hdrop : P (i.dropHeightsFrom 0))
    (hadd : ∀ j, P j → ∀ r ∈ rs, P ((j.setHeight r.height r.hash).add r)) :
    P (Chain.reseed i rs) :=
  List.foldlRecOn rs _ hdrop hadd

theorem Within.reseed (hi : i.Within tree) (hrs : ∀ r ∈ rs, tree.Records r) :
    (Chain.reseed i rs).Within tree := by
  refine reseed_induction (P := (·.Within tree)) ?_ fun j hj r hr => ?_
  · exact within_congr (record?_dropHeightsFrom i 0).symm hi
  have hset : (j.setHeight r.height r.hash).Within tree := hj
  exact hset.add (hrs r hr)

theorem Within.filed_reseed (hi : i.Within tree) (hf : i.Filed) (hrs : ∀ r ∈ rs, tree.Records r) :
    (Chain.reseed i rs).Filed := by
  have hboth : (Chain.reseed i rs).Within tree ∧ (Chain.reseed i rs).Filed := by
    refine reseed_induction (P := fun j => j.Within tree ∧ j.Filed) ⟨?_, ?_⟩ fun j hj r hr => ?_
    · exact within_congr (record?_dropHeightsFrom i 0).symm hi
    · exact filed_congr (buckets_dropHeightsFrom i 0).symm (record?_dropHeightsFrom i 0).symm hf
    · have hset : (j.setHeight r.height r.hash).Within tree := hj.1
      have hfset : (j.setHeight r.height r.hash).Filed := hj.2
      exact ⟨hset.add (hrs r hr), hset.filed_add hfset (hrs r hr)⟩
  exact hboth.2

/-- What is indexed after seeding is a record of the proof, or was indexed before. -/
theorem mem_of_record?_reseed (hr : (Chain.reseed i rs).record? x = some r) :
    r ∈ rs ∨ i.record? x = some r := by
  refine reseed_induction (P := fun j => j.record? x = some r → r ∈ rs ∨ i.record? x = some r)
    ?_ (fun j hj s hs hadd => ?_) hr
  · exact fun hr => .inr (by simpa using hr)
  · rw [record?_add] at hadd
    split at hadd
    · exact .inl (Option.some.inj hadd ▸ hs)
    · exact hj hadd

/-- Every record of the proof is indexed, or a later one of its hash is. -/
theorem contains_reseed (hr : r ∈ rs) : (Chain.reseed i rs).contains r.hash = true := by
  obtain ⟨before, after, rfl⟩ := List.append_of_mem hr
  -- from when it was added on its hash is known
  rw [Chain.reseed, List.foldl_append, List.foldl_cons]
  refine List.foldlRecOn (motive := (Index.contains · r.hash = true)) after _ ?_ fun j hj s _ => ?_
  · simp [contains, record?_add]
  · rw [contains, record?_add]
    split
    · rfl
    · exact hj

end Index

/-- The floor never is above the peak. -/
theorem Config.floor?_le_peak {config : Config} {peak floor : Height}
    (h : config.floor? peak = some floor) : floor ≤ peak := by
  unfold floor? at h
  split at h
  · cases h
  · split at h
    next hlt =>
      cases h
      exact UInt32.sub_le (UInt32.le_of_lt hlt)
    next => cases h

/-! ### The chain -/

namespace Chain

variable {tree : BlockTree} {consensus : Consensus} {c m : Chain} {d : Disk} {w : WeightProof}
  {rs : List BlockRecord} {tip : HeaderBlock} {r : BlockRecord} {x : Hash} {h : Height}

@[simp] theorem peak?_reseeded : (c.reseeded rs tip).peak? = some tip := by
  simp [Chain.peak?, Chain.reseeded]

@[simp] theorem syncedProof?_reseeded : (c.reseeded rs tip).syncedProof? = c.syncedProof? := by
  simp [syncedProof?, reseeded]

/-- Eviction leaves the canonical map of the proof as it is. -/
theorem canonical_reseeded :
    (c.reseeded rs tip).index.canonical = (reseed c.index rs).canonical := by
  rw [reseeded, canonical_evicted]

/-- **A proof makes a chain sound** whose records are of the tree, whatever is canonical in it. Its
lowest height need not be zero. -/
theorem sound_reseeded (hi : c.index.Within tree) (hw : tree.Runs w rs)
    (ht : w.tip? = some tip) : (c.reseeded rs tip).Sound tree False := by
  obtain ⟨blocks, hblocks, hlinks⟩ := hw
  obtain ⟨low, hl⟩ := hlinks.descent hblocks ht
  refine Sound.evicted ⟨?_, ?_, ?_⟩ tip.height
  · exact hi.reseed fun r hr => hlinks.records hblocks hr
  · simp [Chain.peak?]
  · intro peak hp
    obtain rfl : tip = peak := Option.some.inj hp
    refine ⟨blocks.reverse, low, hl, fun h x => ?_, False.elim⟩
    have hspine := Index.spine_reseed c.index hlinks.copies (hlinks.pairwise_height hblocks ht)
    simpa using hspine h x

/-- **The canonical heights are those of the records**, whatever was canonical before. -/
theorem hashAt?_reseeded (hw : tree.Runs w rs) (ht : w.tip? = some tip) :
    (c.reseeded rs tip).index.hashAt? h = some x ↔ ∃ r ∈ rs, r.height = h ∧ r.hash = x := by
  obtain ⟨blocks, hblocks, hlinks⟩ := hw
  have hspine : (c.reseeded rs tip).index.Spine blocks :=
    Index.spine_congr canonical_reseeded.symm
      (Index.spine_reseed c.index hlinks.copies (hlinks.pairwise_height hblocks ht))
  rw [hspine h x]
  constructor
  · rintro ⟨b, hb, rfl, rfl⟩
    obtain ⟨r, hr, hrb⟩ := BlockRecord.exists_record hlinks.copies hb
    exact ⟨r, hr, hrb.height, hrb.hash⟩
  · rintro ⟨r, hr, rfl, rfl⟩
    obtain ⟨b, hb, hrb⟩ := BlockRecord.exists_block hlinks.copies hr
    exact ⟨b, hb, hrb.height.symm, hrb.hash.symm⟩

/-! ### Seeding a chain that has nothing in memory -/

theorem record?_of_evicted (hr : (c.evicted h).index.record? x = some r) :
    c.index.record? x = some r := by
  unfold evicted at hr
  split at hr
  · exact hr
  · exact Index.record?_of_pruneBelow hr

/-- Eviction leaves what stands at the floor or above it. -/
theorem record?_evicted_of_floor_le (hf : c.index.Filed) (hr : c.index.record? x = some r)
    (hfloor : ∀ floor, c.config.floor? h = some floor → floor ≤ r.height) :
    (c.evicted h).index.record? x = some r := by
  unfold evicted
  split
  · exact hr
  next floor hfloor' =>
    change (c.index.pruneBelow floor).1.record? x = some r
    rw [Index.record?_pruneBelow hf, hr]
    simp [Option.filter, hfloor floor hfloor']

/-- The floor lies no higher than the peak. -/
theorem record?_evicted_of_height (hf : c.index.Filed) (hr : c.index.record? x = some r)
    (hheight : r.height = h) : (c.evicted h).index.record? x = some r :=
  record?_evicted_of_floor_le hf hr fun _ hfloor => hheight ▸ Config.floor?_le_peak hfloor

section Fresh

variable (hempty : c.index = .empty)

include hempty

/-- Nothing else is indexed. -/
theorem mem_of_record?_reseeded (hr : (c.reseeded rs tip).index.record? x = some r) : r ∈ rs := by
  rcases Index.mem_of_record?_reseed (record?_of_evicted hr) with hmem | hr
  · exact hmem
  · simp [hempty] at hr

/-- **The tip is indexed**, and no eviction reaches it. -/
theorem exists_record?_reseeded (hw : tree.Runs w rs) (ht : w.tip? = some tip) :
    ∃ r ∈ rs, (c.reseeded rs tip).index.record? tip.hash = some r ∧ r.Copies tip := by
  obtain ⟨blocks, hblocks, hlinks⟩ := hw
  have hrecords : ∀ r ∈ rs, tree.Records r := fun r hr => hlinks.records hblocks hr
  have hwithin : c.index.Within tree := hempty ▸ Index.within_empty
  have hfiled : (reseed c.index rs).Filed :=
    hwithin.filed_reseed (hempty ▸ Index.filed_empty) hrecords
  -- a record of its hash is indexed, and so one of the tip
  obtain ⟨s, hs, hst⟩ := hlinks.exists_tip ht
  obtain ⟨r, hr⟩ := Index.contains_iff.mp (hst.hash ▸ Index.contains_reseed (i := c.index) hs)
  have htip : tree.has tip := hblocks tip (List.mem_of_getLast? (hlinks.last.trans ht))
  have hcopies : r.Copies tip := (hwithin.reseed hrecords).copies htip hr
  have hkept : (c.reseeded rs tip).index.record? tip.hash = some r :=
    record?_evicted_of_height hfiled hr hcopies.height
  exact ⟨r, mem_of_record?_reseeded hempty hkept, hkept, hcopies⟩

/-- **Every block is an orphan**: none is heavier than the tip. -/
theorem standing?_reseeded (hw : tree.attests w rs) (ht : w.tip? = some tip)
    (hr : (c.reseeded rs tip).index.record? x = some r) :
    (c.reseeded rs tip).standing? consensus r = .ok .orphan := by
  obtain ⟨blocks, hblocks, hcovers⟩ := tree.covers_of_attests hw
  obtain ⟨p, -, hp, hcopies⟩ := exists_record?_reseeded hempty (tree.runs_of_attests hw) ht
  -- the record is one of the proof, whose blocks are no heavier than the tip
  obtain ⟨b, hb, hrb⟩ := BlockRecord.exists_block hcovers.copies (mem_of_record?_reseeded hempty hr)
  have hle : r.weight ≤ p.weight := by
    rw [hrb.weight, hcopies.weight]
    exact hcovers.heaviest tip ht b hb
  have hpeak : (c.reseeded rs tip).peakRecord = .ok (some p) := by
    simp [peakRecord, Index.record, hp, Except.map]
  have hnot : isBetter r.weight p.weight = false := by simpa [isBetter] using hle
  simp [standing?, hpeak, Except.bind, Choice.of, hnot]

end Fresh

/-- **The stored peak is left aside**: it is not known, or does not outweigh the peak. -/
def LeftAside (k : Consensus) (c : Chain) (stored : Option HeaderBlock) : Prop :=
  ∀ b r, stored = some b → c.index.record? b.hash = some r →
    ∃ choice, c.standing? k r = .ok choice ∧ choice.changedFrom? r.height = none

variable {stored : Option HeaderBlock} {a : Except ChainError Unit} {cs : List Call}

/-- Nothing is done with a peak that is left aside. -/
theorem Readopting.eq_of_leftAside (h : Readopting consensus c d stored a m cs)
    (hleft : LeftAside consensus c stored) : a = .ok () ∧ m = c ∧ cs = [] := by
  cases h with
  | absent | current | unknown | tooLight => exact ⟨rfl, rfl, rfl⟩
  | unresolved hr hs =>
    obtain ⟨choice, hs', -⟩ := hleft _ _ rfl hr
    cases hs.symm.trans hs'
  | pathless hr hs hc | refused hr hs hc | readopted hr hs hc =>
    obtain ⟨choice, hs', hc'⟩ := hleft _ _ rfl hr
    cases hs.symm.trans hs'
    cases hc.symm.trans hc'

/-- A stored peak that would be no more than an orphan is not adopted again. -/
theorem Readopting.eq_of_orphan (h : Readopting consensus c d stored a m cs)
    (horphan : ∀ x r, c.index.record? x = some r → c.standing? consensus r = .ok .orphan) :
    a = .ok () ∧ m = c ∧ cs = [] :=
  h.eq_of_leftAside fun _ r _ hr => ⟨.orphan, horphan _ r hr, rfl⟩

end Chain

end HeaderChain
