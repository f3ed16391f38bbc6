import HeaderChain.Proofs.Served
import HeaderChain.Proofs.Window

/-!
# Seeding from a proof, and syncing block by block

The blocks of a chain come in one by one, or all at once behind a weight proof. Both ways lead to
the same chain.

* `Rising` — blocks from a first one up, each a heavier child of the one before;
* `Chain.Taken` — the collaborators take all of them, as they are offered in turn, and build these
  records;
* `Chain.adopted_reseeded` — the step: what a chain that was seeded with some of the records becomes
  by one block more is what it would have become by seeding it with that record as well. Eviction
  goes along, as what one block evicts the next one would have (`Index.pruneBelow_add_pruneBelow`);
* `Chain.Taken.synced` — so block by block the memory is at all times that of a seeded chain;
* `Chain.Taken.sameChain_seeded` — which is what a proof over the blocks makes of another fresh
  chain.
-/

namespace HeaderChain

/-! ### Blocks in a row -/

/-- **Blocks from a first one up**: at the heights from zero, each the parent of the next and
lighter than it, with a hash of its own. -/
structure Rising (blocks : List HeaderBlock) : Prop where
  heights : ∀ (n : Nat) (b : HeaderBlock), blocks[n]? = some b → b.height.toNat = n
  linked : blocks.IsChain fun a b => b.parent = a.hash
  heavier : blocks.IsChain fun a b => a.weight < b.weight
  hashes : (blocks.map (·.hash)).Nodup

namespace Rising

variable {blocks : List HeaderBlock} {b : HeaderBlock}

/-- Without its last block a row is a row. -/
theorem init (h : Rising (blocks ++ [b])) : Rising blocks where
  heights n a ha := by
    refine h.heights n a ?_
    rw [List.getElem?_append_left (List.getElem?_eq_some_iff.mp ha).1, ha]
  linked := h.linked.left_of_append
  heavier := h.heavier.left_of_append
  hashes := by
    have hnodup := h.hashes
    rw [List.map_append] at hnodup
    exact hnodup.of_append_left

/-- The next block stands as high as there are blocks before it. -/
theorem height_last (h : Rising (blocks ++ [b])) : b.height.toNat = blocks.length :=
  h.heights blocks.length b (by simp)

/-- The last block stands above all others. -/
theorem height_lt (h : Rising (blocks ++ [b])) {a : HeaderBlock} (ha : a ∈ blocks) :
    a.height < b.height := by
  obtain ⟨n, hn⟩ := List.getElem?_of_mem ha
  obtain ⟨hlt, -⟩ := List.getElem?_eq_some_iff.mp hn
  rw [UInt32.lt_iff_toNat_lt, h.init.heights n a hn, h.height_last]
  exact hlt

/-- The next block is a heavier child of the last one. -/
theorem child_last (h : Rising (blocks ++ [b])) {tip : HeaderBlock}
    (ht : blocks.getLast? = some tip) :
    b.parent = tip.hash ∧ tip.weight < b.weight ∧ b.height = tip.height + 1 := by
  have hmem : tip ∈ blocks := List.mem_of_getLast? ht
  have hlast : blocks[blocks.length - 1]? = some tip := List.getLast?_eq_getElem?.symm.trans ht
  refine ⟨?_, ?_, ?_⟩
  · exact (List.isChain_append.mp h.linked).2.2 tip ht b rfl
  · exact (List.isChain_append.mp h.heavier).2.2 tip ht b rfl
  · have hpos := List.length_pos_of_mem hmem
    refine UInt32.toNat_inj.mp ?_
    rw [toNat_add_one (h.height_lt hmem), h.init.heights _ tip hlast, h.height_last]
    omega

/-- And has a hash of its own. -/
theorem hash_ne (h : Rising (blocks ++ [b])) {a : HeaderBlock} (ha : a ∈ blocks) :
    a.hash ≠ b.hash := by
  have hnodup := h.hashes
  rw [List.map_append, List.nodup_append] at hnodup
  exact hnodup.2.2 _ (List.mem_map_of_mem ha) _ (by simp)

end Rising

namespace BlockRecord

variable {rs : List BlockRecord} {blocks : List HeaderBlock}

/-- Copies have the hashes of their blocks. -/
theorem map_hash_eq (h : List.Forall₂ Copies rs blocks) :
    rs.map (·.hash) = blocks.map (·.hash) := by
  induction h with
  | nil => rfl
  | cons hcopies _ ih => rw [List.map_cons, List.map_cons, hcopies.hash, ih]

end BlockRecord

/-! ### Records in a row -/

namespace Index

variable {rs : List BlockRecord} {r : BlockRecord} {x : Hash} {h : Height}

/-- One more record of a proof is put on what the others have led to. -/
theorem reseed_append_singleton (i : Index) :
    Chain.reseed i (rs ++ [r]) =
      ((Chain.reseed i rs).setHeight r.height r.hash).add r :=
  List.foldl_append

/-- **An index that was seeded with records** of different hashes holds these records and no other,
and its buckets tell the truth. -/
theorem filed_reseed_empty (hnodup : (rs.map (·.hash)).Nodup) :
    (Chain.reseed .empty rs).Filed ∧
      ∀ x r, (Chain.reseed .empty rs).record? x = some r ↔ r ∈ rs ∧ r.hash = x := by
  -- records are put in one after the other, so the induction is at the end of the list
  induction rs using List.reverseRecOn with
  | nil =>
    refine ⟨filed_congr (buckets_dropHeightsFrom _ 0).symm (record?_dropHeightsFrom _ 0).symm
      filed_empty, fun x r => ?_⟩
    show (empty.dropHeightsFrom 0).record? x = some r ↔ _
    simp
  | append_singleton rs s ih =>
    rw [List.map_append, List.nodup_append] at hnodup
    obtain ⟨hfiled, hrecords⟩ := ih hnodup.1
    -- a hash that has not been seen is filed in one bucket only
    have hnew : ∀ r ∈ rs, r.hash ≠ s.hash := fun r hr =>
      hnodup.2.2 _ (List.mem_map_of_mem hr) _ (by simp)
    have hset : ((Chain.reseed .empty rs).setHeight s.height s.hash).Filed := hfiled
    rw [reseed_append_singleton]
    refine ⟨hset.add fun old hold => ?_, fun x r => ?_⟩
    · obtain ⟨hmem, hhash⟩ := (hrecords s.hash old).mp hold
      exact absurd hhash (hnew old hmem)
    · rw [record?_add, record?_setHeight, List.mem_append, List.mem_singleton]
      by_cases hx : s.hash = x
      · subst hx
        rw [if_pos rfl, Option.some.injEq]
        constructor
        · rintro rfl
          exact ⟨.inr rfl, rfl⟩
        · rintro ⟨hmem | rfl, hhash⟩
          · exact absurd hhash (hnew r hmem)
          · rfl
      · rw [if_neg hx, hrecords]
        constructor
        · rintro ⟨hmem, hhash⟩
          exact ⟨.inl hmem, hhash⟩
        · rintro ⟨hmem | rfl, hhash⟩
          · exact ⟨hmem, hhash⟩
          · exact absurd hhash hx

/-- What is canonical after seeding stands where a record does. -/
theorem exists_height_of_reseed_empty {k : Height}
    (hx : (Chain.reseed .empty rs).hashAt? k = some x) : ∃ r ∈ rs, r.height = k := by
  refine reseed_induction (i := .empty)
    (P := fun j => ∀ k x, j.hashAt? k = some x → ∃ r ∈ rs, r.height = k)
    (fun k x hx => ?_) (fun j hj r hr k x hx => ?_) k x hx
  · rw [hashAt?_dropHeightsFrom, hashAt?_empty, ite_self] at hx
    cases hx
  · rw [hashAt?_add, hashAt?_setHeight] at hx
    split at hx
    next hk => exact ⟨r, hr, hk⟩
    next => exact hj k x hx

/-- A path of one record, on top of all that is canonical, drops nothing. -/
theorem replaceFrom_singleton (i : Index) (hlow : ∀ k x, i.hashAt? k = some x → k < r.height) :
    Chain.replaceFrom (i.add r) r.height [r] = (i.setHeight r.height r.hash).add r := by
  have hdrop : (i.add r).dropHeightsFrom r.height = i.add r := dropHeightsFrom_eq_self hlow
  show ((i.add r).dropHeightsFrom r.height).setHeight r.height r.hash = _
  rw [hdrop]
  rfl

end Index

/-! ### One block more -/

/-- The floor moves up with the peak. -/
theorem Config.floor?_mono {config : Config} {a b f : Height} (hle : a ≤ b)
    (hf : config.floor? a = some f) : ∃ g, config.floor? b = some g ∧ f ≤ g := by
  unfold floor? at hf ⊢
  cases hw : config.window? with
  | none =>
    rw [hw] at hf
    cases hf
  | some w =>
    rw [hw] at hf
    dsimp only at hf ⊢
    -- the floor lies a window below the height, so it rises with it
    split at hf
    next hlt =>
      cases hf
      have hlt' : w < b := UInt32.lt_of_lt_of_le hlt hle
      refine ⟨b - w, if_pos hlt', ?_⟩
      rw [UInt32.le_iff_toNat_le, UInt32.toNat_sub_of_le _ _ (UInt32.le_of_lt hlt),
        UInt32.toNat_sub_of_le _ _ (UInt32.le_of_lt hlt')]
      exact Nat.sub_le_sub_right (UInt32.le_iff_toNat_le.mp hle) _
    next => cases hf

namespace Chain

open Procedure

variable {config : Config} {c : Chain} {k : Consensus} {s : Session Chain}
  {blocks : List HeaderBlock} {rs : List BlockRecord} {b tip : HeaderBlock} {r : BlockRecord}

/-- The index after the eviction for a peak at a height. -/
def evictedIndex (config : Config) (i : Index) (h : Height) : Index :=
  (config.floor? h).elim i fun floor => (i.pruneBelow floor).1

/-- An eviction changes the index only. -/
theorem evicted_eq (h : Height) :
    c.evicted h = { c with index := evictedIndex c.config c.index h } := by
  unfold evicted evictedIndex
  cases c.config.floor? h <;> rfl

/-- What is evicted for a peak is evicted for a higher one. -/
theorem evictedIndex_add {i : Index} {g h : Height} (hf : i.Filed)
    (hnew : i.record? r.hash = none) (hle : g ≤ h) :
    evictedIndex config ((evictedIndex config i g).add r) h = evictedIndex config (i.add r) h := by
  unfold evictedIndex
  cases hg : config.floor? g with
  | none => rfl
  | some low =>
    obtain ⟨high, hh, hlow⟩ := Config.floor?_mono hle hg
    rw [hh]
    exact Index.pruneBelow_add_pruneBelow hf hnew hlow

/-- A height may be set before an eviction or after it: evictions are of records. -/
theorem setHeight_evictedIndex (i : Index) (g h : Height) (x : Hash) :
    (evictedIndex config i g).setHeight h x = evictedIndex config (i.setHeight h x) g := by
  unfold evictedIndex
  cases config.floor? g <;> rfl

@[simp] theorem hashAt?_evictedIndex (i : Index) (g h : Height) :
    (evictedIndex config i g).hashAt? h = i.hashAt? h := by
  unfold evictedIndex
  cases config.floor? g <;> rfl

/-- **One record more, and the eviction for it**: an earlier eviction makes no difference. -/
theorem evictedIndex_replaceFrom (config : Config) {i : Index} {g : Height} (hf : i.Filed)
    (hnew : i.record? r.hash = none) (hlow : ∀ k x, i.hashAt? k = some x → k < r.height)
    (hle : g ≤ r.height) :
    evictedIndex config (replaceFrom ((evictedIndex config i g).add r) r.height [r]) r.height =
      evictedIndex config ((i.setHeight r.height r.hash).add r) r.height := by
  have hset : (i.setHeight r.height r.hash).Filed := hf
  calc evictedIndex config (replaceFrom ((evictedIndex config i g).add r) r.height [r]) r.height
      = evictedIndex config
          (((evictedIndex config i g).setHeight r.height r.hash).add r) r.height := by
        -- nothing canonical is dropped for it
        rw [Index.replaceFrom_singleton]
        simpa using hlow
    _ = evictedIndex config
          ((evictedIndex config (i.setHeight r.height r.hash) g).add r) r.height := by
        rw [setHeight_evictedIndex]
    _ = evictedIndex config ((i.setHeight r.height r.hash).add r) r.height :=
        evictedIndex_add hset hnew hle

/-- The latest timestamp of two lists, one after the other. -/
theorem latest_append (t : UInt64) (rs rs' : List BlockRecord) :
    latest t (rs ++ rs') = latest (latest t rs) rs' := by
  simp [latest]

/-- What a proof makes of a chain that holds nothing. -/
theorem reseeded_fresh :
    (fresh config).reseeded rs tip = {
      config
      slots := { peak := some tip, latestTimestamp := latest 0 rs }
      index := evictedIndex config (reseed .empty rs) tip.height } :=
  evicted_eq tip.height

/-- **One block more**, on a fresh chain that was seeded with records: the chain becomes what it
would have become with one record more. -/
theorem adopted_reseeded (hnodup : ((rs ++ [r]).map (·.hash)).Nodup)
    (hlow : ∀ s ∈ rs, s.height < r.height) (htip : tip.height ≤ r.height)
    (hb : r.height = b.height) :
    ((fresh config).reseeded rs tip).adopted b r r.height [r] =
      (fresh config).reseeded (rs ++ [r]) b := by
  rw [List.map_append, List.nodup_append] at hnodup
  obtain ⟨hfiled, hrecords⟩ := Index.filed_reseed_empty hnodup.1
  -- the record is new and the highest, so that the eviction before it may be left to the one after
  have hnew : (reseed .empty rs).record? r.hash = none := by
    refine Option.eq_none_iff_forall_ne_some.mpr fun s hs => ?_
    obtain ⟨hmem, hhash⟩ := (hrecords r.hash s).mp hs
    exact hnodup.2.2 _ (List.mem_map_of_mem hmem) _ (by simp) hhash
  have hcanonical : ∀ k x, (reseed .empty rs).hashAt? k = some x → k < r.height := by
    intro k x hx
    obtain ⟨s, hs, rfl⟩ := Index.exists_height_of_reseed_empty hx
    exact hlow s hs
  have hindex := evictedIndex_replaceFrom config hfiled hnew hcanonical htip
  have hlatest : latest (latest 0 rs) [r] = latest 0 (rs ++ [r]) := (latest_append 0 rs [r]).symm
  rw [reseeded_fresh, reseeded_fresh, adopted, evicted_eq, Index.reseed_append_singleton, ← hb,
    ← hindex, ← hlatest]
  rfl

/-- The first block, on a fresh chain. -/
theorem adopted_fresh (hb : r.height = b.height) :
    (fresh config).adopted b r r.height [r] = (fresh config).reseeded [r] b := by
  have hempty : Index.empty.dropHeightsFrom 0 = .empty :=
    Index.dropHeightsFrom_eq_self fun k x hx => by simp at hx
  have hindex : replaceFrom (Index.empty.add r) r.height [r] = reseed .empty [r] := by
    rw [Index.replaceFrom_singleton _ fun k x hx => by simp at hx]
    show _ = ((Index.empty.dropHeightsFrom 0).setHeight r.height r.hash).add r
    rw [hempty]
  rw [adopted, evicted_eq, reseeded_fresh, ← hb, ← hindex]
  rfl

/-! ### Blocks that are taken -/

/-- **The collaborators take a block**: there are parameters for a child of its parent, it is valid
with whatever parameters it is given, and this is its record, which copies it. -/
structure Takes (k : Consensus) (c : Chain) (b : HeaderBlock) (r : BlockRecord) : Prop where
  adjusts : ∀ parent, c.index.record? b.parent = some parent →
    ∃ p, k.adjust c.config.constants b.firstInSubSlot parent c.index = .ok p
  builds : ∀ p, c.parameters? k b = .ok (some p) →
    ∃ iters, k.validate c.config.constants c.index b p = .ok (some iters) ∧
      k.build c.config.constants c.index iters b = .ok r
  copies : r.Copies b

/-- **The collaborators take all of these blocks**, each as the chain is when it is offered after
those before it. -/
inductive Taken (k : Consensus) (s : Session Chain) : List HeaderBlock → List BlockRecord → Prop
  | nil : Taken k s [] []
  | snoc {blocks : List HeaderBlock} {rs : List BlockRecord} {b : HeaderBlock} {r : BlockRecord}
    (h : Taken k s blocks rs) (hb : Takes k (offerAll k blocks s).memory b r) :
    Taken k s (blocks ++ [b]) (rs ++ [r])

/-- A block that is taken has parameters if it is a first block or its parent is known. -/
theorem Takes.exists_parameters (h : Takes k c b r)
    (hparent : b.height = 0 ∨ ∃ parent, c.index.record? b.parent = some parent) :
    ∃ p, c.parameters? k b = .ok (some p) := by
  unfold parameters?
  by_cases hzero : b.height = 0
  · exact ⟨_, if_pos hzero⟩
  · obtain ⟨parent, hparent⟩ := hparent.resolve_left hzero
    obtain ⟨p, hp⟩ := h.adjusts parent hparent
    refine ⟨p, ?_⟩
    rw [if_neg hzero, hparent]
    show (k.adjust _ _ _ _).map some = _
    rw [hp]
    rfl

/-- A block that is taken, and changes no height below its own, becomes the peak. -/
theorem Takes.gives_newPeak (h : Takes k s.memory b r)
    (hnew : s.memory.index.contains b.hash = false)
    (hparent : b.height = 0 ∨ ∃ parent, s.memory.index.record? b.parent = some parent)
    {choice : Choice} (hs : s.memory.standing? k r = .ok choice)
    (hc : choice.changedFrom? r.height = some r.height) (hd : s.disk.Serves) :
    (offer k b).Gives s (.ok .newPeak) (s.memory.adopted b r r.height [r]) [storesPeak b] := by
  obtain ⟨p, hp⟩ := h.exists_parameters hparent
  obtain ⟨iters, hvalid, hbuild⟩ := h.builds p hp
  have hv : s.memory.verdict k b p = .ok iters := by
    unfold verdict
    rw [hvalid]
  exact offer_newPeak hnew hp hv hbuild hs hc (Index.pathDown_of_le _ (UInt32.le_refl _)) hd

/-! ### Block by block -/

/-- **What blocks that were offered in turn have led to**: the chain that was seeded with their
records. -/
structure Synced (config : Config) (blocks : List HeaderBlock) (rs : List BlockRecord)
    (s : Session Chain) : Prop where
  copies : List.Forall₂ BlockRecord.Copies rs blocks
  memory : s.memory = blocks.getLast?.elim (fresh config) ((fresh config).reseeded rs)
  stored : ∀ tip, blocks.getLast? = some tip → s.disk.peek peakKey = some (Stored.encode tip)
  serves : s.disk.Serves

/-- The first of the blocks becomes the peak of a fresh chain. -/
theorem Takes.gives_first (h : Takes k s.memory b r) (hs : s.memory = fresh config)
    (hzero : b.height = 0) (hd : s.disk.Serves) :
    (offer k b).Gives s (.ok .newPeak) ((fresh config).reseeded [r] b) [storesPeak b] := by
  have hnew : s.memory.index.contains b.hash = false := by
    rw [hs]
    exact congrArg Option.isSome (Index.record?_empty b.hash)
  have hstanding : s.memory.standing? k r = .ok .firstPeak := standing?_of_idle (by rw [hs]; rfl)
  have hgives := h.gives_newPeak hnew (.inl hzero) hstanding rfl hd
  rw [hs] at hgives
  exact hgives.leaves (adopted_fresh h.copies.height)

/-- The record of the peak of a seeded chain is not evicted. -/
theorem exists_record?_tip (config : Config) (hcopies : List.Forall₂ BlockRecord.Copies rs blocks)
    (hrising : Rising blocks) (ht : blocks.getLast? = some tip) :
    ∃ p, ((fresh config).reseeded rs tip).index.record? tip.hash = some p ∧ p.Copies tip := by
  obtain ⟨p, hmem, hp⟩ := BlockRecord.exists_record hcopies (List.mem_of_getLast? ht)
  have hnodup : (rs.map (·.hash)).Nodup := BlockRecord.map_hash_eq hcopies ▸ hrising.hashes
  obtain ⟨hfiled, hrecords⟩ := Index.filed_reseed_empty hnodup
  have hrecord := (hrecords tip.hash p).mpr ⟨hmem, hp.hash⟩
  exact ⟨p, record?_evicted_of_height (c := { fresh config with
    slots := { peak := some tip, latestTimestamp := latest 0 rs }, index := reseed .empty rs })
    hfiled hrecord hp.height, hp⟩

/-- A heavier child of the peak becomes the peak of a chain that was seeded. -/
theorem Takes.gives_next (h : Takes k s.memory b r)
    (hcopies : List.Forall₂ BlockRecord.Copies rs blocks) (hrising : Rising (blocks ++ [b]))
    (ht : blocks.getLast? = some tip) (hs : s.memory = (fresh config).reseeded rs tip)
    (hd : s.disk.Serves) :
    (offer k b).Gives s (.ok .newPeak) ((fresh config).reseeded (rs ++ [r]) b) [storesPeak b] := by
  obtain ⟨p, hrecord, hp⟩ := exists_record?_tip config hcopies hrising.init ht
  obtain ⟨hlink, hheavier, hheight⟩ := hrising.child_last ht
  have hnodup : ((rs ++ [r]).map (·.hash)).Nodup := by
    rw [List.map_append, BlockRecord.map_hash_eq hcopies, List.map_singleton, h.copies.hash]
    simpa using hrising.hashes
  -- all that is indexed has another hash
  have hnew : s.memory.index.contains b.hash = false := by
    rw [hs, Bool.eq_false_iff]
    intro hcontains
    obtain ⟨old, hold⟩ := Index.contains_iff.mp hcontains
    have hnodup' : (rs.map (·.hash)).Nodup := BlockRecord.map_hash_eq hcopies ▸ hrising.init.hashes
    obtain ⟨hmem, hhash⟩ := ((Index.filed_reseed_empty hnodup').2 b.hash old).mp
      (record?_of_evicted hold)
    obtain ⟨a, ha, hcopy⟩ := BlockRecord.exists_block hcopies hmem
    exact hrising.hash_ne ha (hcopy.hash.symm.trans hhash)
  -- the block is a child of the tip and heavier, so it extends the chain without a search
  have hstanding : s.memory.standing? k r = .ok (.extend p.height) := by
    have hpeak : s.memory.peakRecord = .ok (some p) := by
      rw [hs, peakRecord, peak?_reseeded]
      show (Index.record _ tip.hash).map some = _
      rw [Index.record_eq_ok.mpr hrecord]
      rfl
    have hbetter : isBetter r.weight p.weight = true := by
      simpa [isBetter, h.copies.weight, hp.weight] using hheavier
    have hchild : r.parent = p.hash := by rw [h.copies.parent, hlink, hp.hash]
    rw [standing?, hpeak]
    show Choice.of _ _ r (some p) = _
    simp [Choice.of, hbetter, hchild]
  have hchanged : (Choice.extend p.height).changedFrom? r.height = some r.height := by
    rw [Choice.changedFrom?, hp.height, h.copies.height, hheight]
  have hparent : ∃ parent, s.memory.index.record? b.parent = some parent := by
    rw [hs, hlink]
    exact ⟨p, hrecord⟩
  have hgives := h.gives_newPeak hnew (.inr hparent) hstanding hchanged hd
  rw [hs] at hgives
  refine hgives.leaves (adopted_reseeded hnodup (fun a ha => ?_) ?_ h.copies.height)
  · obtain ⟨x, hx, hax⟩ := BlockRecord.exists_block hcopies ha
    rw [hax.height, h.copies.height]
    exact hrising.height_lt hx
  · rw [h.copies.height]
    exact UInt32.le_of_lt (hrising.height_lt (List.mem_of_getLast? ht))

/-- **One block after others** becomes the peak, and the chain again is that of a proof. -/
theorem Synced.offer (hsynced : Synced config blocks rs s) (hrising : Rising (blocks ++ [b]))
    (h : Takes k s.memory b r) :
    (offer k b).result s = .ok .newPeak ∧
      Synced config (blocks ++ [b]) (rs ++ [r]) ((offer k b).after s) := by
  have hgives : (Chain.offer k b).Gives s (.ok .newPeak) ((fresh config).reseeded (rs ++ [r]) b)
      [storesPeak b] := by
    -- the first block has no parent to be found; any other has the tip
    cases ht : blocks.getLast? with
    | none =>
      obtain rfl := List.getLast?_eq_none_iff.mp ht
      cases hsynced.copies
      have hzero : b.height = 0 := UInt32.toNat_inj.mp hrising.height_last
      exact h.gives_first (hsynced.memory.trans (by rw [ht]; rfl)) hzero hsynced.serves
    | some tip =>
      have hmemory : s.memory = (fresh config).reseeded rs tip := by
        rw [hsynced.memory, ht]
        rfl
      exact h.gives_next hsynced.copies hrising ht hmemory hsynced.serves
  have hlast : (blocks ++ [b]).getLast? = some b := List.getLast?_concat
  refine ⟨hgives.result, ?_, ?_, fun tip ht => ?_, ?_⟩
  · exact List.rel_append hsynced.copies (.cons h.copies .nil)
  · rw [hgives.memory, hlast]
    rfl
  · obtain rfl := Option.some.inj (hlast.symm.trans ht)
    rw [hgives.disk]
    exact hsynced.serves.peek_serve_set peakKey _
  · rw [hgives.disk]
    exact hsynced.serves.serveAll _

/-- **Block by block** a fresh chain becomes what a proof would have made of it. -/
theorem Taken.synced (h : Taken k s blocks rs) (hrising : Rising blocks)
    (hs : s.memory = fresh config) (hd : s.disk.Serves) :
    outcomes k blocks s = blocks.map (fun _ => .ok .newPeak) ∧
      Synced config blocks rs (offerAll k blocks s) := by
  -- the induction is on the run, the last block at a time
  induction h with
  | nil =>
    refine ⟨rfl, .nil, hs, fun tip ht => ?_, hd⟩
    cases ht
  | @snoc blocks rs b r h hb ih =>
    obtain ⟨houtcomes, hsynced⟩ := ih hrising.init
    obtain ⟨hresult, hnext⟩ := hsynced.offer hrising hb
    rw [outcomes_append_singleton, houtcomes, hresult, List.map_append, List.map_singleton,
      offerAll_append_singleton]
    exact ⟨rfl, hnext⟩

/-! ### All at once -/

/-- It makes no difference when the proof itself is put into its slot. -/
theorem reseeded_withProof {w : WeightProof} :
    (c.withProof w true).reseeded rs tip = (c.reseeded rs tip).withProof w true := by
  rw [reseeded, reseeded, evicted_eq, evicted_eq]
  rfl

/-- A fresh chain takes a proof over any blocks. -/
theorem gives_offerProof_fresh {v : Verifier} {w : WeightProof} (hs : s.memory = fresh config)
    (hd : s.disk.Serves) (hv : v w config.skipSegments = .ok rs)
    (hcopies : List.Forall₂ BlockRecord.Copies rs w.recent) (ht : w.recent.getLast? = some tip) :
    (offerProof v w none).Gives s (.ok true)
      (((fresh config).reseeded rs tip).withProof w true) [storesProof w, storesPeak tip] := by
  have htip : rs.any (·.hash == tip.hash) = true := by
    obtain ⟨r, hr, hcopy⟩ := BlockRecord.exists_record hcopies (List.mem_of_getLast? ht)
    exact List.any_eq_true.mpr ⟨r, hr, beq_iff_eq.mpr hcopy.hash⟩
  -- a fresh chain has no peak that the tip would have to outweigh
  have hnone : ∀ peak, s.memory.peak? = some peak → isBetter tip.weight peak.weight = true := by
    intro peak hpeak
    rw [hs] at hpeak
    cases hpeak
  have hanswer : v w s.memory.config.skipSegments = .ok rs := by
    rw [hs]
    exact hv
  have hgives : (offerProof v w none).Gives s (.ok true)
      ((s.memory.withProof w true).reseeded rs tip) [storesProof w, storesPeak tip] :=
    offerProof_served ht hnone (.inr ⟨rfl, hanswer⟩) htip hd
  rw [hs] at hgives
  exact hgives.leaves reseeded_withProof

/-- **Seeding from a proof agrees with syncing block by block.** Of two chains that were opened on
empty stores, one is offered blocks in a row, all of which its collaborators take, and the other one
is offered a proof over them whose records are those that were built for the first one. Every block
becomes the peak, the proof is taken, and both end with one chain. -/
theorem Taken.sameChain_seeded {k' : Consensus} {v v' : Verifier} {disk disk' : Disk}
    (hd : disk.entries = ∅) (hserves : disk.Serves) (hd' : disk'.entries = ∅)
    (hserves' : disk'.Serves) {w : WeightProof} (hne : w.recent ≠ []) (hrising : Rising w.recent)
    (h : Taken k (opened v k config disk) w.recent rs) (hv : v' w config.skipSegments = .ok rs) :
    outcomes k w.recent (opened v k config disk) = w.recent.map (fun _ => .ok .newPeak) ∧
      (offerProof v' w none).result (opened v' k' config disk') = .ok true ∧
      SameChain (offerAll k w.recent (opened v k config disk))
        ((offerProof v' w none).after (opened v' k' config disk')) := by
  obtain ⟨hs, hopened⟩ := opened_of_empty (v := v) (k := k) config hd hserves
  obtain ⟨hs', hopened'⟩ := opened_of_empty (v := v') (k := k') config hd' hserves'
  obtain ⟨houtcomes, hsynced⟩ := h.synced hrising hs hopened
  obtain ⟨tip, ht⟩ : ∃ tip, w.recent.getLast? = some tip :=
    ⟨_, List.getLast?_eq_some_getLast hne⟩
  have hgives := gives_offerProof_fresh hs' hopened' hv hsynced.copies ht
  -- both runs come to the chain that the records make of a fresh one
  have hmemory : (offerAll k w.recent (opened v k config disk)).memory =
      (fresh config).reseeded rs tip := by
    rw [hsynced.memory, ht]
    rfl
  refine ⟨houtcomes, hgives.result, ?_, ?_, ?_, ?_⟩
  · rw [hgives.memory, hmemory]
    rfl
  · rw [hgives.memory, hmemory]
    rfl
  · rw [hgives.memory, hmemory]
    rfl
  · -- the tip was stored last, whichever way
    rw [hgives.disk, hsynced.stored tip ht]
    show ((_ : Disk).serveAll [storesProof w, storesPeak tip]).peek peakKey = _
    exact (hopened'.serveAll [storesProof w]).peek_serve_set peakKey _

/-! ### A chain with a narrow window -/

theorem takes_only {accepted : List HeaderBlock} (hb : b ∈ accepted) :
    Takes (.only accepted) c b (Sample.record b) where
  adjusts _ _ := ⟨_, rfl⟩
  builds _ _ := ⟨Sample.requiredIters, congrArg Except.ok (if_pos hb), rfl⟩
  copies := Sample.record_copies b

theorem taken_only {accepted : List HeaderBlock} (hblocks : ∀ b ∈ blocks, b ∈ accepted) :
    Taken (.only accepted) s blocks (blocks.map Sample.record) := by
  induction blocks using List.reverseRecOn with
  | nil => exact .nil
  | append_singleton blocks b ih =>
    rw [List.map_append, List.map_singleton]
    refine .snoc (ih fun a ha => hblocks a (List.mem_append_left _ ha)) (takes_only ?_)
    exact hblocks b (List.mem_append_right _ (List.mem_singleton_self b))

theorem rising_tall : Rising Sample.tall where
  heights n b hb := by
    have hheights : Sample.tall.map (·.height.toNat) = List.range 4 := by decide +kernel
    have hn : (Sample.tall.map (·.height.toNat))[n]? = some b.height.toNat := by
      rw [List.getElem?_map, hb, Option.map_some]
    rw [hheights, List.getElem?_eq_some_iff] at hn
    obtain ⟨hlt, hn⟩ := hn
    rw [← hn, List.getElem_range]
  linked := by decide +kernel
  heavier := by decide +kernel
  hashes := by decide +kernel

/-- Four blocks, of which the last one evicts the first one, and a proof over them. -/
theorem sameChain_tall :
    Rising Sample.tall ∧
      outcomes (.only Sample.tall) Sample.tall
          (opened Sample.verifier (.only Sample.tall) Sample.narrow {}) =
        Sample.tall.map (fun _ => .ok .newPeak) ∧
      (offerProof Sample.verifier { recent := Sample.tall } none).result
          (opened Sample.verifier (.only Sample.tall) Sample.narrow {}) = .ok true ∧
      SameChain
        (offerAll (.only Sample.tall) Sample.tall
          (opened Sample.verifier (.only Sample.tall) Sample.narrow {}))
        ((offerProof Sample.verifier { recent := Sample.tall } none).after
          (opened Sample.verifier (.only Sample.tall) Sample.narrow {})) := by
  have htaken : Taken (.only Sample.tall)
      (opened Sample.verifier (.only Sample.tall) Sample.narrow {}) Sample.tall
      (Sample.tall.map Sample.record) := taken_only fun _ hb => hb
  refine ⟨rising_tall, ?_⟩
  exact Taken.sameChain_seeded (w := { recent := Sample.tall }) rfl (fun _ _ => rfl) rfl
    (fun _ _ => rfl) (by decide) rising_tall htaken rfl

end Chain

end HeaderChain
