import Mathlib.Data.List.Range
import Mathlib.Order.Bounds.Basic
import HeaderChain.Proofs.Retention
import HeaderChain.Proofs.Sync

/-!
# A branch that is offered from its first block on

The blocks of a sample branch are offered in turn to a chain that accepts every block. There are
closed forms for what this leaves: the canonical map, the latest timestamp, and the records.

* `Chain.Synced.spine`, `Chain.Synced.record?_iff`, `Chain.Synced.size` — what any blocks in a row
  have led to: all of them are canonical, and the highest of their records are indexed, as many as
  `Config.kept` says;
* `Sample.branch_eq_map` — the blocks of a branch by their heights, from which it is seen that they
  are in a row (`Sample.rising_branch`);
* `Chain.Covered`, `Chain.covered_branch` — what the whole branch leaves.
-/

namespace HeaderChain

/-! ### What blocks in a row have led to -/

/-- The number of records that are kept of so many blocks in a row: those of the peak and of the
window below it. -/
def Config.kept (config : Config) (n : ℕ) : ℕ :=
  config.window?.elim n fun w => min n (w.toNat + 1)

/-- No more records are kept than there are blocks. -/
theorem Config.kept_le (config : Config) (n : ℕ) : config.kept n ≤ n := by
  unfold kept
  cases config.window? with
  | none => exact Nat.le_refl n
  | some w => exact Nat.min_le_left n _

namespace Rising

variable {blocks : List HeaderBlock} {rs : List BlockRecord}

/-- No two blocks in a row stand at one height. -/
theorem pairwise_height (h : Rising blocks) :
    blocks.Pairwise fun b a => b.height ≠ a.height := by
  refine List.pairwise_iff_getElem.mpr fun m n hm hn hlt heq => ?_
  have hfirst := h.heights m _ (List.getElem?_eq_getElem hm)
  have hsecond := h.heights n _ (List.getElem?_eq_getElem hn)
  rw [heq, hsecond] at hfirst
  omega

/-- A record of a block in a row stands at the height of its place. -/
theorem height_record (h : Rising blocks) (hcopies : List.Forall₂ BlockRecord.Copies rs blocks)
    {n : ℕ} {r : BlockRecord} (hr : rs[n]? = some r) : r.height.toNat = n := by
  obtain ⟨hn, rfl⟩ := List.getElem?_eq_some_iff.mp hr
  have hn' : n < blocks.length := hcopies.length_eq ▸ hn
  have hcopy : (rs[n]).Copies blocks[n] := hcopies.get hn hn'
  rw [hcopy.height]
  exact h.heights n _ (List.getElem?_eq_getElem hn')

end Rising

namespace Chain

variable {config : Config} {s : Session Chain} {blocks : List HeaderBlock}
  {rs : List BlockRecord} {tip : HeaderBlock} {r : BlockRecord} {x : Hash}

/-- What blocks in a row have led to is what a proof over them would make of a fresh chain. -/
theorem Synced.memory_eq (h : Synced config blocks rs s) (ht : blocks.getLast? = some tip) :
    s.memory = (fresh config).reseeded rs tip := by
  rw [h.memory, ht]
  rfl

/-- **Exactly the blocks are canonical**, evicted or not. -/
theorem Synced.spine (h : Synced config blocks rs s) (hrising : Rising blocks)
    (ht : blocks.getLast? = some tip) : s.memory.index.Spine blocks := by
  rw [h.memory_eq ht]
  exact Index.spine_congr canonical_reseeded.symm
    (Index.spine_reseed _ h.copies hrising.pairwise_height)

/-- **The highest of the records are indexed**, and no others. -/
theorem Synced.record?_iff (h : Synced config blocks rs s) (hrising : Rising blocks)
    (ht : blocks.getLast? = some tip) : s.memory.index.record? x = some r ↔
      r ∈ rs.drop (blocks.length - config.kept blocks.length) ∧ r.hash = x := by
  have hnodup : (rs.map (·.hash)).Nodup := BlockRecord.map_hash_eq h.copies ▸ hrising.hashes
  obtain ⟨hfiled, hrecords⟩ := Index.filed_reseed_empty hnodup
  have hseeded : s.memory = (Chain.evicted { fresh config with
      slots := { peak := some tip, latestTimestamp := latest 0 rs }
      index := reseed .empty rs } tip.height) := h.memory_eq ht
  unfold Config.kept
  cases hw : config.window? with
  | none =>
    -- nothing is evicted
    have hfloor : config.floor? tip.height = none := by rw [Config.floor?, hw]
    have hindex : s.memory.index = reseed .empty rs := by
      rw [hseeded, evicted_eq]
      show evictedIndex config _ _ = _
      rw [evictedIndex, hfloor]
      rfl
    rw [hindex, Option.elim_none, Nat.sub_self, List.drop_zero]
    exact hrecords x r
  | some w =>
    -- the tip stands at the last place, and what the window reaches are the places below it
    have hlast : blocks[blocks.length - 1]? = some tip := List.getLast?_eq_getElem?.symm.trans ht
    have htip : tip.height.toNat = blocks.length - 1 := hrising.heights _ tip hlast
    have hpos : 0 < blocks.length := List.length_pos_of_mem (List.mem_of_getLast? ht)
    rw [hseeded, record?_evicted hfiled hw, Option.filter_eq_some_iff, hrecords, Option.elim_some,
      htip, decide_eq_true_eq, List.mem_iff_getElem?, List.mem_iff_getElem?]
    -- places and heights are the same numbers, so the window is a number of places
    constructor
    · rintro ⟨⟨⟨n, hn⟩, hhash⟩, hheight⟩
      rw [hrising.height_record h.copies hn] at hheight
      refine ⟨⟨n - (blocks.length - min blocks.length (w.toNat + 1)), ?_⟩, hhash⟩
      rw [List.getElem?_drop, ← hn]
      congr 1
      omega
    · rintro ⟨⟨n, hn⟩, hhash⟩
      rw [List.getElem?_drop] at hn
      refine ⟨⟨⟨_, hn⟩, hhash⟩, ?_⟩
      rw [hrising.height_record h.copies hn]
      omega

/-- **As many records are indexed as are kept.** -/
theorem Synced.size (h : Synced config blocks rs s) (hrising : Rising blocks)
    (ht : blocks.getLast? = some tip) :
    s.memory.index.size = config.kept blocks.length := by
  have hnodup : (rs.map (·.hash)).Nodup := BlockRecord.map_hash_eq h.copies ▸ hrising.hashes
  -- the keys of the index are the hashes of the records that are kept
  have hperm : s.memory.index.records.keys.Perm
      ((rs.drop (blocks.length - config.kept blocks.length)).map (·.hash)) := by
    refine (List.perm_ext_iff_of_nodup Std.ExtTreeMap.nodup_keys
      (hnodup.sublist ((List.drop_sublist _ rs).map _))).mpr fun x => ?_
    rw [Std.ExtTreeMap.mem_keys, ← Index.contains_iff_mem, Index.contains_iff, List.mem_map]
    exact exists_congr fun r => h.record?_iff hrising ht
  have hkept := config.kept_le blocks.length
  have hlength := hperm.length_eq
  rw [Std.ExtTreeMap.length_keys, List.length_map, List.length_drop,
    h.copies.length_eq] at hlength
  rw [Index.size, hlength]
  omega

/-- One record more may be the latest. -/
theorem latest_append_singleton (t : UInt64) (rs : List BlockRecord) (r : BlockRecord) :
    latest t (rs ++ [r]) = r.timestamp.elim (latest t rs) (max (latest t rs)) := by
  rw [latest_append]
  cases hr : r.timestamp with
  | none => simp [latest, hr]
  | some u => simp [latest, hr]

/-! ### Collaborators that take every block -/

/-- The record that is built where every block is accepted. -/
def accepted (config : Config) (b : HeaderBlock) : BlockRecord :=
  { Sample.record b with subSlotIters := config.constants.subSlotItersStarting }

theorem copies_accepted (config : Config) (b : HeaderBlock) : (accepted config b).Copies b :=
  ⟨rfl, rfl, rfl, rfl, rfl⟩

/-- Where every block is accepted, each is taken. -/
theorem takes_accepting (c : Chain) (b : HeaderBlock) :
    Takes Sample.accepting c b (accepted c.config b) where
  adjusts _ _ := ⟨_, rfl⟩
  builds _ _ := ⟨Sample.requiredIters, rfl, rfl⟩
  copies := copies_accepted c.config b

/-- **Blocks in a row are taken**, and their records built from the configuration of the chain. -/
theorem taken_accepting (hrising : Rising blocks) (hs : s.memory = fresh config)
    (hd : s.disk.Serves) : Taken Sample.accepting s blocks (blocks.map (accepted config)) := by
  induction blocks using List.reverseRecOn with
  | nil => exact .nil
  | append_singleton blocks b ih =>
    have htaken := ih hrising.init
    -- what the blocks before have led to has the configuration of the start
    have hconfig : (offerAll Sample.accepting blocks s).memory.config = config := by
      obtain ⟨-, hsynced⟩ := htaken.synced hrising.init hs hd
      rw [hsynced.memory]
      cases blocks.getLast? with
      | none => rfl
      | some tip =>
        rw [Option.elim_some, reseeded_fresh]
    have htakes := takes_accepting (offerAll Sample.accepting blocks s).memory b
    rw [hconfig] at htakes
    rw [List.map_append, List.map_singleton]
    exact .snoc htaken htakes

end Chain

/-! ### The blocks of a branch -/

namespace Sample

variable {number : UInt8} {step : Weight} {n : ℕ}

/-- The bytes of a height tell it apart. -/
theorem heightBytes_injective : Function.Injective heightBytes := by
  intro a b h
  simp only [heightBytes, List.cons.injEq, ← UInt8.toNat_inj, UInt32.toNat_toUInt8,
    UInt32.toNat_shiftRight, and_true] at h
  simp [Nat.shiftRight_eq_div_pow] at h
  -- the four bytes are the digits of the height to the base 256
  refine UInt32.toNat_inj.mp ?_
  have ha := a.toNat_lt
  have hb := b.toNat_lt
  omega

/-- The hashes of a branch tell its heights apart. -/
theorem blockHash_injective (number : UInt8) : Function.Injective (blockHash number) := by
  intro a b h
  have hbytes := congrArg (fun x : Hash => x.toArray.toList) h
  simp only [blockHash, List.cons.injEq, List.append_cancel_left_eq, true_and] at hbytes
  exact heightBytes_injective hbytes

/-- The timestamp of the block at an even height. -/
def stampAt (n : ℕ) : UInt64 := .ofNat (genesisTimestamp.toNat + 20 * n)

/-- Even at the highest height the timestamp is not wrapped. -/
theorem toNat_stampAt (hn : n < UInt32.size) :
    (stampAt n).toNat = genesisTimestamp.toNat + 20 * n := by
  have hgenesis : genesisTimestamp.toNat = 1700000000 := rfl
  have hsize : UInt32.size = 4294967296 := rfl
  refine UInt64.toNat_ofNat_of_lt' ?_
  simp only [UInt64.size]
  omega

/-- Twenty seconds a height, in wrapping arithmetic or not. -/
theorem stampAt_eq (hn : n < UInt32.size) :
    genesisTimestamp + (UInt32.ofNat n).toUInt64 * 20 = stampAt n := by
  have hgenesis : genesisTimestamp.toNat = 1700000000 := rfl
  have htwenty : UInt64.toNat 20 = 20 := rfl
  have hsize : UInt32.size = 4294967296 := rfl
  refine UInt64.toNat_inj.mp ?_
  rw [toNat_stampAt hn, UInt64.toNat_add, UInt64.toNat_mul, UInt32.toNat_toUInt64,
    UInt32.toNat_ofNat_of_lt' hn, hgenesis, htwenty]
  omega

/-- The block at a height of a branch. -/
def blockAt (number : UInt8) (step : Weight) (n : ℕ) : HeaderBlock :=
  block number (.ofNat n) (if n = 0 then Hash.zero else blockHash number (.ofNat (n - 1)))
    (BitVec.ofNat 128 (n * step.toNat))
    (if n % 2 = 0 then some (stampAt n) else none)

theorem next_none : next number step none = blockAt number step 0 := by
  simp [next, blockAt, stampAt, genesisTimestamp]

/-- Below the highest height, the next block is the one at the next height. -/
theorem next_blockAt (hn : n + 1 < UInt32.size) :
    next number step (some (blockAt number step n)) = blockAt number step (n + 1) := by
  have hheight : (blockAt number step n).height + 1 = UInt32.ofNat (n + 1) :=
    (UInt32.ofNat_add n 1).symm
  -- below the highest height nothing wraps, so the parity of the height is that of the number
  have hparity : UInt32.ofNat (n + 1) % 2 = 0 ↔ (n + 1) % 2 = 0 := by
    rw [← UInt32.toNat_inj, UInt32.toNat_mod, UInt32.toNat_ofNat_of_lt' hn]
    rfl
  have hweight : BitVec.ofNat 128 (n * step.toNat) + step =
      BitVec.ofNat 128 ((n + 1) * step.toNat) := by
    rw [Nat.add_mul, Nat.one_mul, BitVec.ofNat_add, BitVec.ofNat_toNat, BitVec.setWidth_eq]
  have hparent : (blockAt number step n).hash =
      if n + 1 = 0 then Hash.zero else blockHash number (.ofNat (n + 1 - 1)) := rfl
  have htime : (if UInt32.ofNat (n + 1) % 2 = 0
        then some (genesisTimestamp + (UInt32.ofNat (n + 1)).toUInt64 * 20) else none) =
      if (n + 1) % 2 = 0 then some (stampAt (n + 1)) else none := by
    rw [stampAt_eq hn]
    exact if_congr hparity rfl rfl
  calc next number step (some (blockAt number step n))
      = block number ((blockAt number step n).height + 1) (blockAt number step n).hash
          (BitVec.ofNat 128 (n * step.toNat) + step)
          (if ((blockAt number step n).height + 1) % 2 = 0
            then some (genesisTimestamp + ((blockAt number step n).height + 1).toUInt64 * 20)
            else none) := rfl
    _ = blockAt number step (n + 1) := by
        rw [hheight, hweight, htime, hparent]
        rfl

/-- The blocks after one of a branch. -/
theorem branch_blockAt (number : UInt8) (step : Weight) (k : ℕ) :
    ∀ m, k + m < UInt32.size → branch number step (some (blockAt number step k)) m =
      (List.range' (k + 1) m).map (blockAt number step) := by
  intro m
  induction m generalizing k with
  | zero => exact fun _ => rfl
  | succ m ih =>
    intro hsize
    rw [branch, next_blockAt (by omega), List.range'_succ, List.map_cons, ih (k + 1) (by omega)]

/-- **A branch has one block at each height**, the lowest first. -/
theorem branch_eq_map (number : UInt8) (step : Weight) (hn : n ≤ UInt32.size) :
    branch number step none n = (List.range n).map (blockAt number step) := by
  cases n with
  | zero => rfl
  | succ n =>
    rw [branch, next_none, branch_blockAt number step 0 n (by omega), List.range_eq_range',
      List.range'_succ, List.map_cons]

theorem height_blockAt (hn : n < UInt32.size) :
    (blockAt number step n).height.toNat = n :=
  UInt32.toNat_ofNat_of_lt' hn

/-- A branch has its blocks in the order of their heights. -/
theorem getElem?_branch (hn : n ≤ UInt32.size) (m : ℕ) :
    (branch number step none n)[m]? = if m < n then some (blockAt number step m) else none := by
  rw [branch_eq_map number step hn, List.getElem?_map]
  by_cases hm : m < n
  · rw [if_pos hm, List.getElem?_range hm, Option.map_some]
  · rw [if_neg hm, List.getElem?_eq_none (by rw [List.length_range]; omega), Option.map_none]

/-- The blocks of a branch are those at the heights it goes through. -/
theorem mem_branch (hn : n ≤ UInt32.size) {b : HeaderBlock} :
    b ∈ branch number step none n ↔ ∃ m < n, blockAt number step m = b := by
  simp only [branch_eq_map number step hn, List.mem_map, List.mem_range]

/-- **The blocks of a branch are in a row**, if no weight is wrapped. -/
theorem rising_branch (number : UInt8) (hn : n ≤ UInt32.size) (hstep : 0 < step.toNat)
    (hweight : (n - 1) * step.toNat < Weight.size) : Rising (branch number step none n) where
  heights m b hb := by
    rw [getElem?_branch hn] at hb
    split at hb
    next hm =>
      cases hb
      exact height_blockAt (by omega)
    next => cases hb
  linked := by
    rw [branch_eq_map number step hn, List.isChain_map]
    exact (List.isChain_range _ n).mpr fun m _ => rfl
  heavier := by
    rw [branch_eq_map number step hn, List.isChain_map]
    refine (List.isChain_range _ n).mpr fun m hm => ?_
    -- both weights are below the last one, and so none is wrapped
    have hlast : (m + 1) * step.toNat ≤ (n - 1) * step.toNat :=
      Nat.mul_le_mul_right _ (by omega)
    have hlt : m * step.toNat < (m + 1) * step.toNat := by
      rw [Nat.add_mul, Nat.one_mul]
      omega
    have hsize : Weight.size = 2 ^ 128 := rfl
    show BitVec.ofNat 128 (m * step.toNat) < BitVec.ofNat 128 ((m + 1) * step.toNat)
    rw [BitVec.lt_def, BitVec.toNat_ofNat, BitVec.toNat_ofNat, Nat.mod_eq_of_lt (by omega),
      Nat.mod_eq_of_lt (by omega)]
    exact hlt
  -- a hash has its height within, and no height is wrapped
  hashes := by
    rw [branch_eq_map number step hn, List.map_map]
    refine List.Nodup.map_on (fun a ha b hb hab => ?_) List.nodup_range
    have heq := congrArg UInt32.toNat (blockHash_injective number hab)
    rwa [UInt32.toNat_ofNat_of_lt' (lt_of_lt_of_le (List.mem_range.mp ha) hn),
      UInt32.toNat_ofNat_of_lt' (lt_of_lt_of_le (List.mem_range.mp hb) hn)] at heq

theorem timestamp_block (number : UInt8) (height : Height) (parent : Hash) (weight : Weight)
    (t : Option UInt64) : (block number height parent weight t).timestamp = t := by
  cases t <;> rfl

/-- **The latest timestamp of a branch** is that of its highest block at an even height. -/
theorem latest_branch (config : Config) (number : UInt8) (step : Weight) :
    ∀ m, m + 1 ≤ UInt32.size →
      (Chain.latest 0 ((branch number step none (m + 1)).map (Chain.accepted config))).toNat =
        genesisTimestamp.toNat + 20 * (m / 2 * 2) := by
  intro m hm
  rw [branch_eq_map number step hm]
  induction m with
  | zero => rfl
  | succ m ih =>
    have hlatest := ih (by omega)
    rw [List.range_succ, List.map_append, List.map_append, List.map_singleton, List.map_singleton,
      Chain.latest_append_singleton]
    have htime : (Chain.accepted config (blockAt number step (m + 1))).timestamp =
        if (m + 1) % 2 = 0 then some (stampAt (m + 1)) else none :=
      timestamp_block ..
    rw [htime]
    by_cases heven : (m + 1) % 2 = 0
    · -- a transaction block is later than all before it
      have hle : Chain.latest 0 (((List.range (m + 1)).map (blockAt number step)).map
          (Chain.accepted config)) ≤ stampAt (m + 1) := by
        rw [UInt64.le_iff_toNat_le, hlatest, toNat_stampAt (by omega)]
        omega
      rw [if_pos heven, Option.elim_some]
      calc (max _ (stampAt (m + 1))).toNat
          = (stampAt (m + 1)).toNat := congrArg UInt64.toNat (if_pos hle)
        _ = genesisTimestamp.toNat + 20 * (m + 1) := toNat_stampAt (by omega)
        _ = genesisTimestamp.toNat + 20 * ((m + 1) / 2 * 2) := by omega
    · rw [if_neg heven, Option.elim_none, hlatest]
      omega

end Sample

/-! ### The whole branch -/

namespace Chain

/-- **What a branch of so many blocks leaves** that was offered from its first block on. -/
structure Covered (config : Config) (number : UInt8) (step : Weight) (n : ℕ)
    (s : Session Chain) : Prop where
  peak : ∃ tip, (Sample.branch number step none n).getLast? = some tip ∧
    s.memory.peak? = some tip
  /-- Every height of the branch is canonical, and no height above it. -/
  canonical : ∀ h : Height, s.memory.index.hashAt? h =
    if h.toNat < n then some (Sample.blockHash number h) else none
  /-- The latest timestamp is the one of the highest even height. -/
  timestamp : ∃ e, IsGreatest {h | h < n ∧ Even h} e ∧
    s.memory.latestTimestamp.toNat = Sample.genesisTimestamp.toNat + 20 * e
  /-- The records are those of the highest blocks. -/
  records : ∀ x r, s.memory.index.record? x = some r ↔
    ∃ b ∈ (Sample.branch number step none n).drop (n - config.kept n),
      r = accepted config b ∧ b.hash = x
  size : s.memory.index.size = config.kept n

/-- **A branch syncs completely.** Whatever the configuration, a branch that is offered in turn to a
chain that was opened on an empty store and accepts every block makes each of its blocks the peak,
and covers the chain. -/
theorem covered_branch (config : Config) (v : Verifier) (number : UInt8) (step : Weight) (n : ℕ)
    (hn : 1 ≤ n) (hsize : n < UInt32.size) (hstep : 1 ≤ step.toNat)
    (hweight : (n - 1) * step.toNat < Weight.size) (disk : Disk) (hd : disk.entries = ∅)
    (hserves : disk.Serves) :
    outcomes Sample.accepting (Sample.branch number step none n)
        (opened v Sample.accepting config disk) = List.replicate n (.ok .newPeak) ∧
      Covered config number step n
        (offerAll Sample.accepting (Sample.branch number step none n)
          (opened v Sample.accepting config disk)) := by
  -- the blocks form a row, all are taken, so what they lead to is known in closed form
  have hn' : n ≤ UInt32.size := Nat.le_of_lt hsize
  have hrising := Sample.rising_branch number hn' hstep hweight
  have hlength : (Sample.branch number step none n).length = n := by
    rw [Sample.branch_eq_map number step hn', List.length_map, List.length_range]
  obtain ⟨hs, hopened⟩ := opened_of_empty (v := v) (k := Sample.accepting) config hd hserves
  obtain ⟨houtcomes, hsynced⟩ := (taken_accepting hrising hs hopened).synced hrising hs hopened
  obtain ⟨tip, ht⟩ : ∃ tip, (Sample.branch number step none n).getLast? = some tip :=
    ⟨_, List.getLast?_eq_some_getLast (List.ne_nil_of_length_pos (by omega))⟩
  refine ⟨?_, ⟨tip, ht, ?_⟩, fun h => ?_, ?_, fun x r => ?_, ?_⟩
  · rw [houtcomes, List.map_const', hlength]
  · rw [hsynced.memory_eq ht]
    exact peak?_reseeded
  · -- the canonical map: the hash at a height is that of the block of the branch there
    have hspine := hsynced.spine hrising ht
    refine Option.ext fun x => ?_
    rw [hspine h x]
    constructor
    · rintro ⟨b, hb, rfl, rfl⟩
      obtain ⟨m, hm, rfl⟩ := (Sample.mem_branch hn').mp hb
      rw [Sample.height_blockAt (by omega), if_pos hm]
      rfl
    · intro hx
      split at hx
      next hlt =>
        cases hx
        have hheight : (Sample.blockAt number step h.toNat).height = h := UInt32.ofNat_toNat
        exact ⟨_, (Sample.mem_branch hn').mpr ⟨h.toNat, hlt, rfl⟩, hheight,
          congrArg (Sample.blockHash number) hheight⟩
      next => cases hx
  · -- timestamps stand at even heights only, so the latest is that of the highest even one
    obtain ⟨m, rfl⟩ : ∃ m, n = m + 1 := ⟨n - 1, by omega⟩
    refine ⟨m / 2 * 2, ⟨⟨by omega, ⟨m / 2, by omega⟩⟩, ?_⟩, ?_⟩
    · rintro e ⟨hlt, k, rfl⟩
      omega
    · rw [hsynced.memory_eq ht, reseeded_fresh]
      exact Sample.latest_branch config number step m hn'
  · -- the records are those of the last blocks, as many as are kept
    rw [hsynced.record?_iff hrising ht, hlength, ← List.map_drop, List.mem_map]
    constructor
    · rintro ⟨⟨b, hb, rfl⟩, hx⟩
      exact ⟨b, hb, rfl, hx⟩
    · rintro ⟨b, hb, rfl, hx⟩
      exact ⟨⟨b, hb, rfl⟩, hx⟩
  · rw [hsynced.size hrising ht, hlength]

/-- Four blocks under a window of two heights, of which three records are kept. -/
theorem covered_tall :
    Sample.narrow.kept 4 = 3 ∧
      outcomes Sample.accepting (Sample.branch 0 10 none 4)
          (opened Sample.verifier Sample.accepting Sample.narrow {}) =
        List.replicate 4 (.ok .newPeak) ∧
      Covered Sample.narrow 0 10 4
        (offerAll Sample.accepting (Sample.branch 0 10 none 4)
          (opened Sample.verifier Sample.accepting Sample.narrow {})) :=
  ⟨rfl, covered_branch Sample.narrow Sample.verifier 0 10 4 (by decide) (by decide) (by decide)
    (by decide) {} rfl fun _ _ => rfl⟩

end Chain

end HeaderChain
