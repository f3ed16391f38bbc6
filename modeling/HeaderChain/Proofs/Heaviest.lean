import HeaderChain.Proofs.Canonical

/-!
# The heaviest chain, whatever the order of arrival

Collaborators that judge every block for itself accept the blocks of a tree in any order in which
each follows its parent. With nothing evicted and no call refused:

* `Chain.Gathered` — the state after such blocks: all of them are indexed, the peak is the first of
  the heaviest (`Heaviest`), and the chain is sound and rooted;
* `Chain.Gathered.offered` — one more block keeps that. No way through an offer is open but those
  that end in a new peak or in an orphan, since all parents are indexed;
* `Chain.heaviest_whatever_order` — the peak and its chain, and that two orders of the same blocks
  agree if one block is heavier than all others.
-/

namespace HeaderChain

/-- **Collaborators that judge every block for itself**: all blocks of the tree are valid to them,
and the record of each depends on the block alone. -/
structure Consensus.Steady (k : Consensus) (tree : BlockTree)
    (recordOf : HeaderBlock → BlockRecord) : Prop where
  adjust : ∀ constants first i {parent}, tree.Records parent →
    ∃ p, k.adjust constants first parent i = .ok p
  validate : ∀ constants i p {b}, tree.has b →
    ∃ iters, k.validate constants i b p = .ok (some iters)
  build : ∀ {constants i iters b}, tree.has b → k.build constants i iters b = .ok (recordOf b)
  copies : ∀ {b}, tree.has b → (recordOf b).Copies b
  findFork : k.findFork = Index.forkPoint

theorem Consensus.only_steady {blocks : List HeaderBlock}
    {hhash : ∀ a ∈ blocks, ∀ b ∈ blocks, a.hash = b.hash → a = b}
    {hheight : ∀ a ∈ blocks, ∀ b ∈ blocks, b.parent = a.hash →
      b.height.toNat = a.height.toNat + 1} :
    (Consensus.only blocks).Steady (.ofList blocks hhash hheight) Sample.record where
  adjust constants _ _ _ _ := ⟨constants.startingParameters, rfl⟩
  validate _ _ _ _ hb := ⟨Sample.requiredIters, congrArg Except.ok (if_pos hb)⟩
  build _ := rfl
  copies {b} _ := Sample.record_copies b
  findFork := rfl

/-- **An order of arrival**: blocks of the tree, none of them twice, and each but the first blocks
after its parent. -/
structure BlockTree.Arrival (tree : BlockTree) (blocks : List HeaderBlock) : Prop where
  has : ∀ b ∈ blocks, tree.has b
  nodup : blocks.Nodup
  parent : ∀ {pre b post}, blocks = pre ++ b :: post → b.height = 0 ∨ ∃ a ∈ pre, b.parent = a.hash

/-- **The first of the heaviest.** -/
def Heaviest (blocks : List HeaderBlock) (p : HeaderBlock) : Prop :=
  ∃ pre post, blocks = pre ++ p :: post ∧ (∀ x ∈ pre, x.weight < p.weight) ∧
    ∀ x ∈ post, x.weight ≤ p.weight

section Orders

variable {tree : BlockTree} {blocks blocks' : List HeaderBlock} {b p q : HeaderBlock}

namespace Heaviest

theorem mem (h : Heaviest blocks p) : p ∈ blocks := by
  obtain ⟨pre, post, rfl, -⟩ := h
  simp

theorem weight_le (h : Heaviest blocks p) {x : HeaderBlock} (hx : x ∈ blocks) :
    x.weight ≤ p.weight := by
  obtain ⟨pre, post, rfl, hpre, hpost⟩ := h
  rcases List.mem_append.mp hx with hx | hx
  · exact BitVec.le_of_lt (hpre x hx)
  · rcases List.mem_cons.mp hx with rfl | hx
    · exact BitVec.le_refl _
    · exact hpost x hx

/-- A block that is no heavier changes nothing. -/
theorem append_le (h : Heaviest blocks p) (hb : b.weight ≤ p.weight) :
    Heaviest (blocks ++ [b]) p := by
  obtain ⟨pre, post, rfl, hpre, hpost⟩ := h
  refine ⟨pre, post ++ [b], by simp, hpre, fun x hx => ?_⟩
  rcases List.mem_append.mp hx with hx | hx
  · exact hpost x hx
  · obtain rfl := List.mem_singleton.mp hx
    exact hb

/-- A block that is heavier than all before it takes the place. -/
theorem append_lt (hb : ∀ x ∈ blocks, x.weight < b.weight) : Heaviest (blocks ++ [b]) b :=
  ⟨blocks, [], rfl, hb, by simp⟩

/-- If one block is heavier than all others, it is the heaviest in every order. -/
theorem eq_of_unique (h : Heaviest blocks p) (hq : q ∈ blocks)
    (huniq : ∀ x ∈ blocks, x ≠ q → x.weight < q.weight) : p = q := by
  by_contra hne
  exact absurd (h.weight_le hq) (BitVec.not_le.mpr (huniq p h.mem hne))

end Heaviest

namespace BlockTree.Arrival

theorem of_append (h : tree.Arrival (blocks ++ [b])) : tree.Arrival blocks where
  has x hx := h.has x (List.mem_append_left _ hx)
  nodup := (List.nodup_append.mp h.nodup).1
  parent {pre x post} heq := by
    have heq' : blocks ++ [b] = pre ++ x :: (post ++ [b]) := by simp [heq]
    exact h.parent heq'

theorem nil : tree.Arrival [] := ⟨by simp, .nil, by simp⟩

/-- A block whose parent has arrived may come next. -/
theorem append (h : tree.Arrival blocks) (hb : tree.has b) (hnew : b ∉ blocks)
    (hparent : b.height = 0 ∨ ∃ a ∈ blocks, b.parent = a.hash) : tree.Arrival (blocks ++ [b]) where
  has x hx := by
    rcases List.mem_append.mp hx with hx | hx
    · exact h.has x hx
    · exact List.mem_singleton.mp hx ▸ hb
  nodup := List.nodup_append.mpr ⟨h.nodup, by simp, fun x hx y hy heq =>
    hnew (List.mem_singleton.mp hy ▸ heq ▸ hx)⟩
  parent {pre x post} heq := by
    -- the block is the last one, or the orders are cut at the same place
    rcases List.eq_nil_or_concat post with rfl | ⟨post, y, rfl⟩
    · obtain ⟨rfl, hx⟩ := List.append_inj' heq rfl
      obtain rfl : b = x := by simpa using hx
      exact hparent
    · have heq' : blocks ++ [b] = (pre ++ x :: post) ++ [y] := by simpa using heq
      exact h.parent (List.append_inj' heq' rfl).1

theorem last_has (h : tree.Arrival (blocks ++ [b])) : tree.has b := h.has b (by simp)

theorem last_new (h : tree.Arrival (blocks ++ [b])) : b ∉ blocks := fun hb =>
  (List.nodup_append.mp h.nodup).2.2 b hb b (by simp) rfl

/-- The parent of a block has arrived, if it has one. -/
theorem exists_parent (h : tree.Arrival blocks) (hb : b ∈ blocks) (hheight : b.height ≠ 0) :
    ∃ a ∈ blocks, b.parent = a.hash := by
  obtain ⟨pre, post, rfl⟩ := List.append_of_mem hb
  obtain ⟨a, ha, hlink⟩ := (h.parent rfl).resolve_left hheight
  exact ⟨a, List.mem_append_left _ ha, hlink⟩

theorem last_parent (h : tree.Arrival (blocks ++ [b])) (hheight : b.height ≠ 0) :
    ∃ a ∈ blocks, b.parent = a.hash :=
  (h.parent rfl).resolve_left hheight

end BlockTree.Arrival

end Orders

namespace Chain

open Procedure

variable {tree : BlockTree} {recordOf : HeaderBlock → BlockRecord} {k : Consensus}
  {blocks : List HeaderBlock} {b : HeaderBlock} {c m : Chain} {d : Disk} {cs : List Call}
  {r : BlockRecord}

/-- **What blocks come to** that were offered in turn. -/
structure Gathered (tree : BlockTree) (recordOf : HeaderBlock → BlockRecord)
    (blocks : List HeaderBlock) (c : Chain) : Prop where
  sound : c.Sound tree True
  /-- Nothing is ever evicted. -/
  retention : c.config.blockRetention = 0
  /-- Exactly these blocks are indexed. -/
  record? : ∀ x r, c.index.record? x = some r ↔ ∃ b ∈ blocks, b.hash = x ∧ recordOf b = r
  idle : c.peak? = none → blocks = []
  heaviest : ∀ peak, c.peak? = some peak → Heaviest blocks peak

theorem gathered_fresh {config : Config} (hc : config.blockRetention = 0) :
    Gathered tree recordOf [] (fresh config) where
  sound := sound_of_empty rfl rfl
  retention := hc
  record? x r := by
    have hempty : (fresh config).index.record? x = none := Index.record?_empty x
    simp [hempty]
  idle _ := rfl
  heaviest peak hp := by simp [fresh, peak?] at hp

/-- Where every record is kept, a new peak evicts nothing. -/
theorem adopted_of_retention (h : c.config.blockRetention = 0) (changedFrom : Height)
    (path : List BlockRecord) : c.adopted b r changedFrom path = { c with
      slots := { c.slots with peak := some b, latestTimestamp := latest c.latestTimestamp path }
      index := replaceFrom (c.index.add r) changedFrom path } := by
  simp [adopted, evicted, Config.floor?, Config.window?, h]

section Step

variable (hg : Gathered tree recordOf blocks c) (hk : k.Steady tree recordOf)
  (ha : tree.Arrival (blocks ++ [b]))

include hg hk ha

/-- Every known block has its parent indexed. -/
theorem Gathered.closed : c.index.Closed := by
  intro x r hr hheight
  obtain ⟨y, hy, -, rfl⟩ := (hg.record? x r).mp hr
  have hcopies := hk.copies (ha.of_append.has y hy)
  obtain ⟨z, hz, hlink⟩ := ha.of_append.exists_parent hy (hcopies.height ▸ hheight)
  exact ⟨recordOf z, (hg.record? _ _).mpr ⟨z, hz, by rw [hcopies.parent, hlink], rfl⟩⟩

/-- The parent of the next block is indexed. -/
theorem Gathered.rests : c.index.Rests (recordOf b) := by
  intro hheight
  have hcopies := hk.copies ha.last_has
  obtain ⟨z, hz, hlink⟩ := ha.last_parent (hcopies.height ▸ hheight)
  exact ⟨recordOf z, (hg.record? _ _).mpr ⟨z, hz, by rw [hcopies.parent, hlink], rfl⟩⟩

omit hk in
/-- The next block is not known yet. -/
theorem Gathered.contains_eq_false : c.index.contains b.hash = false := by
  by_contra hknown
  -- a block of the same hash has arrived, and so the block itself
  obtain ⟨r, hr⟩ := Index.contains_iff.mp (eq_true_of_ne_false hknown)
  obtain ⟨y, hy, hhash, -⟩ := (hg.record? _ r).mp hr
  have heq := tree.eq_of_hash (ha.of_append.has y hy) ha.last_has hhash
  exact ha.last_new (heq ▸ hy)

theorem Gathered.parameters?_ok : ∃ p, c.parameters? k b = .ok (some p) := by
  unfold parameters?
  by_cases hheight : b.height = 0
  · exact ⟨_, if_pos hheight⟩
  · obtain ⟨z, hz, hlink⟩ := ha.last_parent hheight
    have hhas := ha.of_append.has z hz
    have hparent : c.index.record? b.parent = some (recordOf z) :=
      (hg.record? _ _).mpr ⟨z, hz, hlink.symm, rfl⟩
    obtain ⟨p, hp⟩ := hk.adjust c.config.constants b.firstInSubSlot c.index
      ⟨z, hhas, hk.copies hhas⟩
    exact ⟨p, by simp [hheight, hparent, hp, Except.map]⟩

/-- The next block has a place. -/
theorem Gathered.standing?_ok : ∃ choice, c.standing? k (recordOf b) = .ok choice := by
  unfold standing? peakRecord
  cases hp : c.peak? with
  | none => exact ⟨.firstPeak, rfl⟩
  | some peak =>
    have hmem := (hg.heaviest peak hp).mem
    have hhas := ha.of_append.has peak hmem
    -- the peak is one of the blocks gathered, and its ancestors with it: no look-up can fail
    have hrecord := (hg.record? _ _).mpr ⟨peak, hmem, rfl, rfl⟩
    simp only [Index.record_eq_ok.mpr hrecord, Except.map, Except.bind, Choice.of, hk.findFork]
    split_ifs
    · exact ⟨_, rfl⟩
    · obtain ⟨f, hf⟩ := (hg.closed hk ha).forkPoint_ok hg.sound.within
        ⟨b, ha.last_has, hk.copies ha.last_has⟩ (hg.rests hk ha) ⟨peak, hhas, hk.copies hhas⟩
        fun hheight => (hg.closed hk ha) _ _ hrecord hheight
      exact ⟨.reorganise f, by simp [hf]⟩
    · exact ⟨_, rfl⟩

/-- The index with the record of the next block holds what it should. -/
theorem Gathered.record?_add (x : Hash) (r : BlockRecord) :
    (c.index.add (recordOf b)).record? x = some r ↔
      ∃ y ∈ blocks ++ [b], y.hash = x ∧ recordOf y = r := by
  rw [Index.record?_add, (hk.copies ha.last_has).hash]
  -- under the hash of the new block lies its record, since no other block has that hash
  split_ifs with hx
  · constructor
    · rintro hr
      exact ⟨b, by simp, hx, Option.some.inj hr⟩
    · rintro ⟨y, hy, hyx, rfl⟩
      rw [tree.eq_of_hash (ha.has y hy) ha.last_has (hyx.trans hx.symm)]
  · rw [hg.record? x r]
    constructor
    · rintro ⟨y, hy, hyx, hyr⟩
      exact ⟨y, List.mem_append_left _ hy, hyx, hyr⟩
    · rintro ⟨y, hy, hyx, hyr⟩
      rcases List.mem_append.mp hy with hy | hy
      · exact ⟨y, hy, hyx, hyr⟩
      · exact absurd (List.mem_singleton.mp hy ▸ hyx) hx

omit ha in
/-- A place beside the canonical chain is given to a block that is no heavier than the peak. -/
theorem Gathered.orphan_le (hb : tree.has b) (ha' : tree.Arrival blocks) {choice : Choice}
    (hs : c.standing? k (recordOf b) = .ok choice)
    (hc : choice.changedFrom? (recordOf b).height = none) :
    ∃ peak, c.peak? = some peak ∧ b.weight ≤ peak.weight := by
  rcases standing?_eq_ok hs with ⟨-, rfl⟩ | ⟨peak, p, hp, hpr, hof⟩
  · cases hc
  · have hpc := hg.sound.within.copies (ha'.has peak (hg.heaviest peak hp).mem) hpr
    have hle := Choice.of_unchanged hof hc
    rw [hpc.weight, (hk.copies hb).weight] at hle
    exact ⟨peak, hp, hle⟩

omit ha in
/-- A new peak is heavier than all that came before. -/
theorem Gathered.newPeak_lt (hb : tree.has b) (ha' : tree.Arrival blocks) {choice : Choice}
    {changedFrom : Height} (hs : c.standing? k (recordOf b) = .ok choice)
    (hc : choice.changedFrom? (recordOf b).height = some changedFrom) {x : HeaderBlock}
    (hx : x ∈ blocks) : x.weight < b.weight := by
  rcases standing?_eq_ok hs with ⟨hp, -⟩ | ⟨peak, p, hp, hpr, hof⟩
  · simp [hg.idle hp] at hx
  · have hheaviest := hg.heaviest peak hp
    have hpc := hg.sound.within.copies (ha'.has peak hheaviest.mem) hpr
    have hlt := (Choice.of_changedFrom hof hc).1
    rw [hpc.weight, (hk.copies hb).weight] at hlt
    have hle := BitVec.le_def.mp (hheaviest.weight_le hx)
    exact BitVec.lt_def.mpr (Nat.lt_of_le_of_lt hle (BitVec.lt_def.mp hlt))

omit hg ha in
/-- The only record of a valid block is its own. -/
theorem Validated.eq_recordOf (hb : tree.has b) (hr : Validated k b c r) : r = recordOf b := by
  obtain ⟨p, iters, -, -, hbuild⟩ := hr.valid
  exact Except.ok.inj (hbuild.symm.trans (hk.build hb))

/-- **One more block** is gathered with the others. -/
theorem Gathered.offered (hd : d.Serves) {a : Except ChainError Outcome}
    (h : Offered k b c d a m cs) : Gathered tree recordOf (blocks ++ [b]) m := by
  have hb := ha.last_has
  have hcopies := hk.copies hb
  obtain ⟨p, hp⟩ := hg.parameters?_ok hk ha
  have hnew := hg.contains_eq_false ha
  -- all but the last two ways through the offer are closed
  cases h with
  | known hknown => exact absurd (hknown.symm.trans hnew) (by simp)
  | disconnected _ hp' => cases hp.symm.trans hp'
  | unadjusted _ hp' => cases hp.symm.trans hp'
  | invalid _ hp' hv =>
    obtain ⟨iters, hvalid⟩ := hk.validate c.config.constants c.index p hb
    cases hp.symm.trans hp'
    simp [verdict, hvalid] at hv
  | unbuilt _ _ _ hbuild => cases (hk.build hb).symm.trans hbuild
  | unresolved hr hs =>
    obtain rfl := hr.eq_recordOf hk hb
    obtain ⟨choice, hs'⟩ := hg.standing?_ok hk ha
    cases hs'.symm.trans hs
  | pathless hr _ _ hpath =>
    obtain rfl := hr.eq_recordOf hk hb
    obtain ⟨path, hpath'⟩ := (hg.closed hk ha).pathDown_ok hg.sound.within _ ⟨b, hb, hcopies⟩
      (hg.rests hk ha)
    cases hpath'.symm.trans hpath
  | refused _ _ _ _ hrefused => cases (hd.refusal? _).symm.trans hrefused
  -- a lighter block joins those gathered, and the peak stays the heaviest
  | orphan hr hs hc =>
    obtain rfl := hr.eq_recordOf hk hb
    obtain ⟨peak, hpeak, hle⟩ := hg.orphan_le hk hb ha.of_append hs hc
    refine ⟨hg.sound.kept ⟨b, hb, hcopies⟩ (by simp [hpeak]), hg.retention, hg.record?_add hk ha,
      fun hnone => ?_, fun now hnow => ?_⟩
    · exact absurd (hpeak.symm.trans hnone) (by simp)
    · obtain rfl := Option.some.inj (hpeak.symm.trans hnow)
      exact (hg.heaviest peak hpeak).append_le hle
  -- a block that wins outweighs the old peak, and so all others
  | newPeak hr hs hc hpath =>
    obtain rfl := hr.eq_recordOf hk hb
    have hroot : c.peak? = none → b.height = 0 :=
      fun hnone => hr.height_eq_zero (hg.sound.idle hnone).1
    have hsound := hg.sound.adopted hk.findFork hb hcopies hroot hs hc hpath
    refine ⟨hsound, ?_, fun x r => ?_, fun hnone => ?_, fun peak hpeak => ?_⟩
    · rw [adopted_of_retention hg.retention]
      exact hg.retention
    · rw [adopted_of_retention hg.retention]
      simpa using hg.record?_add hk ha x r
    · simp at hnone
    · obtain rfl : b = peak := by simpa using hpeak
      exact .append_lt fun x hx => hg.newPeak_lt hk hb ha.of_append hs hc hx

end Step

/-- **Blocks in any order of arrival** are gathered. -/
theorem gathered_offerAll (hk : k.Steady tree recordOf) {s : Session Chain} {config : Config}
    (hs : s.memory = fresh config) (hc : config.blockRetention = 0) (hd : s.disk.Serves)
    (ha : tree.Arrival blocks) :
    Gathered tree recordOf blocks (offerAll k blocks s).memory ∧
      (offerAll k blocks s).disk.Serves := by
  induction blocks using List.reverseRecOn with
  | nil => exact ⟨hs ▸ gathered_fresh hc, hd⟩
  | append_singleton blocks b ih =>
    obtain ⟨hg, hserves⟩ := ih ha.of_append
    obtain ⟨a, m, cs, hgives, hoffered⟩ := offer_cases k b (offerAll k blocks s)
    rw [offerAll_append_singleton, hgives.memory, hgives.disk]
    exact ⟨hg.offered hk ha hserves hoffered, hserves.serveAll cs⟩

/-- If one block is heavier than all others, it is the peak. -/
theorem Gathered.peak_of_unique (hg : Gathered tree recordOf blocks c) {p : HeaderBlock}
    (hp : p ∈ blocks) (huniq : ∀ x ∈ blocks, x ≠ p → x.weight < p.weight) : c.peak? = some p := by
  cases hpeak : c.peak? with
  | none => simp [hg.idle hpeak] at hp
  | some peak => rw [(hg.heaviest peak hpeak).eq_of_unique hp huniq]

/-- One peak, one canonical map: there is only one way down to a first block. -/
theorem Gathered.canonical_eq {blocks' : List HeaderBlock} {c' : Chain}
    (hg : Gathered tree recordOf blocks c) (hg' : Gathered tree recordOf blocks' c')
    {p : HeaderBlock} (hp : c.peak? = some p) (hp' : c'.peak? = some p) :
    c.index.canonical = c'.index.canonical := by
  obtain ⟨l, low, hl, hspine, hlow⟩ := hg.sound.spine p hp
  obtain ⟨l', low', hl', hspine', hlow'⟩ := hg'.sound.spine p hp'
  -- both go down to height zero, so each is the start of the other
  have hle : low'.height ≤ low.height := by simp [hlow' trivial]
  have hle' : low.height ≤ low'.height := by simp [hlow trivial]
  obtain rfl : l = l' :=
    (hl.isPrefix hl' hle).eq_of_length_le (hl'.isPrefix hl hle').length_le
  exact hspine.canonical_eq hspine'

end Chain

end HeaderChain
