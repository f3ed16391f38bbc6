import HeaderChain.Proofs.Canonical

/-!
# Which records of the window below the peak are kept

A new peak evicts what lies more than a window below it. The peak may stand lower later on, and what
was evicted below the higher one does not come back. So which records of the window are kept is a
matter of the past:

* `Chain.Grown` — the sessions that come about by offering blocks to a fresh chain, with the blocks
  that were indexed on the way and whether each became the peak, the latest first;
* `Kept` — since a block was indexed no peak stood more than the window above it;
* `Chain.Grown.windowComplete_iff` — the window below the peak is complete exactly if all its
  canonical blocks are kept in this sense, which they are if no peak stood higher before;
* `Chain.window_not_complete` — a chain that moves its peak down loses a record of the window.
-/

namespace HeaderChain

/-- What was indexed, the latest first, and whether it became the peak. -/
abbrev Past := List (HeaderBlock × Bool)

/-- **A block is kept** if it was indexed and no peak since has stood more than the window above
it. -/
def Kept (w : UInt32) (past : Past) (x : HeaderBlock) : Prop :=
  ∃ later peaked earlier, past = later ++ (x, peaked) :: earlier ∧
    ∀ e ∈ later, e.2 = true → e.1.height.toNat ≤ x.height.toNat + w.toNat

section Past

variable {w : UInt32} {past : Past} {b x : HeaderBlock} {peaked : Bool}

theorem not_kept_nil : ¬Kept w [] x := by
  rintro ⟨later, peaked, earlier, heq, -⟩
  simp at heq

/-- One more block is kept, and of the others those that it leaves in its window. -/
theorem kept_cons : Kept w ((b, peaked) :: past) x ↔
    x = b ∨ Kept w past x ∧
      (peaked = true → b.height.toNat ≤ x.height.toNat + w.toNat) := by
  constructor
  · rintro ⟨later, flag, earlier, heq, hlater⟩
    -- the block itself was indexed last, or it was among those before
    cases later with
    | nil =>
      simp only [List.nil_append, List.cons.injEq, Prod.mk.injEq] at heq
      exact .inl heq.1.1.symm
    | cons e later =>
      simp only [List.cons_append, List.cons.injEq] at heq
      obtain ⟨rfl, rfl⟩ := heq
      exact .inr ⟨⟨later, flag, earlier, rfl, fun e he => hlater e (List.mem_cons_of_mem _ he)⟩,
        hlater _ List.mem_cons_self⟩
  · rintro (rfl | ⟨⟨later, flag, earlier, rfl, hlater⟩, hpeak⟩)
    · exact ⟨[], peaked, past, rfl, by simp⟩
    · refine ⟨(b, peaked) :: later, flag, earlier, rfl, fun e he => ?_⟩
      rcases List.mem_cons.mp he with rfl | he
      · exact hpeak
      · exact hlater e he

/-- What was indexed is kept if no peak ever stood more than the window above it. -/
theorem kept_of_mem (hx : (x, peaked) ∈ past)
    (hpeaks : ∀ e ∈ past, e.2 = true → e.1.height.toNat ≤ x.height.toNat + w.toNat) :
    Kept w past x := by
  obtain ⟨later, earlier, rfl⟩ := List.append_of_mem hx
  exact ⟨later, peaked, earlier, rfl, fun e he => hpeaks e (List.mem_append_left _ he)⟩

end Past

/-! ### The floor -/

theorem Config.floor?_eq_none {config : Config} {w : UInt32} {peak : Height}
    (hw : config.window? = some w) (h : config.floor? peak = none) :
    peak.toNat ≤ w.toNat := by
  unfold floor? at h
  rw [hw] at h
  dsimp only at h
  split at h
  next => cases h
  next hle => exact UInt32.le_iff_toNat_le.mp (UInt32.not_lt.mp hle)

/-- A height is not below the floor exactly if it lies in the window. -/
theorem Config.floor?_le {config : Config} {w : UInt32} {peak floor h : Height}
    (hw : config.window? = some w) (hf : config.floor? peak = some floor) :
    floor ≤ h ↔ peak.toNat ≤ h.toNat + w.toNat := by
  unfold floor? at hf
  rw [hw] at hf
  dsimp only at hf
  split at hf
  next hlt =>
    cases hf
    have hle := UInt32.toNat_sub_of_le _ _ (UInt32.le_of_lt hlt)
    rw [UInt32.le_iff_toNat_le, hle]
    omega
  next => cases hf

/-! ### A narrow window -/

namespace Sample

/-- Four blocks in a row. -/
def tall : List HeaderBlock := branch 0 10 none 4

/-- The last of them. -/
def summit : HeaderBlock := next 0 10 tall[2]?

/-- A block beside the third of them, heavier than all. -/
def lower : HeaderBlock := next 1 30 tall[1]?

/-- The row and the block beside it. -/
def lowered : List HeaderBlock := tall ++ [lower]

/-- The tree of the row and the block beside it. -/
def loweredTree : BlockTree := .ofList lowered (by decide +kernel) (by decide +kernel)

/-- A configuration with a window of two heights. -/
def narrow : Config where
  constants := { epochBlocks := 1, subEpochBlocks := 1 }
  blockRetention := 1

end Sample

namespace Chain

open Procedure

variable {tree : BlockTree} {consensus : Consensus} {config : Config} {w : UInt32} {past : Past}
  {c m : Chain} {d : Disk} {cs : List Call} {b x : HeaderBlock} {r : BlockRecord}

/-- **The sessions that come about by offering blocks** to a fresh chain on any store, with what was
indexed on the way. -/
inductive Grown (tree : BlockTree) (config : Config) : Past → Session Chain → Prop
  | fresh {disk : Disk} {journal : List Entry} : Grown tree config [] ⟨fresh config, disk, journal⟩
  | peaked {consensus : Consensus} {past : Past} {s : Session Chain} {b : HeaderBlock}
    (hs : Grown tree config past s) (hk : consensus.Obeys tree)
    (h : (offer consensus b).result s = .ok .newPeak) :
    Grown tree config ((b, true) :: past) ((offer consensus b).after s)
  | joined {consensus : Consensus} {past : Past} {s : Session Chain} {b : HeaderBlock}
    (hs : Grown tree config past s) (hk : consensus.Obeys tree)
    (h : (offer consensus b).result s ≠ .ok .newPeak)
    (hnew : s.memory.index.contains b.hash = false)
    (hin : ((offer consensus b).after s).memory.index.contains b.hash = true) :
    Grown tree config ((b, false) :: past) ((offer consensus b).after s)
  /-- The block was known, or it is not indexed. -/
  | passed {consensus : Consensus} {past : Past} {s : Session Chain} {b : HeaderBlock}
    (hs : Grown tree config past s) (hk : consensus.Obeys tree)
    (h : (offer consensus b).result s ≠ .ok .newPeak)
    (hout : s.memory.index.contains b.hash = true ∨
      ((offer consensus b).after s).memory.index.contains b.hash = false) :
    Grown tree config past ((offer consensus b).after s)

/-- **What a chain remembers** of what was indexed. -/
structure Remembers (tree : BlockTree) (w : UInt32) (past : Past) (c : Chain) : Prop where
  sound : c.Sound tree True
  filed : c.index.Filed
  window : c.config.window? = some w
  has : ∀ e ∈ past, tree.has e.1
  /-- Exactly the blocks that are kept are indexed. -/
  contains : ∀ x, tree.has x → (c.index.contains x.hash = true ↔ Kept w past x)
  /-- What is canonical was indexed once. -/
  canonical : ∀ h x, c.index.hashAt? h = some x → ∃ e ∈ past, e.1.hash = x

theorem remembers_fresh (hw : config.window? = some w) :
    Remembers tree w [] (fresh config) where
  sound := sound_of_empty rfl rfl
  filed := Index.filed_empty
  window := hw
  has := by simp
  contains x _ := by
    have hempty : (fresh config).index.record? x.hash = none := Index.record?_empty x.hash
    simp [Index.contains, hempty, not_kept_nil]
  canonical h x hx := by
    have hempty : (fresh config).index.hashAt? h = none := Index.hashAt?_empty h
    simp [hempty] at hx

theorem contains_add {i : Index} {y : Hash} :
    (i.add r).contains y = true ↔ r.hash = y ∨ i.contains y = true := by
  simp only [Index.contains, Index.record?_add]
  by_cases hy : r.hash = y <;> simp [hy]

/-- A block that is kept beside the canonical ones. -/
theorem Remembers.kept (hc : Remembers tree w past c) (hb : tree.has b) (hr : r.Copies b)
    (hs : (c.kept r).Sound tree True) :
    Remembers tree w ((b, false) :: past) (c.kept r) where
  sound := hs
  filed := hc.sound.within.filed_add hc.filed ⟨b, hb, hr⟩
  window := hc.window
  has e he := by
    rcases List.mem_cons.mp he with rfl | he
    · exact hb
    · exact hc.has e he
  -- nothing is evicted where the peak stays: what is known is known, and the new block
  contains x hx := by
    rw [Chain.kept, contains_add, kept_cons, hc.contains x hx, hr.hash]
    have hsame : b.hash = x.hash ↔ x = b :=
      ⟨fun h => (tree.eq_of_hash hb hx h).symm, fun h => h ▸ rfl⟩
    simp [hsame]
  canonical h x hx := by
    obtain ⟨e, he, hex⟩ := hc.canonical h x hx
    exact ⟨e, List.mem_cons_of_mem _ he, hex⟩

@[simp] theorem config_evicted (h : Height) : (c.evicted h).config = c.config := by
  unfold evicted
  split <;> rfl

/-- **A new peak keeps the records of its window.** -/
theorem record?_evicted (hf : c.index.Filed) (hw : c.config.window? = some w) (h : Height)
    (y : Hash) : (c.evicted h).index.record? y =
      (c.index.record? y).filter fun r => h.toNat ≤ r.height.toNat + w.toNat := by
  unfold evicted
  cases hfloor : c.config.floor? h with
  | none =>
    -- no floor means that the height is within the window of zero
    have hle := Config.floor?_eq_none hw hfloor
    cases hr : c.index.record? y with
    | none => simp
    | some r =>
      have : h.toNat ≤ r.height.toNat + w.toNat := by omega
      simp [Option.filter, this]
  | some floor =>
    change (c.index.pruneBelow floor).1.record? y = _
    rw [Index.record?_pruneBelow hf]
    simp only [Config.floor?_le hw hfloor]

/-- The buckets stay true while a block becomes the peak. -/
theorem Remembers.filed_replaceFrom (hc : Remembers tree w past c) (hr : tree.Records r)
    (k : Height) (path : List BlockRecord) : (replaceFrom (c.index.add r) k path).Filed :=
  Index.filed_congr Index.buckets_replaceFrom.symm Index.record?_replaceFrom.symm
    (hc.sound.within.filed_add hc.filed hr)

/-- **What is indexed under a new peak** is what was indexed before, and its own record, as far as
the window reaches down. -/
theorem Remembers.record?_adopted (hc : Remembers tree w past c) (hr : tree.Records r) (k : Height)
    (path : List BlockRecord) (y : Hash) : (c.adopted b r k path).index.record? y =
      ((c.index.add r).record? y).filter fun s => r.height.toNat ≤ s.height.toNat + w.toNat := by
  have hevicted := record?_evicted (c := { c with
    slots := { c.slots with peak := some b, latestTimestamp := latest c.latestTimestamp path }
    index := replaceFrom (c.index.add r) k path })
    (hc.filed_replaceFrom hr k path) hc.window r.height y
  rwa [Index.record?_replaceFrom] at hevicted

/-- A block is indexed under a new peak if it is that peak, or was indexed and is in its window. -/
theorem Remembers.contains_adopted (hc : Remembers tree w past c) (hb : tree.has b)
    (hr : r.Copies b) (k : Height) (path : List BlockRecord) (hx : tree.has x) :
    (c.adopted b r k path).index.contains x.hash = true ↔
      x = b ∨ c.index.contains x.hash = true ∧ b.height.toNat ≤ x.height.toNat + w.toNat := by
  have hwithin := hc.sound.within.add ⟨b, hb, hr⟩
  have hadd : (c.index.add r).contains x.hash = true ↔ x = b ∨ c.index.contains x.hash = true := by
    rw [contains_add, hr.hash]
    exact or_congr_left ⟨fun h => (tree.eq_of_hash hb hx h).symm, fun h => h ▸ rfl⟩
  -- by its height a record is in the window exactly if its block is
  rw [Index.contains_iff]
  simp only [hc.record?_adopted ⟨b, hb, hr⟩, Option.filter_eq_some_iff, decide_eq_true_eq]
  constructor
  · rintro ⟨s, hs, hheight⟩
    rw [(hwithin.copies hx hs).height, hr.height] at hheight
    exact (hadd.mp (Index.contains_iff.mpr ⟨s, hs⟩)).imp_right fun hold => ⟨hold, hheight⟩
  · intro h
    obtain ⟨s, hs⟩ := Index.contains_iff.mp (hadd.mpr (h.imp_right And.left))
    refine ⟨s, hs, ?_⟩
    rw [(hwithin.copies hx hs).height, hr.height]
    rcases h with rfl | ⟨-, hheight⟩
    · exact Nat.le_add_right _ _
    · exact hheight

/-- A block that becomes the peak. -/
theorem Remembers.adopted (hc : Remembers tree w past c) (hb : tree.has b) (hr : r.Copies b)
    {k : Height} {path : List BlockRecord} (hpath : c.index.pathDown k r = .ok path)
    (hs : (c.adopted b r k path).Sound tree True) :
    Remembers tree w ((b, true) :: past) (c.adopted b r k path) where
  sound := hs
  filed := by
    have hfiled := hc.filed_replaceFrom ⟨b, hb, hr⟩ k path
    unfold Chain.adopted Chain.evicted
    split
    · exact hfiled
    · exact hfiled.pruneBelow _
  window := by
    rw [Chain.adopted, config_evicted]
    exact hc.window
  has e he := by
    rcases List.mem_cons.mp he with rfl | he
    · exact hb
    · exact hc.has e he
  contains x hx := by
    rw [kept_cons, ← hc.contains x hx, hc.contains_adopted hb hr k path hx]
    simp
  canonical h y hy := by
    have hy' : (replaceFrom (c.index.add r) k path).hashAt? h = some y := by
      rwa [Index.hashAt?, Chain.adopted, canonical_evicted] at hy
    -- a canonical hash comes from the path down, or was canonical before
    rcases Index.mem_of_hashAt?_replaceFrom hy' with ⟨s, hs, rfl⟩ | hy
    · rcases (Index.walk_of_walkDown hpath).mem hs with rfl | ⟨z, hz⟩
      · exact ⟨(b, true), List.mem_cons_self, hr.hash.symm⟩
      · -- a known block was indexed once
        obtain ⟨hhash, a, ha, hsa⟩ := hc.sound.within _ _ hz
        have hknown : c.index.contains a.hash = true :=
          Index.contains_iff.mpr ⟨s, by rw [← hsa.hash, hhash, hz]⟩
        obtain ⟨later, flag, earlier, rfl, -⟩ := (hc.contains a ha).mp hknown
        exact ⟨(a, flag), by simp, hsa.hash.symm⟩
    · obtain ⟨e, he, hey⟩ := hc.canonical h y hy
      exact ⟨e, List.mem_cons_of_mem _ he, hey⟩

/-! ### What offers remember -/

/-- A block that becomes the peak is indexed. -/
theorem Remembers.contains_self {peaked : Bool} (hc : Remembers tree w ((b, peaked) :: past) c) :
    c.index.contains b.hash = true :=
  (hc.contains b (hc.has _ List.mem_cons_self)).mpr (kept_cons.mpr (.inl rfl))

/-- **One more block** is remembered as it was received. -/
theorem Remembers.offered (hc : Remembers tree w past c) (hk : consensus.Obeys tree)
    {a : Except ChainError Outcome} (h : Offered consensus b c d a m cs) :
    a = .ok .newPeak ∧ Remembers tree w ((b, true) :: past) m ∨
      a ≠ .ok .newPeak ∧ (m = c ∨
        c.index.contains b.hash = false ∧ Remembers tree w ((b, false) :: past) m) := by
  have hsound := hc.sound.offered hk h
  cases h with
  | known | disconnected | unadjusted | invalid | unbuilt | pathless | refused =>
    exact .inr ⟨by simp, .inl rfl⟩
  | unresolved hr | orphan hr =>
    obtain ⟨hb, hcopies⟩ := hr.copies hk
    exact .inr ⟨by simp, .inr ⟨hr.fresh, hc.kept hb hcopies hsound⟩⟩
  | newPeak hr _ _ hpath =>
    obtain ⟨hb, hcopies⟩ := hr.copies hk
    exact .inl ⟨rfl, hc.adopted hb hcopies hpath hsound⟩

theorem Grown.remembers (hw : config.window? = some w) {s : Session Chain}
    (h : Grown tree config past s) : Remembers tree w past s.memory := by
  -- the run says how each block ended, which leaves one of the ways that offering it can go
  induction h with
  | fresh => exact remembers_fresh hw
  | @peaked consensus past s b hs hk h ih =>
    obtain ⟨a, m, cs, hgives, hoffered⟩ := offer_cases consensus b s
    rw [hgives.memory]
    rcases ih.offered hk hoffered with ⟨-, hm⟩ | ⟨ha, -⟩
    · exact hm
    · exact absurd (hgives.result.symm.trans h) ha
  | @joined consensus past s b hs hk h hnew hin ih =>
    obtain ⟨a, m, cs, hgives, hoffered⟩ := offer_cases consensus b s
    rw [hgives.memory] at hin ⊢
    rcases ih.offered hk hoffered with ⟨ha, -⟩ | ⟨-, rfl | ⟨-, hm⟩⟩
    · exact absurd (hgives.result.trans ha) h
    · exact absurd (hnew.symm.trans hin) (by simp)
    · exact hm
  | @passed consensus past s b hs hk h hout ih =>
    obtain ⟨a, m, cs, hgives, hoffered⟩ := offer_cases consensus b s
    rw [hgives.memory] at hout ⊢
    rcases ih.offered hk hoffered with ⟨ha, -⟩ | ⟨-, rfl | ⟨hnew, hm⟩⟩
    · exact absurd (hgives.result.trans ha) h
    · exact ih
    · -- a block that was passed over was known before, or is not known now
      rcases hout with hold | hout
      · exact absurd (hnew.symm.trans hold) (by simp)
      · exact absurd (hm.contains_self.symm.trans hout) (by simp)

/-! ### The window -/

/-- Whatever is offered, something is remembered, and nothing else than what was offered. -/
theorem Grown.exists_offerAll {s : Session Chain} (hs : Grown tree config past s)
    (hk : consensus.Obeys tree) (blocks : List HeaderBlock) :
    ∃ past', Grown tree config past' (offerAll consensus blocks s) ∧
      ∀ e ∈ past', e ∈ past ∨ e.1 ∈ blocks := by
  induction blocks generalizing past s with
  | nil => exact ⟨past, hs, fun e he => .inl he⟩
  | cons b blocks ih =>
    -- the block comes on top of what is remembered, or is not
    have hrest : ∀ {past'}, Grown tree config past' ((offer consensus b).after s) →
        (∀ e ∈ past', e ∈ past ∨ e.1 = b) →
        ∃ past', Grown tree config past' (offerAll consensus (b :: blocks) s) ∧
          ∀ e ∈ past', e ∈ past ∨ e.1 ∈ b :: blocks := by
      intro past' hgrown hpast'
      obtain ⟨past'', hgrown', hpast''⟩ := ih hgrown
      refine ⟨past'', hgrown', fun e he => ?_⟩
      rcases hpast'' e he with he | he
      · rcases hpast' e he with he | rfl
        · exact .inl he
        · exact .inr List.mem_cons_self
      · exact .inr (List.mem_cons_of_mem b he)
    have hon : ∀ {flag : Bool}, ∀ e ∈ (b, flag) :: past, e ∈ past ∨ e.1 = b := by
      intro flag e he
      rcases List.mem_cons.mp he with rfl | he
      · exact .inr rfl
      · exact .inl he
    -- how the block is remembered goes by what became of it
    by_cases hpeak : (offer consensus b).result s = .ok .newPeak
    · exact hrest (hs.peaked hk hpeak) hon
    · cases hold : s.memory.index.contains b.hash with
      | true => exact hrest (hs.passed hk hpeak (.inl hold)) fun e he => .inl he
      | false =>
        cases hin : ((offer consensus b).after s).memory.index.contains b.hash with
        | true => exact hrest (hs.joined hk hpeak hold hin) hon
        | false => exact hrest (hs.passed hk hpeak (.inr hin)) fun e he => .inl he

/-- **The window below the peak is complete**: at each of its heights there is a canonical block,
and its record is indexed. -/
def WindowComplete (c : Chain) (w : UInt32) (peak : HeaderBlock) : Prop :=
  ∀ h : Height, h ≤ peak.height → peak.height.toNat ≤ h.toNat + w.toNat →
    ∃ x r, c.index.hashAt? h = some x ∧ c.index.record? x = some r

/-- **When the window is complete**: exactly if no canonical block in it was left more than a window
below a peak since it was last indexed. So it is as long as no peak stood higher than the one there
is now, and above the window. -/
theorem Grown.windowComplete_iff (hw : config.window? = some w) {s : Session Chain}
    (h : Grown tree config past s) {peak : HeaderBlock} (hp : s.memory.peak? = some peak) :
    (s.memory.WindowComplete w peak ↔ ∀ y, tree.has y →
      s.memory.index.hashAt? y.height = some y.hash →
        peak.height.toNat ≤ y.height.toNat + w.toNat → Kept w past y) ∧
    ((∀ e ∈ past, e.2 = true → e.1.height.toNat ≤ max peak.height.toNat w.toNat) →
      s.memory.WindowComplete w peak) := by
  have hc := h.remembers hw
  obtain ⟨l, low, hl, hspine, hlow⟩ := hc.sound.spine peak hp
  have hiff : s.memory.WindowComplete w peak ↔ ∀ y, tree.has y →
      s.memory.index.hashAt? y.height = some y.hash →
        peak.height.toNat ≤ y.height.toNat + w.toNat → Kept w past y := by
    constructor
    · -- the canonical block at the height of a canonical block is that block
      intro hcomplete y hy hcanonical hwindow
      obtain ⟨z, hz, hzh, hzx⟩ := (hspine _ _).mp hcanonical
      obtain ⟨x, r, hx, hr⟩ := hcomplete y.height (hzh ▸ hl.height_le hz) hwindow
      obtain rfl : y.hash = x := Option.some.inj (hcanonical.symm.trans hx)
      exact (hc.contains y hy).mp (Index.contains_iff.mpr ⟨r, hr⟩)
    · intro hkept h hle hwindow
      -- the chain goes down to height zero, so there is a canonical block
      obtain ⟨y, hy, rfl⟩ := hl.exists_height (by simp [hlow trivial]) hle
      have hcanonical := (hspine y.height y.hash).mpr ⟨y, hy, rfl, rfl⟩
      have hyt := hl.has_of_mem hy
      obtain ⟨r, hr⟩ := Index.contains_iff.mp
        ((hc.contains y hyt).mpr (hkept y hyt hcanonical hwindow))
      exact ⟨y.hash, r, hcanonical, hr⟩
  refine ⟨hiff, fun hpeaks => hiff.mpr fun y hy hcanonical hwindow => ?_⟩
  -- no peak since then, nor before, was too high for the block
  obtain ⟨⟨z, flag⟩, hz, hzy⟩ := hc.canonical _ _ hcanonical
  obtain rfl : z = y := tree.eq_of_hash (hc.has _ hz) hy hzy
  refine kept_of_mem hz fun e he hpeaked => ?_
  have := hpeaks e he hpeaked
  omega

set_option maxRecDepth 8000 in
/-- The fourth block of a row evicts the first one, and the window of two heights below it is
complete. -/
theorem windowComplete_tall :
    ∃ past, Grown Sample.loweredTree Sample.narrow past
        (offerAll (.only Sample.lowered) Sample.tall ⟨fresh Sample.narrow, {}, []⟩) ∧
      (offerAll (.only Sample.lowered) Sample.tall
        ⟨fresh Sample.narrow, {}, []⟩).memory.peak? = some Sample.summit ∧
      (offerAll (.only Sample.lowered) Sample.tall
        ⟨fresh Sample.narrow, {}, []⟩).memory.index.record? (Sample.blockHash 0 0) = none ∧
      (offerAll (.only Sample.lowered) Sample.tall
        ⟨fresh Sample.narrow, {}, []⟩).memory.WindowComplete 2 Sample.summit := by
  have hw : Sample.narrow.window? = some 2 := by decide +kernel
  have hstate : (fun c : Chain => (c.peak?, c.index.record? (Sample.blockHash 0 0)))
      (offerAll (.only Sample.lowered) Sample.tall ⟨fresh Sample.narrow, {}, []⟩).memory =
        (some Sample.summit, none) := by cbv
  obtain ⟨hpeak, hevicted⟩ := Prod.mk.inj hstate
  have hfresh : Grown Sample.loweredTree Sample.narrow [] ⟨fresh Sample.narrow, {}, []⟩ := .fresh
  obtain ⟨past, hgrown, hpast⟩ := hfresh.exists_offerAll Consensus.only_obeys Sample.tall
  refine ⟨past, hgrown, hpeak, hevicted, (hgrown.windowComplete_iff hw hpeak).2 fun e he _ => ?_⟩
  -- no block of the row stands above the last one
  have hheights : ∀ b ∈ Sample.tall, b.height.toNat ≤ Sample.summit.height.toNat := by
    decide +kernel
  have hoffered := (hpast e he).resolve_left List.not_mem_nil
  exact (hheights e.1 hoffered).trans (Nat.le_max_left _ _)

/-! ### A peak that moves down -/

set_option maxRecDepth 8000 in
/-- **The window is not always complete.** The fourth block evicts the first one. Then the peak
moves down to the heavier block at height two, whose window of two heights begins at the first. -/
theorem window_not_complete :
    Sample.narrow.window? = some 2 ∧
      (∃ past, Grown Sample.loweredTree Sample.narrow past
        (offerAll (.only Sample.lowered) Sample.lowered ⟨fresh Sample.narrow, {}, []⟩)) ∧
      (offerAll (.only Sample.lowered) Sample.lowered
        ⟨fresh Sample.narrow, {}, []⟩).memory.peak? = some Sample.lower ∧
      ¬(offerAll (.only Sample.lowered) Sample.lowered
        ⟨fresh Sample.narrow, {}, []⟩).memory.WindowComplete 2 Sample.lower := by
  have hstate : (fun c : Chain =>
      (c.peak?, c.index.hashAt? 0, c.index.record? (Sample.blockHash 0 0)))
      (offerAll (.only Sample.lowered) Sample.lowered ⟨fresh Sample.narrow, {}, []⟩).memory =
        (some Sample.lower, some (Sample.blockHash 0 0), none) := by cbv
  simp only [Prod.mk.injEq] at hstate
  obtain ⟨hpeak, hcanonical, hnone⟩ := hstate
  have hfresh : Grown Sample.loweredTree Sample.narrow [] ⟨fresh Sample.narrow, {}, []⟩ := .fresh
  obtain ⟨past, hgrown, -⟩ := hfresh.exists_offerAll Consensus.only_obeys Sample.lowered
  refine ⟨by decide +kernel, ⟨past, hgrown⟩, hpeak, fun hcomplete => ?_⟩
  -- the lowest canonical block is in the window of the new peak, and gone
  obtain ⟨x, r, hx, hr⟩ := hcomplete 0 UInt32.zero_le (by decide +kernel)
  obtain rfl := Option.some.inj (hcanonical.symm.trans hx)
  exact absurd (hnone.symm.trans hr) (by simp)

end Chain

end HeaderChain
