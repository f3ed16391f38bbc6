import HeaderChain.Proofs.Reseeding
import HeaderChain.Proofs.FiniteTree

/-!
# The canonical chain, in every state

* `Chain.Reached` — the sessions that come about by opening a chain and then offering it blocks and
  weight proofs and resetting it, in any order, with collaborators that may be others each time. Any
  call to the store may fail in between. A chain may be opened on any store whatsoever if no proof
  is taken whose tip is not the heaviest of its blocks, and else on one whose peak is of the tree.
  Along the way it is told whether the chain stands on a weight proof;
* `Chain.Reached.sound` — all of them are sound, by a lemma for each operation (`Sound.offered`,
  `Sound.proofOffered`, `Sound.reset`, `sound_loaded`, `sound_resumed`);
* `Chain.Reached.canonical_interval` — what that says of the canonical map;
* `Chain.height_zero_on_peak` — why a block at height zero has to be a root: one that names the peak
  as its parent becomes the peak below it, and leaves heights above itself canonical.
-/

namespace HeaderChain

/-- The stored peak, if it reads back, is one of the blocks. -/
def Disk.Holds (d : Disk) (blocks : Blocks) : Prop :=
  ∀ b, d.value? HeaderBlock peakKey = .ok (some b) → blocks.has b

namespace Chain

open Procedure

section Operations

variable {tree : BlockTree} {rooted : Prop} {consensus : Consensus} {verifier : Verifier}
  {c m : Chain} {d : Disk} {b : HeaderBlock} {r : BlockRecord} {cs : List Call}

/-! ### Each operation -/

/-- Only the peak and the index matter. -/
theorem Sound.congr (hs : c.Sound tree rooted) (hp : m.peak? = c.peak?) (hi : m.index = c.index) :
    m.Sound tree rooted := by
  refine ⟨hi ▸ hs.within, fun hnone => ?_, fun peak hpeak => ?_⟩
  · rw [hi]
    exact hs.idle (hp ▸ hnone)
  · rw [hi]
    exact hs.spine peak (hp ▸ hpeak)

theorem Sound.imp (hs : c.Sound tree rooted) {rooted' : Prop} (h : rooted' → rooted) :
    c.Sound tree rooted' := by
  refine ⟨hs.within, hs.idle, fun peak hp => ?_⟩
  obtain ⟨l, low, hl, hspine, hlow⟩ := hs.spine peak hp
  exact ⟨l, low, hl, hspine, fun hr => hlow (h hr)⟩

/-- A valid block is in the tree, and its record copies it. -/
theorem Validated.copies (hr : Validated consensus b c r) (hk : consensus.Obeys tree) :
    tree.has b ∧ r.Copies b := by
  obtain ⟨p, iters, -, hv, hbuild⟩ := hr.valid
  have hb := hk.has_of_validate (validate_of_verdict hv)
  exact ⟨hb, hk.copies_of_build hb hbuild⟩

/-- Where nothing is indexed only a first block is valid. -/
theorem Validated.height_eq_zero (hr : Validated consensus b c r)
    (hnone : ∀ x, c.index.record? x = none) : b.height = 0 := by
  obtain ⟨p, iters, hp, -⟩ := hr.valid
  unfold parameters? at hp
  split at hp
  next hzero => exact hzero
  next => simp [hnone] at hp

theorem standing?_of_idle (hp : c.peak? = none) : c.standing? consensus r = .ok .firstPeak := by
  simp [standing?, peakRecord, hp, Except.bind, Choice.of]

/-- **Offering a block keeps a chain sound.** -/
theorem Sound.offered (hs : c.Sound tree rooted) (hk : consensus.Obeys tree)
    {a : Except ChainError Outcome} (h : Offered consensus b c d a m cs) : m.Sound tree rooted := by
  cases h with
  | known | disconnected | unadjusted | invalid | unbuilt | pathless | refused => exact hs
  | unresolved hr hstanding =>
    -- without a peak the block would have become it
    obtain ⟨hb, hcopies⟩ := hr.copies hk
    refine hs.kept ⟨b, hb, hcopies⟩ fun hp => ?_
    simp [standing?_of_idle hp] at hstanding
  | orphan hr hstanding hc =>
    obtain ⟨hb, hcopies⟩ := hr.copies hk
    refine hs.kept ⟨b, hb, hcopies⟩ fun hp => ?_
    rw [standing?_of_idle hp] at hstanding
    cases hstanding
    simp [Choice.changedFrom?] at hc
  | newPeak hr hstanding hc hpath =>
    obtain ⟨hb, hcopies⟩ := hr.copies hk
    exact hs.adopted hk.findFork hb hcopies (fun hp => hr.height_eq_zero (hs.idle hp).1)
      hstanding hc hpath

/-- Storing a proof changes nothing that matters here. -/
theorem Sound.withProof (hs : c.Sound tree rooted) (w : WeightProof) (persist : Bool) :
    (c.withProof w persist).Sound tree rooted := by
  cases persist with
  | false => exact hs
  | true => exact hs.congr rfl rfl

/-- **Offering a weight proof keeps a chain sound**, and where it is not adopted nothing of the
canonical map changes. -/
theorem Sound.proofOffered (hs : c.Sound tree rooted) (hv : verifier.Follows tree.Runs)
    {w : WeightProof} {records : Option (List BlockRecord)}
    (hw : ∀ rs, records = some rs → tree.Runs w rs) {a : Except ChainError Bool}
    (h : ProofOffered verifier w c d records a m cs) :
    m.Sound tree (rooted ∧ a ≠ .ok true) := by
  cases h with
  | empty | tooLight | rejected => exact hs.imp And.left
  | @seeding tip rs a m cs ht _ hr hseed =>
    -- the records were given with the proof, or come from the verifier
    have hruns : tree.Runs w rs := by
      rcases hr with hr | ⟨-, hr⟩
      · exact hw rs hr
      · exact hv hr
    cases hseed with
    | empty | tipMissing | proofRefused => exact hs.imp And.left
    | peakRefused => exact (hs.withProof w true).imp And.left
    | seeded ht' =>
      refine (sound_reseeded (hs.withProof w true).within hruns ht').imp fun hboth => ?_
      exact hboth.2 rfl

/-- **Resetting keeps a chain sound**, and one that was reset stands on no proof. -/
theorem Sound.reset (hs : c.Sound tree rooted) {a : Except ChainError Unit}
    (h : Resetting c d a m cs) : m.Sound tree (rooted ∨ a = .ok ()) := by
  cases h with
  | proofRefused => exact hs.imp (Or.resolve_right · (by simp))
  | peakRefused =>
    have hs' : ({ c with slots := { c.slots with proof := none } } : Chain).Sound tree rooted :=
      hs.congr rfl rfl
    exact hs'.imp (Or.resolve_right · (by simp))
  | done => exact sound_of_empty rfl rfl

/-! ### Opening -/

/-- **A chain that was opened is sound**, and it stands on a proof if there was one in the store. -/
theorem sound_loaded {config : Config} (hv : verifier.Obeys tree)
    (h : Loading consensus verifier (Chain.fresh config) d (.ok ()) m cs) :
    m.Sound tree (m.syncedProof? = none) := by
  cases h with
  | unseeded _ _ hr =>
    -- nothing is indexed, so a stored peak is unknown
    have hnone : ∀ x, (Chain.fresh config).index.record? x = none := Index.record?_empty
    obtain ⟨-, rfl, -⟩ := hr.eq_of_orphan fun x r hr => absurd hr (by simp [hnone])
    exact sound_of_empty rfl rfl
  | @seeded w stored rs _ c' _ cs cs' _ _ hverified hseed hr =>
    cases hseed with
    | seeded ht =>
      have hw := hv hverified
      -- and here it is no heavier than the tip
      obtain ⟨-, rfl, -⟩ := hr.eq_of_orphan fun _ _ => standing?_reseeded rfl hw ht
      have hruns := tree.runs_of_attests hw
      refine (sound_reseeded Index.within_empty hruns ht).imp fun hproof => ?_
      rw [syncedProof?_reseeded] at hproof
      cases hproof

/-- **Adopting a stored peak again keeps a chain sound**, if it is a block of the tree. -/
theorem Sound.readopted (hs : c.Sound tree rooted) (hfind : consensus.findFork = Index.forkPoint)
    {stored : Option HeaderBlock} (hstored : ∀ b, stored = some b → tree.has b)
    {a : Except ChainError Unit} (h : Readopting consensus c d stored a m cs) :
    m.Sound tree rooted := by
  cases h with
  | absent | current | unknown | unresolved | tooLight | pathless | refused => exact hs
  | @readopted b r _ _ _ hr hstanding hc hpath =>
    have hb := hstored b rfl
    -- without a peak nothing would be indexed
    have hpeak : c.peak? = none → b.height = 0 := fun hp => by
      cases ((hs.idle hp).1 b.hash).symm.trans hr
    exact hs.adopted hfind hb (hs.within.copies hb hr) hpeak hstanding hc hpath

/-- A peak that is adopted again leaves the proof in its slot. -/
theorem Readopting.syncedProof?_eq {stored : Option HeaderBlock} {a : Except ChainError Unit}
    (h : Readopting consensus c d stored a m cs) : m.syncedProof? = c.syncedProof? := by
  cases h with
  | absent | current | unknown | unresolved | tooLight | pathless | refused => rfl
  | readopted => exact syncedProof?_adopted

/-- **So it is if the tip of the stored proof need not be the heaviest of its blocks**, on a store
whose peak is of the tree. -/
theorem sound_resumed {config : Config} (hv : verifier.Follows tree.Runs)
    (hfind : consensus.findFork = Index.forkPoint) (hd : d.Holds tree.toBlocks)
    (h : Loading consensus verifier (Chain.fresh config) d (.ok ()) m cs) :
    m.Sound tree (m.syncedProof? = none) := by
  have hstored : ∀ {stored}, d.value? HeaderBlock peakKey = .ok stored →
      ∀ b, stored = some b → tree.has b := by
    rintro stored hp b rfl
    exact hd b hp
  cases h with
  | unseeded _ hp hr =>
    have hfresh : (Chain.fresh config).Sound tree (m.syncedProof? = none) := sound_of_empty rfl rfl
    exact hfresh.readopted hfind (hstored hp) hr
  | @seeded w stored rs _ c' _ cs cs' _ hp hverified hseed hr =>
    cases hseed with
    | seeded ht =>
      -- the proof stays in its slot
      have hproof : m.syncedProof? = some w := by
        rw [hr.syncedProof?_eq, syncedProof?_reseeded]
        rfl
      refine Sound.readopted ?_ hfind (hstored hp) hr
      refine (sound_reseeded Index.within_empty (hv hverified) ht).imp fun hnone => ?_
      cases hproof.symm.trans hnone

end Operations

/-! ### All that can be reached -/

/-- **The sessions that can be reached**: a chain is opened on a store that refuses any calls, and
then is offered blocks and proofs, and reset. The flag tells whether a proof was adopted since it
was opened without one, or since it was reset. -/
inductive Reached (tree : BlockTree) : Bool → Session Chain → Prop
  /-- The store holds anything. If a proof attests to its records, a stored peak is left aside. -/
  | opened {verifier : Verifier} {consensus : Consensus} {config : Config} {disk : Disk}
    (hv : verifier.Obeys tree)
    (h : (load verifier consensus).result ⟨fresh config, disk, []⟩ = .ok ()) :
    Reached tree (opened verifier consensus config disk).memory.syncedProof?.isSome
      (opened verifier consensus config disk)
  /-- The stored proof need only come with a run of blocks, and a stored peak is of the tree: if it
  is heavier, it is adopted again. -/
  | resumed {verifier : Verifier} {consensus : Consensus} {config : Config} {disk : Disk}
    (hv : verifier.Follows tree.Runs) (hfind : consensus.findFork = Index.forkPoint)
    (hd : disk.Holds tree.toBlocks)
    (h : (load verifier consensus).result ⟨fresh config, disk, []⟩ = .ok ()) :
    Reached tree (opened verifier consensus config disk).memory.syncedProof?.isSome
      (opened verifier consensus config disk)
  | offered {consensus : Consensus} {seeded : Bool} {s : Session Chain}
    (hs : Reached tree seeded s) (hk : consensus.Obeys tree) (b : HeaderBlock) :
    Reached tree seeded ((offer consensus b).after s)
  | proofAdopted {verifier : Verifier} {seeded : Bool} {s : Session Chain}
    (hs : Reached tree seeded s) (hv : verifier.Follows tree.Runs) {w : WeightProof}
    {records : Option (List BlockRecord)} (hw : ∀ rs, records = some rs → tree.Runs w rs)
    (h : (offerProof verifier w records).result s = .ok true) :
    Reached tree true ((offerProof verifier w records).after s)
  /-- A proof is not taken, or the operation fails. -/
  | proofLeft {verifier : Verifier} {seeded : Bool} {s : Session Chain}
    (hs : Reached tree seeded s) (hv : verifier.Follows tree.Runs) {w : WeightProof}
    {records : Option (List BlockRecord)} (hw : ∀ rs, records = some rs → tree.Runs w rs)
    (h : (offerProof verifier w records).result s ≠ .ok true) :
    Reached tree seeded ((offerProof verifier w records).after s)
  | wasReset {seeded : Bool} {s : Session Chain} (hs : Reached tree seeded s)
    (h : reset.result s = .ok ()) : Reached tree false (reset.after s)
  | resetFailed {seeded : Bool} {s : Session Chain} (hs : Reached tree seeded s)
    (h : reset.result s ≠ .ok ()) : Reached tree seeded (reset.after s)

/-- **Every chain that can be reached is sound**, and rooted while it stands on no proof. -/
theorem Reached.sound {tree : BlockTree} {seeded : Bool} {s : Session Chain}
    (h : Reached tree seeded s) : s.memory.Sound tree (seeded = false) := by
  -- the induction is on the run; whatever an operation comes to keeps the chain sound
  induction h with
  | opened hv h =>
    refine (sound_loaded hv (loading_of_opens h)).imp fun hnone => ?_
    simpa using hnone
  | resumed hv hfind hd h =>
    refine (sound_resumed hv hfind hd (loading_of_opens h)).imp fun hnone => ?_
    simpa using hnone
  | @offered consensus seeded s hs hk b ih =>
    obtain ⟨a, m, cs, hgives, hoffered⟩ := offer_cases consensus b s
    exact hgives.memory ▸ ih.offered hk hoffered
  | @proofAdopted verifier seeded s hs hv w records hw h ih =>
    obtain ⟨a, m, cs, hgives, hoffered⟩ := offerProof_cases (v := verifier) (w := w) s records
    exact hgives.memory ▸ (ih.proofOffered hv hw hoffered).imp (by simp)
  | @proofLeft verifier seeded s hs hv w records hw h ih =>
    obtain ⟨a, m, cs, hgives, hoffered⟩ := offerProof_cases (v := verifier) (w := w) s records
    have ha : a ≠ .ok true := hgives.result ▸ h
    exact hgives.memory ▸ (ih.proofOffered hv hw hoffered).imp fun hseeded => ⟨hseeded, ha⟩
  | @wasReset seeded s hs h ih =>
    obtain ⟨a, m, cs, hgives, hreset⟩ := reset_cases s
    obtain rfl : a = .ok () := hgives.result.symm.trans h
    exact hgives.memory ▸ (ih.reset hreset).imp fun _ => .inr rfl
  | @resetFailed seeded s hs h ih =>
    obtain ⟨a, m, cs, hgives, hreset⟩ := reset_cases s
    exact hgives.memory ▸ (ih.reset hreset).imp .inl

/-- A chain that is opened on an empty store stands on no proof. -/
theorem Reached.opened_empty {tree : BlockTree} {verifier : Verifier} {consensus : Consensus}
    {config : Config} {disk : Disk} (hv : verifier.Obeys tree) (hd : disk.entries = ∅)
    (hserves : disk.Serves) :
    Reached tree false (Chain.opened verifier consensus config disk) := by
  have hgives := load_of_empty (v := verifier) (k := consensus) ⟨fresh config, disk, []⟩ rfl hd
    hserves
  have hopened : Reached tree _ (Chain.opened verifier consensus config disk) :=
    .opened hv hgives.result
  rwa [(opened_of_empty config hd hserves).1] at hopened

theorem Reached.offerAll {tree : BlockTree} {consensus : Consensus} {seeded : Bool}
    {s : Session Chain} (hs : Reached tree seeded s) (hk : consensus.Obeys tree)
    (blocks : List HeaderBlock) : Reached tree seeded (offerAll consensus blocks s) := by
  induction blocks generalizing s with
  | nil => exact hs
  | cons b blocks ih => exact ih (hs.offered hk b)

end Chain

/-! ### The canonical map -/

/-- **The canonical map is that of a chain** which ends at the peak: the heights in it are an
interval up to that of the peak, and the record at each of them but the lowest, as long as it is
kept, stands there and names the canonical block below it as its parent. -/
structure Index.Interval (i : Index) (peak : HeaderBlock) (low : Height) : Prop where
  low_le : low ≤ peak.height
  containsHeight : ∀ h, i.containsHeight h = true ↔ low ≤ h ∧ h ≤ peak.height
  top : i.hashAt? peak.height = some peak.hash
  linked : ∀ {h x r}, low < h → h ≤ peak.height → i.hashAt? h = some x → i.record? x = some r →
    r.height = h ∧ i.hashAt? (h - 1) = some r.parent

theorem Index.Spine.interval {tree : BlockTree} {i : Index} {l : List HeaderBlock}
    {peak low : HeaderBlock} (hi : i.Spine l) (hl : tree.Descent l peak low)
    (hwithin : i.Within tree) : i.Interval peak low.height where
  low_le := hl.height_le hl.last_mem
  containsHeight h := by
    rw [containsHeight_iff]
    -- a descent leaves out no height between those of its ends
    constructor
    · rintro ⟨x, hx⟩
      obtain ⟨y, hy, rfl, -⟩ := (hi h x).mp hx
      exact ⟨hl.le_height hy, hl.height_le hy⟩
    · rintro ⟨hlow, hhigh⟩
      obtain ⟨y, hy, hyh⟩ := hl.exists_height hlow hhigh
      exact ⟨y.hash, (hi h y.hash).mpr ⟨y, hy, hyh, rfl⟩⟩
  top := (hi _ _).mpr ⟨peak, hl.head_mem, rfl, rfl⟩
  linked {h x r} hlow _ hx hr := by
    obtain ⟨y, hy, rfl, rfl⟩ := (hi h x).mp hx
    have hcopies := hwithin.copies (hl.has_of_mem hy) hr
    -- the block below it on the spine is its parent
    obtain ⟨z, hz, hlink⟩ := hl.parent_of_mem hy hlow
    have hstep := tree.height_of_parent (hl.has_of_mem hz) (hl.has_of_mem hy) hlink
    refine ⟨hcopies.height, (hi _ _).mpr ⟨z, hz, ?_, ?_⟩⟩
    · have hone : (1 : Height) ≤ y.height := UInt32.le_iff_toNat_le.mpr (by simp; omega)
      refine UInt32.toNat_inj.mp ?_
      rw [UInt32.toNat_sub_of_le _ _ hone, UInt32.toNat_one]
      omega
    · rw [hcopies.parent, hlink]

/-- **The canonical map in every state that can be reached**: empty without a peak, and else that of
a chain ending at the peak, which starts at height zero unless it stands on a proof. -/
theorem Chain.Reached.canonical_interval {tree : BlockTree} {seeded : Bool} {s : Session Chain}
    (h : Chain.Reached tree seeded s) :
    (s.memory.peak? = none → s.memory.index.canonical = ∅) ∧
      ∀ peak, s.memory.peak? = some peak →
        ∃ low, s.memory.index.Interval peak low ∧ (seeded = false → low = 0) := by
  refine ⟨fun hnone => ?_, fun peak hp => ?_⟩
  · exact (h.sound.idle hnone).2.canonical_eq Index.spine_empty
  · obtain ⟨l, low, hl, hspine, hlow⟩ := h.sound.spine peak hp
    exact ⟨low.height, hspine.interval hl h.sound.within, hlow⟩

set_option maxRecDepth 4000 in
/-- A chain that is offered two branches ends at the heavier one, and starts at height zero. -/
theorem Chain.canonical_interval_forked :
    ∃ s, Chain.Reached Sample.forkedTree false s ∧ s.memory.peak? = some Sample.rival ∧
      ∃ low, s.memory.index.Interval Sample.rival low ∧ low = 0 := by
  have hreached : Chain.Reached Sample.forkedTree false
      (Chain.offerAll (.only Sample.forked) Sample.forked
        (Chain.opened (.only Sample.forked) (.only Sample.forked) {} {})) :=
    (Chain.Reached.opened_empty Verifier.only_obeys rfl fun _ _ => rfl).offerAll
      Consensus.only_obeys Sample.forked
  have hpeak : (Chain.offerAll (.only Sample.forked) Sample.forked
      (Chain.opened (.only Sample.forked) (.only Sample.forked) {} {})).memory.peak? =
        some Sample.rival := by cbv
  obtain ⟨low, hlow, hzero⟩ := hreached.canonical_interval.2 Sample.rival hpeak
  exact ⟨_, hreached, hpeak, low, hlow, hzero rfl⟩

/-! ### A block at height zero that is no root -/

namespace Sample

/-- A block at height zero that names a block as its parent. -/
def sunk : HeaderBlock := block 1 0 child.hash 20 none

/-- Two blocks in a row, and that one on top of them. -/
def sunken : List HeaderBlock := [root, child, sunk]

/-- A verifier that takes no proof. -/
def rejecting : Verifier := fun _ _ => .error "no proof is taken"

/-- The three blocks were offered in turn. -/
def onSunken : Session Chain :=
  Chain.offerAll (.only sunken) sunken (Chain.opened rejecting (.only sunken) {} {})

end Sample

set_option maxRecDepth 4000 in
/-- **A block at height zero that names the peak as its parent leaves a height above it canonical.**
Everybody tells the truth, the blocks are told apart by their hashes, and each of them that stands
above height zero stands one above its parent. What is said of heights nowhere forbids the last
block, which is a heavier child of the peak: the heights change from right above the old peak on, so
the old peak stays canonical, above the new one. -/
theorem Chain.height_zero_on_peak :
    (∀ a ∈ Sample.sunken, ∀ b ∈ Sample.sunken, a.hash = b.hash → a = b) ∧
    (∀ b ∈ Sample.sunken, 0 < b.height →
      ∃ a ∈ Sample.sunken, b.parent = a.hash ∧ b.height.toNat = a.height.toNat + 1) ∧
    (∀ {constants i b p iters}, (Consensus.only Sample.sunken).validate constants i b p =
      .ok (some iters) → b ∈ Sample.sunken) ∧
    (∀ {constants i iters b r}, (Consensus.only Sample.sunken).build constants i iters b = .ok r →
      r.Copies b) ∧
    (Consensus.only Sample.sunken).findFork = Index.forkPoint ∧
    (∀ w skip rs, Sample.rejecting w skip ≠ .ok rs) ∧
    (load Sample.rejecting (.only Sample.sunken)).result ⟨fresh {}, {}, []⟩ = .ok () ∧
    Sample.onSunken.memory.peak? = some Sample.sunk ∧
    Sample.onSunken.memory.index.hashAt? 0 = some Sample.sunk.hash ∧
    Sample.onSunken.memory.index.hashAt? 1 = some Sample.child.hash ∧
    ¬∃ low, Sample.onSunken.memory.index.Interval Sample.sunk low := by
  -- one evaluation of the session for all that is read off it
  have hfacts : (fun s : Session Chain =>
      (s.memory.peak?, s.memory.index.hashAt? 0, s.memory.index.hashAt? 1)) Sample.onSunken =
      (some Sample.sunk, some Sample.sunk.hash, some Sample.child.hash) := by cbv
  simp only [Prod.mk.injEq] at hfacts
  obtain ⟨hpeak, hzero, hone⟩ := hfacts
  refine ⟨by decide +kernel, by decide +kernel, ?_, ?_, rfl, ?_, by cbv, hpeak, hzero, hone, ?_⟩
  · intro constants i b p iters h
    by_contra hb
    simp [Consensus.only, hb] at h
  · intro constants i iters b r h
    cases h
    exact Sample.record_copies b
  · intro w skip rs h
    cases h
  · -- the height above the peak is not one of an interval that ends at it
    rintro ⟨low, hinterval⟩
    have hcontains := (hinterval.containsHeight 1).mp (Index.containsHeight_iff.mpr ⟨_, hone⟩)
    exact absurd hcontains.2 (by decide)

end HeaderChain
