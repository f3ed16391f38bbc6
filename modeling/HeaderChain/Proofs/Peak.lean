import HeaderChain.Proofs.Canonical
import HeaderChain.Proofs.Reachable
import HeaderChain.Proofs.Served

/-!
# The peak, in every state

An offered block is compared with the record of the peak, and a weight proof with the block that is
held as the peak. Both say the same at all times, and all it takes is that whoever tells of a block
tells its height and weight truly: nobody needs to know of parents, and forks may be found in any
way.

* `BlockRecord.Weighs`, `Blocks.Supports` — records that tell this of blocks, of which no more is
  known than that their hashes tell them apart; `Setting.weighing` — the setting in which all of
  them do;
* `Chain.Grounded` — what is known of a chain at all times there: the peak is indexed
  (`Chain.Reachable.peak_indexed`), and a chain without a peak knows of nothing;
* `Chain.Reachable.peak_advances` — the peak moves to heavier blocks only, exactly when an
  operation says so;
* `Chain.holds_cut_opened`, `Chain.Reachable.holds_cut` — a run leaves a store behind on which a
  chain may be opened in the same setting, wherever the run is cut.
-/

namespace HeaderChain

/-! ### Those who tell of blocks -/

/-- **A record weighs its block**: it tells where the block stands and how heavy it is. -/
structure BlockRecord.Weighs (r : BlockRecord) (b : HeaderBlock) : Prop where
  hash : r.hash = b.hash
  height : r.height = b.height
  weight : r.weight = b.weight

/-- A copy of a block weighs it. -/
theorem BlockRecord.Copies.weighs {r : BlockRecord} {b : HeaderBlock} (h : r.Copies b) :
    r.Weighs b :=
  ⟨h.hash, h.height, h.weight⟩

namespace Blocks

variable {blocks : Blocks} {r r' : BlockRecord} {b : HeaderBlock}

/-- The record weighs one of the blocks. -/
def Weighed (blocks : Blocks) (r : BlockRecord) : Prop := ∃ b, blocks.has b ∧ r.Weighs b

/-- The block that a record weighs is the one with its hash, since no other block has it. -/
theorem Weighed.weighs (h : blocks.Weighed r) (hb : blocks.has b) (hhash : r.hash = b.hash) :
    r.Weighs b := by
  obtain ⟨a, ha, hra⟩ := h
  obtain rfl : a = b := blocks.eq_of_hash ha hb (hra.hash.symm.trans hhash)
  exact hra

/-- Records of one hash stand at one height. -/
theorem Weighed.height_eq (h : blocks.Weighed r) (h' : blocks.Weighed r')
    (hhash : r.hash = r'.hash) : r.height = r'.height := by
  obtain ⟨b, hb, hr⟩ := h'
  rw [hr.height, (h.weighs hb (hhash.trans hr.hash)).height]

/-- That each record weighs a block lasts through additions and evictions. -/
theorem lasts_weighed (blocks : Blocks) :
    Index.Lasts blocks.Weighed fun i => i.All blocks.Weighed ∧ i.Filed :=
  Index.lasts_filed Weighed.height_eq

/-- **The blocks support a proof** that comes with these records: it ends at one of them, and each
record weighs one. -/
structure Supports (blocks : Blocks) (w : WeightProof) (rs : List BlockRecord) : Prop where
  tip : ∀ tip, w.tip? = some tip → blocks.has tip
  records : ∀ r ∈ rs, blocks.Weighed r

end Blocks

/-- Collaborators that accept no other blocks and build records that weigh them. How they find forks
is left open. -/
structure Consensus.Weighs (k : Consensus) (blocks : Blocks) : Prop where
  has_of_validate : ∀ {constants i b p iters},
    k.validate constants i b p = .ok (some iters) → blocks.has b
  weighs_of_build : ∀ {constants i iters b r}, blocks.has b →
    k.build constants i iters b = .ok r → r.Weighs b

/-- Collaborators that copy the blocks of a tree weigh them. -/
theorem Consensus.Obeys.weighs {k : Consensus} {tree : BlockTree} (hk : k.Obeys tree) :
    k.Weighs tree.toBlocks where
  has_of_validate := hk.has_of_validate
  weighs_of_build hb h := (hk.copies_of_build hb h).weighs

/-- A proof that comes with a run of blocks is supported. -/
theorem BlockTree.supports_of_runs {tree : BlockTree} {w : WeightProof} {rs : List BlockRecord}
    (h : tree.Runs w rs) : tree.Supports w rs := by
  obtain ⟨run, hrun, hlinks⟩ := h
  refine ⟨fun tip ht => ?_, fun r hr => ?_⟩
  · exact hrun _ (List.mem_of_getLast? (hlinks.last.trans ht))
  · obtain ⟨b, hb, hrb⟩ := BlockRecord.exists_block hlinks.copies hr
    exact ⟨b, hrun b hb, hrb.weighs⟩

/-- If the call stores a peak, it is one of the blocks. -/
def Call.Holds (call : Call) (blocks : Blocks) : Prop :=
  ∀ raw, call = .set peakKey raw → ∃ b, blocks.has b ∧ raw = Stored.encode b

namespace Disk

variable {d : Disk} {call : Call} {cs : List Call} {blocks : Blocks} {b : HeaderBlock}

/-- An empty store holds no peak that would have to be a block. -/
theorem holds_of_empty (hd : d.entries = ∅) : d.Holds blocks := by
  intro b hb
  simp [value?, peek, hd] at hb

/-- Only what is under the key of the peak matters. -/
theorem Holds.congr {d' : Disk} (hd : d.Holds blocks) (h : d'.peek peakKey = d.peek peakKey) :
    d'.Holds blocks := by
  intro b hb
  rw [value?, h] at hb
  exact hd b hb

/-- If one of the blocks is under the key, the stored peak is a block. -/
theorem holds_of_peek (h : d.peek peakKey = some (Stored.encode b)) (hb : blocks.has b) :
    d.Holds blocks := by
  intro b' hb'
  rw [value?_of_peek h b.decode?_encode] at hb'
  cases hb'
  exact hb

/-- One call keeps the stored peak a block, if it stores none but a block; served or refused. -/
theorem Holds.serve (hd : d.Holds blocks) (hc : call.Holds blocks) :
    (d.serve call).2.Holds blocks := by
  cases hrefused : d.refusal? call with
  | some detail => exact hd.congr (peek_serve_of_refusal hrefused peakKey)
  | none =>
    by_cases hkey : peakKey = call.key
    · have hpeek := peek_congr (entries_serve_of_served hrefused) peakKey
      -- the call is about the peak, and changes it as it says
      cases call with
      | get => exact hd.congr hpeek
      | set key value =>
        obtain rfl : peakKey = key := hkey
        obtain ⟨b, hb, rfl⟩ := hc _ rfl
        rw [apply, peek_write, if_pos rfl] at hpeek
        exact holds_of_peek hpeek hb
      | remove key =>
        obtain rfl : peakKey = key := hkey
        rw [apply, peek_erase, if_pos rfl] at hpeek
        intro b hb
        simp [value?, hpeek] at hb
    · exact hd.congr (peek_serve_of_ne hkey)

/-- So do any number of calls. -/
theorem Holds.serveAll (hd : d.Holds blocks) (hcs : ∀ call ∈ cs, call.Holds blocks) :
    (d.serveAll cs).Holds blocks := by
  induction cs generalizing d with
  | nil => exact hd
  | cons c cs ih =>
    obtain ⟨hc, hcs⟩ := List.forall_mem_cons.mp hcs
    exact ih (hd.serve hc) hcs

end Disk

/-- Nothing else is a write under the key of the peak. -/
theorem Call.holds_of_key_ne {call : Call} {blocks : Blocks} (h : call.key ≠ peakKey) :
    call.Holds blocks := by
  rintro raw rfl
  exact absurd rfl h

/-- A block of the setting may be stored as the peak. -/
theorem Chain.holds_storesPeak {b : HeaderBlock} {blocks : Blocks} (hb : blocks.has b) :
    (Chain.storesPeak b).Holds blocks := by
  rintro raw hraw
  cases hraw
  exact ⟨b, hb, rfl⟩

namespace Chain

open Procedure

/-- **The setting in which blocks are weighed truly**, on all stores whose peak is one of them. -/
def Setting.weighing (blocks : Blocks) : Setting :=
  .of (·.Weighs blocks) blocks.Supports (·.Holds blocks)

variable {blocks : Blocks} {k : Consensus} {v : Verifier} {config : Config} {c m : Chain}
  {d : Disk} {cs : List Call} {b tip p : HeaderBlock} {r : BlockRecord} {w : WeightProof}
  {rs : List BlockRecord} {choice : Choice} {changedFrom : Height} {path : List BlockRecord}
  {s t : Session Chain}

/-- A block that passes is one of those of the setting, and its record weighs it. -/
theorem Validated.weighs (hr : Validated k b c r) (hk : k.Weighs blocks) :
    blocks.has b ∧ r.Weighs b := by
  obtain ⟨p, iters, -, hv, hbuild⟩ := hr.valid
  have hb := hk.has_of_validate (validate_of_verdict hv)
  exact ⟨hb, hk.weighs_of_build hb hbuild⟩

/-! ### Grounded chains -/

/-- **What is known of a chain at all times**, if blocks are weighed truly. -/
structure Grounded (blocks : Blocks) (c : Chain) : Prop where
  index : c.index.All blocks.Weighed ∧ c.index.Filed
  /-- Without a peak nothing is known at all. -/
  idle : c.peak? = none → c.index = .empty ∧ c.latestTimestamp = 0
  peak : ∀ p, c.peak? = some p → blocks.has p ∧ c.index.contains p.hash = true

/-- The record of the peak tells what the block that is held as the peak tells. -/
theorem Grounded.exists_record (hc : c.Grounded blocks) (hp : c.peak? = some p) :
    ∃ r, c.index.record? p.hash = some r ∧ r.Weighs p := by
  obtain ⟨hhas, hknown⟩ := hc.peak p hp
  obtain ⟨r, hr⟩ := Index.contains_iff.mp hknown
  obtain ⟨hhash, hweighed⟩ := hc.index.1 _ _ hr
  exact ⟨r, hr, hweighed.weighs hhas hhash⟩

/-- An empty chain is grounded. -/
theorem grounded_of_empty (hp : c.peak? = none) (hi : c.index = .empty)
    (ht : c.latestTimestamp = 0) : c.Grounded blocks where
  index := hi ▸ blocks.lasts_weighed.empty
  idle _ := ⟨hi, ht⟩
  peak p hpeak := by cases hp.symm.trans hpeak

/-- A record beside the peak changes nothing of it. -/
theorem Grounded.kept (hc : c.Grounded blocks) (hr : blocks.Weighed r) (hp : c.peak? ≠ none) :
    (c.kept r).Grounded blocks where
  index := blocks.lasts_weighed.add hc.index hr
  idle hnone := absurd hnone hp
  peak p hpeak := by
    refine ⟨(hc.peak p hpeak).1, ?_⟩
    obtain ⟨old, hold⟩ := Index.contains_iff.mp (hc.peak p hpeak).2
    show (c.index.add r).contains p.hash = true
    rw [Index.contains, Index.record?_add, hold]
    split <;> rfl

/-- What stands at the height of a new peak is not evicted for it. -/
theorem contains_evicted_of_weighs (hi : c.index.All blocks.Weighed ∧ c.index.Filed)
    (hb : blocks.has b) (hknown : c.index.contains b.hash = true) :
    (c.evicted b.height).index.contains b.hash = true := by
  obtain ⟨r, hr⟩ := Index.contains_iff.mp hknown
  obtain ⟨hhash, hweighed⟩ := hi.1 _ _ hr
  have hheight := (hweighed.weighs hb hhash).height
  exact Index.contains_iff.mpr ⟨r, record?_evicted_of_height hi.2 hr hheight⟩

/-- **A new peak is indexed**, whatever is evicted for it. -/
theorem Grounded.adopted (hc : c.Grounded blocks) (hb : blocks.has b) (hr : r.Weighs b) :
    (c.adopted b r changedFrom path).Grounded blocks where
  index := lasts_adopted blocks.lasts_weighed hc.index ⟨b, hb, hr⟩ changedFrom path
  idle hnone := by simp at hnone
  peak p hp := by
    obtain rfl : b = p := by simpa using hp
    refine ⟨hb, ?_⟩
    unfold Chain.adopted
    rw [hr.height]
    refine contains_evicted_of_weighs ?_ hb ?_
    · exact blocks.lasts_weighed.replaceFrom (blocks.lasts_weighed.add hc.index ⟨b, hb, hr⟩) _ _
    · rw [Index.contains, Index.record?_replaceFrom, Index.record?_add, if_pos hr.hash]
      rfl

/-- **The tip of a proof is indexed** if it is among the records of the proof. -/
theorem grounded_reseeded (hi : c.index.All blocks.Weighed ∧ c.index.Filed)
    (hw : blocks.Supports w rs) (ht : w.tip? = some tip)
    (htip : rs.any (·.hash == tip.hash) = true) : (c.reseeded rs tip).Grounded blocks where
  index := lasts_reseeded blocks.lasts_weighed hi hw.records
  idle hnone := by simp at hnone
  peak p hp := by
    obtain rfl : tip = p := by simpa using hp
    refine ⟨hw.tip _ ht, contains_evicted_of_weighs ?_ (hw.tip _ ht) ?_⟩
    · exact blocks.lasts_weighed.reseed hi hw.records
    · obtain ⟨r, hr, hhash⟩ := List.any_eq_true.mp htip
      exact beq_iff_eq.mp hhash ▸ Index.contains_reseed hr

/-- The proof that is held is of no account. -/
theorem Grounded.withProof (hc : c.Grounded blocks) (w : WeightProof) (persist : Bool) :
    (c.withProof w persist).Grounded blocks := by
  cases persist <;> exact ⟨hc.index, hc.idle, hc.peak⟩

/-- **Offering a block** keeps a chain grounded. -/
theorem Grounded.offered (hc : c.Grounded blocks) (hk : k.Weighs blocks)
    {a : Except ChainError Outcome} (h : Offered k b c d a m cs) : m.Grounded blocks := by
  cases h with
  | known | disconnected | unadjusted | invalid | unbuilt | pathless | refused => exact hc
  | unresolved hr hs =>
    -- without a peak the block would have become it
    refine hc.kept ⟨b, hr.weighs hk⟩ fun hp => ?_
    cases (standing?_of_idle hp).symm.trans hs
  | orphan hr hs hchange =>
    refine hc.kept ⟨b, hr.weighs hk⟩ fun hp => ?_
    cases (standing?_of_idle hp).symm.trans hs
    cases hchange
  | newPeak hr =>
    obtain ⟨hb, hweighs⟩ := hr.weighs hk
    exact hc.adopted hb hweighs

/-- **Seeding keeps a chain grounded** if the blocks support the proof, even where the store refuses
a call on the way. -/
theorem Grounded.seeded (hc : c.Grounded blocks) (hw : blocks.Supports w rs) {persist : Bool}
    {a : Except ChainError Unit} (h : Seeding w rs c d persist a m cs) : m.Grounded blocks := by
  cases h with
  | empty | tipMissing | proofRefused => exact hc
  | peakRefused => exact hc.withProof w persist
  | seeded ht htip => exact grounded_reseeded (hc.withProof w persist).index hw ht htip

/-- **Offering a proof** keeps a chain grounded. -/
theorem Grounded.proofOffered {records : Option (List BlockRecord)} (hc : c.Grounded blocks)
    (hv : v.Follows blocks.Supports) (hrecords : ∀ rs, records = some rs → blocks.Supports w rs)
    {a : Except ChainError Bool} (h : ProofOffered v w c d records a m cs) : m.Grounded blocks := by
  cases h with
  | empty | tooLight | rejected => exact hc
  | seeding _ _ hr hs =>
    refine hc.seeded ?_ hs
    rcases hr with hr | ⟨-, hr⟩
    · exact hrecords _ hr
    · exact hv hr

/-- A reset leaves a grounded chain, finished or not. -/
theorem Grounded.reset (hc : c.Grounded blocks) {a : Except ChainError Unit}
    (h : Resetting c d a m cs) : m.Grounded blocks := by
  cases h with
  | proofRefused => exact hc
  | peakRefused => exact ⟨hc.index, hc.idle, hc.peak⟩
  | done => exact grounded_of_empty rfl rfl rfl

/-- A stored peak that is adopted again is one of the blocks, and its record weighs it. -/
theorem Grounded.readopted (hc : c.Grounded blocks) {stored : Option HeaderBlock}
    (hstored : ∀ b, stored = some b → blocks.has b) {a : Except ChainError Unit}
    (h : Readopting k c d stored a m cs) : m.Grounded blocks := by
  cases h with
  | absent | current | unknown | unresolved | tooLight | pathless | refused => exact hc
  | readopted hr =>
    obtain ⟨hhash, hweighed⟩ := hc.index.1 _ _ hr
    have hb := hstored _ rfl
    exact hc.adopted hb (hweighed.weighs hb hhash)

/-- **A chain is grounded when it is opened.** -/
theorem grounded_loaded (hv : v.Follows blocks.Supports) (hd : d.Holds blocks)
    {a : Except ChainError Unit} (h : Loading k v (fresh config) d a m cs) : m.Grounded blocks := by
  have hfresh : (fresh config).Grounded blocks := grounded_of_empty rfl rfl rfl
  -- whatever is read as the stored peak is a block
  have hstored : ∀ {peak}, d.value? HeaderBlock peakKey = .ok peak →
      ∀ b, peak = some b → blocks.has b := by
    rintro peak hp b rfl
    exact hd b hp
  cases h with
  | proofRefused | proofMalformed => exact hfresh
  | peakRefused | peakMalformed => exact ⟨hfresh.index, hfresh.idle, hfresh.peak⟩
  | rejected => exact hfresh.withProof _ true
  | unseeded _ hp hr => exact hfresh.readopted (hstored hp) hr
  | unseedable _ hverified hs => exact (hfresh.withProof _ true).seeded (hv hverified) hs
  | seeded _ hp hverified hs hr =>
    exact ((hfresh.withProof _ true).seeded (hv hverified) hs).readopted (hstored hp) hr

/-- **Every chain that can be reached is grounded.** -/
theorem Reachable.grounded (h : Reachable (.weighing blocks) s) : s.memory.Grounded blocks := by
  refine h.invariant (P := fun c _ => c.Grounded blocks) ?_ ?_ ?_ ?_
  · intro v k config d m cs hopens hloading
    exact grounded_loaded hopens.1 hopens.2 hloading
  · intro s k b a m cs hk hs hoffered
    exact hs.offered hk hoffered
  · intro s v w records a m cs hv hs _ hoffered
    exact hs.proofOffered hv.1 hv.2 hoffered
  · intro s a m cs hs hreset
    exact hs.reset hreset

/-- **The peak is always indexed**, under its hash and with its height and weight, so that its
record is always found. A chain without a peak knows of no record, no canonical block and no
timestamp, and only a block at height zero becomes its peak. -/
theorem Reachable.peak_indexed (h : Reachable (.weighing blocks) s) :
    (∀ p, s.memory.peak? = some p → ∃ r, s.memory.index.record? p.hash = some r ∧
      r.height = p.height ∧ r.weight = p.weight ∧ s.memory.peakRecord = .ok (some r)) ∧
    (s.memory.peak? = none → s.memory.index = .empty ∧ s.memory.latestTimestamp = 0 ∧
      s.memory.peakRecord = .ok none ∧
      ∀ k b, (offer k b).result s = .ok .newPeak → b.height = 0) := by
  refine ⟨fun p hp => ?_, fun hnone => ?_⟩
  · obtain ⟨r, hr, hweighs⟩ := h.grounded.exists_record hp
    refine ⟨r, hr, hweighs.height, hweighs.weight, ?_⟩
    simp [peakRecord, hp, Index.record_eq_ok.mpr hr, Except.map]
  · obtain ⟨hempty, htimestamp⟩ := h.grounded.idle hnone
    refine ⟨hempty, htimestamp, by simp [peakRecord, hnone], fun k b hresult => ?_⟩
    obtain ⟨a, m, cs, hgives, hoffered⟩ := offer_cases k b s
    obtain rfl : a = .ok .newPeak := hgives.result.symm.trans hresult
    cases hoffered with
    | newPeak hr => exact hr.height_eq_zero fun x => by simp [hempty]

/-- Chains that are opened on an empty store and offered any blocks are reachable in this
setting. -/
theorem reachable_forked (blocks : List HeaderBlock) :
    Reachable (.weighing Sample.forkedTree.toBlocks) (offerAll (.only Sample.forked) blocks
      (opened (.only Sample.forked) (.only Sample.forked) {} {})) := by
  have hv : (Verifier.only Sample.forked).Follows Sample.forkedTree.Supports := fun h =>
    BlockTree.supports_of_runs (Verifier.only_obeys.follows_runs h)
  have hopens : (Setting.weighing Sample.forkedTree.toBlocks).opens (.only Sample.forked) {} :=
    ⟨hv, Disk.holds_of_empty rfl⟩
  have hk : (Consensus.only Sample.forked).Weighs Sample.forkedTree.toBlocks :=
    Consensus.Obeys.weighs Consensus.only_obeys
  exact (Reachable.opened_empty hopens rfl fun _ _ => rfl).offerAll (fun _ _ => hk) blocks

set_option maxRecDepth 4000 in
/-- After two branches were offered the heavier one is indexed. -/
theorem peak_indexed_forked :
    ∃ s, Reachable (.weighing Sample.forkedTree.toBlocks) s ∧ s.memory.peak? = some Sample.rival ∧
      ∃ r, s.memory.index.record? Sample.rival.hash = some r ∧ r.height = Sample.rival.height ∧
        r.weight = Sample.rival.weight ∧ s.memory.peakRecord = .ok (some r) := by
  have hreachable := reachable_forked Sample.forked
  have hpeak : (offerAll (.only Sample.forked) Sample.forked
      (opened (.only Sample.forked) (.only Sample.forked) {} {})).memory.peak? =
        some Sample.rival := by cbv
  exact ⟨_, hreachable, hpeak, hreachable.peak_indexed.1 _ hpeak⟩

/-! ### What a run leaves in the store -/

/-- Offering a block stores a peak only if it is a block. -/
theorem Offered.holds (hk : k.Weighs blocks) {a : Except ChainError Outcome}
    (h : Offered k b c d a m cs) : ∀ call ∈ cs, call.Holds blocks := by
  intro call hcall
  obtain ⟨rfl, r, hr⟩ := h.calls call hcall
  exact holds_storesPeak (hr.weighs hk).1

/-- What a supported proof stores is itself and a block. -/
theorem holds_of_supports {call : Call} (hw : blocks.Supports w rs) (ht : w.tip? = some tip)
    (hcall : call = storesProof w ∨ call = storesPeak tip) : call.Holds blocks := by
  rcases hcall with rfl | rfl
  · exact Call.holds_of_key_ne (show proofKey ≠ peakKey by decide)
  · exact holds_storesPeak (hw.tip _ ht)

/-- Offering a proof stores a peak only if it is a block. -/
theorem ProofOffered.holds {records : Option (List BlockRecord)} (hv : v.Follows blocks.Supports)
    (hrecords : ∀ rs, records = some rs → blocks.Supports w rs) {a : Except ChainError Bool}
    (h : ProofOffered v w c d records a m cs) : ∀ call ∈ cs, call.Holds blocks := by
  intro call hcall
  obtain ⟨rs, tip, hr, ht, hcall⟩ := h.calls call hcall
  exact holds_of_supports (hr.elim (hrecords rs) fun hr => hv hr.2) ht hcall

/-- So does loading, which stores the tip of the proof that was stored, and the peak again. -/
theorem Loading.holds (hv : v.Follows blocks.Supports) (hd : d.Holds blocks)
    {a : Except ChainError Unit} (h : Loading k v c d a m cs) : ∀ call ∈ cs, call.Holds blocks := by
  intro call hcall
  obtain ⟨key, rfl⟩ | ⟨w, rs, tip, hw, ht, hcall⟩ | ⟨peak, hp, rfl⟩ := h.calls call hcall
  · exact fun raw hraw => Call.noConfusion hraw
  · exact holds_of_supports (hv hw) ht hcall
  · exact holds_storesPeak (hd peak hp)

/-- A reset stores no peak. -/
theorem Resetting.holds {a : Except ChainError Unit} (h : Resetting c d a m cs) :
    ∀ call ∈ cs, call.Holds blocks := by
  intro call hcall
  obtain ⟨key, rfl⟩ := h.calls call hcall
  exact fun raw hraw => Call.noConfusion hraw

/-- **Opening a chain** leaves such a store, wherever it is cut and whether it fails or not. -/
theorem holds_cut_opened (hv : v.Follows blocks.Supports) (hd : d.Holds blocks) (n : Nat) :
    (d.serveAll ((opened v k config d).calls.take n)).Holds blocks := by
  have hholds := (loading_opened v k config d).holds hv hd
  exact hd.serveAll fun call hcall => hholds call (List.mem_of_mem_take hcall)

/-- **A run leaves such a store**, wherever it is cut, so that another one may be begun on it. -/
theorem Reachable.holds_cut (h : Reachable (.weighing blocks) s) :
    ∃ d : Disk, d.Holds blocks ∧ s.disk = d.serveAll s.calls ∧
      ∀ n, (d.serveAll (s.calls.take n)).Holds blocks := by
  -- a store is what the calls have made of the first one, so it is enough to look at each call
  suffices ∃ d : Disk, d.Holds blocks ∧ s.disk = d.serveAll s.calls ∧
      ∀ call ∈ s.calls, call.Holds blocks by
    obtain ⟨d, hd, hdisk, hcalls⟩ := this
    exact ⟨d, hd, hdisk, fun n =>
      hd.serveAll fun call hcall => hcalls call (List.mem_of_mem_take hcall)⟩
  induction h with
  | @opened v k config d hopens h =>
    exact ⟨d, hopens.2, disk_opened, (loading_opened v k config d).holds hopens.1 hopens.2⟩
  | @asked s q hs hq ih =>
    obtain ⟨d, hd, hdisk, hcalls⟩ := ih
    -- the calls of a request are appended to those that were made before
    obtain ⟨cs, hdisk', hcalls', hcs⟩ : ∃ cs, (q.after s).disk = s.disk.serveAll cs ∧
        (q.after s).calls = s.calls ++ cs ∧ ∀ call ∈ cs, call.Holds blocks := by
      refine q.cases (P := fun _ cs => ∀ call ∈ cs, call.Holds blocks) s ?_ ?_ ?_
      · rintro k b a m cs rfl - hoffered
        exact hoffered.holds hq
      · rintro v w records a m cs rfl - hoffered
        exact hoffered.holds hq.1 hq.2
      · rintro a m cs rfl - hreset
        exact hreset.holds
    refine ⟨d, hd, ?_, ?_⟩
    · rw [hdisk', hcalls', hdisk, Disk.serveAll_append]
    · rw [hcalls']
      exact List.forall_mem_append.mpr ⟨hcalls, hcs⟩

/-! ### Moves of the peak -/

/-- **A heavier peak**, or the first one. -/
def Advances (old new : Option HeaderBlock) : Prop :=
  ∃ q, new = some q ∧ ∀ p, old = some p → p.weight < q.weight

/-- A heavier peak is another one. -/
theorem Advances.ne {old new : Option HeaderBlock} (h : Advances old new) : new ≠ old := by
  obtain ⟨q, rfl, hq⟩ := h
  rintro rfl
  exact absurd (hq q rfl) (BitVec.lt_irrefl _)

/-- Advances add up. -/
theorem Advances.trans {o p q : Option HeaderBlock} (h : Advances o p) (h' : Advances p q) :
    Advances o q := by
  obtain ⟨x, rfl, hx⟩ := h
  obtain ⟨y, rfl, hy⟩ := h'
  exact ⟨y, rfl, fun z hz => BitVec.lt_trans (hx z hz) (hy x rfl)⟩

/-- **An operation moves the peak** exactly if it ends with the value `moved`, and then to the block
`target`, which is heavier than the old peak. -/
structure Moves {α : Type} (x : Operation α) (s : Session Chain) (moved : α)
    (target : Option HeaderBlock) : Prop where
  step : (x.after s).memory.peak? = s.memory.peak? ∨
    Advances s.memory.peak? (x.after s).memory.peak?
  changed_iff : (x.after s).memory.peak? ≠ s.memory.peak? ↔ x.result s = .ok moved
  peak_eq : x.result s = .ok moved → (x.after s).memory.peak? = target

section Moves

variable {α : Type} {x : Operation α} {moved : α} {target : Option HeaderBlock}

/-- An operation that comes to the value, at a heavier block. -/
theorem moves_of_changed (hgives : x.Gives s (.ok moved) m cs) (hpeak : m.peak? = target)
    (htarget : Advances s.memory.peak? target) : Moves x s moved target := by
  have hafter : (x.after s).memory.peak? = target := by rw [hgives.memory, hpeak]
  have hstep : Advances s.memory.peak? (x.after s).memory.peak? := hafter ▸ htarget
  exact ⟨.inr hstep, iff_of_true hstep.ne hgives.result, fun _ => hafter⟩

/-- An operation that does not come to the value, and leaves the peak. -/
theorem moves_of_unchanged {a : Except ChainError α} (hgives : x.Gives s a m cs)
    (ha : a ≠ .ok moved) (hpeak : m.peak? = s.memory.peak?) : Moves x s moved target := by
  have hafter : (x.after s).memory.peak? = s.memory.peak? := by rw [hgives.memory, hpeak]
  have hresult : x.result s ≠ .ok moved := hgives.result ▸ ha
  exact ⟨.inl hafter, iff_of_false (not_not_intro hafter) hresult, fun h => absurd h hresult⟩

end Moves

/-- **What changes heights is heavier than the peak**: its record outweighs that of the peak, and
both records tell the truth. -/
theorem Grounded.advances (hc : c.Grounded blocks) (hr : r.Weighs b)
    (hs : c.standing? k r = .ok choice)
    (hchange : choice.changedFrom? r.height = some changedFrom) :
    Advances c.peak? (some b) := by
  refine ⟨b, rfl, fun old hold => ?_⟩
  rcases standing?_eq_ok hs with ⟨hnone, -⟩ | ⟨peak, p, hp, hpr, hof⟩
  · cases hnone.symm.trans hold
  · cases hp.symm.trans hold
    obtain ⟨p', hpr', hweighs⟩ := hc.exists_record hp
    cases hpr.symm.trans hpr'
    rw [← hweighs.weight, ← hr.weight]
    exact (Choice.of_changedFrom hof hchange).1

/-- **Offering a block moves the peak exactly if it is a new peak**, and then to that block. -/
theorem moves_offer (hc : s.memory.Grounded blocks) (hk : k.Weighs blocks) (b : HeaderBlock) :
    Moves (offer k b) s .newPeak (some b) := by
  obtain ⟨a, m, cs, hgives, hoffered⟩ := offer_cases k b s
  cases hoffered with
  | known | disconnected | invalid | orphan | unadjusted | unbuilt | unresolved | pathless
    | refused => exact moves_of_unchanged hgives (by simp) rfl
  | newPeak hr hs hchange =>
    have hadvances := hc.advances (hr.weighs hk).2 hs hchange
    exact moves_of_changed hgives peak?_adopted hadvances

/-- What is offered in a proof is compared with the block that is held as the peak, so nobody has to
tell the truth. -/
theorem moves_offerProof (v : Verifier) (w : WeightProof) (records : Option (List BlockRecord))
    (s : Session Chain) : Moves (offerProof v w records) s true w.tip? := by
  obtain ⟨a, m, cs, hgives, hoffered⟩ := offerProof_cases (v := v) (w := w) s records
  -- only the way that seeds the chain to its end moves the peak
  cases hoffered with
  | empty | tooLight | rejected => exact moves_of_unchanged hgives (by simp) rfl
  | seeding ht hheavier _ hs =>
    cases hs with
    | empty | tipMissing | proofRefused | peakRefused =>
      exact moves_of_unchanged hgives (by simp [Except.map]) rfl
    | seeded ht' =>
      cases ht.symm.trans ht'
      have hpeak : ∀ p, s.memory.peak? = some p → p.weight < _ := fun p hp => by
        simpa [isBetter] using hheavier p hp
      exact moves_of_changed hgives (peak?_reseeded.trans ht.symm) ⟨_, ht, hpeak⟩

/-- **On a run the peak stays or becomes heavier**, step by step. -/
theorem Onward.advances (h : Reachable (.weighing blocks) s)
    (hrun : Onward (.weighing blocks) s t) :
    t.memory.peak? = s.memory.peak? ∨ Advances s.memory.peak? t.memory.peak? := by
  induction hrun with
  | start => exact .inl rfl
  | @asked t q ht hq hgoes ih =>
    have hstep : (q.after t).memory.peak? = t.memory.peak? ∨
        Advances t.memory.peak? (q.after t).memory.peak? := by
      cases q with
      | offer k b => exact (moves_offer (h.onward ht).grounded hq b).step
      | offerProof v w records => exact (moves_offerProof v w records t).step
      | reset => exact absurd rfl hgoes
    -- two moves make one, and a step that leaves the peak adds nothing
    rcases ih with heq | hadvances <;> rcases hstep with heq' | hadvances'
    · exact .inl (heq'.trans heq)
    · exact .inr (heq ▸ hadvances')
    · exact .inr (heq'.symm ▸ hadvances)
    · exact .inr (hadvances.trans hadvances')

/-- **The weight of the peak only grows.** An offered block moves the peak exactly if it is told to
be the new peak, and an offered proof exactly if it is taken, to its tip; and the peak moves to a
heavier block each time, so that over no run of such operations does it become lighter, or give way
to one of its own weight. -/
theorem Reachable.peak_advances (h : Reachable (.weighing blocks) s) :
    (∀ k b, k.Weighs blocks → Moves (offer k b) s .newPeak (some b)) ∧
    (∀ v w records, Moves (offerProof v w records) s true w.tip?) ∧
    ∀ t, Onward (.weighing blocks) s t →
      t.memory.peak? = s.memory.peak? ∨ Advances s.memory.peak? t.memory.peak? :=
  ⟨fun _ b hk => moves_offer h.grounded hk b, fun v w records => moves_offerProof v w records s,
    fun _ hrun => hrun.advances h⟩

set_option maxRecDepth 4000 in
/-- A heavier branch takes the place of a lighter one that came first. -/
theorem peak_advances_forked :
    ∃ s t, Reachable (.weighing Sample.forkedTree.toBlocks) s ∧
      Onward (.weighing Sample.forkedTree.toBlocks) s t ∧
      s.memory.peak? = some Sample.child ∧ t.memory.peak? = some Sample.rival ∧
      Advances (some Sample.child) (some Sample.rival) := by
  have hk : (Consensus.only Sample.forked).Weighs Sample.forkedTree.toBlocks :=
    Consensus.Obeys.weighs Consensus.only_obeys
  have hreachable := reachable_forked [Sample.root, Sample.child]
  -- the heavier block is offered where the lighter one is the peak
  have hrun : Onward (.weighing Sample.forkedTree.toBlocks)
      (offerAll (.only Sample.forked) [Sample.root, Sample.child]
        (opened (.only Sample.forked) (.only Sample.forked) {} {})) _ :=
    .asked (q := .offer (.only Sample.forked) Sample.rival) .start hk (by simp)
  have hpeak : (offerAll (.only Sample.forked) [Sample.root, Sample.child]
      (opened (.only Sample.forked) (.only Sample.forked) {} {})).memory.peak? =
        some Sample.child := by cbv
  have hpeak' : (Request.after (offerAll (.only Sample.forked) [Sample.root, Sample.child]
      (opened (.only Sample.forked) (.only Sample.forked) {} {}))
      (.offer (.only Sample.forked) Sample.rival)).memory.peak? = some Sample.rival := by cbv
  obtain ⟨-, -, hmoves⟩ := hreachable.peak_advances
  have hstep := hmoves _ hrun
  rw [hpeak, hpeak'] at hstep
  exact ⟨_, _, hreachable, hrun, hpeak, hpeak', hstep.resolve_left (by decide +kernel)⟩

end Chain

end HeaderChain
