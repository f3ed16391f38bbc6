import HeaderChain.Proofs.Opening
import HeaderChain.Proofs.Tally

/-!
# What a restart adopts

A chain that opens on a stored proof starts from the records which the verifier answers, less those
that are evicted for the tip of the proof, and the stored peak has to win against the tip. Without a
stored proof the chain starts from nothing.

* `survivor?` — the record of a hash that is left of a list of records; `Chain.record?_founded` — so
  it is in a chain that was founded on them, whatever their order and however often a hash comes;
* `Chain.Prevails` — the stored peak prevails over the tip, told by the records alone, and
  `Chain.Elected` — so it is the peak, or else the tip is (`Chain.Opening.elected`);
* `Chain.OpenedBlank`, `Chain.Restored` — what an opening leaves without a stored proof, and with
  one; `Chain.load_restores` — every opening that succeeds leaves one of them.
-/

namespace HeaderChain

/-- **The record of a hash** that is left of a list of records after an eviction. It is the last one
of the hash, but the first one decides about the eviction, for the hash was put into its bucket. -/
def survivor? (floor : Option Height) (rs : List BlockRecord) (x : Hash) : Option BlockRecord :=
  let same := rs.filter (·.hash = x)
  if same.head?.any fun first => floor.any (first.height < ·) then none else same.getLast?

/-! ### Records that are added to an index -/

namespace Index

variable {i : Index} {r : BlockRecord} {rs : List BlockRecord} {x : Hash} {k : Height}

/-- **Of several records of one hash** the last one is indexed. -/
theorem record?_addAll (i : Index) (rs : List BlockRecord) (x : Hash) :
    (i.addAll rs).record? x = (rs.filter (·.hash = x)).getLast?.or (i.record? x) := by
  induction rs generalizing i with
  | nil => rfl
  | cons r rs ih =>
    rw [addAll_cons, ih, record?_add]
    by_cases hx : r.hash = x
    · rw [if_pos hx, List.filter_cons_of_pos (by simpa using hx), List.getLast?_cons]
      cases (rs.filter (·.hash = x)).getLast? <;> rfl
    · rw [if_neg hx, List.filter_cons_of_neg (by simpa using hx)]

/-- **But the first one was filed**, if there was none of the hash before. -/
theorem mem_bucket_addAll : x ∈ (i.addAll rs).bucket k ↔ x ∈ i.bucket k ∨
    i.record? x = none ∧ ∃ first, (rs.filter (·.hash = x)).head? = some first ∧
      first.height = k := by
  induction rs generalizing i with
  | nil => simp
  | cons r rs ih =>
    rw [addAll_cons, ih, mem_bucket_add, record?_add, or_assoc]
    by_cases hx : r.hash = x
    · simp [hx]
    · simp [hx]

/-- **What is left of records** that were added to nothing, once the low buckets were evicted. -/
theorem record?_pruneBelow_addAll (floor : Height) (rs : List BlockRecord) (x : Hash) :
    ((empty.addAll rs).pruneBelow floor).1.record? x = survivor? (some floor) rs x := by
  have hbelow : x ∈ (empty.addAll rs).hashesBelow floor ↔
      (rs.filter (·.hash = x)).head?.any (fun first => first.height < floor) = true := by
    have hbucket : ∀ k, x ∉ empty.bucket k := by simp [bucket, empty]
    simp only [mem_hashesBelow, mem_bucket_addAll, hbucket, record?_empty, Option.any_eq_true,
      decide_eq_true_eq]
    grind
  rw [record?_pruneBelow_eq_ite, survivor?, record?_addAll, record?_empty, Option.or_none]
  simp only [hbelow, Option.any_some]

end Index

namespace Chain

open Procedure

variable {k : Consensus} {v : Verifier} {config : Config} {m : Chain} {disk : Disk}
  {b tip : HeaderBlock} {r : BlockRecord} {changedFrom : Height}
  {path rs written : List BlockRecord} {w : WeightProof} {stored : Option HeaderBlock}
  {peaks : List HeaderBlock} {s : Session Chain}

/-- **What a chain that was founded on a proof knows**: the records of the proof that are left. -/
theorem record?_founded (config : Config) (w : WeightProof) (rs : List BlockRecord)
    (tip : HeaderBlock) (x : Hash) : (founded config w rs tip).index.record? x =
      survivor? (config.floor? tip.height) rs x := by
  have hconfig : ((fresh config).withProof w true).config = config := rfl
  have hsame : (reseed .empty rs).SameRecords (Index.empty.addAll rs) :=
    Index.sameRecords_reseed _ rs
  simp only [founded, reseeded, evicted, hconfig]
  -- of the records of a proof the last one under each hash counts, unless it is evicted
  cases config.floor? tip.height with
  | none =>
    show (reseed .empty rs).record? x = _
    have hlast := Index.record?_addAll .empty rs x
    rw [Index.record?_empty, Option.or_none, Index.record?] at hlast
    rw [Index.record?, hsame.records, hlast]
    simp [survivor?]
  | some floor =>
    show ((reseed .empty rs).pruneBelow floor).1.record? x = _
    rw [Index.record?, (hsame.pruneBelow floor).records]
    exact Index.record?_pruneBelow_addAll floor rs x

/-! ### The stored peak against the tip -/

/-- **A stored peak that prevails over the tip of a proof**: it is another block, and of the records
of the proof that are left the one of it outweighs that of the tip. -/
def Prevails (config : Config) (rs : List BlockRecord) (tip b : HeaderBlock) : Prop :=
  b.hash ≠ tip.hash ∧ ∃ r t, survivor? (config.floor? tip.height) rs b.hash = some r ∧
    survivor? (config.floor? tip.height) rs tip.hash = some t ∧ t.weight < r.weight

/-- How a record stands to the tip is told by their weights. -/
theorem exists_tip_of_standing {choice : Choice}
    (hs : (founded config w rs tip).standing? k r = .ok choice) :
    ∃ t, survivor? (config.floor? tip.height) rs tip.hash = some t ∧
      Choice.of k.findFork (founded config w rs tip).index r (some t) = .ok choice := by
  rcases standing?_eq_ok hs with ⟨hnone, -⟩ | ⟨now, t, hnow, ht, hof⟩
  · cases hnone.symm.trans peak?_founded
  · obtain rfl : tip = now := Option.some.inj (peak?_founded.symm.trans hnow)
    rw [record?_founded] at ht
    exact ⟨t, ht, hof⟩

/-- What wins prevails. -/
theorem Wins.prevails (h : Wins k (founded config w rs tip) b r changedFrom path) :
    Prevails config rs tip b := by
  obtain ⟨choice, hs, hc⟩ := h.standing
  obtain ⟨t, ht, hof⟩ := exists_tip_of_standing hs
  have hr := h.record
  rw [record?_founded] at hr
  have hheavier := (Choice.of_changedFrom hof hc).1
  exact ⟨(h.hash_ne peak?_founded).symm, r, t, hr, ht, by simpa [isBetter] using hheavier⟩

/-- What is left aside does not. -/
theorem LeftAside.not_prevails (h : LeftAside k (founded config w rs tip) (some b)) :
    ¬ Prevails config rs tip b := by
  rintro ⟨-, r, t, hr, ht, hheavier⟩
  rw [← record?_founded config w] at hr
  obtain ⟨choice, hs, hc⟩ := h b r rfl hr
  obtain ⟨t', ht', hof⟩ := exists_tip_of_standing hs
  obtain rfl : t = t' := Option.some.inj (ht.symm.trans ht')
  exact BitVec.not_le.mpr hheavier (Choice.of_unchanged hof hc)

/-- **The peak that a restart comes to**, of the tip of the stored proof and the stored peak. -/
inductive Elected (config : Config) (rs : List BlockRecord) (tip : HeaderBlock) :
    Option HeaderBlock → HeaderBlock → Prop
  | stored {b : HeaderBlock} (h : Prevails config rs tip b) : Elected config rs tip (some b) b
  | tip {stored : Option HeaderBlock} (h : ∀ b, stored = some b → ¬ Prevails config rs tip b) :
    Elected config rs tip stored tip

/-- An opening on a stored proof goes by the records that the verifier answers. -/
theorem Opening.elected (h : Opening k v config (some w) stored m peaks written) :
    ∃ rs tip peak, v w config.skipSegments = .ok rs ∧ w.tip? = some tip ∧
      (∃ r ∈ rs, r.hash = tip.hash) ∧ Elected config rs tip stored peak ∧
      m.syncedProof? = some w ∧ m.peak? = some peak := by
  have hsynced : ∀ rs tip, (Chain.founded config w rs tip).syncedProof? = some w := fun _ tip =>
    Chain.syncedProof?_reseeded
  cases h with
  | founded hv ht hany hleft =>
    refine ⟨_, _, _, hv, ht, by simpa using hany, .tip ?_, hsynced _ _, peak?_founded⟩
    rintro b rfl
    exact hleft.not_prevails
  | readopted hv ht hany hwins =>
    refine ⟨_, _, _, hv, ht, by simpa using hany, .stored hwins.prevails, ?_, peak?_adopted⟩
    rw [syncedProof?_adopted, hsynced]

/-! ### What an opening leaves -/

/-- **A session that has opened on nothing**: the chain knows of nothing, and the store was read and
not written. -/
structure OpenedBlank (disk : Disk) (s : Session Chain) : Prop where
  blank : s.memory.Blank
  latestTimestamp : s.memory.latestTimestamp = 0
  calls : s.calls = readCalls
  entries : s.disk.entries = disk.entries

/-- **A session that has opened on a stored proof** and has come to a peak: both are held in memory
and stored, the peak anew, if need be, and the proof as it was. -/
structure Restored (w : WeightProof) (peak : HeaderBlock) (disk : Disk) (s : Session Chain) :
    Prop where
  synced : s.memory.syncedProof? = some w
  peak?_eq : s.memory.peak? = some peak
  storedPeak : s.disk.value? HeaderBlock peakKey = .ok (some peak)
  storedProof : s.disk.peek proofKey = disk.peek proofKey
  /-- The proof is read, and no other call is about it. -/
  spared : ∀ call ∈ s.calls, call.key = proofKey → call = .get proofKey

theorem openedBlank_fresh (hmemory : s.memory = fresh config) (hcalls : s.calls = readCalls)
    (hdisk : s.disk = disk.serveAll readCalls) : OpenedBlank disk s where
  blank := hmemory ▸ blank_fresh config
  latestTimestamp := by
    rw [hmemory]
    rfl
  calls := hcalls
  entries := by rw [hdisk, entries_readCalls]

/-- The calls of an opening store nothing but peaks. -/
theorem eq_get_of_mem_calls {call : Call} (h : call ∈ readCalls ++ peaks.map storesPeak)
    (hkey : call.key = proofKey) : call = .get proofKey := by
  have hne : peakKey ≠ proofKey := by decide
  rcases List.mem_append.mp h with h | h
  · rcases List.mem_pair.mp h with rfl | rfl
    · rfl
    · exact absurd hkey hne
  · obtain ⟨b, -, rfl⟩ := List.mem_map.mp h
    exact absurd hkey hne

/-- **What a restart adopts.** Without a stored proof it is nothing at all, whatever peak is stored,
and the store is not written. On a stored proof it is the proof, and the stored peak, if that
prevails over the tip, or else the tip; this is the stored peak then, and the stored proof stays as
it was. -/
theorem load_restores (h : (load v k).result ⟨fresh config, disk, []⟩ = .ok ()) :
    ∃ proof stored, disk.value? WeightProof proofKey = .ok proof ∧
      disk.value? HeaderBlock peakKey = .ok stored ∧
      (proof = none → OpenedBlank disk (opened v k config disk)) ∧
      ∀ w, proof = some w → ∃ rs tip peak, v w config.skipSegments = .ok rs ∧
        w.tip? = some tip ∧ (∃ r ∈ rs, r.hash = tip.hash) ∧ Elected config rs tip stored peak ∧
        Restored w peak disk (opened v k config disk) := by
  -- an open that ends well is told by what was stored, and by what it writes to the key of the peak
  obtain ⟨proof, stored, peaks, written, hproof, hstored, hopening, hcalls, hserved⟩ :=
    (loading_of_opens h).opening
  have hdisk : (opened v k config disk).disk =
      disk.serveAll (readCalls ++ peaks.map storesPeak) := hcalls ▸ disk_opened
  have hpeek : ∀ key, (opened v k config disk).disk.peek key = disk.peekAfter peaks key :=
    peek_of_opening hdisk hserved
  generalize hmemory : (opened v k config disk).memory = m at hopening
  refine ⟨proof, stored, hproof, hstored, ?blank, ?restored⟩
  case blank =>
    rintro rfl
    cases hopening
    exact openedBlank_fresh hmemory hcalls hdisk
  case restored =>
    rintro w rfl
    obtain ⟨rs, tip, peak, hv, ht, hany, helected, hsynced, hpeak⟩ := hopening.elected
    refine ⟨rs, tip, peak, hv, ht, hany, helected, ?_, ?_, ?_, ?_, ?_⟩
    · rw [hmemory, hsynced]
    · rw [hmemory, hpeak]
    · rw [hopening.value?_peak hstored (hpeek peakKey), hpeak]
      rfl
    · exact (hpeek proofKey).trans (if_neg (by decide))
    · intro call hcall
      exact eq_get_of_mem_calls (hcalls ▸ hcall)

end Chain

namespace Sample

/-- A store with a peak and without a proof. -/
def headless : Disk := ({} : Disk).write peakKey (Stored.encode rival)

theorem value?_proof_headless : headless.value? WeightProof proofKey = .ok none := by
  have hpeek : headless.peek proofKey = none := by
    rw [headless, Disk.peek_write, if_neg (by decide)]
    rfl
  simp [Disk.value?, hpeek]

end Sample

/-- A stored peak that outweighs the tip of the stored proof is adopted again. Without a proof the
same peak is not. -/
theorem Chain.load_restores_ahead :
    Restored Sample.lighter Sample.rival Sample.ahead
        (opened Sample.lenient Sample.accepting {} Sample.ahead) ∧
      OpenedBlank Sample.headless (opened Sample.lenient Sample.accepting {} Sample.headless) := by
  have hstored : (Sample.headless).value? HeaderBlock peakKey = .ok (some Sample.rival) := by
    refine Disk.value?_of_peek ?_ Sample.rival.decode?_encode
    rw [Sample.headless, Disk.peek_write, if_pos rfl]
  -- both opens end well: the readopted peak outweighs the tip, and without a proof there is nothing
  -- to do
  have hahead : (load Sample.lenient Sample.accepting).result ⟨fresh {}, Sample.ahead, []⟩ =
      .ok () := by
    have hopening : Opening Sample.accepting Sample.lenient {} (some Sample.lighter)
        (some Sample.rival) _ _ _ := .readopted rfl rfl (by decide) Sample.wins_ahead
    exact (hopening.opened Sample.value?_proof_ahead Sample.value?_peak_ahead
      (Sample.serves_ahead.accepts _)).1
  have hheadless : (load Sample.lenient Sample.accepting).result
      ⟨fresh {}, Sample.headless, []⟩ = .ok () := by
    have hopening : Opening Sample.accepting Sample.lenient {} none (some Sample.rival) _ _ _ :=
      .blank _
    have hserves : Sample.headless.Serves := fun _ _ => rfl
    exact (hopening.opened Sample.value?_proof_headless hstored (hserves.accepts _)).1
  refine ⟨?_, ?_⟩
  · obtain ⟨proof, stored, hproof, hpeak, -, hrestored⟩ := load_restores hahead
    cases Sample.value?_proof_ahead.symm.trans hproof
    cases Sample.value?_peak_ahead.symm.trans hpeak
    obtain ⟨rs, tip, peak, hv, ht, -, helected, hleft⟩ := hrestored _ rfl
    cases hv
    cases ht
    -- the stored peak prevails, which leaves one of the two ways
    have hprevails : Prevails {} ([Sample.root, Sample.rival, Sample.child].map Sample.record)
        Sample.child Sample.rival :=
      ⟨by decide, Sample.record Sample.rival, Sample.record Sample.child, by decide, by decide,
        by decide⟩
    cases helected with
    | stored => exact hleft
    | tip hnot => exact absurd hprevails (hnot _ rfl)
  · obtain ⟨proof, stored, hproof, -, hblank, -⟩ := load_restores hheadless
    cases Sample.value?_proof_headless.symm.trans hproof
    exact hblank rfl

end HeaderChain
