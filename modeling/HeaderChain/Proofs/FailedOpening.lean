import HeaderChain.Proofs.Opening

/-!
# A chain that cannot be opened

Opening a chain writes the tip of the stored proof into the slot of the peak before it tries to
adopt the stored peak again. It has read that peak by then, but has it in its own hands only: if the
second step fails, the stored peak is lost.

* `Chain.Founds` — the first step succeeds: both slots can be read, the proof is verified, its tip
  is among the records, and the store takes the tip. All of this is settled by what is stored, by
  the verifier's answer and by the first three calls;
* `Chain.Loading.entries_of_not_founds`, `Chain.Loading.of_founds` — a failure in the first step has
  changed nothing; after it, what is left is the second step;
* `Chain.load_failed` — so a failed opening leaves the store as it was exactly if the first step has
  failed. If not, the peak that was stored is replaced by the tip, and every later opening that
  succeeds on what is left ends with the tip.
-/

namespace HeaderChain

namespace Chain

open Procedure

variable {k : Consensus} {v : Verifier} {config : Config} {c m : Chain} {d disk : Disk}
  {cs : List Call} {a : Except ChainError Unit} {e : ChainError} {tip : HeaderBlock}
  {w : WeightProof} {rs : List BlockRecord} {stored : Option HeaderBlock}

/-- **Opening gets as far as founding the chain** on the stored proof: the tip of the proof is
written into the slot of the peak. -/
structure Founds (v : Verifier) (config : Config) (d : Disk) (w : WeightProof)
    (rs : List BlockRecord) (tip : HeaderBlock) : Prop where
  proofServed : d.refusal? (.get proofKey) = none
  peakServed : (d.serveAll [.get proofKey]).refusal? (.get peakKey) = none
  proof : d.value? WeightProof proofKey = .ok (some w)
  peak : ∃ stored, d.value? HeaderBlock peakKey = .ok stored
  verified : v w config.skipSegments = .ok rs
  ends : w.tip? = some tip
  listed : rs.any (·.hash == tip.hash) = true
  tipServed : (d.serveAll readCalls).refusal? (storesPeak tip) = none

/-! ### Failures in the first step -/

/-- A proof that is stored already and cannot be seeded leaves the store alone. -/
theorem Seeding.entries_of_error (h : Seeding w rs c d false (.error e) m cs) :
    (d.serveAll cs).entries = d.entries := by
  cases h with
  | empty | tipMissing => rfl
  | proofRefused _ _ hpersist => cases hpersist
  | peakRefused _ _ _ hd => exact Disk.entries_serve_of_refusal hd

/-- **Before the tip is written** nothing is. -/
theorem Loading.entries_of_not_founds (h : Loading k v (fresh config) d a m cs)
    (hnot : ∀ w rs tip, ¬Founds v config d w rs tip) :
    (d.serveAll cs).entries = d.entries := by
  -- the only write before a failure is that of the tip, which would found the chain
  cases h with
  | proofRefused | proofMalformed => exact Disk.entries_serve_get d proofKey
  | peakRefused | peakMalformed | rejected => exact entries_readCalls d
  | unseeded _ _ hr =>
    obtain ⟨-, -, rfl⟩ := hr.eq_of_leftAside leftAside_fresh
    rw [List.append_nil]
    exact entries_readCalls d
  | unseedable _ _ hs =>
    rw [Disk.serveAll_append, hs.entries_of_error]
    exact entries_readCalls d
  | seeded hw hp hv hs _ hd hd' =>
    cases hs with
    | seeded ht hany _ htip => exact absurd ⟨hd, hd', hw, ⟨_, hp⟩, hv, ht, hany, htip⟩ (hnot _ _ _)

/-! ### Failures in the second step -/

/-- **Once the tip is written** the stored peak is left, for a chain that was founded on the
proof. -/
theorem Loading.of_founds (h : Loading k v (fresh config) d a m cs)
    (hfounds : Founds v config d w rs tip) :
    ∃ stored cs', d.value? HeaderBlock peakKey = .ok stored ∧
      Readopting k (founded config w rs tip) (d.serveAll (readCalls ++ [storesPeak tip])) stored a m
        cs' ∧
      cs = readCalls ++ [storesPeak tip] ++ cs' := by
  obtain ⟨stored, hstored⟩ := hfounds.peak
  have hseeds : Seeding w rs ((fresh config).withProof w true) (d.serveAll readCalls) false (.ok ())
      (founded config w rs tip) [storesPeak tip] :=
    .seeded hfounds.ends hfounds.listed (by simp) hfounds.tipServed
  -- what founds the chain is served and accepted, which only the last way is compatible with
  cases h with
  | proofRefused hd => cases hfounds.proofServed.symm.trans hd
  | proofMalformed _ hw | unseeded hw => cases hfounds.proof.symm.trans hw
  | peakRefused _ hd => cases hfounds.peakServed.symm.trans hd
  | peakMalformed _ _ hp => cases hstored.symm.trans hp
  | rejected hw hv =>
    cases hfounds.proof.symm.trans hw
    cases hfounds.verified.symm.trans hv
  | unseedable hw hv hs =>
    cases hfounds.proof.symm.trans hw
    cases hfounds.verified.symm.trans hv
    cases (hs.unique hseeds).1
  | seeded hw hp hv hs hr =>
    cases hfounds.proof.symm.trans hw
    cases hfounds.verified.symm.trans hv
    obtain ⟨-, rfl, rfl⟩ := hs.unique hseeds
    exact ⟨_, _, hp, hr, rfl⟩

/-- A peak that cannot be adopted again leaves the store alone. -/
theorem Readopting.entries_of_error (h : Readopting k c d stored (.error e) m cs) :
    (d.serveAll cs).entries = d.entries := by
  cases h with
  | unresolved | pathless => rfl
  | refused _ _ _ _ hd => exact Disk.entries_serve_of_refusal hd

/-- It is not the peak already. -/
theorem Readopting.exists_of_error (h : Readopting k c d stored (.error e) m cs)
    (hp : c.peak? = some tip) : ∃ b, stored = some b ∧ b.hash ≠ tip.hash := by
  cases stored with
  | none => cases h
  | some b =>
    refine ⟨b, rfl, fun hh => ?_⟩
    cases (h.eq_of_leftAside (leftAside_of_peak hp hh.symm)).1

/-- A peak whose standing cannot be found out is one. -/
theorem Readopting.eq_of_unresolved {b : HeaderBlock} {r : BlockRecord}
    (h : Readopting k c d (some b) a m cs) (hr : c.index.record? b.hash = some r)
    (hs : c.standing? k r = .error e) : a = .error e := by
  cases h with
  | current hp hh => cases hs.symm.trans (standing?_self hp (hh ▸ hr))
  | unknown hnone => cases hr.symm.trans hnone
  | unresolved hr' hs' =>
    cases hr.symm.trans hr'
    exact congrArg _ (Except.error.inj (hs'.symm.trans hs))
  | tooLight hr' hs' | pathless hr' hs' | refused hr' hs' | readopted hr' hs' =>
    cases hr.symm.trans hr'
    cases hs.symm.trans hs'

/-! ### What is left of the store -/

/-- **With the tip of its proof as the stored peak** a chain opens with the tip, if it opens. -/
theorem Opening.peak?_of_tip {peaks : List HeaderBlock} {written : List BlockRecord}
    (h : Opening k v config (some w) (some tip) m peaks written) (ht : w.tip? = some tip) :
    m.peak? = some tip := by
  cases h with
  | founded _ ht' =>
    cases ht.symm.trans ht'
    exact peak?_founded
  | readopted _ ht' _ hwins =>
    cases ht.symm.trans ht'
    exact absurd rfl (hwins.hash_ne peak?_founded)

/-- **What a failed opening leaves in the store**, if it had founded the chain. -/
theorem peek_of_founds (h : (load v k).result ⟨fresh config, disk, []⟩ = .error e)
    (hfounds : Founds v config disk w rs tip) :
    (∃ b, disk.value? HeaderBlock peakKey = .ok (some b) ∧ b.hash ≠ tip.hash) ∧
      ∀ key, (opened v k config disk).disk.peek key = disk.peekAfter [tip] key := by
  have hloading := loading_opened v k config disk
  rw [h] at hloading
  obtain ⟨stored, cs', hstored, hr, hcalls⟩ := hloading.of_founds hfounds
  obtain ⟨b, rfl, hne⟩ := hr.exists_of_error peak?_founded
  refine ⟨⟨b, hstored, hne⟩, fun key => ?_⟩
  -- the tip was served, and what failed after it has changed no entry
  have haccepts : (disk.serveAll readCalls).Accepts ([tip].map storesPeak) :=
    Disk.accepts_cons.mpr ⟨hfounds.tipServed, Disk.accepts_nil _⟩
  have hdisk : (opened v k config disk).disk =
      (disk.serveAll (readCalls ++ [storesPeak tip])).serveAll cs' := by
    rw [disk_opened, hcalls, Disk.serveAll_append]
  rw [hdisk, Disk.peek_congr hr.entries_of_error]
  exact peek_of_opening rfl haccepts key

theorem entries_of_not_founds (hnot : ∀ w rs tip, ¬Founds v config disk w rs tip) :
    (opened v k config disk).disk.entries = disk.entries := by
  rw [disk_opened]
  exact (loading_opened v k config disk).entries_of_not_founds hnot

/-- **A chain that cannot be opened**, for whatever reason. All that can have changed in the store
is the peak, and it has changed exactly if the chain had been founded on the stored proof. The tip
of the proof has then taken the place of the peak that was stored, and whoever opens a chain on what
is left, with whatever collaborators, opens it with the tip. -/
theorem load_failed (h : (load v k).result ⟨fresh config, disk, []⟩ = .error e) :
    ((opened v k config disk).disk.entries = disk.entries ↔
        ∀ w rs tip, ¬Founds v config disk w rs tip) ∧
      (∀ key, key ≠ peakKey → (opened v k config disk).disk.peek key = disk.peek key) ∧
      ∀ w rs tip, Founds v config disk w rs tip →
        (∃ b, disk.value? HeaderBlock peakKey = .ok (some b) ∧ b.hash ≠ tip.hash) ∧
        (opened v k config disk).disk.value? HeaderBlock peakKey = .ok (some tip) ∧
        ∀ (v' : Verifier) (k' : Consensus) (config' : Config) (disk' : Disk),
          disk'.entries = (opened v k config disk).disk.entries →
          (load v' k').result ⟨fresh config', disk', []⟩ = .ok () →
          (opened v' k' config' disk').memory.peak? = some tip := by
  -- wherever the stored proof founds a chain, its tip was stored before the failure
  have htip : ∀ w rs tip, Founds v config disk w rs tip →
      (opened v k config disk).disk.value? HeaderBlock peakKey = .ok (some tip) := by
    intro w rs tip hfounds
    refine Disk.value?_of_peek ?_ tip.decode?_encode
    rw [(peek_of_founds h hfounds).2, Disk.peekAfter, if_pos rfl]
    rfl
  refine ⟨⟨fun hsame w rs tip hfounds => ?_, entries_of_not_founds⟩, fun key hkey => ?_,
    fun w rs tip hfounds => ⟨(peek_of_founds h hfounds).1, htip w rs tip hfounds, ?_⟩⟩
  · -- the tip would be the peak that was stored
    obtain ⟨⟨b, hb, hne⟩, -⟩ := peek_of_founds h hfounds
    rw [← Disk.value?_congr hsame, htip w rs tip hfounds] at hb
    cases hb
    exact hne rfl
  · -- no other key is written to, whether or not the tip was
    by_cases hfounds : ∃ w rs tip, Founds v config disk w rs tip
    · obtain ⟨w, rs, tip, hfounds⟩ := hfounds
      rw [(peek_of_founds h hfounds).2, Disk.peekAfter, if_neg hkey]
    · refine Disk.peek_congr (entries_of_not_founds fun w rs tip hf => ?_) key
      exact hfounds ⟨w, rs, tip, hf⟩
  · intro v' k' config' disk' hentries hopens
    -- the next open that ends well finds the same proof, and the tip as the stored peak
    obtain ⟨proof, stored, peaks, written, hproof, hstored, hopening, -⟩ := exists_opening hopens
    have hproof' : disk'.value? WeightProof proofKey = .ok (some w) := by
      have hsame : disk'.peek proofKey = disk.peek proofKey := by
        rw [Disk.peek_congr hentries, (peek_of_founds h hfounds).2, Disk.peekAfter,
          if_neg (by decide)]
      rw [Disk.value?_congr_peek hsame, hfounds.proof]
    rw [Disk.value?_congr hentries, htip w rs tip hfounds] at hstored
    cases hproof.symm.trans hproof'
    cases hstored
    exact hopening.peak?_of_tip hfounds.ends

end Chain

/-! ### A stored peak that is lost -/

namespace Sample

/-- A verifier that does not know the block from which the two branches part. -/
def forgetful : Verifier := fun _ _ => .ok ([rival, child].map record)

theorem founds_forgetful :
    Chain.Founds forgetful {} ahead lighter ([rival, child].map record) child where
  proofServed := serves_ahead.refusal? _
  peakServed := (serves_ahead.serveAll _).refusal? _
  proof := value?_proof_ahead
  peak := ⟨some rival, value?_peak_ahead⟩
  verified := rfl
  ends := rfl
  listed := by decide
  tipServed := (serves_ahead.serveAll _).refusal? _

set_option maxRecDepth 8000 in
/-- The heavier block is known, but not where its branch parts from the other one. -/
theorem standing?_forgetful :
    (Chain.founded {} lighter ([rival, child].map record) child).index.record? rival.hash =
        some (record rival) ∧
      (Chain.founded {} lighter ([rival, child].map record) child).standing? accepting
        (record rival) = .error (.blockNotFound root.hash) := by
  constructor <;> cbv

theorem result_forgetful : (Chain.load forgetful accepting).result ⟨Chain.fresh {}, ahead, []⟩ =
    .error (.blockNotFound root.hash) := by
  have hloading := Chain.loading_opened forgetful accepting {} ahead
  obtain ⟨stored, cs', hstored, hr, -⟩ := hloading.of_founds founds_forgetful
  cases value?_peak_ahead.symm.trans hstored
  exact hr.eq_of_unresolved standing?_forgetful.1 standing?_forgetful.2

end Sample

namespace Chain

/-- The stored peak cannot be adopted again, and is not the stored peak any more. -/
theorem stored_peak_lost :
    (load Sample.forgetful Sample.accepting).result ⟨fresh {}, Sample.ahead, []⟩ =
        .error (.blockNotFound Sample.root.hash) ∧
      Sample.ahead.peek peakKey = some (Stored.encode Sample.rival) ∧
      (opened Sample.forgetful Sample.accepting {} Sample.ahead).disk.peek peakKey =
        some (Stored.encode Sample.child) ∧
      Stored.encode Sample.child ≠ Stored.encode Sample.rival := by
  refine ⟨Sample.result_forgetful, ?_, ?_, fun hsame => ?_⟩
  · rw [Sample.ahead, Disk.peek_write, if_pos rfl]
  · rw [(peek_of_founds Sample.result_forgetful Sample.founds_forgetful).2]
    rfl
  · have hdecode := Sample.child.decode?_encode
    rw [hsame, Sample.rival.decode?_encode] at hdecode
    exact absurd hdecode (by decide)

/-- Before, the stored peak would have been adopted again; now the chain opens with the tip. -/
theorem load_failed_forgetful :
    (opened Sample.lenient Sample.accepting {} Sample.ahead).memory.peak? = some Sample.rival ∧
      (opened Sample.lenient Sample.accepting {}
        (opened Sample.forgetful Sample.accepting {} Sample.ahead).disk).memory.peak? =
          some Sample.child := by
  have hbefore : Opening Sample.accepting Sample.lenient {} (some Sample.lighter)
      (some Sample.rival) _ _ _ := .readopted rfl rfl (by decide) Sample.wins_ahead
  obtain ⟨-, hmemory, -⟩ := hbefore.opened Sample.value?_proof_ahead Sample.value?_peak_ahead
    (Sample.serves_ahead.accepts _)
  have hafter : Opening Sample.accepting Sample.lenient {} (some Sample.lighter)
      (some Sample.child) _ _ _ :=
    .founded rfl rfl (by decide) (leftAside_of_peak peak?_founded rfl)
  -- what the failed opening has left
  obtain ⟨-, hothers, hfounded⟩ := load_failed Sample.result_forgetful
  obtain ⟨-, hstored, hlater⟩ := hfounded _ _ _ Sample.founds_forgetful
  have hproof : (opened Sample.forgetful Sample.accepting {} Sample.ahead).disk.value?
      WeightProof proofKey = .ok (some Sample.lighter) :=
    (Disk.value?_congr_peek (hothers proofKey (by decide))).trans Sample.value?_proof_ahead
  have hserves : (opened Sample.forgetful Sample.accepting {} Sample.ahead).disk.Serves := by
    rw [disk_opened]
    exact Sample.serves_ahead.serveAll _
  refine ⟨hmemory ▸ peak?_adopted, hlater _ _ _ _ rfl ?_⟩
  exact (hafter.opened hproof hstored (hserves.accepts _)).1

end Chain

end HeaderChain
