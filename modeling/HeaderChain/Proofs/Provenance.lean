import HeaderChain.Proofs.Era
import HeaderChain.Proofs.Journal

/-!
# Where everything comes from

Nothing gets into a chain but by one of two ways: a record is built of a block that the validator
has accepted, with the parameters in force for it when it was offered, or it comes with a weight
proof that was adopted. Nothing is asked of the collaborators, so what they let in is all that can
be said.

* `Chain.Admitted` — a record was built of an accepted block; `Chain.AdoptedProof` — a proof was
  adopted in an era, with these records; `Chain.Vouched` — a record has come in one of these ways;
* `Chain.VouchedPeak` — where a peak comes from;
* `Chain.Provenance` — all that is in memory has come so, and every request keeps that;
* `Chain.Era.provenance` — so it is in every session of an era. The canonical map may name records
  that were evicted since: these were inscribed (`Chain.Inscribed`), and what is inscribed is
  vouched for as well.
-/

namespace HeaderChain

namespace Chain

open Procedure

variable {k : Consensus} {v : Verifier} {config : Config} {c m : Chain} {d : Disk}
  {cs : List Call} {b tip peak : HeaderBlock} {r : BlockRecord} {rs written : List BlockRecord}
  {w : WeightProof} {proof : Option WeightProof} {stored : Option HeaderBlock}
  {peaks : List HeaderBlock} {records : Option (List BlockRecord)} {s : Session Chain}
  {q : Request} {start : Start} {steps : List (Session Chain × Request)}

/-! ### How records come in -/

/-- **A record was built of an accepted block**: the validator was asked with the parameters in
force for the block when it was offered, and has answered with the iterations that the builder was
given. -/
def Admitted (k : Consensus) (b : HeaderBlock) (s : Session Chain) (r : BlockRecord) : Prop :=
  ∃ p asked iters, InForce k b s.memory p asked ∧
    k.validate s.memory.config.constants s.memory.index b p = .ok (some iters) ∧
    k.build s.memory.config.constants s.memory.index iters b = .ok r ∧
    s.journal ++ questions s.memory b p iters asked <+: ((offer k b).after s).journal

/-- **A proof was adopted in an era**, with these records: the era began with it, or a request has
brought it. -/
inductive AdoptedProof (start : Start) (steps : List (Session Chain × Request)) (w : WeightProof)
    (rs : List BlockRecord) : Prop
  | opening {v : Verifier} {k : Consensus} {config : Config} {disk : Disk}
    (hstart : start = .opened v k config disk)
    (hstored : disk.value? WeightProof proofKey = .ok (some w))
    (hv : v w config.skipSegments = .ok rs) : AdoptedProof start steps w rs
  | taken {s : Session Chain} {q : Request} (hstep : (s, q) ∈ steps) (h : q.Takes s w rs) :
    AdoptedProof start steps w rs

/-- **A record that is vouched for** by what has happened in an era. -/
inductive Vouched (start : Start) (steps : List (Session Chain × Request)) (r : BlockRecord) : Prop
  | attested {w : WeightProof} {rs : List BlockRecord} (h : AdoptedProof start steps w rs)
    (hr : r ∈ rs) : Vouched start steps r
  | built {k : Consensus} {b : HeaderBlock} {s : Session Chain}
    (hstep : (s, .offer k b) ∈ steps) (h : Admitted k b s r) : Vouched start steps r

/-- **A peak that is vouched for**: it was offered, accepted and taken, or it is the tip of a proof
that was adopted, or it was found in the store when the chain was opened, and a record of its hash
came with the proof that was found there. -/
inductive VouchedPeak (start : Start) (steps : List (Session Chain × Request))
    (peak : HeaderBlock) : Prop
  | offered {k : Consensus} {s : Session Chain} {r : BlockRecord}
    (hstep : (s, .offer k peak) ∈ steps) (h : Admitted k peak s r)
    (hresult : (offer k peak).result s = .ok .newPeak) : VouchedPeak start steps peak
  | tip {w : WeightProof} {rs : List BlockRecord} (h : AdoptedProof start steps w rs)
    (ht : w.tip? = some peak) : VouchedPeak start steps peak
  | readopted {v : Verifier} {k : Consensus} {config : Config} {disk : Disk} {r : BlockRecord}
    (hstart : start = .opened v k config disk)
    (hstored : disk.value? HeaderBlock peakKey = .ok (some peak)) (h : Vouched start [] r)
    (hhash : r.hash = peak.hash) : VouchedPeak start steps peak

/-- A valid block is an accepted one. -/
theorem Validated.admitted (hr : Validated k b s.memory r) : Admitted k b s r := by
  obtain ⟨hnew, p, iters, hp, hv, hb⟩ := hr
  obtain ⟨asked, hforce⟩ := exists_inForce hp
  have hvalid := validate_of_verdict hv
  -- the journal has the questions in the order in which the chain asks them
  exact ⟨p, asked, iters, hforce, hvalid, hb, journal_offer hnew hforce hvalid hb⟩

/-! ### What was vouched for stays so -/

theorem AdoptedProof.cons (h : AdoptedProof start steps w rs) (step : Session Chain × Request) :
    AdoptedProof start (step :: steps) w rs := by
  cases h with
  | opening hstart hstored hv => exact .opening hstart hstored hv
  | taken hstep h => exact .taken (List.mem_cons_of_mem _ hstep) h

theorem Vouched.cons (h : Vouched start steps r) (step : Session Chain × Request) :
    Vouched start (step :: steps) r := by
  cases h with
  | attested h hr => exact .attested (h.cons step) hr
  | built hstep h => exact .built (List.mem_cons_of_mem _ hstep) h

theorem VouchedPeak.cons (h : VouchedPeak start steps peak) (step : Session Chain × Request) :
    VouchedPeak start (step :: steps) peak := by
  cases h with
  | offered hstep h hresult => exact .offered (List.mem_cons_of_mem _ hstep) h hresult
  | tip h ht => exact .tip (h.cons step) ht
  | readopted hstart hstored h hhash => exact .readopted hstart hstored h hhash

/-- **All that is in memory is vouched for**: the records that are indexed, and the peak. -/
structure Provenance (start : Start) (steps : List (Session Chain × Request)) (c : Chain) :
    Prop where
  records : c.index.All (Vouched start steps)
  peak : ∀ peak, c.peak? = some peak → VouchedPeak start steps peak

theorem Provenance.cons (h : Provenance start steps c) (step : Session Chain × Request) :
    Provenance start (step :: steps) c where
  records x r hr := (h.records x r hr).imp_right (·.cons step)
  peak peak hpeak := (h.peak peak hpeak).cons step

/-- The records on a path are the one it starts from and others that are indexed. -/
theorem of_mem_path {P : BlockRecord → Prop} {floor : Height} {path : List BlockRecord}
    (hc : c.index.All P) (hr : P r) (hpath : c.index.pathDown floor r = .ok path) :
    ∀ x ∈ path, P x := by
  intro x hx
  obtain rfl | ⟨y, hy⟩ := (Index.walk_of_walkDown hpath).mem hx
  · exact hr
  · exact (hc y x hy).2

/-! ### Opening -/

/-- **A chain that is founded on the stored proof** has its records and no others. -/
theorem vouched_founded {disk : Disk} (hproof : disk.value? WeightProof proofKey = .ok (some w))
    (hv : v w config.skipSegments = .ok rs) (tip : HeaderBlock) :
    (founded config w rs tip).index.All (Vouched (.opened v k config disk) []) ∧
      ∀ r ∈ rs, Vouched (.opened v k config disk) [] r := by
  have hrs : ∀ r ∈ rs, Vouched (.opened v k config disk) [] r :=
    fun r => .attested (.opening rfl hproof hv)
  have hempty :
      ((fresh config).withProof w true).index.All (Vouched (.opened v k config disk) []) :=
    (Index.lasts_all _).empty
  exact ⟨lasts_reseeded (Index.lasts_all _) hempty hrs, hrs⟩

/-- **Whatever a chain opens with came with the stored proof.** -/
theorem Opening.vouched {disk : Disk} (h : Opening k v config proof stored m peaks written)
    (hproof : disk.value? WeightProof proofKey = .ok proof) :
    m.index.All (Vouched (.opened v k config disk) []) ∧
      ∀ r ∈ written, Vouched (.opened v k config disk) [] r := by
  cases h with
  | blank => exact ⟨(Index.lasts_all _).empty, List.forall_mem_nil _⟩
  | founded hv => exact vouched_founded hproof hv _
  | readopted hv _ _ hwins =>
    -- the stored peak is adopted by a record that came with the proof
    obtain ⟨hrecords, hrs⟩ := vouched_founded hproof hv _
    have hr := (hrecords _ _ hwins.record).2
    refine ⟨lasts_adopted (Index.lasts_all _) hrecords hr _ _, ?_⟩
    exact List.forall_mem_append.mpr ⟨hrs, of_mem_path hrecords hr hwins.path⟩

theorem Opening.vouchedPeak {disk : Disk} (h : Opening k v config proof stored m peaks written)
    (hproof : disk.value? WeightProof proofKey = .ok proof)
    (hstored : disk.value? HeaderBlock peakKey = .ok stored) (hpeak : m.peak? = some peak) :
    VouchedPeak (.opened v k config disk) [] peak := by
  cases h with
  | blank => cases hpeak
  -- the tip of the stored proof
  | founded hv ht =>
    cases peak?_founded.symm.trans hpeak
    exact .tip (.opening rfl hproof hv) ht
  -- or the stored peak, whose record the proof has brought
  | readopted hv _ _ hwins =>
    cases peak?_adopted.symm.trans hpeak
    obtain ⟨hhash, hr⟩ := (vouched_founded hproof hv _).1 _ _ hwins.record
    exact .readopted rfl hstored hr hhash

/-! ### Requests -/

/-- **Offering a block** keeps that: a record that comes in was built of the block, and a new peak
is the block. -/
theorem Provenance.offered {a : Except ChainError Outcome}
    (hc : Provenance start steps s.memory) (hresult : (offer k b).result s = a)
    (h : Offered k b s.memory s.disk a m cs) :
    Provenance start ((s, .offer k b) :: steps) m where
  records := by
    refine lasts_offered (Index.lasts_all _) (hc.cons _).records (fun r hr => ?_) h
    exact .built List.mem_cons_self hr.admitted
  -- on every other way the peak stays, and is vouched for by what came before
  peak peak hpeak := by
    cases h with
    | newPeak hr =>
      cases peak?_adopted.symm.trans hpeak
      exact .offered List.mem_cons_self hr.admitted hresult
    | _ => exact (hc.peak peak hpeak).cons _

/-- **Offering a proof** keeps that: if it is taken, the records that come in are its own, and the
new peak is its tip. -/
theorem Provenance.proofOffered {a : Except ChainError Bool}
    (hc : Provenance start steps s.memory) (hresult : (offerProof v w records).result s = a)
    (h : ProofOffered v w s.memory s.disk records a m cs) :
    Provenance start ((s, .offerProof v w records) :: steps) m := by
  have hkept := hc.cons (s, .offerProof v w records)
  cases h with
  | empty | tooLight | rejected => exact hkept
  | seeding _ _ hr hs =>
    cases hs with
    | empty | tipMissing | proofRefused | peakRefused => exact ⟨hkept.records, hkept.peak⟩
    | @seeded tip ht =>
      -- the one way on which the proof is taken
      have hadopted : AdoptedProof start ((s, .offerProof v w records) :: steps) w _ :=
        .taken List.mem_cons_self ⟨hresult, hr⟩
      have hrecords : (s.memory.withProof w true).index.All _ := hkept.records
      refine ⟨lasts_reseeded (Index.lasts_all _) hrecords fun r => .attested hadopted, ?_⟩
      intro peak hpeak
      cases peak?_reseeded.symm.trans hpeak
      exact .tip hadopted ht

/-- **Every request keeps that**, but for a reset that succeeds. -/
theorem Provenance.asked (hc : Provenance start steps s.memory) (hq : ¬q.EndsEra s) :
    Provenance start ((s, q) :: steps) (q.after s).memory := by
  refine q.memory_cases (P := Provenance start ((s, q) :: steps)) s ?_ ?_ ?_
  · rintro k b a m cs rfl hresult h
    exact hc.offered hresult h
  · rintro v w records a m cs rfl hresult h
    exact hc.proofOffered hresult h
  · rintro a m cs rfl hresult h
    -- a reset that fails has cleared the proof at most
    have hkept := hc.cons (s, .reset)
    cases h with
    | proofRefused | peakRefused => exact ⟨hkept.records, hkept.peak⟩
    | done => exact absurd ⟨rfl, hresult⟩ hq

/-- What a request puts on the canonical chain is vouched for afterwards. -/
theorem Request.Inscribes.vouched (h : q.Inscribes s rs) (hc : Provenance start steps s.memory) :
    ∀ r ∈ rs, Vouched start ((s, q) :: steps) r := by
  cases h with
  | newPeak _ hbuilt _ _ hpath =>
    exact of_mem_path (hc.cons _).records (.built List.mem_cons_self hbuilt.admitted) hpath
  | taken htaken => exact fun r => .attested (.taken List.mem_cons_self htaken)

/-! ### Eras -/

/-- **In every session of an era** all that is in memory is vouched for. -/
theorem Era.traced (h : Era start steps s) : Provenance start steps s.memory := by
  -- the induction is on the era, and each request adds to the evidence, never takes from it
  induction h with
  | opened h =>
    obtain ⟨proof, stored, peaks, written, hproof, hstored, hopening, -⟩ := exists_opening h
    exact ⟨(hopening.vouched hproof).1, fun peak => hopening.vouchedPeak hproof hstored⟩
  | asked _ hq ih => exact ih.asked hq
  | wasReset _ h =>
    rw [memory_of_reset h]
    exact ⟨(Index.lasts_all _).empty, fun peak hpeak => nomatch hpeak⟩

/-- **So is all that was ever put on the canonical chain.** -/
theorem Era.vouched_of_inscribed (h : Era start steps s) (hr : Inscribed start steps r) :
    Vouched start steps r := by
  induction h with
  | opened =>
    obtain ⟨⟨⟩, hproof, -, hopening, hr⟩ | ⟨⟨⟩⟩ := hr
    exact (hopening.vouched hproof).2 r hr
  | asked hs _ ih =>
    obtain hr | ⟨rs, hinscribes, hr⟩ := inscribed_cons.mp hr
    · exact (ih hr).cons _
    · exact hinscribes.vouched hs.traced r hr
  | wasReset => obtain ⟨⟨⟩⟩ | ⟨⟨⟩⟩ := hr

/-- **Nothing unvalidated gets in**: every record that is indexed is vouched for and lies under its
own hash, every height is mapped to the hash of a record of that height that is vouched for, whether
it is still indexed or not, and so is the peak. -/
theorem Era.provenance (h : Era start steps s) :
    s.memory.index.All (Vouched start steps) ∧
      (∀ height x, s.memory.index.hashAt? height = some x →
        ∃ r, Vouched start steps r ∧ r.height = height ∧ r.hash = x) ∧
      ∀ peak, s.memory.peak? = some peak → VouchedPeak start steps peak := by
  refine ⟨h.traced.records, fun height x hx => ?_, h.traced.peak⟩
  -- a height is mapped to what was written there, however long ago
  obtain ⟨written, hmem, hrewrites, -⟩ := h.exists_written
  rcases hrewrites.mem hx with ⟨r, hr, hheight, hhash⟩ | hx
  · exact ⟨r, h.vouched_of_inscribed ((hmem r).mp hr), hheight, hhash⟩
  · cases (Index.hashAt?_empty height).symm.trans hx

end Chain

set_option maxRecDepth 4000 in
/-- Both blocks came in when they were offered: the older one, which is the peak now, and the one
whose place it has taken, which is still indexed. -/
theorem Chain.provenance_aged :
    Sample.aged.memory.peak? = some Sample.elder ∧
      VouchedPeak (.opened Sample.verifier Sample.accepting {} {}) Sample.aging Sample.elder ∧
      ∃ r, Sample.aged.memory.index.record? Sample.root.hash = some r ∧
        Vouched (.opened Sample.verifier Sample.accepting {} {}) Sample.aging r := by
  obtain ⟨hrecords, -, hpeak⟩ := Sample.era_aged.provenance
  have hfacts : (Sample.aged.memory.peak?,
      Sample.aged.memory.index.contains Sample.root.hash) = (some Sample.elder, true) := by cbv
  simp only [Prod.mk.injEq] at hfacts
  obtain ⟨helder, hroot⟩ := hfacts
  obtain ⟨r, hr⟩ := Index.contains_iff.mp hroot
  exact ⟨helder, hpeak _ helder, r, hr, (hrecords _ r hr).2⟩

end HeaderChain
