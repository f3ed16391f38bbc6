import HeaderChain.Chain.Seed
import HeaderChain.Proofs.Offer

/-!
# What seeding, opening and resetting come to

The ways through the operations on weight proofs, told as those through an offer are: `Seeding` for
a proof whose records are known, `ProofOffered` for an offered one, `Readopting` and `Loading` for
opening a chain, `Resetting`. Each comes with the statement that there is no other way
(`seed_cases`, `offerProof_cases`, `readopt_cases`, `load_cases`, `reset_cases`).
-/

namespace HeaderChain.Chain

open Procedure

/-- The call that makes a proof the stored one. -/
def storesProof (w : WeightProof) : Call := .set proofKey (Stored.encode w)

variable (k : Consensus) (v : Verifier) (w : WeightProof) (rs : List BlockRecord) (c : Chain)
  (d : Disk)

/-- The chain after a proof was stored, if it is. -/
def withProof (persist : Bool) : Chain :=
  if persist then { c with slots := { c.slots with proof := some w } } else c

/-- The calls that store a proof, if it is. -/
def proofCalls (persist : Bool) : List Call := if persist then [storesProof w] else []

/-- The chain after the records of a proof have replaced the canonical chain. -/
def reseeded (tip : HeaderBlock) : Chain :=
  evicted { c with
    slots := { c.slots with peak := some tip, latestTimestamp := latest c.latestTimestamp rs }
    index := reseed c.index rs } tip.height

/-- What seeding can come to. -/
inductive Seeding (persist : Bool) : Except ChainError Unit → Chain → List Call → Prop
  | empty (h : w.tip? = none) : Seeding persist (.error .emptyProof) c []
  | tipMissing {tip : HeaderBlock} (ht : w.tip? = some tip)
    (hr : rs.any (·.hash == tip.hash) = false) :
    Seeding persist (.error (.tipMissing tip.hash)) c []
  | proofRefused {tip : HeaderBlock} {detail : String} (ht : w.tip? = some tip)
    (hr : rs.any (·.hash == tip.hash) = true) (hp : persist = true)
    (hd : d.refusal? (storesProof w) = some detail) :
    Seeding persist (.error (.store (.database detail))) c [storesProof w]
  | peakRefused {tip : HeaderBlock} {detail : String} (ht : w.tip? = some tip)
    (hr : rs.any (·.hash == tip.hash) = true)
    (hp : persist = true → d.refusal? (storesProof w) = none)
    (hd : (d.serveAll (proofCalls w persist)).refusal? (storesPeak tip) = some detail) :
    Seeding persist (.error (.store (.database detail))) (c.withProof w persist)
      (proofCalls w persist ++ [storesPeak tip])
  | seeded {tip : HeaderBlock} (ht : w.tip? = some tip)
    (hr : rs.any (·.hash == tip.hash) = true)
    (hp : persist = true → d.refusal? (storesProof w) = none)
    (hd : (d.serveAll (proofCalls w persist)).refusal? (storesPeak tip) = none) :
    Seeding persist (.ok ()) ((c.withProof w persist).reseeded rs tip)
      (proofCalls w persist ++ [storesPeak tip])

/-- What offering a proof can come to. -/
inductive ProofOffered (records : Option (List BlockRecord)) :
    Except ChainError Bool → Chain → List Call → Prop
  | empty (h : w.tip? = none) : ProofOffered records (.error .emptyProof) c []
  | tooLight {tip peak : HeaderBlock} (ht : w.tip? = some tip) (hp : c.peak? = some peak)
    (hw : isBetter tip.weight peak.weight = false) : ProofOffered records (.ok false) c []
  | rejected {tip : HeaderBlock} {reason : String} (ht : w.tip? = some tip)
    (hw : ∀ peak, c.peak? = some peak → isBetter tip.weight peak.weight = true)
    (hr : records = none) (hv : v w c.config.skipSegments = .error reason) :
    ProofOffered records (.error (.proofRejected reason)) c []
  | seeding {tip : HeaderBlock} {rs : List BlockRecord} {a : Except ChainError Unit} {m : Chain}
    {cs : List Call} (ht : w.tip? = some tip)
    (hw : ∀ peak, c.peak? = some peak → isBetter tip.weight peak.weight = true)
    (hr : records = some rs ∨ records = none ∧ v w c.config.skipSegments = .ok rs)
    (hs : Seeding w rs c d true a m cs) : ProofOffered records (a.map fun _ => true) m cs

/-- What adopting a stored peak again can come to. -/
inductive Readopting : Option HeaderBlock → Except ChainError Unit → Chain → List Call → Prop
  | absent : Readopting none (.ok ()) c []
  | current {peak now : HeaderBlock} (hp : c.peak? = some now) (hh : now.hash = peak.hash) :
    Readopting (some peak) (.ok ()) c []
  | unknown {peak : HeaderBlock} (hr : c.index.record? peak.hash = none) :
    Readopting (some peak) (.ok ()) c []
  | unresolved {peak : HeaderBlock} {r : BlockRecord} {e : ChainError}
    (hr : c.index.record? peak.hash = some r) (hs : c.standing? k r = .error e) :
    Readopting (some peak) (.error e) c []
  | tooLight {peak : HeaderBlock} {r : BlockRecord} {choice : Choice}
    (hr : c.index.record? peak.hash = some r) (hs : c.standing? k r = .ok choice)
    (hc : choice.changedFrom? r.height = none) : Readopting (some peak) (.ok ()) c []
  | pathless {peak : HeaderBlock} {r : BlockRecord} {choice : Choice} {changedFrom : Height}
    {e : ChainError} (hr : c.index.record? peak.hash = some r)
    (hs : c.standing? k r = .ok choice) (hc : choice.changedFrom? r.height = some changedFrom)
    (hp : c.index.pathDown changedFrom r = .error e) : Readopting (some peak) (.error e) c []
  | refused {peak : HeaderBlock} {r : BlockRecord} {choice : Choice} {changedFrom : Height}
    {path : List BlockRecord} {detail : String} (hr : c.index.record? peak.hash = some r)
    (hs : c.standing? k r = .ok choice) (hc : choice.changedFrom? r.height = some changedFrom)
    (hp : c.index.pathDown changedFrom r = .ok path)
    (hd : d.refusal? (storesPeak peak) = some detail) :
    Readopting (some peak) (.error (.store (.database detail))) c [storesPeak peak]
  | readopted {peak : HeaderBlock} {r : BlockRecord} {choice : Choice} {changedFrom : Height}
    {path : List BlockRecord} (hr : c.index.record? peak.hash = some r)
    (hs : c.standing? k r = .ok choice) (hc : choice.changedFrom? r.height = some changedFrom)
    (hp : c.index.pathDown changedFrom r = .ok path)
    (hd : d.refusal? (storesPeak peak) = none) :
    Readopting (some peak) (.ok ()) (c.adopted peak r changedFrom path) [storesPeak peak]

/-- The two calls that read the slots. -/
def readCalls : List Call := [.get proofKey, .get peakKey]

/-- What opening a chain with nothing in memory can come to. -/
inductive Loading : Except ChainError Unit → Chain → List Call → Prop
  | proofRefused {detail : String} (hd : d.refusal? (.get proofKey) = some detail) :
    Loading (.error (.store (.database detail))) c [.get proofKey]
  | proofMalformed {cause : StoreError} (hd : d.refusal? (.get proofKey) = none)
    (hw : d.value? WeightProof proofKey = .error cause) :
    Loading (.error (.store cause)) c [.get proofKey]
  | peakRefused {proof : Option WeightProof} {detail : String}
    (hw : d.value? WeightProof proofKey = .ok proof)
    (hd : (d.serveAll [.get proofKey]).refusal? (.get peakKey) = some detail) :
    Loading (.error (.store (.database detail))) { c with slots := { c.slots with proof } }
      readCalls
  | peakMalformed {proof : Option WeightProof} {cause : StoreError}
    (hw : d.value? WeightProof proofKey = .ok proof)
    (hd : (d.serveAll [.get proofKey]).refusal? (.get peakKey) = none)
    (hp : d.value? HeaderBlock peakKey = .error cause) :
    Loading (.error (.store cause)) { c with slots := { c.slots with proof } } readCalls
  /-- There is no proof to start from. -/
  | unseeded {peak : Option HeaderBlock} {a : Except ChainError Unit} {m : Chain} {cs : List Call}
    (hw : d.value? WeightProof proofKey = .ok none) (hp : d.value? HeaderBlock peakKey = .ok peak)
    (hr : Readopting k c (d.serveAll readCalls) peak a m cs) : Loading a m (readCalls ++ cs)
  | rejected {w : WeightProof} {peak : Option HeaderBlock} {reason : String}
    (hw : d.value? WeightProof proofKey = .ok (some w))
    (hv : v w c.config.skipSegments = .error reason)
    (hp : d.value? HeaderBlock peakKey = .ok peak) :
    Loading (.error (.proofRejected reason)) (c.withProof w true) readCalls
  | unseedable {w : WeightProof} {peak : Option HeaderBlock} {rs : List BlockRecord}
    {e : ChainError} {m : Chain} {cs : List Call}
    (hw : d.value? WeightProof proofKey = .ok (some w)) (hv : v w c.config.skipSegments = .ok rs)
    (hs : Seeding w rs (c.withProof w true) (d.serveAll readCalls) false (.error e) m cs)
    (hp : d.value? HeaderBlock peakKey = .ok peak) : Loading (.error e) m (readCalls ++ cs)
  | seeded {w : WeightProof} {peak : Option HeaderBlock} {rs : List BlockRecord}
    {a : Except ChainError Unit} {c' m : Chain} {cs cs' : List Call}
    (hw : d.value? WeightProof proofKey = .ok (some w))
    (hp : d.value? HeaderBlock peakKey = .ok peak) (hv : v w c.config.skipSegments = .ok rs)
    (hs : Seeding w rs (c.withProof w true) (d.serveAll readCalls) false (.ok ()) c' cs)
    (hr : Readopting k c' (d.serveAll (readCalls ++ cs)) peak a m cs')
    (hd : d.refusal? (.get proofKey) = none)
    (hd' : (d.serveAll [.get proofKey]).refusal? (.get peakKey) = none) :
    Loading a m (readCalls ++ cs ++ cs')

/-- What resetting can come to. -/
inductive Resetting : Except ChainError Unit → Chain → List Call → Prop
  | proofRefused {detail : String} (hd : d.refusal? (.remove proofKey) = some detail) :
    Resetting (.error (.store (.database detail))) c [.remove proofKey]
  | peakRefused {detail : String} (hd : d.refusal? (.remove proofKey) = none)
    (hp : (d.serveAll [.remove proofKey]).refusal? (.remove peakKey) = some detail) :
    Resetting (.error (.store (.database detail)))
      { c with slots := { c.slots with proof := none } } [.remove proofKey, .remove peakKey]
  | done (hd : d.refusal? (.remove proofKey) = none)
    (hp : (d.serveAll [.remove proofKey]).refusal? (.remove peakKey) = none) :
    Resetting (.ok ()) { c with slots := {}, index := .empty } [.remove proofKey, .remove peakKey]

/-! ### The calls of each operation -/

section Calls

variable {k v w rs c d} {m : Chain} {cs : List Call}

/-- A proof is stored, or its tip as the peak. -/
theorem Seeding.calls {persist : Bool} {a : Except ChainError Unit}
    (h : Seeding w rs c d persist a m cs) :
    ∀ call ∈ cs, ∃ tip, w.tip? = some tip ∧ (call = storesProof w ∨ call = storesPeak tip) := by
  have hproof : ∀ call ∈ proofCalls w persist, call = storesProof w := by
    cases persist with
    | false => exact List.forall_mem_nil _
    | true => exact List.forall_mem_singleton.mpr rfl
  have hboth : ∀ {tip}, w.tip? = some tip → ∀ call ∈ proofCalls w persist ++ [storesPeak tip],
      ∃ tip, w.tip? = some tip ∧ (call = storesProof w ∨ call = storesPeak tip) := fun ht =>
    List.forall_mem_append.mpr ⟨fun call hcall => ⟨_, ht, .inl (hproof call hcall)⟩,
      List.forall_mem_singleton.mpr ⟨_, ht, .inr rfl⟩⟩
  cases h with
  | empty | tipMissing => exact List.forall_mem_nil _
  | proofRefused ht => exact List.forall_mem_singleton.mpr ⟨_, ht, .inl rfl⟩
  | peakRefused ht | seeded ht => exact hboth ht

/-- The records were given with the proof, or are those of the verifier. -/
theorem ProofOffered.calls {records : Option (List BlockRecord)} {a : Except ChainError Bool}
    (h : ProofOffered v w c d records a m cs) :
    ∀ call ∈ cs, ∃ rs tip,
      (records = some rs ∨ records = none ∧ v w c.config.skipSegments = .ok rs) ∧
      w.tip? = some tip ∧ (call = storesProof w ∨ call = storesPeak tip) := by
  cases h with
  | empty | tooLight | rejected => exact List.forall_mem_nil _
  | seeding _ _ hr hs =>
    intro call hcall
    obtain ⟨tip, htip⟩ := hs.calls call hcall
    exact ⟨_, tip, hr, htip⟩

/-- A stored peak is stored again. -/
theorem Readopting.calls {stored : Option HeaderBlock} {a : Except ChainError Unit}
    (h : Readopting k c d stored a m cs) :
    ∀ call ∈ cs, ∃ peak, stored = some peak ∧ call = storesPeak peak := by
  cases h with
  | refused | readopted => exact List.forall_mem_singleton.mpr ⟨_, rfl, rfl⟩
  | _ => exact List.forall_mem_nil _

/-- Both slots are read. The tip of the stored proof may be stored as the peak then, and the stored
peak again. -/
theorem Loading.calls {a : Except ChainError Unit} (h : Loading k v c d a m cs) :
    ∀ call ∈ cs, (∃ key, call = .get key) ∨
      (∃ w rs tip, v w c.config.skipSegments = .ok rs ∧ w.tip? = some tip ∧
        (call = storesProof w ∨ call = storesPeak tip)) ∨
      ∃ peak, d.value? HeaderBlock peakKey = .ok (some peak) ∧ call = storesPeak peak := by
  have hread : ∀ call ∈ readCalls, ∃ key, call = .get key := by simp [readCalls]
  intro call hcall
  -- the calls come in three stretches: the two reads, those of the proof, that of the peak
  cases h with
  | proofRefused | proofMalformed => exact .inl ⟨_, List.mem_singleton.mp hcall⟩
  | peakRefused | peakMalformed | rejected => exact .inl (hread call hcall)
  | unseeded _ hp hr =>
    rcases List.mem_append.mp hcall with hcall | hcall
    · exact .inl (hread call hcall)
    · obtain ⟨peak, rfl, hpeak⟩ := hr.calls call hcall
      exact .inr (.inr ⟨peak, hp, hpeak⟩)
  | unseedable _ hv hs =>
    rcases List.mem_append.mp hcall with hcall | hcall
    · exact .inl (hread call hcall)
    · obtain ⟨tip, htip⟩ := hs.calls call hcall
      exact .inr (.inl ⟨_, _, tip, hv, htip⟩)
  | seeded _ hp hv hs hr =>
    rcases List.mem_append.mp hcall with hcall | hcall
    · rcases List.mem_append.mp hcall with hcall | hcall
      · exact .inl (hread call hcall)
      · obtain ⟨tip, htip⟩ := hs.calls call hcall
        exact .inr (.inl ⟨_, _, tip, hv, htip⟩)
    · obtain ⟨peak, rfl, hpeak⟩ := hr.calls call hcall
      exact .inr (.inr ⟨peak, hp, hpeak⟩)

theorem Resetting.calls {a : Except ChainError Unit} (h : Resetting c d a m cs) :
    ∀ call ∈ cs, ∃ key, call = .remove key := by
  cases h <;> simp

end Calls

/-! ### Seeding -/

section Cases

variable {k v w rs} (s : Session Chain)

theorem onSlots_setProof_served (hd : s.disk.refusal? (storesProof w) = none) :
    (onSlots (Slots.setProof w)).Gives s (.ok ()) (s.memory.withProof w true) [storesProof w] := by
  have hset : ∀ j, (Slots.setProof w).Gives ⟨s.memory.slots, s.disk, j⟩ (.ok ())
      { s.memory.slots with proof := some w } [storesProof w] :=
    fun j => Slots.setProof_served _ hd
  exact gives_onSlots s hset

theorem onSlots_setProof_refused {detail : String}
    (hd : s.disk.refusal? (storesProof w) = some detail) :
    (onSlots (Slots.setProof w)).Gives s (.error (.store (.database detail))) s.memory
      [storesProof w] :=
  gives_onSlots s fun j => Slots.setProof_refused ⟨s.memory.slots, s.disk, j⟩ hd

/-- The last part of seeding, from the call that makes the tip the stored peak on. -/
theorem seed_tip_served {tip : HeaderBlock} (hd : s.disk.refusal? (storesPeak tip) = none) :
    (do
      onSlots (Slots.setPeak tip (some (latest s.memory.latestTimestamp rs)))
      setIndex (reseed (← memory).index rs)
      evict tip.height
      measure (.peakAt tip.height)
      measure (.proofsAdopted 1)
      log (.proofAdopted tip.sighting tip.weight rs.length
        (latest s.memory.latestTimestamp rs)) : Operation Unit).Gives s (.ok ())
      (s.memory.reseeded rs tip) [storesPeak tip] := by
  refine (onSlots_setPeak_served _ hd).then_quiet fun s₁ h₁ _ => ?_
  refine (gives_memory s₁).bind_quiet fun s₂ h₂ _ => ?_
  refine (gives_setIndex s₂ _).bind_quiet fun s₃ h₃ _ => ?_
  refine (gives_evict s₃ _).bind_quiet fun s₄ h₄ _ => ?_
  refine (gives_measure s₄ _).bind_quiet fun s₅ h₅ _ => ?_
  refine (gives_measure s₅ _).bind_quiet fun s₆ h₆ _ => ?_
  refine (gives_log s₆ _).leaves ?_
  rw [h₆, h₅, h₄, h₃, h₂, h₁]
  rfl

theorem seed_cases (persist : Bool) :
    (seed w rs persist).ComesTo s (Seeding w rs s.memory s.disk persist) := by
  unfold seed tipOf
  cases ht : w.tip? with
  | none =>
    refine Gives.comesTo ?_ (.empty ht)
    exact (gives_expect s (.error ChainError.emptyProof)).bind_error
  | some tip =>
    refine (gives_expect s (.ok tip)).comesTo_bind fun s₁ h₁ d₁ => ?_
    rw [← h₁, ← d₁]
    -- the tip must be among the records, or nothing is done at all
    cases hr : rs.any (·.hash == tip.hash) with
    | false =>
      refine Gives.comesTo ?_ (.tipMissing ht hr)
      refine (gives_log s₁ _).bind_quiet fun s₂ h₂ _ => ?_
      exact (gives_throw s₂ _).bind_error.leaves h₂
    | true =>
      refine (gives_memory s₁).comesTo_bind fun s₂ h₂ d₂ => ?_
      rw [← h₂, ← d₂]
      -- the proof is stored first, if at all, and then its tip
      cases persist with
      | false =>
        cases hd : s₂.disk.refusal? (storesPeak tip) with
        | some detail =>
          refine (onSlots_setPeak_refused _ hd).bind_error.comesTo ?_
          exact .peakRefused ht hr (by simp) hd
        | none =>
          exact (seed_tip_served s₂ hd).comesTo (.seeded ht hr (by simp) hd)
      | true =>
        cases hp : s₂.disk.refusal? (storesProof w) with
        | some detail =>
          refine (onSlots_setProof_refused s₂ hp).bind_error.comesTo ?_
          exact .proofRefused ht hr rfl hp
        | none =>
          refine (onSlots_setProof_served s₂ hp).comesTo_bind_calls fun s₃ h₃ d₃ => ?_
          have hlatest : s₂.memory.latestTimestamp = s₃.memory.latestTimestamp := by
            rw [h₃]
            rfl
          cases hd : s₃.disk.refusal? (storesPeak tip) with
          | some detail =>
            refine ((onSlots_setPeak_refused _ hd).bind_error.leaves h₃).comesTo ?_
            exact .peakRefused ht hr (fun _ => hp) (d₃ ▸ hd)
          | none =>
            rw [hlatest]
            refine ((seed_tip_served s₃ hd).leaves (congrArg (reseeded rs · tip) h₃)).comesTo ?_
            exact .seeded ht hr (fun _ => hp) (d₃ ▸ hd)

/-! ### Offering a proof -/

theorem verify_accepted (hv : v w s.memory.config.skipSegments = .ok rs) :
    (verify v w).Gives s (.ok rs) s.memory [] := by
  refine (gives_memory s).bind_quiet fun s₁ h₁ _ => ?_
  refine (gives_ask s₁ _ _).bind_quiet fun s₂ h₂ _ => ?_
  rw [hv]
  exact (gives_pure s₂ rs).leaves (h₂.trans h₁)

theorem verify_rejected {reason : String}
    (hv : v w s.memory.config.skipSegments = .error reason) :
    (verify v w).Gives s (.error (.proofRejected reason)) s.memory [] := by
  refine (gives_memory s).bind_quiet fun s₁ h₁ _ => ?_
  refine (gives_ask s₁ _ _).bind_quiet fun s₂ h₂ _ => ?_
  rw [hv]
  refine (gives_log s₂ _).bind_quiet fun s₃ h₃ _ => ?_
  exact (gives_throw s₃ _).leaves (h₃.trans (h₂.trans h₁))

/-- **Every way through an offer of a proof.** -/
theorem offerProof_cases (records : Option (List BlockRecord)) :
    (offerProof v w records).ComesTo s (ProofOffered v w s.memory s.disk records) := by
  unfold offerProof tipOf
  cases ht : w.tip? with
  | none =>
    refine Gives.comesTo ?_ (.empty ht)
    exact (gives_expect s (.error ChainError.emptyProof)).bind_error
  | some tip =>
    refine (gives_expect s (.ok tip)).comesTo_bind fun s₁ h₁ d₁ => ?_
    refine (gives_memory s₁).comesTo_bind fun s₂ h₂ d₂ => ?_
    rw [← h₁, ← d₁, ← h₂, ← d₂]
    -- the proof is weighed by its tip before anything is verified
    cases hfilter : s₂.memory.peak?.filter fun peak => !isBetter tip.weight peak.weight with
    | some peak =>
      obtain ⟨hp, hw⟩ := Option.filter_eq_some_iff.mp hfilter
      refine Gives.comesTo ?_ (.tooLight ht hp (by simpa using hw))
      exact (gives_log s₂ _).bind_quiet fun s₃ h₃ _ => (gives_pure s₃ _).leaves h₃
    | none =>
      have hw : ∀ peak, s₂.memory.peak? = some peak → isBetter tip.weight peak.weight = true := by
        intro peak hp
        simpa [hp, Option.filter] using hfilter
      -- what is left once the records are known
      have hseed : ∀ (s₃ : Session Chain) (rs : List BlockRecord), s₃.memory = s₂.memory →
          s₃.disk = s₂.disk →
          (records = some rs ∨ records = none ∧ v w s₂.memory.config.skipSegments = .ok rs) →
          (seed w rs true >>= fun _ => pure true : Operation Bool).ComesTo s₃
            (ProofOffered v w s₂.memory s₂.disk records) := by
        intro s₃ rs h₃ d₃ hr
        obtain ⟨a, m, cs, hgives, hs⟩ := seed_cases (w := w) s₃ true
        rw [h₃, d₃] at hs
        refine Gives.comesTo ?_ (.seeding ht hw hr hs)
        cases a with
        | error e => exact hgives.bind_error
        | ok u => exact hgives.then_quiet fun s₄ h₄ _ => (gives_pure s₄ _).leaves h₄
      cases records with
      | some rs =>
        exact (gives_pure s₂ rs).comesTo_bind fun s₃ h₃ d₃ => hseed s₃ rs h₃ d₃ (.inl rfl)
      | none =>
        cases hv : v w s₂.memory.config.skipSegments with
        | error reason =>
          exact (verify_rejected s₂ hv).bind_error.comesTo (.rejected ht hw rfl hv)
        | ok rs =>
          exact (verify_accepted s₂ hv).comesTo_bind fun s₃ h₃ d₃ =>
            hseed s₃ rs h₃ d₃ (.inr ⟨rfl, hv⟩)

/-! ### Opening -/

theorem readopt_cases (peak : HeaderBlock) :
    (readopt k peak).ComesTo s (Readopting k s.memory s.disk (some peak)) := by
  refine (gives_memory s).comesTo_bind fun s₁ h₁ d₁ => ?_
  rw [← h₁, ← d₁]
  -- a stored peak that is the tip itself is left alone
  cases hany : s₁.memory.peak?.any (·.hash == peak.hash) with
  | true =>
    obtain ⟨now, hp, hh⟩ := (Option.any_eq_true ..).mp hany
    exact (gives_pure s₁ ()).comesTo (.current hp (by simpa using hh))
  | false =>
    rw [if_neg Bool.false_ne_true]
    cases hr : s₁.memory.index.record? peak.hash with
    | none => exact (gives_log s₁ _).comesTo (.unknown hr)
    | some r =>
      -- how the stored peak stands to the tip is found out without a call
      have hstanding : (expect s₁.memory.peakRecord >>= fun known =>
          choose k.findFork s₁.memory.index r known : Operation Choice).Gives s₁
          (s₁.memory.standing? k r) s₁.memory [] := by
        unfold standing?
        cases s₁.memory.peakRecord with
        | error e => exact (gives_expect s₁ (.error e)).bind_error
        | ok known =>
          exact (gives_expect s₁ (.ok known)).bind_quiet fun s₂ h₂ _ =>
            (gives_choose _ _ _ _ s₂).leaves h₂
      dsimp only
      rw [← bind_assoc]
      cases hs : s₁.memory.standing? k r with
      | error e =>
        rw [hs] at hstanding
        exact hstanding.bind_error.comesTo (.unresolved hr hs)
      | ok choice =>
        rw [hs] at hstanding
        refine hstanding.comesTo_bind fun s₂ h₂ d₂ => ?_
        cases hc : choice.changedFrom? r.height with
        | none => exact ((gives_log s₂ _).leaves h₂).comesTo (.tooLight hr hs hc)
        | some changedFrom =>
          -- it outweighs the tip: from here on it is adopted like any block
          cases hp : s₁.memory.index.pathDown changedFrom r with
          | error e => exact ((adopt_pathless (h₂ ▸ hp)).leaves h₂).comesTo (.pathless hr hs hc hp)
          | ok path =>
            cases hd : s₁.disk.refusal? (storesPeak peak) with
            | some detail =>
              refine ((adopt_refused (h₂ ▸ hp) (d₂ ▸ hd)).leaves h₂).comesTo ?_
              exact .refused hr hs hc hp hd
            | none =>
              have hadopt := (adopt_served (h₂ ▸ hp) (d₂ ▸ hd)).leaves
                (congrArg (adopted peak · r changedFrom path) h₂)
              exact hadopt.comesTo (.readopted hr hs hc hp hd)

theorem onSlots_loadPeak_served (hd : s.disk.refusal? (.get peakKey) = none) :
    (onSlots Slots.loadPeak).Gives s ((s.disk.value? HeaderBlock peakKey).mapError .store)
      s.memory [.get peakKey] := by
  have hload : ∀ j, Slots.loadPeak.Gives ⟨s.memory.slots, s.disk, j⟩
      (s.disk.value? HeaderBlock peakKey) s.memory.slots [.get peakKey] :=
    fun j => Slots.loadPeak_served _ hd
  exact gives_onSlots s hload

/-- The end of opening: the stored peak is adopted again. -/
theorem load_tail_cases (peak : Option HeaderBlock) :
    (do
      match peak with
      | none => pure ()
      | some peak => readopt k peak
      let c ← memory
      log (.opened c.peakHeight c.index.size) : Operation Unit).ComesTo s
      (Readopting k s.memory s.disk peak) := by
  -- the last entry in the journal changes nothing else
  have hend : ∀ {s₁ : Session Chain} {x : Operation Unit} {r : Except ChainError Unit}
      {m : Chain} {cs : List Call}, x.Gives s₁ r m cs → (x >>= fun _ => do
        let c ← memory
        log (.opened c.peakHeight c.index.size) : Operation Unit).Gives s₁ r m cs := by
    intro s₁ x r m cs hgives
    cases r with
    | error e => exact hgives.bind_error
    | ok u =>
      refine hgives.then_quiet fun s₃ h₃ _ => ?_
      exact (gives_memory s₃).bind_quiet fun s₄ h₄ _ => (gives_log s₄ _).leaves (h₄.trans h₃)
  cases peak with
  | none => exact (hend (gives_pure s ())).comesTo .absent
  | some peak =>
    obtain ⟨r, m, cs, hgives, hr⟩ := readopt_cases (k := k) s peak
    exact (hend hgives).comesTo hr

theorem value?_serve_get {α : Type} [Stored α] (d : Disk) (key other : String) :
    (d.serveAll [.get key]).value? α other = d.value? α other :=
  Disk.value?_congr (d.entries_serve_get key) other

/-- The middle of opening: the stored proof, which is in memory already, is verified and seeds the
chain. -/
theorem load_proof_cases {c : Chain} {d : Disk} {peak : Option HeaderBlock}
    (hw : d.value? WeightProof proofKey = .ok (some w))
    (hp : d.value? HeaderBlock peakKey = .ok peak) (hmemory : s.memory = c.withProof w true)
    (hdisk : s.disk = d.serveAll readCalls) (hd : d.refusal? (.get proofKey) = none)
    (hd' : (d.serveAll [.get proofKey]).refusal? (.get peakKey) = none) :
    (do
      seed w (← verify v w) false
      match peak with
      | none => pure ()
      | some peak => readopt k peak
      let c ← memory
      log (.opened c.peakHeight c.index.size) : Operation Unit).ComesTo s
      fun a m cs => Loading k v c d a m (readCalls ++ cs) := by
  have hconfig : s.memory.config = c.config := by rw [hmemory]; rfl
  -- the verifier answers first; only then is anything changed or stored
  cases hv : v w c.config.skipSegments with
  | error reason =>
    rw [← hconfig] at hv
    refine ((verify_rejected s hv).bind_error.leaves hmemory).comesTo ?_
    exact .rejected hw (hconfig ▸ hv) hp
  | ok rs =>
    rw [← hconfig] at hv
    refine (verify_accepted s hv).comesTo_bind fun s₁ h₁ d₁ => ?_
    rw [hconfig] at hv
    obtain ⟨a, m, cs, hgives, hs⟩ := seed_cases (w := w) s₁ false
    rw [h₁, d₁, hmemory, hdisk] at hs
    cases a with
    | error e => exact hgives.bind_error.comesTo (.unseedable hw hv hs hp)
    | ok u =>
      -- a chain that is seeded goes on to the stored peak
      refine hgives.comesTo_bind_calls fun s₂ h₂ d₂ => ?_
      refine (load_tail_cases (k := k) s₂ peak).imp fun a' m' cs' hr => ?_
      have hdisk₂ : s₂.disk = d.serveAll (readCalls ++ cs) := by
        rw [d₂, d₁, hdisk, Disk.serveAll_append]
      rw [h₂, hdisk₂] at hr
      exact List.append_assoc readCalls cs cs' ▸ Loading.seeded hw hp hv hs hr hd hd'

/-- **Every way through opening a chain.** -/
theorem load_cases (hnone : s.memory.slots.proof = none) :
    (load v k).ComesTo s (Loading k v s.memory s.disk) := by
  refine (gives_forM_measure s _).comesTo_bind fun s₁ h₁ d₁ => ?_
  rw [← h₁] at hnone ⊢
  rw [← d₁]
  -- the call that reads the proof
  cases hd : s₁.disk.refusal? (.get proofKey) with
  | some detail =>
    have hget := gives_onSlots s₁ fun j =>
      Slots.getProof_refused ⟨s₁.memory.slots, s₁.disk, j⟩ hnone hd
    exact hget.bind_error.comesTo (.proofRefused hd)
  | none =>
  cases hw : s₁.disk.value? WeightProof proofKey with
  | error cause =>
    have hget := gives_onSlots s₁ fun j =>
      Slots.getProof_malformed ⟨s₁.memory.slots, s₁.disk, j⟩ hnone hd hw
    exact hget.bind_error.comesTo (.proofMalformed hd hw)
  | ok proof =>
  have hget : ∀ j, Slots.getProof.Gives ⟨s₁.memory.slots, s₁.disk, j⟩ (.ok proof)
      { s₁.memory.slots with proof } [.get proofKey] :=
    fun j => Slots.getProof_served _ hnone hd hw
  refine (gives_onSlots s₁ hget).comesTo_bind_calls fun s₂ h₂ d₂ => ?_
  -- the call that reads the peak
  cases hd' : s₂.disk.refusal? (.get peakKey) with
  | some detail =>
    have hload := gives_onSlots s₂ fun j =>
      Slots.loadPeak_refused ⟨s₂.memory.slots, s₂.disk, j⟩ hd'
    exact (hload.bind_error.leaves h₂).comesTo (.peakRefused hw (d₂ ▸ hd'))
  | none =>
  have hload := onSlots_loadPeak_served s₂ hd'
  have hvalue : s₂.disk.value? HeaderBlock peakKey = s₁.disk.value? HeaderBlock peakKey := by
    rw [d₂, value?_serve_get]
  cases hp : s₁.disk.value? HeaderBlock peakKey with
  | error cause =>
    rw [hvalue, hp] at hload
    exact (hload.bind_error.leaves h₂).comesTo (.peakMalformed hw (d₂ ▸ hd') hp)
  | ok peak =>
  rw [hvalue, hp] at hload
  refine hload.comesTo_bind_calls fun s₃ h₃ d₃ => ?_
  have hdisk : s₃.disk = s₁.disk.serveAll readCalls := by rw [d₃, d₂]; rfl
  -- without a proof there is no tip, and the stored peak is all there is
  cases proof with
  | none =>
    have hmemory : s₃.memory = s₁.memory := by
      rw [h₃, h₂, ← hnone]
    refine (load_tail_cases (k := k) s₃ peak).imp fun a m cs hr => ?_
    rw [hmemory, hdisk] at hr
    exact .unseeded hw hp hr
  | some w =>
    have hmemory : s₃.memory = s₁.memory.withProof w true := by rw [h₃, h₂]; rfl
    exact load_proof_cases s₃ hw hp hmemory hdisk hd (d₂ ▸ hd')

/-- The session of a chain that was just opened on a store. -/
def opened (v : Verifier) (k : Consensus) (config : Config) (disk : Disk) : Session Chain :=
  (load v k).after ⟨fresh config, disk, []⟩

/-- The calls made in opening a chain account for the store. -/
theorem disk_opened {config : Config} {disk : Disk} :
    (opened v k config disk).disk = disk.serveAll (opened v k config disk).calls := by
  obtain ⟨a, m, cs, hgives, -⟩ := load_cases (v := v) (k := k)
    (⟨fresh config, disk, []⟩ : Session Chain) rfl
  have hcalls : (opened v k config disk).calls = cs := hgives.calls
  rw [hcalls, opened, hgives.disk]

/-- **Every way through opening a chain on a store**, by the session that is opened. -/
theorem loading_opened (v : Verifier) (k : Consensus) (config : Config) (disk : Disk) :
    Loading k v (fresh config) disk ((load v k).result ⟨fresh config, disk, []⟩)
      (opened v k config disk).memory (opened v k config disk).calls := by
  obtain ⟨a, m, cs, hgives, hloading⟩ := load_cases (v := v) (k := k)
    (⟨fresh config, disk, []⟩ : Session Chain) rfl
  have hcalls : (opened v k config disk).calls = cs := hgives.calls
  have hmemory : (opened v k config disk).memory = m := hgives.memory
  rw [hcalls, hmemory, hgives.result]
  exact hloading

/-- **Every way through opening a chain that opens.** -/
theorem loading_of_opens {config : Config} {disk : Disk}
    (h : (load v k).result ⟨fresh config, disk, []⟩ = .ok ()) :
    Loading k v (fresh config) disk (.ok ()) (opened v k config disk).memory
      (opened v k config disk).calls :=
  h ▸ loading_opened v k config disk

/-- **On an empty store** a chain opens with nothing in memory. -/
theorem load_of_empty (hnone : s.memory.slots.proof = none) (hd : s.disk.entries = ∅)
    (hserves : s.disk.Serves) : (load v k).Gives s (.ok ()) s.memory readCalls := by
  have hvalue : ∀ (α : Type) [Stored α] (key : String), s.disk.value? α key = .ok none := by
    intro α _ key
    simp [Disk.value?, Disk.peek, hd]
  obtain ⟨a, m, cs, hgives, hloading⟩ := load_cases (v := v) (k := k) s hnone
  -- no call is refused, and there is nothing to be read
  cases hloading with
  | proofRefused hrefused => cases (hserves.refusal? _).symm.trans hrefused
  | peakRefused _ hrefused => cases ((hserves.serveAll _).refusal? _).symm.trans hrefused
  | proofMalformed _ hw | rejected hw | unseedable hw | seeded hw =>
    cases (hvalue WeightProof proofKey).symm.trans hw
  | peakMalformed _ _ hp => cases (hvalue HeaderBlock peakKey).symm.trans hp
  | unseeded _ hp hr =>
    cases (hvalue HeaderBlock peakKey).symm.trans hp
    cases hr
    exact hgives

theorem opened_of_empty (config : Config) {disk : Disk} (hd : disk.entries = ∅)
    (hserves : disk.Serves) :
    (opened v k config disk).memory = fresh config ∧ (opened v k config disk).disk.Serves := by
  have hgives := load_of_empty (v := v) (k := k) ⟨fresh config, disk, []⟩ rfl hd hserves
  refine ⟨hgives.memory, ?_⟩
  rw [opened, hgives.disk]
  exact hserves.serveAll readCalls

/-! ### Resetting -/

/-- **Every way through a reset.** -/
theorem reset_cases : reset.ComesTo s (Resetting s.memory s.disk) := by
  -- the proof is removed before the peak, so a refusal of the second call leaves the first done
  cases hd : s.disk.refusal? (.remove proofKey) with
  | some detail =>
    have hclear := gives_onSlots s fun j =>
      Slots.clearProof_refused ⟨s.memory.slots, s.disk, j⟩ hd
    exact hclear.bind_error.comesTo (.proofRefused hd)
  | none =>
  have hclear : ∀ j, Slots.clearProof.Gives ⟨s.memory.slots, s.disk, j⟩ (.ok ())
      { s.memory.slots with proof := none } [.remove proofKey] :=
    fun j => Slots.clearProof_served _ hd
  refine (gives_onSlots s hclear).comesTo_bind_calls fun s₁ h₁ d₁ => ?_
  cases hp : s₁.disk.refusal? (.remove peakKey) with
  | some detail =>
    have hpeak := gives_onSlots s₁ fun j =>
      Slots.clearPeak_refused ⟨s₁.memory.slots, s₁.disk, j⟩ hp
    exact (hpeak.bind_error.leaves h₁).comesTo (.peakRefused hd (d₁ ▸ hp))
  | none =>
  have hpeak : ∀ j, Slots.clearPeak.Gives ⟨s₁.memory.slots, s₁.disk, j⟩ (.ok ())
      { s₁.memory.slots with peak := none, latestTimestamp := 0 } [.remove peakKey] :=
    fun j => Slots.clearPeak_served _ hp
  refine Gives.comesTo ?_ (.done hd (d₁ ▸ hp))
  refine (gives_onSlots s₁ hpeak).then_quiet fun s₂ h₂ _ => ?_
  refine (gives_setIndex s₂ _).bind_quiet fun s₃ h₃ _ => ?_
  refine (gives_measure s₃ _).bind_quiet fun s₄ h₄ _ => ?_
  refine (gives_log s₄ _).leaves ?_
  rw [h₄, h₃, h₂, h₁]

end Cases

end HeaderChain.Chain
