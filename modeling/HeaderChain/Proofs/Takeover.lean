import HeaderChain.Proofs.Agreement
import HeaderChain.Proofs.Determined
import HeaderChain.Proofs.Reopening

/-!
# What an offered proof does

A proof that is offered takes the chain over, is passed over, or fails, in whatever state the chain
is and over whatever records: they may come in any order, and several of them may stand at one
height.

* `Index.hashAt?_reseed` — the canonical map after the records of a proof have replaced it: at each
  height the last of the records there (`lastAt?`), and nothing else;
* `Chain.Qualifies` — the proof has a tip that outweighs the peak, and records that hold the tip;
  `Chain.TakenOver` — what is left of a proof that qualifies if the store takes both writes;
* `Chain.Guard`, `Chain.result_offerProof_eq_iff` — an answer is given exactly under its guard;
* `Chain.offerProof_effect` — that, and what each answer leaves behind.
-/

namespace HeaderChain

/-- **The hash at a height** of a list of records: that of the last one which stands there. -/
def lastAt? (rs : List BlockRecord) (h : Height) : Option Hash :=
  (rs.filter (·.height = h)).getLast?.map (·.hash)

/-- The last assignment of a height wins. -/
theorem lastAt?_append_singleton (rs : List BlockRecord) (r : BlockRecord) (h : Height) :
    lastAt? (rs ++ [r]) h = if r.height = h then some r.hash else lastAt? rs h := by
  by_cases hr : r.height = h <;> simp [lastAt?, List.filter_append, hr]

/-- **After a proof was adopted** the canonical map is that of its records, whatever it was. -/
theorem Index.hashAt?_reseed (i : Index) (rs : List BlockRecord) (h : Height) :
    (Chain.reseed i rs).hashAt? h = lastAt? rs h := by
  -- the induction is on the records, the last one at a time, since that one prevails
  induction rs using List.reverseRecOn with
  | nil => simp [Chain.reseed, hashAt?_dropHeightsFrom, lastAt?]
  | append_singleton rs r ih =>
    rw [reseed_append_singleton, hashAt?_add, hashAt?_setHeight, lastAt?_append_singleton, ih]

namespace Session

variable {σ : Type} {s t u : Session σ}

/-- **Nothing has changed** from one session to another: the memory, the store and the calls to it
are the same. Only the rest of the journal may be another. -/
structure Unmoved (s t : Session σ) : Prop where
  memory : t.memory = s.memory
  disk : t.disk = s.disk
  calls : t.calls = s.calls

theorem Unmoved.symm (h : s.Unmoved t) : t.Unmoved s :=
  ⟨h.memory.symm, h.disk.symm, h.calls.symm⟩

theorem Unmoved.trans (h : s.Unmoved t) (h' : t.Unmoved u) : s.Unmoved u :=
  ⟨h'.memory.trans h.memory, h'.disk.trans h.disk, h'.calls.trans h.calls⟩

end Session

/-- A procedure that makes no call and keeps the memory moves nothing. -/
theorem Procedure.Gives.unmoved {σ ε α : Type} {x : Procedure σ ε α} {s : Session σ}
    {r : Except ε α} (h : x.Gives s r s.memory []) : s.Unmoved (x.after s) :=
  ⟨h.memory, h.disk, h.calls.trans (List.append_nil _)⟩

namespace Chain

open Procedure

variable {v : Verifier} {w : WeightProof} {records : Option (List BlockRecord)} {c m : Chain}
  {d : Disk} {s : Session Chain} {tip : HeaderBlock} {rs : List BlockRecord} {cs : List Call}

/-! ### Guards -/

/-- The proof has a tip, which outweighs the peak, if there is one. -/
structure Outweighs (w : WeightProof) (c : Chain) (tip : HeaderBlock) : Prop where
  ends : w.tip? = some tip
  heavier : ∀ peak, c.peak? = some peak → peak.weight < tip.weight

/-- The records of a proof: they are given with it, or else are what the verifier answers. -/
def Supplies (v : Verifier) (w : WeightProof) (records : Option (List BlockRecord)) (c : Chain)
    (rs : List BlockRecord) : Prop :=
  records = some rs ∨ records = none ∧ v w c.config.skipSegments = .ok rs

/-- **A proof that is good enough**: its tip outweighs the peak and is among its records. -/
structure Qualifies (v : Verifier) (w : WeightProof) (records : Option (List BlockRecord))
    (c : Chain) (tip : HeaderBlock) (rs : List BlockRecord) : Prop where
  outweighs : Outweighs w c tip
  supplies : Supplies v w records c rs
  holds_tip : ∃ r ∈ rs, r.hash = tip.hash

/-- The two writes that take a chain over. -/
def takeoverCalls (w : WeightProof) (tip : HeaderBlock) : List Call :=
  [storesProof w, storesPeak tip]

/-- **When an offered proof gets an answer**: the guard of each of them. -/
def Guard (v : Verifier) (w : WeightProof) (records : Option (List BlockRecord)) (c : Chain)
    (d : Disk) : Except ChainError Bool → Prop
  | .ok true => ∃ tip rs, Qualifies v w records c tip rs ∧ d.Accepts (takeoverCalls w tip)
  | .ok false => ∃ tip peak, w.tip? = some tip ∧ c.peak? = some peak ∧ tip.weight ≤ peak.weight
  | .error .emptyProof => w.tip? = none
  | .error (.proofRejected reason) =>
    ∃ tip, Outweighs w c tip ∧ records = none ∧ v w c.config.skipSegments = .error reason
  | .error (.tipMissing x) =>
    ∃ tip rs, Outweighs w c tip ∧ Supplies v w records c rs ∧ (∀ r ∈ rs, r.hash ≠ tip.hash) ∧
      x = tip.hash
  | .error (.store (.database detail)) =>
    ∃ tip rs, Qualifies v w records c tip rs ∧
      (d.refusal? (storesProof w) = some detail ∨ d.refusal? (storesProof w) = none ∧
        (d.serve (storesProof w)).2.refusal? (storesPeak tip) = some detail)
  | .error _ => False

/-- A takeover needs both calls, the second after the first. -/
theorem accepts_takeoverCalls : d.Accepts (takeoverCalls w tip) ↔
    d.refusal? (storesProof w) = none ∧
      (d.serve (storesProof w)).2.refusal? (storesPeak tip) = none := by
  simp only [takeoverCalls, Disk.accepts_cons, Disk.accepts_nil, and_true]

/-- A proof outweighs the chain if its tip is better than the peak, or there is no peak. -/
theorem outweighs_iff : Outweighs w c tip ↔ w.tip? = some tip ∧
    ∀ peak, c.peak? = some peak → isBetter tip.weight peak.weight = true := by
  simp only [isBetter, decide_eq_true_eq]
  exact ⟨fun h => ⟨h.ends, h.heavier⟩, fun h => ⟨h.1, h.2⟩⟩

theorem any_hash_eq_true : rs.any (·.hash == tip.hash) = true ↔ ∃ r ∈ rs, r.hash = tip.hash := by
  simp

theorem any_hash_eq_false : rs.any (·.hash == tip.hash) = false ↔ ∀ r ∈ rs, r.hash ≠ tip.hash := by
  simp

/-- **Whatever becomes of a proof**, the guard of its answer holds. -/
theorem ProofOffered.guard {a : Except ChainError Bool} (h : ProofOffered v w c d records a m cs) :
    Guard v w records c d a := by
  -- each way leaves its guard in the result
  cases h with
  | empty ht => exact ht
  | tooLight ht hp hw => exact ⟨_, _, ht, hp, by simpa [isBetter] using hw⟩
  | rejected ht hw hr hv => exact ⟨_, outweighs_iff.mpr ⟨ht, hw⟩, hr, hv⟩
  | seeding ht hw hr hs =>
    have houtweighs := outweighs_iff.mpr ⟨ht, hw⟩
    cases hs with
    | empty hnone => cases ht.symm.trans hnone
    | tipMissing ht' hany =>
      cases ht.symm.trans ht'
      exact ⟨_, _, houtweighs, hr, any_hash_eq_false.mp hany, rfl⟩
    | proofRefused ht' hany _ hd =>
      cases ht.symm.trans ht'
      exact ⟨_, _, ⟨houtweighs, hr, any_hash_eq_true.mp hany⟩, .inl hd⟩
    | peakRefused ht' hany hp hd =>
      cases ht.symm.trans ht'
      exact ⟨_, _, ⟨houtweighs, hr, any_hash_eq_true.mp hany⟩, .inr ⟨hp rfl, hd⟩⟩
    | seeded ht' hany hp hd =>
      cases ht.symm.trans ht'
      exact ⟨_, _, ⟨houtweighs, hr, any_hash_eq_true.mp hany⟩,
        accepts_takeoverCalls.mpr ⟨hp rfl, hd⟩⟩

/-- A proof that qualifies is applied. -/
theorem Qualifies.proofOffered (h : Qualifies v w records c tip rs) {a : Except ChainError Unit}
    (hs : Seeding w rs c d true a m cs) :
    ProofOffered v w c d records (a.map fun _ => true) m cs :=
  have ⟨ht, hw⟩ := outweighs_iff.mp h.outweighs
  .seeding ht hw h.supplies hs

/-- **A proof that qualifies** is taken if the store takes both writes. -/
theorem Qualifies.taken (h : Qualifies v w records c tip rs)
    (haccepts : d.Accepts (takeoverCalls w tip)) :
    ProofOffered v w c d records (.ok true) ((c.withProof w true).reseeded rs tip)
      (takeoverCalls w tip) := by
  obtain ⟨hproof, hpeak⟩ := accepts_takeoverCalls.mp haccepts
  exact h.proofOffered <|
    .seeded h.outweighs.ends (any_hash_eq_true.mpr h.holds_tip) (fun _ => hproof) hpeak

/-- **The guard of an answer opens the way to it.** -/
theorem Guard.proofOffered {a : Except ChainError Bool} (h : Guard v w records c d a) :
    ∃ m cs, ProofOffered v w c d records a m cs := by
  -- a result is possible exactly if its guard can be met: one way for each of them
  rcases a with e | _ | _
  · cases e with
    | emptyProof => exact ⟨_, _, .empty h⟩
    | proofRejected reason =>
      obtain ⟨tip, houtweighs, hr, hv⟩ := h
      obtain ⟨ht, hw⟩ := outweighs_iff.mp houtweighs
      exact ⟨_, _, .rejected ht hw hr hv⟩
    | tipMissing x =>
      obtain ⟨tip, rs, houtweighs, hr, hmissing, rfl⟩ := h
      obtain ⟨ht, hw⟩ := outweighs_iff.mp houtweighs
      exact ⟨_, _, .seeding ht hw hr (.tipMissing ht (any_hash_eq_false.mpr hmissing))⟩
    | store cause =>
      cases cause with
      | malformed => exact h.elim
      | database detail =>
        obtain ⟨tip, rs, hqualifies, hrefused⟩ := h
        have ht := hqualifies.outweighs.ends
        have hany := any_hash_eq_true.mpr hqualifies.holds_tip
        rcases hrefused with hd | ⟨hp, hd⟩
        · exact ⟨_, _, hqualifies.proofOffered (.proofRefused ht hany rfl hd)⟩
        · exact ⟨_, _, hqualifies.proofOffered (.peakRefused ht hany (fun _ => hp) hd)⟩
    | blockNotFound | heightNotFound | endlessAncestry => exact h.elim
  · obtain ⟨tip, peak, ht, hp, hw⟩ := h
    exact ⟨_, _, .tooLight ht hp (by simpa [isBetter] using hw)⟩
  · obtain ⟨tip, rs, hqualifies, haccepts⟩ := h
    exact ⟨_, _, hqualifies.taken haccepts⟩

/-- **An offered proof gets an answer exactly under its guard.** -/
theorem result_offerProof_eq_iff (s : Session Chain) (a : Except ChainError Bool) :
    (offerProof v w records).result s = a ↔ Guard v w records s.memory s.disk a := by
  constructor
  · rintro rfl
    obtain ⟨a, m, cs, hgives, hoffered⟩ := offerProof_cases (v := v) (w := w) s records
    exact hgives.result ▸ hoffered.guard
  · intro h
    obtain ⟨m, cs, hoffered⟩ := h.proofOffered
    exact hoffered.gives.result

/-! ### What an answer leaves behind -/

/-- **A chain that was taken over** by a proof with these records and this tip: the records are all
that is canonical, the tip is the peak, and both are kept in memory and in the store. -/
structure TakenOver (w : WeightProof) (rs : List BlockRecord) (tip : HeaderBlock)
    (t : Session Chain) : Prop where
  heights : ∀ h, t.memory.index.hashAt? h = lastAt? rs h
  peak : t.memory.peak? = some tip
  synced : t.memory.syncedProof? = some w
  storedPeak : t.disk.peek peakKey = some (Stored.encode tip)
  storedProof : t.disk.peek proofKey = some (Stored.encode w)

/-- **A proof that qualifies takes the chain over**, if the store takes both calls. -/
theorem Qualifies.takenOver (h : Qualifies v w records s.memory tip rs)
    (haccepts : s.disk.Accepts (takeoverCalls w tip)) :
    TakenOver w rs tip ((offerProof v w records).after s) := by
  have hgives := (h.taken haccepts).gives
  obtain ⟨hproof, hpeak⟩ := accepts_takeoverCalls.mp haccepts
  have hdisk : ((offerProof v w records).after s).disk =
      ((s.disk.serve (storesProof w)).2.serve (storesPeak tip)).2 := hgives.disk
  refine ⟨fun h => ?_, ?_, ?_, ?_, ?_⟩
  · rw [hgives.memory, Index.hashAt?, canonical_reseeded]
    exact Index.hashAt?_reseed _ rs h
  · rw [hgives.memory, peak?_reseeded]
  · rw [hgives.memory, syncedProof?_reseeded]
    rfl
  · rw [hdisk, Disk.peek_serve_storesPeak hpeak]
  · -- the second write is under another key
    have hne : proofKey ≠ (storesPeak tip).key := show proofKey ≠ peakKey by decide
    have hserved : s.disk.refusal? (proofCall (some w)) = none := hproof
    rw [hdisk, Disk.peek_serve_of_ne hne]
    exact peek_serve_proofCall hserved

/-- **A proof that does not outweigh the peak** is passed over: all that is done is to log that. -/
theorem offerProof_tooLight {peak : HeaderBlock} (ht : w.tip? = some tip)
    (hp : s.memory.peak? = some peak) (hw : tip.weight ≤ peak.weight) :
    (offerProof v w records).after s =
      { s with journal := s.journal ++ [.logged (.proofTooLight tip.weight peak.weight)] } := by
  have hlight : s.memory.peak?.filter (fun peak => !isBetter tip.weight peak.weight) =
      some peak := by
    simpa [hp, Option.filter, isBetter] using hw
  simp [offerProof, tipOf, ht, expect, memory, hlight, log, enter, Procedure.after, bind,
    EStateM.bind, pure, EStateM.pure]

/-- A failure that is not of the store comes before anything is changed or written. -/
theorem ProofOffered.eq_of_error {e : ChainError}
    (h : ProofOffered v w c d records (.error e) m cs) (he : ∀ cause, e ≠ .store cause) :
    m = c ∧ cs = [] := by
  generalize ha : (Except.error e : Except ChainError Bool) = a at h
  cases h with
  | empty | tooLight | rejected => exact ⟨rfl, rfl⟩
  | seeding _ _ _ hs =>
    cases hs with
    | empty | tipMissing => exact ⟨rfl, rfl⟩
    | proofRefused | peakRefused => exact absurd (Except.error.inj ha) (he _)
    | seeded => cases ha

/-- A failure that is not of the store moves nothing. -/
theorem offerProof_unmoved {e : ChainError} (h : (offerProof v w records).result s = .error e)
    (he : ∀ cause, e ≠ .store cause) : s.Unmoved ((offerProof v w records).after s) := by
  obtain ⟨a, m, cs, hgives, hoffered⟩ := offerProof_cases (v := v) (w := w) s records
  obtain rfl : a = .error e := hgives.result.symm.trans h
  obtain ⟨rfl, rfl⟩ := hoffered.eq_of_error he
  exact hgives.unmoved

/-- **What an offered proof does**, in whatever state the chain is. It gets each answer exactly
under the guard of that answer. If it qualifies and the store takes both writes, its records are all
that is canonical then, whatever their order and their heights. If it does not outweigh the peak,
nobody is asked, the store is not called, and nothing changes. And a failure, unless it is one of
the store, changes nothing and writes nothing. -/
theorem offerProof_effect (v : Verifier) (w : WeightProof) (records : Option (List BlockRecord))
    (s : Session Chain) :
    (∀ a, (offerProof v w records).result s = a ↔ Guard v w records s.memory s.disk a) ∧
    (∀ tip rs, Qualifies v w records s.memory tip rs → s.disk.Accepts (takeoverCalls w tip) →
      TakenOver w rs tip ((offerProof v w records).after s)) ∧
    (∀ tip peak, w.tip? = some tip → s.memory.peak? = some peak → tip.weight ≤ peak.weight →
      (offerProof v w records).after s =
        { s with journal := s.journal ++ [.logged (.proofTooLight tip.weight peak.weight)] }) ∧
    ∀ e, (offerProof v w records).result s = .error e → (∀ cause, e ≠ .store cause) →
      s.Unmoved ((offerProof v w records).after s) :=
  ⟨result_offerProof_eq_iff s, fun _ _ hq => hq.takenOver, fun _ _ => offerProof_tooLight,
    fun _ => offerProof_unmoved⟩

end Chain

namespace Sample

/-- Records in no order, two of them at one height. -/
def shuffled : List BlockRecord := [rival, root, child].map record

/-- A chain whose peak is the lighter of two branches. -/
def onChild : Session Chain :=
  Chain.offerAll (.only forked) [root, child] ⟨Chain.fresh {}, {}, []⟩

set_option maxRecDepth 4000 in
theorem peak?_onChild : onChild.memory.peak? = some child := by cbv

end Sample

/-- A proof of the other branch takes the chain over. Its tip is the peak then, but at the height of
the tip the record that came last is canonical. -/
theorem Chain.offerProof_effect_shuffled :
    (offerProof Sample.verifier Sample.proof (some Sample.shuffled)).result Sample.onChild =
        .ok true ∧
      TakenOver Sample.proof Sample.shuffled Sample.rival
        ((offerProof Sample.verifier Sample.proof (some Sample.shuffled)).after Sample.onChild) ∧
      lastAt? Sample.shuffled Sample.rival.height = some Sample.child.hash := by
  obtain ⟨hguard, htaken, -⟩ := offerProof_effect Sample.verifier Sample.proof
    (some Sample.shuffled) Sample.onChild
  have hqualifies : Qualifies Sample.verifier Sample.proof (some Sample.shuffled)
      Sample.onChild.memory Sample.rival Sample.shuffled := by
    refine ⟨⟨rfl, fun peak hp => ?_⟩, .inl rfl, by decide⟩
    obtain rfl := Option.some.inj (Sample.peak?_onChild.symm.trans hp)
    decide
  have hserves : Sample.onChild.disk.Serves := serves_offerAll (fun _ _ => rfl) _
  have haccepts := hserves.accepts (takeoverCalls Sample.proof Sample.rival)
  exact ⟨(hguard _).mpr ⟨_, _, hqualifies, haccepts⟩, htaken _ _ hqualifies haccepts, by decide⟩

end HeaderChain
