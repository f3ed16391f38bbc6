import HeaderChain.Proofs.FiniteTree
import HeaderChain.Proofs.Reachable
import HeaderChain.Proofs.Tally

/-!
# Metrics of a run

The measurements of a chain are taken at many places, in operations that may fail in between. Still
they account for all that has happened to it.

* `Chain.tallies_offer`, `Chain.tallies_offerProof`, `Chain.tallies_reset`, `Chain.tallies_load` —
  what each operation does to a tally is settled by how it ends;
* `Chain.Request.sameRecords_after` — what is indexed after a request, told by the records that it
  adds;
* `Chain.Setting.leveled` — the setting in which a hash has one height, so that the height that is
  told of when a record becomes the peak is that of its block;
* `Chain.Request.tallies`, `Chain.Run.tallies` — one request, and from it a whole run of a chain;
* `Chain.Run.metrics_account` — what a recorder has seen at any time of a run (`Chain.Accounted`):
  the height of the peak, the outcomes by their kinds, the proofs that were taken, and as many
  evictions as there are records that were added, but were neither dropped by a reset nor are
  indexed.
-/

namespace HeaderChain

open Procedure Session

namespace Chain

variable {k : Consensus} {v : Verifier} {b : HeaderBlock} {r : BlockRecord} {w : WeightProof}
  {s : Session Chain} {t : Tally}

/-! ### Offering a block -/

/-- The record of a block that is new and valid. -/
def recordOf? (k : Consensus) (b : HeaderBlock) (c : Chain) : Option BlockRecord :=
  if c.index.contains b.hash then none
  else
    match c.parameters? k b with
    | .ok (some p) =>
      match c.verdict k b p with
      | .ok iters => (k.build c.config.constants c.index iters b).toOption
      | .error _ => none
    | _ => none

/-- That record is the one a valid block has. -/
theorem recordOf?_eq_some {c : Chain} : c.recordOf? k b = some r ↔ Validated k b c r := by
  unfold recordOf?
  constructor
  · intro h
    -- each guard on the way to the record is one of the conditions of validity
    split at h
    · cases h
    next hnew =>
    split at h
    next p hp =>
      split at h
      next iters hv =>
        cases hb : k.build c.config.constants c.index iters b with
        | error e => simp [hb, Except.toOption] at h
        | ok r' =>
          obtain rfl : r' = r := by simpa [hb, Except.toOption] using h
          exact ⟨by simpa using hnew, p, iters, hp, hv, hb⟩
      next => cases h
    next => cases h
  · rintro ⟨hnew, p, iters, hp, hv, hb⟩
    simp [hnew, hp, hv, hb, Except.toOption]

/-- **The records that an offered block adds to the index**, by what became of it: its own, if it is
new and valid, unless it wins and does not become the peak. -/
def inserted (k : Consensus) (b : HeaderBlock) (c : Chain) (a : Except ChainError Outcome) :
    List BlockRecord :=
  match c.recordOf? k b with
  | some r => if a.isOk || !(c.standing? k r).isOk then [r] else []
  | none => []

section Inserted

variable {c : Chain} {choice : Choice} {a : Except ChainError Outcome} {e : ChainError}

/-- A block without a record adds none. -/
theorem inserted_of_none (h : c.recordOf? k b = none) : c.inserted k b a = [] := by
  simp [inserted, h]

/-- A valid block adds its record, if it ends well at all. -/
theorem inserted_of_ok (hr : Validated k b c r) (o : Outcome) : c.inserted k b (.ok o) = [r] := by
  simp [inserted, recordOf?_eq_some.mpr hr, Except.isOk, Except.toBool]

/-- A block that cannot be compared with the peak is kept all the same. -/
theorem inserted_of_unresolved (hr : Validated k b c r) (hs : c.standing? k r = .error e) :
    c.inserted k b a = [r] := by
  simp [inserted, recordOf?_eq_some.mpr hr, hs, Except.isOk, Except.toBool]

/-- One that wins and does not become the peak is not. -/
theorem inserted_of_failed (hr : Validated k b c r) (hs : c.standing? k r = .ok choice) :
    c.inserted k b (.error e) = [] := by
  simp [inserted, recordOf?_eq_some.mpr hr, hs, Except.isOk, Except.toBool]

end Inserted

/-- The height of the peak after a block was offered, by what became of it. -/
def heightAfter (k : Consensus) (b : HeaderBlock) (c : Chain) (a : Except ChainError Outcome)
    (height : Height) : Height :=
  match a, c.recordOf? k b with
  | .ok .newPeak, some r => r.height
  | _, _ => height

end Chain

/-- The tally after a block was considered in a chain, by what became of it. -/
def Tally.considered (t : Tally) (k : Consensus) (b : HeaderBlock) (c : Chain)
    (a : Except ChainError Outcome) : Tally where
  peak := c.heightAfter k b a t.peak
  outcomes := t.outcomes
  proofs := t.proofs
  known := t.known + c.index.novel (c.inserted k b a)

section Considered

variable {t : Tally} {k : Consensus} {b : HeaderBlock} {c : Chain} {r : BlockRecord}
  {choice : Choice} {a : Except ChainError Outcome} {e : ChainError}

/-- A block without a record leaves the tally. -/
theorem Tally.considered_of_none (h : c.recordOf? k b = none) : t.considered k b c a = t := by
  simp [considered, Chain.heightAfter, Chain.inserted_of_none h, h]

/-- A new peak raises the tally: its height, and its record if it is new. -/
theorem Tally.considered_newPeak (hr : Chain.Validated k b c r) :
    t.considered k b c (.ok .newPeak) = t.raised c.index r := by
  simp [considered, raised, Chain.heightAfter, Chain.inserted_of_ok hr,
    Chain.recordOf?_eq_some.mpr hr]

/-- An orphan adds its record. -/
theorem Tally.considered_orphan (hr : Chain.Validated k b c r) :
    t.considered k b c (.ok .orphan) = { t with known := t.known + c.index.novel [r] } := by
  simp [considered, Chain.heightAfter, Chain.inserted_of_ok hr]

/-- A block that cannot be compared adds its record, too. -/
theorem Tally.considered_unresolved (hr : Chain.Validated k b c r)
    (hs : c.standing? k r = .error e) :
    t.considered k b c (.error e) = { t with known := t.known + c.index.novel [r] } := by
  simp [considered, Chain.heightAfter, Chain.inserted_of_unresolved hr hs]

/-- One that wins and does not become the peak leaves the tally. -/
theorem Tally.considered_failed (hr : Chain.Validated k b c r)
    (hs : c.standing? k r = .ok choice) : t.considered k b c (.error e) = t := by
  simp [considered, Chain.heightAfter, Chain.inserted_of_failed hr hs]

end Considered

namespace Chain

variable {k : Consensus} {v : Verifier} {b tip : HeaderBlock}
  {r : BlockRecord} {w : WeightProof} {rs : List BlockRecord} {s s' : Session Chain} {t : Tally}

/-- A record is kept that does not become the peak. -/
theorem tallies_kept (h : s.Tallies t) (r : BlockRecord) :
    ((setIndex (s.memory.index.add r)).after s).Tallies
      { t with known := t.known + s.memory.index.novel [r] } := by
  refine tallies_setIndex h ?_
  have hadd : (s.memory.index.add r).size = s.memory.index.size + s.memory.index.novel [r] :=
    s.memory.index.size_addAll [r]
  omega

/-- The place of a record is found, or is not. -/
theorem tallies_place (h : s.Tallies t) (hr : Validated k b s.memory r) :
    (place k r b).EndsIn s fun a s' => s'.Tallies (t.considered k b s.memory a) := by
  have hstanding : ((standing k r).attempt : Operation (Except ChainError Choice)).Gives s _ _ _ :=
    (gives_standing k r s).attempt
  have hstill : ((standing k r).attempt : Operation (Except ChainError Choice)).Still index :=
    still_standing.attempt
  have hsame := hstill s
  have hmemory := hstanding.memory
  refine endsIn_bind_of_ok hstanding.result ?_
  generalize ((standing k r).attempt : Operation _).after s = s₁ at hsame hmemory ⊢
  have h₁ : s₁.Tallies t := h.of_same hsame
  cases hs : s.memory.standing? k r with
  | error e =>
    refine endsIn_bind_of_ok (gives_log _ _).result ?_
    refine endsIn_memory_bind ?_
    refine endsIn_bind_of_ok (gives_setIndex _ _).result ?_
    refine endsIn_of_result (gives_throw _ e).result ?_
    -- the failure comes after the record was kept
    rw [Tally.considered_unresolved hr hs, ← hmemory]
    exact tallies_kept (h₁.of_same (still_log (ε := ChainError) _ s₁)) r
  | ok choice =>
    dsimp only
    cases choice.changedFrom? r.height with
    | none =>
      refine endsIn_memory_bind ?_
      refine endsIn_bind_of_ok (gives_log _ _).result ?_
      refine endsIn_bind_of_ok (gives_setIndex _ _).result ?_
      refine endsIn_of_result (gives_pure _ _).result ?_
      rw [Tally.considered_orphan hr, ← hmemory]
      exact tallies_kept (h₁.of_same (still_log (ε := ChainError) _ s₁)) r
    -- adopting tallies for itself: a failure leaves the tally, success raises it
    | some changedFrom =>
      refine (tallies_adopt (b := b) h₁ changedFrom).bind (fun e s₂ h₂ => ?_) fun _ s₂ h₂ => ?_
      · rwa [Tally.considered_failed hr hs]
      · refine endsIn_of_result (gives_pure s₂ _).result ?_
        rw [Tally.considered_newPeak hr, ← hmemory]
        exact h₂

/-- **Every way through considering a block**: it ends without a record, and then nothing was
measured, or the record is given its place when nothing has changed and nothing was measured. -/
theorem endsIn_consider {Q : Except ChainError Outcome → Session Chain → Prop}
    (hnone : s.memory.recordOf? k b = none → ∀ a t, s.SameFor index t → Q a t)
    (hplace : ∀ r t, Validated k b s.memory r → t.memory = s.memory → s.SameFor index t →
      (place k r b).EndsIn t Q) : (consider k b).EndsIn s Q := by
  have hstill : ∀ {x : Operation Outcome} {t : Session Chain}, s.memory.recordOf? k b = none →
      s.SameFor index t → x.Still index → x.EndsIn t Q :=
    fun hr ht hx => hnone hr _ _ (ht.trans (hx _))
  unfold consider
  refine endsIn_memory_bind ?_
  -- there is no record before the block is known to be new and valid, and is built
  cases hknown : s.memory.index.contains b.hash with
  | true =>
    have hr : s.memory.recordOf? k b = none := by simp [recordOf?, hknown]
    exact hstill hr (.refl s) ((still_log _).bind fun _ => still_pure _)
  | false =>
    rw [if_neg Bool.false_ne_true]
    have hexpected := gives_expected k b s
    have h₁ : s.SameFor index _ := still_expected (k := k) (b := b) s
    cases hp : s.memory.parameters? k b with
    | error e =>
      have hr : s.memory.recordOf? k b = none := by simp [recordOf?, hp]
      exact endsIn_bind_of_error (hexpected.result.trans hp) (hnone hr _ _ h₁)
    | ok answer =>
      refine endsIn_bind_of_ok (hexpected.result.trans hp) ?_
      have hmemory := hexpected.memory
      generalize (expected k b).after s = s₁ at h₁ hmemory ⊢
      cases answer with
      | none =>
        have hr : s.memory.recordOf? k b = none := by simp [recordOf?, hp]
        exact hstill hr h₁ ((still_log _).bind fun _ => still_pure _)
      | some p =>
        -- from here on the index is still the one the block was found new in
        have hexamine := gives_examine k b s₁ p
        have h₂ := h₁.trans (still_examine (k := k) (b := b) p s₁)
        refine endsIn_bind_of_ok hexamine.result ?_
        have hmemory₂ := hexamine.memory.trans hmemory
        generalize (examine k b p).after s₁ = s₂ at h₂ hmemory₂ ⊢
        rw [hmemory]
        cases hv : s.memory.verdict k b p with
        | error code =>
          have hr : s.memory.recordOf? k b = none := by simp [recordOf?, hp, hv]
          exact hstill hr h₂ (still_pure _)
        | ok iters =>
          have hask := gives_ask (ε := ChainError) s₂ (.build b iters)
            (k.build s.memory.config.constants s.memory.index iters b)
          have h₃ := h₂.trans (still_ask (ε := ChainError) (.build b iters)
            (k.build s.memory.config.constants s.memory.index iters b) s₂)
          refine endsIn_bind_of_ok hask.result ?_
          have hmemory₃ := hask.memory.trans hmemory₂
          generalize (ask _ _ : Operation (Except ChainError BlockRecord)).after s₂ = s₃
            at h₃ hmemory₃ ⊢
          cases hb : k.build s.memory.config.constants s.memory.index iters b with
          | error e =>
            have hr : s.memory.recordOf? k b = none := by
              simp [recordOf?, hp, hv, hb, Except.toOption]
            exact endsIn_bind_of_error (gives_expect s₃ (.error e)).result (hnone hr _ _ h₃)
          -- only here is there a record, and placing it decides
          | ok r => exact hplace r s₃ ⟨hknown, p, iters, hp, hv, hb⟩ hmemory₃ h₃

/-- **What considering a block does to the tally** is settled by what became of the block. -/
theorem tallies_consider (h : s.Tallies t) :
    (consider k b).EndsIn s fun a s' => s'.Tallies (t.considered k b s.memory a) := by
  refine endsIn_consider (fun hr a s' hsame => ?_) fun r s' hr hmemory hsame => ?_
  · rw [Tally.considered_of_none hr]
    exact h.of_same hsame
  · rw [← hmemory] at hr ⊢
    exact tallies_place (h.of_same hsame) hr

/-- **What offering a block does to the tally**: its outcome is counted, if it has one. -/
theorem tallies_offer (h : s.Tallies t) :
    (offer k b).EndsIn s fun a s' =>
      match a with
      | .ok outcome => s'.Tallies ((t.considered k b s.memory a).received outcome)
      | .error _ => s'.Tallies (t.considered k b s.memory a) := by
  unfold offer
  refine (tallies_consider h).bind (fun e s₁ h₁ => h₁) fun outcome s₁ h₁ => ?_
  refine endsIn_bind_of_ok (gives_measure _ _).result ?_
  exact endsIn_of_result (gives_pure _ outcome).result (tallies_received h₁ outcome)

/-! ### Proofs, resets and opening -/

/-- **What offering a proof does to the tally**: nothing, unless it is taken. -/
theorem tallies_offerProof (h : s.Tallies t) (records : Option (List BlockRecord)) :
    (offerProof v w records).EndsIn s fun a s' =>
      match a with
      | .ok true => ∃ tip rs, w.tip? = some tip ∧
        (records = some rs ∨ records = none ∧ v w s.memory.config.skipSegments = .ok rs) ∧
        s'.Tallies (t.seeded s.memory.index rs tip)
      | _ => s'.Tallies t := by
  unfold offerProof
  obtain hnone | ⟨tip, ht⟩ := w.tip?.eq_none_or_eq_some
  · have hempty : tipOf w = .error .emptyProof := by simp [tipOf, hnone]
    rw [hempty]
    exact h
  have htip : tipOf w = .ok tip := by simp [tipOf, ht]
  rw [htip]
  refine endsIn_expect_bind (endsIn_memory_bind ?_)
  cases s.memory.peak?.filter fun peak => !isBetter tip.weight peak.weight with
  | some peak => exact h.of_same (still_log (ε := ChainError) (.proofTooLight ..) s)
  | none =>
    -- what is left once the records are known
    have hseed : ∀ (s₁ : Session Chain) (rs : List BlockRecord), s.SameFor index s₁ →
        (records = some rs ∨ records = none ∧ v w s.memory.config.skipSegments = .ok rs) →
        (seed w rs true >>= fun _ => pure true : Operation Bool).EndsIn s₁ fun a s' =>
          match a with
          | .ok true => ∃ tip rs, w.tip? = some tip ∧
            (records = some rs ∨ records = none ∧ v w s.memory.config.skipSegments = .ok rs) ∧
            s'.Tallies (t.seeded s.memory.index rs tip)
          | _ => s'.Tallies t := by
      intro s₁ rs h₁ hr
      refine (tallies_seed (h.of_same h₁) ht true).bind (fun e s₂ h₂ => h₂) fun _ s₂ h₂ => ?_
      have hindex : s₁.memory.index = s.memory.index := h₁.part
      exact endsIn_of_result (gives_pure s₂ true).result ⟨tip, rs, ht, hr, hindex ▸ h₂⟩
    -- the records come with the proof, or the verifier is asked, which measures nothing
    cases records with
    | some rs => exact hseed s rs (.refl s) (.inl rfl)
    | none =>
      have hsame : s.SameFor index ((verify v w).after s) := still_verify s
      cases hv : v w s.memory.config.skipSegments with
      | error reason =>
        exact endsIn_bind_of_error (verify_rejected s hv).result (h.of_same hsame)
      | ok rs =>
        rw [hv] at hseed
        exact endsIn_bind_of_ok (verify_accepted s hv).result (hseed _ rs hsame (.inr ⟨rfl, rfl⟩))

/-- **What a reset does to the tally**: the records are gone without having been evicted, and the
peak is. -/
theorem tallies_reset (h : s.Tallies t) :
    reset.EndsIn s fun a s' =>
      match a with
      | .ok _ => s'.Tallies { t with peak := 0, known := t.known - s.memory.index.size }
      | .error _ => s'.Tallies t := by
  -- neither of the two calls is measured, so a reset that stops at one leaves the tally
  refine ((still_onSlots Slots.still_clearProof).endsIn s).bind (fun e s₁ h₁ => h.of_same h₁)
    fun _ s₁ h₁ => ?_
  refine ((still_onSlots Slots.still_clearPeak).endsIn s₁).bind
    (fun e s₂ h₂ => h.of_same (h₁.trans h₂)) fun _ s₂ h₂ => ?_
  -- what is gone from the index is taken off what is known
  have hsize : Index.empty.size + t.known =
      s₂.memory.index.size + (t.known - s.memory.index.size) := by
    have hindex : s₂.memory.index = s.memory.index := (h₁.trans h₂).part
    have hle := h.size_le
    rw [hindex, Index.size_empty]
    omega
  have hcleared := tallies_setIndex (h.of_same (h₁.trans h₂)) hsize
  refine endsIn_bind_of_ok (gives_setIndex _ _).result ?_
  refine endsIn_bind_of_ok (gives_measure _ _).result ?_
  refine endsIn_of_result (gives_log _ .wasReset).result ?_
  refine Session.Tallies.of_same ?_ (still_log _ _)
  exact tallies_peakAt hcleared 0

/-- A chain that was just opened has been told of nothing. -/
theorem tallies_opening (hnew : s.measurements = []) (hindex : s.memory.index.size = 0) :
    ((Measurement.opening.forM Procedure.measure : Operation Unit).after s).Tallies {} := by
  -- measurements are recorded one after the other, whatever was recorded before
  have hall : ∀ (vs : List Measurement) (s : Session Chain),
      ((vs.forM Procedure.measure : Operation Unit).after s).readings =
        vs.foldl Readings.record s.readings := by
    intro vs
    induction vs with
    | nil => exact fun s => rfl
    | cons m vs ih =>
      intro s
      show ((Procedure.measure m >>= fun _ => vs.forM Procedure.measure : Operation Unit).after
        s).readings = _
      rw [after_bind_of_ok (gives_measure s m).result, ih, readings_measure]
      rfl
  have hreadings :
      ((Measurement.opening.forM Procedure.measure : Operation Unit).after s).readings =
        Measurement.opening.foldl Readings.record {} := by
    rw [hall, Session.readings, hnew]
    rfl
  have hmemory := (gives_forM_measure (ε := ChainError) s Measurement.opening).memory
  -- now the readings are those of the opening measurements alone, which are computed
  constructor
  · rw [hreadings]
    rfl
  · intro o
    rw [hreadings]
    cases o <;> cbv
  · rw [hreadings]
    rfl
  · rw [hreadings, hmemory, hindex]
    exact ⟨0, rfl, rfl⟩
  · rw [hreadings]
    exact ⟨[], rfl, rfl⟩

/-- A block that is adopted is the peak. -/
theorem peak?_of_adopt {changedFrom : Height} (h : (adopt r b changedFrom).result s = .ok ()) :
    ((adopt r b changedFrom).after s).memory.peak? = some b := by
  cases hp : s.memory.index.pathDown changedFrom r with
  | error e => cases (adopt_pathless (b := b) hp).result.symm.trans h
  | ok path =>
    cases hd : s.disk.refusal? (storesPeak b) with
    | some detail => cases (adopt_refused hp hd).result.symm.trans h
    | none =>
      rw [(adopt_served hp hd).memory]
      exact peak?_adopted

/-- **Adopting the stored peak again** adds no record, for it is one that is indexed already. -/
theorem tallies_readopt (h : s.Tallies t) (hpeak : t.peak = s.memory.peakHeight)
    (hheight : ∀ r, s.memory.index.record? b.hash = some r →
      r.hash = b.hash ∧ r.height = b.height) :
    (readopt k b).EndsIn s fun a s' =>
      a = .ok () → s'.Tallies { t with peak := s'.memory.peakHeight } := by
  -- the stored peak may be left aside
  have hleft : ∀ {s' : Session Chain}, s.SameFor id s' →
      s'.Tallies { t with peak := s'.memory.peakHeight } := by
    intro s' hsame
    have hmemory : s'.memory = s.memory := hsame.part
    rw [hmemory, ← hpeak]
    exact h.of_same hsame.of_id
  unfold readopt
  refine endsIn_memory_bind ?_
  cases s.memory.peak?.any (·.hash == b.hash) with
  | true => exact fun _ => hleft (.refl s)
  | false =>
    rw [if_neg Bool.false_ne_true]
    cases hr : s.memory.index.record? b.hash with
    | none => exact fun _ => hleft (still_log (ε := ChainError) _ s)
    | some r =>
      -- it is weighed without a measurement
      have hstanding : (expect s.memory.peakRecord >>= fun known =>
          choose k.findFork s.memory.index r known : Operation Choice).Still id :=
        (still_expect _).bind fun known => still_choose _ _ _ known
      dsimp only
      rw [← bind_assoc]
      refine (hstanding.endsIn s).bind (fun e s₁ _ ha => nomatch ha) fun choice s₁ h₁ => ?_
      cases choice.changedFrom? r.height with
      | none => exact fun _ => hleft (h₁.trans (still_log (ε := ChainError) _ s₁))
      | some changedFrom =>
        intro ha
        have hadopted := tallies_adopt (b := b) (r := r) (h.of_same h₁.of_id) changedFrom
        unfold EndsIn at hadopted
        rw [ha] at hadopted
        -- its record is there, so that there is no new one, and the height told of is the block's
        obtain ⟨hhash, heq⟩ := hheight r hr
        have hindex : s₁.memory.index = s.memory.index := congrArg index h₁.part
        have hnovel : s₁.memory.index.novel [r] = 0 :=
          Index.novel_singleton_of_record? (hhash ▸ hindex ▸ hr)
        have hheight' : ((adopt r b changedFrom).after s₁).memory.peakHeight = r.height := by
          rw [peakHeight, peak?_of_adopt ha]
          exact heq.symm
        rw [hheight']
        simpa only [Tally.raised, hnovel, Nat.add_zero] using hadopted

/-- The end of opening: the stored peak is adopted again. -/
theorem tallies_load_tail {stored : Option HeaderBlock} (h : s.Tallies t)
    (hpeak : t.peak = s.memory.peakHeight)
    (hheight : ∀ b, stored = some b → ∀ r, s.memory.index.record? b.hash = some r →
      r.hash = b.hash ∧ r.height = b.height) :
    (do
      match stored with
      | none => pure ()
      | some peak => readopt k peak
      let c ← memory
      log (.opened c.peakHeight c.index.size) : Operation Unit).EndsIn s fun a s' =>
      a = .ok () → s'.Tallies { t with peak := s'.memory.peakHeight } := by
  -- at the end the chain is looked at and the event logged, which tallies nothing
  have hend : ∀ {s₁ : Session Chain},
      s₁.Tallies { t with peak := s₁.memory.peakHeight } → (do
        let c ← memory
        log (.opened c.peakHeight c.index.size) : Operation Unit).EndsIn s₁ fun a s' =>
        a = .ok () → s'.Tallies { t with peak := s'.memory.peakHeight } := by
    intro s₁ h₁ _
    exact h₁.of_same (still_log (ε := ChainError) (.opened ..) s₁)
  cases stored with
  | none => exact hend (hpeak ▸ h)
  | some peak =>
    refine (tallies_readopt h hpeak (hheight peak rfl)).bind (fun e s₁ _ ha => nomatch ha) ?_
    exact fun _ s₁ h₁ => hend (h₁ rfl)

/-- A stored proof that was read is the one that is stored. -/
theorem gives_of_getProof {proof : Option WeightProof} (hnone : s.memory.slots.proof = none)
    (h : (onSlots Slots.getProof).result s = .ok proof) :
    s.disk.value? WeightProof proofKey = .ok proof ∧
      (onSlots Slots.getProof).Gives s (.ok proof)
        { s.memory with slots := { s.memory.slots with proof } } [.get proofKey] := by
  -- a read that ends well was served, and the bytes were those of a proof
  cases hd : s.disk.refusal? (.get proofKey) with
  | some detail =>
    have hget := gives_onSlots s fun j =>
      Slots.getProof_refused ⟨s.memory.slots, s.disk, j⟩ hnone hd
    cases hget.result.symm.trans h
  | none =>
    cases hw : s.disk.value? WeightProof proofKey with
    | error cause =>
      have hget := gives_onSlots s fun j =>
        Slots.getProof_malformed ⟨s.memory.slots, s.disk, j⟩ hnone hd hw
      cases hget.result.symm.trans h
    | ok proof' =>
      have hget : ∀ j, Slots.getProof.Gives ⟨s.memory.slots, s.disk, j⟩ (.ok proof')
          { s.memory.slots with proof := proof' } [.get proofKey] :=
        fun j => Slots.getProof_served _ hnone hd hw
      cases (gives_onSlots s hget).result.symm.trans h
      exact ⟨rfl, gives_onSlots s hget⟩

/-- So it is with a stored peak, which is not taken into memory. -/
theorem gives_of_loadPeak {stored : Option HeaderBlock}
    (h : (onSlots Slots.loadPeak).result s = .ok stored) :
    s.disk.value? HeaderBlock peakKey = .ok stored ∧
      (onSlots Slots.loadPeak).Gives s (.ok stored) s.memory [.get peakKey] := by
  -- a read that ends well was served, and the bytes were those of a block
  cases hd : s.disk.refusal? (.get peakKey) with
  | some detail =>
    have hload := gives_onSlots s fun j =>
      Slots.loadPeak_refused ⟨s.memory.slots, s.disk, j⟩ hd
    cases hload.result.symm.trans h
  | none =>
    have hload := onSlots_loadPeak_served s hd
    cases hp : s.disk.value? HeaderBlock peakKey with
    | error cause =>
      rw [hp] at hload
      cases hload.result.symm.trans h
    | ok stored' =>
      rw [hp] at hload
      cases hload.result.symm.trans h
      exact ⟨rfl, hload⟩

variable {config : Config} {disk : Disk} {heightOf : Hash → Height} {stored : Option HeaderBlock}

/-- The middle of opening: the stored proof is verified anew and seeds the chain. -/
theorem tallies_load_proof (h : s.Tallies {}) (hindex : s.memory.index = .empty)
    (hverifier : ∀ {w skip rs}, v w skip = .ok rs → ∀ r ∈ rs, r.height = heightOf r.hash)
    (hstored : ∀ b, stored = some b → b.height = heightOf b.hash) :
    (do
      seed w (← verify v w) false
      match stored with
      | none => pure ()
      | some peak => readopt k peak
      let c ← memory
      log (.opened c.peakHeight c.index.size) : Operation Unit).EndsIn s fun a s' =>
      a = .ok () → s'.Tallies {
        peak := s'.memory.peakHeight
        proofs := 1
        known := Index.empty.novel ((v w s.memory.config.skipSegments).toOption.getD []) } := by
  cases hv : v w s.memory.config.skipSegments with
  | error reason => exact endsIn_bind_of_error (verify_rejected s hv).result fun ha => nomatch ha
  | ok rs =>
    have hverified := verify_accepted s hv
    refine endsIn_bind_of_ok hverified.result ?_
    have h₁ : ((verify v w).after s).Tallies {} := h.of_same (still_verify s)
    have hmemory := hverified.memory
    generalize (verify v w).after s = s₁ at h₁ hmemory ⊢
    rw [← hmemory] at hindex
    -- an open that ends well has seeded the chain
    have hcases : (seed w rs false).ComesTo s₁ (Seeding w rs s₁.memory s₁.disk false) :=
      seed_cases s₁ false
    obtain ⟨a, m, cs, hgives, hseeding⟩ := hcases
    cases a with
    | error e => exact endsIn_bind_of_error hgives.result fun ha => nomatch ha
    | ok _ =>
      refine endsIn_bind_of_ok hgives.result ?_
      -- all that is indexed now are records of the proof
      have hall : m.index.All fun r => r.height = heightOf r.hash :=
        lasts_seeded (Index.lasts_all _) (hindex ▸ (Index.lasts_all _).empty) (hverifier hv)
          hseeding
      cases hseeding with
      | @seeded tip ht =>
        have h₂ : ((seed w rs false).after s₁).Tallies
            { peak := tip.height, proofs := 1, known := Index.empty.novel rs } := by
          have hseeded : (seed w rs false).EndsIn s₁ _ := tallies_seed h₁ ht false
          unfold EndsIn at hseeded
          rw [hgives.result, hindex] at hseeded
          simpa only [Tally.seeded, Nat.zero_add] using hseeded
        have hpeak : tip.height = ((seed w rs false).after s₁).memory.peakHeight := by
          rw [hgives.memory, peakHeight, peak?_reseeded]
          rfl
        refine tallies_load_tail h₂ hpeak fun b hb r hr => ?_
        rw [hgives.memory] at hr
        obtain ⟨hhash, hheight⟩ := hall _ _ hr
        rw [hhash] at hheight
        exact ⟨hhash, hheight.trans (hstored b hb).symm⟩

/-- The number of proofs that are applied again when a chain is opened: one, if one is stored. -/
def reapplied (disk : Disk) : Nat :=
  match disk.value? WeightProof proofKey with
  | .ok (some _) => 1
  | _ => 0

/-- The records that the stored proof attests to, if there is one. The record of a stored peak that
is adopted again is among those that are indexed by then. -/
def attested (v : Verifier) (config : Config) (disk : Disk) : List BlockRecord :=
  match disk.value? WeightProof proofKey with
  | .ok (some w) => (v w config.skipSegments).toOption.getD []
  | _ => []

/-- **What opening a chain does to the tally**: a stored proof is applied again, with its
records. -/
theorem tallies_load
    (hverifier : ∀ {w skip rs}, v w skip = .ok rs → ∀ r ∈ rs, r.height = heightOf r.hash)
    (hstored : ∀ b, disk.value? HeaderBlock peakKey = .ok (some b) → b.height = heightOf b.hash) :
    (load v k).EndsIn ⟨fresh config, disk, []⟩ fun a s' =>
      a = .ok () → s'.Tallies {
        peak := s'.memory.peakHeight
        proofs := reapplied disk
        known := Index.empty.novel (attested v config disk) } := by
  -- the metrics are set to zero before anything else is done
  have hopening := gives_forM_measure (ε := ChainError)
    (⟨fresh config, disk, []⟩ : Session Chain) Measurement.opening
  refine endsIn_bind_of_ok hopening.result ?_
  have h₁ := tallies_opening (s := ⟨fresh config, disk, []⟩) rfl Index.size_empty
  have hmemory₁ := hopening.memory
  have hdisk₁ := hopening.disk
  change _ = fresh config at hmemory₁
  change _ = disk at hdisk₁
  generalize (Measurement.opening.forM Procedure.measure : Operation Unit).after _ = s₁
    at h₁ hmemory₁ hdisk₁ ⊢
  -- the stored proof is read into memory
  cases hget : (onSlots Slots.getProof).result s₁ with
  | error e => exact endsIn_bind_of_error hget fun ha => nomatch ha
  | ok proof =>
  refine endsIn_bind_of_ok hget ?_
  obtain ⟨hproof, hgives₂⟩ := gives_of_getProof (by rw [hmemory₁]; rfl) hget
  have h₂ := h₁.of_same (still_onSlots Slots.still_getProof s₁)
  have hmemory₂ := hgives₂.memory
  have hdisk₂ := hgives₂.disk
  generalize (onSlots Slots.getProof).after s₁ = s₂ at h₂ hmemory₂ hdisk₂ ⊢
  -- and then the stored peak
  cases hload : (onSlots Slots.loadPeak).result s₂ with
  | error e => exact endsIn_bind_of_error hload fun ha => nomatch ha
  | ok stored =>
  refine endsIn_bind_of_ok hload ?_
  obtain ⟨hpeak, hgives₃⟩ := gives_of_loadPeak hload
  have h₃ := h₂.of_same (still_onSlots Slots.still_loadPeak s₂)
  have hmemory₃ := hgives₃.memory.trans hmemory₂
  generalize (onSlots Slots.loadPeak).after s₂ = s₃ at h₃ hmemory₃ ⊢
  rw [hdisk₁] at hproof
  rw [hdisk₂, value?_serve_get, hdisk₁] at hpeak
  rw [hmemory₁] at hmemory₃
  cases proof with
  | none =>
    -- there is nothing to start from
    have hnone : reapplied disk = 0 := by simp [reapplied, hproof]
    have hempty : attested v config disk = [] := by simp [attested, hproof]
    rw [hnone, hempty]
    refine tallies_load_tail h₃ (by rw [hmemory₃]; rfl) fun b _ r hr => ?_
    rw [hmemory₃] at hr
    cases (Index.record?_empty b.hash).symm.trans hr
  | some w =>
    -- the records of the proof are all that an open can add
    have hone : reapplied disk = 1 := by simp [reapplied, hproof]
    have hattested : attested v config disk =
        (v w s₃.memory.config.skipSegments).toOption.getD [] := by
      have hconfig : s₃.memory.config = config := by rw [hmemory₃]; rfl
      simp [attested, hproof, hconfig]
    rw [hone, hattested]
    refine tallies_load_proof h₃ (by rw [hmemory₃]; rfl) hverifier fun b hb => ?_
    exact hstored b (hb ▸ hpeak)

/-! ### Requests -/

/-- **The setting in which a hash has one height**: builders copy the hash and the height of a
block, and the records that come with a proof and a stored peak have the heights of their hashes. -/
def Setting.leveled (heightOf : Hash → Height) : Setting :=
  .of (fun k => ∀ {constants i iters b r}, k.build constants i iters b = .ok r →
      r.hash = b.hash ∧ r.height = b.height)
    (fun _ rs => ∀ r ∈ rs, r.height = heightOf r.hash)
    (fun d => ∀ b, d.value? HeaderBlock peakKey = .ok (some b) → b.height = heightOf b.hash)

namespace Request

/-- The outcome of an offered block, if it has one. -/
def outcome? (s : Session Chain) : Request → Option Outcome
  | offer k b => ((Chain.offer k b).result s).toOption
  | offerProof .. | reset => none

/-- Whether an outcome of this kind is given. -/
def answers (s : Session Chain) (q : Request) (o : Outcome) : Bool :=
  (q.outcome? s).any (·.sameKind o)

/-- Whether a weight proof is taken. -/
def takesProof (s : Session Chain) : Request → Bool
  | offerProof v w records => ((Chain.offerProof v w records).result s).toOption == some true
  | offer .. | reset => false

/-- **The records that a request adds to the index**, in turn: that of a valid block, and those of a
proof that is taken. -/
def inserted (s : Session Chain) : Request → List BlockRecord
  | offer k b => s.memory.inserted k b ((Chain.offer k b).result s)
  | offerProof v w records =>
    if (offerProof v w records).takesProof s then
      records.getD ((v w s.memory.config.skipSegments).toOption.getD [])
    else []
  | reset => []

/-- Whether a request takes a proof is told by how it ends. -/
theorem takesProof_eq {records : Option (List BlockRecord)} {a : Except ChainError Bool}
    (h : (Chain.offerProof v w records).result s = a) :
    (offerProof v w records).takesProof s = (a.toOption == some true) := by
  rw [takesProof, h]

/-- A proof that is not taken adds nothing. -/
theorem inserted_of_not_taken {records : Option (List BlockRecord)}
    (h : (offerProof v w records).takesProof s = false) :
    (offerProof v w records).inserted s = [] := by
  simp [inserted, h]

/-- One that is taken adds its records. -/
theorem inserted_of_taken {records : Option (List BlockRecord)}
    (h : (offerProof v w records).takesProof s = true)
    (hr : records = some rs ∨ records = none ∧ v w s.memory.config.skipSegments = .ok rs) :
    (offerProof v w records).inserted s = rs := by
  rcases hr with rfl | ⟨rfl, hv⟩
  · simp [inserted, h]
  · simp [inserted, h, hv, Except.toOption]

/-- Whether a request is a reset that succeeds. -/
def clears (s : Session Chain) : Request → Bool
  | reset => (Chain.reset.result s).isOk
  | offer .. | offerProof .. => false

/-- The number of records that a request drops at once. -/
def dropped (s : Session Chain) (q : Request) : Nat :=
  if q.clears s then s.memory.index.size else 0

/-- No more can be dropped than is indexed. -/
theorem dropped_le (s : Session Chain) (q : Request) : q.dropped s ≤ s.memory.index.size := by
  rw [dropped]
  split
  · exact Nat.le_refl _
  · exact Nat.zero_le _

end Request

/-! ### What is indexed after a request -/

/-- An eviction goes by some floor; where none is configured, by that of zero. -/
theorem exists_floor_evicted (c : Chain) (h : Height) :
    ∃ floor, (c.evicted h).index = (c.index.pruneBelow floor).1 := by
  unfold evicted
  split
  · exact ⟨0, (Index.pruneBelow_zero _).symm⟩
  next floor _ => exact ⟨floor, rfl⟩

/-- The same records and no eviction. -/
theorem exists_floor_refl (i : Index) : ∃ floor, i.SameRecords (i.pruneBelow floor).1 :=
  ⟨0, (Index.pruneBelow_zero i).symm ▸ .refl i⟩

/-- After a block was offered the index has the records it had, and that of the block if it is kept,
less an eviction. -/
theorem Offered.sameRecords {c m : Chain} {d : Disk} {a : Except ChainError Outcome}
    {cs : List Call} (h : Offered k b c d a m cs) :
    ∃ floor, m.index.SameRecords ((c.index.addAll (c.inserted k b a)).pruneBelow floor).1 := by
  have hunbuilt : c.recordOf? k b = none →
      ∃ floor, c.index.SameRecords ((c.index.addAll (c.inserted k b a)).pruneBelow floor).1 :=
    fun hnone => inserted_of_none hnone ▸ exists_floor_refl c.index
  -- up to the record nothing is kept; after it, all but the two ways that fail with the peak in
  -- hand
  cases h with
  | known hknown => exact hunbuilt (by simp [recordOf?, hknown])
  | disconnected _ hp | unadjusted _ hp => exact hunbuilt (by simp [recordOf?, hp])
  | invalid _ hp hv => exact hunbuilt (by simp [recordOf?, hp, hv])
  | unbuilt _ hp hv hb => exact hunbuilt (by simp [recordOf?, hp, hv, hb, Except.toOption])
  | unresolved hr hs => exact inserted_of_unresolved hr hs ▸ exists_floor_refl _
  | orphan hr => exact inserted_of_ok hr _ ▸ exists_floor_refl _
  | pathless hr hs | refused hr hs => exact inserted_of_failed hr hs ▸ exists_floor_refl c.index
  | @newPeak r choice changedFrom path hr =>
    rw [inserted_of_ok hr]
    obtain ⟨floor, hfloor⟩ := exists_floor_evicted { c with
      slots := { c.slots with peak := some b, latestTimestamp := latest c.latestTimestamp path }
      index := replaceFrom (c.index.add r) changedFrom path } r.height
    exact ⟨floor, hfloor ▸ (Index.sameRecords_replaceFrom _ _ path).pruneBelow floor⟩

/-- After a proof was offered the index has the records it had, and those of the proof if it is
taken, less an eviction. -/
theorem ProofOffered.sameRecords {c m : Chain} {d : Disk} {records : Option (List BlockRecord)}
    {a : Except ChainError Bool} {cs : List Call} (h : ProofOffered v w c d records a m cs) :
    match a with
    | .ok true => ∃ rs floor, m.index.SameRecords ((c.index.addAll rs).pruneBelow floor).1 ∧
      (records = some rs ∨ records = none ∧ v w c.config.skipSegments = .ok rs)
    | _ => m.index = c.index := by
  cases h with
  | empty | tooLight | rejected => rfl
  | @seeding _ rs _ _ _ _ _ hr hs =>
    cases hs with
    | empty | tipMissing | proofRefused | peakRefused => rfl
    | @seeded tip =>
      obtain ⟨floor, hfloor⟩ := exists_floor_evicted { c.withProof w true with
        slots := { (c.withProof w true).slots with
          peak := some tip, latestTimestamp := latest c.latestTimestamp rs }
        index := reseed c.index rs } tip.height
      exact ⟨rs, floor, hfloor ▸ (Index.sameRecords_reseed _ rs).pruneBelow floor, hr⟩

/-- **What is indexed after a request**: what was, unless everything is cleared, and the records
that the request adds, less those below the floor for the peak. -/
theorem Request.sameRecords_after (s : Session Chain) (q : Request) :
    ∃ floor, (q.after s).memory.index.SameRecords
      (((if q.clears s then .empty else s.memory.index).addAll (q.inserted s)).pruneBelow
        floor).1 := by
  cases q with
  | offer k b =>
    obtain ⟨a, m, cs, hgives, hoffered⟩ := offer_cases k b s
    have hmemory : ((Request.offer k b).after s).memory = m := hgives.memory
    have hinserted : (Request.offer k b).inserted s = s.memory.inserted k b a := by
      rw [Request.inserted, hgives.result]
    rw [hmemory, hinserted]
    exact hoffered.sameRecords
  | offerProof v w records =>
    obtain ⟨a, m, cs, hgives, hoffered⟩ := offerProof_cases (v := v) (w := w) s records
    have hmemory : ((Request.offerProof v w records).after s).memory = m := hgives.memory
    have htakes := takesProof_eq hgives.result
    have hchange := hoffered.sameRecords
    rw [hmemory]
    -- only a proof that is taken changes what is indexed
    rcases a with e | _ | _
    · exact hchange ▸ inserted_of_not_taken htakes ▸ exists_floor_refl m.index
    · exact hchange ▸ inserted_of_not_taken htakes ▸ exists_floor_refl m.index
    · obtain ⟨rs, floor, hsame, hr⟩ := hchange
      exact ⟨floor, inserted_of_taken htakes hr ▸ hsame⟩
  | reset =>
    obtain ⟨a, m, cs, hgives, hreset⟩ := reset_cases s
    have hmemory : (Request.reset.after s).memory = m := hgives.memory
    have hclears : Request.reset.clears s = a.isOk := by rw [clears, hgives.result]
    rw [hmemory, hclears]
    cases hreset with
    | proofRefused | peakRefused => exact exists_floor_refl _
    | done => exact exists_floor_refl _

/-- The tally after a request. -/
def Request.tally (s : Session Chain) (t : Tally) (q : Request) : Tally where
  peak := (q.after s).memory.peakHeight
  outcomes o := t.outcomes o + if q.answers s o then 1 else 0
  proofs := t.proofs + if q.takesProof s then 1 else 0
  known := t.known + s.memory.index.novel (q.inserted s) - q.dropped s

/-- A request that comes to nothing leaves the tally as it is. -/
theorem Request.tally_eq_self {q : Request} (houtcome : q.outcome? s = none)
    (htakes : q.takesProof s = false) (hinserted : q.inserted s = []) (hdropped : q.dropped s = 0)
    (hheight : (q.after s).memory.peakHeight = t.peak) : q.tally s t = t := by
  simp [tally, answers, houtcome, htakes, hinserted, hdropped, hheight]

/-- The height that is told of is that of the peak, if records have the heights of their blocks. -/
theorem Offered.heightAfter_eq {c m : Chain} {d : Disk} {a : Except ChainError Outcome}
    {cs : List Call} (h : Offered k b c d a m cs)
    (hk : ∀ {constants i iters r}, k.build constants i iters b = .ok r → r.height = b.height) :
    c.heightAfter k b a c.peakHeight = m.peakHeight := by
  cases h with
  | newPeak hr =>
    have hrecord := recordOf?_eq_some.mpr hr
    obtain ⟨-, _, _, -, -, hbuild⟩ := hr
    simp [heightAfter, hrecord, peakHeight, hk hbuild]
  | known | disconnected | unadjusted | invalid | unbuilt | pathless | refused | orphan
  | unresolved => rfl

/-- **The tally goes on with an offered block**, if records stand at the heights of their blocks. -/
theorem Request.tallies_offer (h : s.Tallies t) (hpeak : t.peak = s.memory.peakHeight)
    (hk : ∀ {constants i iters r}, k.build constants i iters b = .ok r → r.height = b.height) :
    ((Request.offer k b).after s).Tallies ((Request.offer k b).tally s t) := by
  obtain ⟨a, m, cs, hgives, hoffered⟩ := offer_cases k b s
  have hheight := hoffered.heightAfter_eq hk
  have htallies := Chain.tallies_offer (k := k) (b := b) h
  unfold EndsIn at htallies
  rw [hgives.result] at htallies
  -- the height of the peak afterwards is the one that the tally goes by
  have hafter : ((Request.offer k b).after s).memory.peakHeight =
      s.memory.heightAfter k b a t.peak := by
    rw [hpeak, hheight, ← hgives.memory]
    rfl
  cases a with
  | ok o =>
    have htally : (Request.offer k b).tally s t =
        (t.considered k b s.memory (.ok o)).received o := by
      simp [Request.tally, Tally.received, Tally.considered, Request.answers, Request.outcome?,
        Request.takesProof, Request.inserted, Request.dropped, Request.clears, hgives.result,
        hafter, Except.toOption]
    rw [htally]
    exact htallies
  | error e =>
    have htally : (Request.offer k b).tally s t = t.considered k b s.memory (.error e) := by
      simp [Request.tally, Tally.considered, Request.answers, Request.outcome?,
        Request.takesProof, Request.inserted, Request.dropped, Request.clears, hgives.result,
        hafter, Except.toOption]
    rw [htally]
    exact htallies

/-- The peak is the tip of a proof that is taken, and else stays where it is. -/
theorem ProofOffered.peakHeight_eq {c m : Chain} {d : Disk} {records : Option (List BlockRecord)}
    {a : Except ChainError Bool} {cs : List Call} (h : ProofOffered v w c d records a m cs) :
    match a with
    | .ok true => ∃ tip, w.tip? = some tip ∧ m.peakHeight = tip.height
    | _ => m.peakHeight = c.peakHeight := by
  cases h with
  | empty | tooLight | rejected => rfl
  | seeding _ _ _ hs =>
    cases hs with
    | empty | tipMissing | proofRefused => rfl
    | peakRefused => rfl
    | @seeded tip ht => exact ⟨tip, ht, by rw [peakHeight, peak?_reseeded]; rfl⟩

/-- **The tally goes on with an offered proof.** -/
theorem Request.tallies_offerProof {records : Option (List BlockRecord)} (h : s.Tallies t)
    (hpeak : t.peak = s.memory.peakHeight) :
    ((Request.offerProof v w records).after s).Tallies
      ((Request.offerProof v w records).tally s t) := by
  obtain ⟨a, m, cs, hgives, hoffered⟩ := offerProof_cases (v := v) (w := w) s records
  have hheight := hoffered.peakHeight_eq
  have htallies := Chain.tallies_offerProof (v := v) (w := w) h records
  unfold EndsIn at htallies
  rw [hgives.result] at htallies
  have hmemory : ((Request.offerProof v w records).after s).memory = m := hgives.memory
  have htakes := takesProof_eq hgives.result
  -- a proof that is not taken changes nothing
  have hleft : a.toOption ≠ some true → m.peakHeight = s.memory.peakHeight →
      (Request.offerProof v w records).tally s t = t := by
    intro ha hm
    have hnot : (Request.offerProof v w records).takesProof s = false := by simp [htakes, ha]
    exact tally_eq_self rfl hnot (inserted_of_not_taken hnot) rfl
      (hmemory ▸ hm.trans hpeak.symm)
  rcases a with e | _ | _
  · rwa [hleft nofun hheight]
  · rwa [hleft nofun hheight]
  · obtain ⟨tip, ht, hm⟩ := hheight
    obtain ⟨tip', rs, ht', hr, htallies⟩ := htallies
    obtain rfl := Option.some.inj (ht.symm.trans ht')
    have hinserted := inserted_of_taken htakes hr
    have htally : (Request.offerProof v w records).tally s t =
        t.seeded s.memory.index rs tip := by
      simp [Request.tally, Tally.seeded, Request.answers, Request.outcome?, htakes,
        Request.dropped, Request.clears, hinserted, hmemory, hm, Except.toOption]
    rwa [htally]

/-- **The tally goes on with a reset**, one that fails included. -/
theorem Request.tallies_reset (h : s.Tallies t) (hpeak : t.peak = s.memory.peakHeight) :
    (Request.reset.after s).Tallies (Request.reset.tally s t) := by
  obtain ⟨a, m, cs, hgives, hreset⟩ := reset_cases s
  have htallies := Chain.tallies_reset h
  unfold EndsIn at htallies
  rw [hgives.result] at htallies
  have hmemory : (Request.reset.after s).memory = m := hgives.memory
  cases hreset with
  | proofRefused | peakRefused =>
    -- a reset that succeeds drops the whole index
    have htally : Request.reset.tally s t = t := by
      refine tally_eq_self rfl rfl rfl ?_ (hmemory ▸ hpeak.symm)
      simp [Request.dropped, Request.clears, hgives.result, Except.isOk, Except.toBool]
    rwa [htally]
  | done =>
    have htally : Request.reset.tally s t =
        { t with peak := 0, known := t.known - s.memory.index.size } := by
      simp [Request.tally, Request.answers, Request.outcome?, Request.takesProof, Request.inserted,
        Request.dropped, Request.clears, hgives.result, hmemory, peakHeight, peak?, Except.isOk,
        Except.toBool]
    rwa [htally]

/-- **What a request does to the tally**, whether it fails or not. -/
theorem Request.tallies {heightOf : Hash → Height} {q : Request} (h : s.Tallies t)
    (hpeak : t.peak = s.memory.peakHeight) (hq : (Setting.leveled heightOf).admits s q) :
    (q.after s).Tallies (q.tally s t) := by
  cases q with
  | offer k b => exact tallies_offer h hpeak fun hbuild => (hq hbuild).2
  | offerProof v w records => exact tallies_offerProof h hpeak
  | reset => exact tallies_reset h hpeak

/-! ### Runs -/

/-- **The sessions of a run of one chain**, from its opening on, with all requests so far, the
latest first, each with the session in which it was made. -/
inductive Run (setting : Setting) (v : Verifier) (k : Consensus) (config : Config) (disk : Disk) :
    List (Session Chain × Request) → Session Chain → Prop
  | opened (hopens : setting.opens v disk)
    (h : (load v k).result ⟨fresh config, disk, []⟩ = .ok ()) :
    Run setting v k config disk [] (Chain.opened v k config disk)
  | asked {steps : List (Session Chain × Request)} {s : Session Chain} {q : Request}
    (hs : Run setting v k config disk steps s) (hq : setting.admits s q) :
    Run setting v k config disk ((s, q) :: steps) (q.after s)

section Counts

variable (steps : List (Session Chain × Request))

/-- How many blocks were offered with an outcome of this kind. -/
def answered (o : Outcome) : Nat := steps.countP fun step => step.2.answers step.1 o

/-- How many proofs were taken. -/
def taken : Nat := steps.countP fun step => step.2.takesProof step.1

/-- How many records were added under a hash that was not indexed at that moment, since the chain
was opened. -/
def insertedIn (v : Verifier) (config : Config) (disk : Disk) : Nat :=
  Index.empty.novel (attested v config disk) +
    (steps.map fun step => step.1.memory.index.novel (step.2.inserted step.1)).sum

/-- How many records were dropped by resets. -/
def droppedIn : Nat := (steps.map fun step => step.2.dropped step.1).sum

end Counts

/-- **The metrics account for a run**: what a recorder has seen since before the chain was
opened. -/
structure Accounted (v : Verifier) (config : Config) (disk : Disk)
    (steps : List (Session Chain × Request)) (s : Session Chain) : Prop where
  peakHeight : s.readings.peakHeight = some s.memory.peakHeight
  /-- The counter of each kind of outcomes counts the blocks with such an outcome. -/
  received : ∀ o : Outcome, s.readings.received[o.label]? = some (answered steps o)
  proofsAdopted : s.readings.proofsAdopted = some (reapplied disk + taken steps)
  /-- What was added and is neither dropped nor indexed was evicted. -/
  evicted : ∃ n, s.readings.evicted = some n ∧
    n + s.memory.index.size + droppedIn steps = insertedIn steps v config disk
  /-- After the zero of the opening there is one depth for each reorganisation. -/
  depths : ∃ depths, s.readings.depths = 0 :: depths ∧
    s.readings.reorganisations = some depths.length

variable {heightOf : Hash → Height} {config : Config} {disk : Disk}
  {steps : List (Session Chain × Request)}

/-- **The readings of a run**, told as a tally. -/
theorem Run.tallies (h : Run (.leveled heightOf) v k config disk steps s) :
    ∃ known, s.Tallies ⟨s.memory.peakHeight, answered steps, reapplied disk + taken steps, known⟩ ∧
      known + droppedIn steps = insertedIn steps v config disk := by
  induction h with
  | opened hopens h =>
    exact ⟨_, tallies_load (v := v) (k := k) hopens.1 hopens.2 h, rfl⟩
  | @asked steps s q hs hq ih =>
    obtain ⟨known, htallies, hknown⟩ := ih
    have hanswered : answered ((s, q) :: steps) = fun o =>
        answered steps o + if q.answers s o then 1 else 0 :=
      funext fun o => List.countP_cons
    have htaken : taken ((s, q) :: steps) = taken steps + if q.takesProof s then 1 else 0 :=
      List.countP_cons
    -- what is dropped was known, so that nothing is lost by taking it away
    refine ⟨known + s.memory.index.novel (q.inserted s) - q.dropped s, ?_, ?_⟩
    · rw [hanswered, htaken, ← Nat.add_assoc]
      exact Request.tallies htallies rfl hq
    · have hle := q.dropped_le s
      have hsize : s.memory.index.size ≤ known := htallies.size_le
      simp only [droppedIn, insertedIn, List.map_cons, List.sum_cons] at hknown ⊢
      omega

/-- **The metrics account for every run of a chain**, whatever is asked of it and whichever calls to
the store fail on the way. -/
theorem Run.metrics_account (h : Run (.leveled heightOf) v k config disk steps s) :
    Accounted v config disk steps s := by
  obtain ⟨known, htallies, hknown⟩ := h.tallies
  obtain ⟨n, hn, hevicted⟩ := htallies.evicted
  refine ⟨htallies.peakHeight, htallies.received, htallies.proofsAdopted, ⟨n, hn, ?_⟩,
    htallies.reorganised⟩
  have hevicted : n + s.memory.index.size = known := hevicted
  omega

end Chain

namespace Sample

/-- The heights of the two branches, by the hashes of their blocks. -/
def forkedHeight (x : Hash) : Height := if x = root.hash then 0 else 1

theorem height_forked : ∀ b ∈ forked, b.height = forkedHeight b.hash := by
  decide +kernel

end Sample

namespace Chain

set_option maxRecDepth 4000 in
/-- Blocks are offered that become the peak one after the other, the last of them on another branch,
and then everything is forgotten. -/
theorem metrics_account_forked :
    ∃ steps s, Run (.leveled Sample.forkedHeight) (.only Sample.forked) (.only Sample.forked) {} {}
        steps s ∧
      answered steps .newPeak = 3 ∧ droppedIn steps = 3 ∧
      Accounted (.only Sample.forked) {} {} steps s := by
  have hk : ∀ {constants i iters b r}, (Consensus.only Sample.forked).build constants i iters b =
      .ok r → r.hash = b.hash ∧ r.height = b.height := by
    intro constants i iters b r h
    cases h
    exact ⟨rfl, rfl⟩
  have hv : (Verifier.only Sample.forked).Follows
      fun _ rs => ∀ r ∈ rs, r.height = Sample.forkedHeight r.hash := by
    intro w skip rs h r hr
    obtain ⟨run, hrun, hcovers⟩ := Verifier.covers_of_only h
    obtain ⟨b, hb, hcopies⟩ := BlockRecord.exists_block hcovers.copies hr
    rw [hcopies.height, hcopies.hash]
    exact Sample.height_forked b (hrun b hb)
  have hopens : (Setting.leveled Sample.forkedHeight).opens (.only Sample.forked) {} :=
    ⟨hv, fun b hb => by cases hb⟩
  -- three blocks, each heavier than the one before, and a reset
  have hrun : Run (.leveled Sample.forkedHeight) (.only Sample.forked) (.only Sample.forked) {} {}
      _ _ :=
    ((((Run.opened hopens (load_of_empty ⟨fresh {}, {}, []⟩ rfl rfl fun _ _ => rfl).result).asked
      (q := .offer (.only Sample.forked) Sample.root) hk).asked
      (q := .offer (.only Sample.forked) Sample.child) hk).asked
      (q := .offer (.only Sample.forked) Sample.rival) hk).asked (q := .reset) trivial
  exact ⟨_, _, hrun, by cbv, by cbv, hrun.metrics_account⟩

end Chain

end HeaderChain
