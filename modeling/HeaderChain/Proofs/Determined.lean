import HeaderChain.Proofs.Seed

/-!
# The guards of a way are all that it takes

`Offered` and `ProofOffered` list the ways through an operation, each with its guards. No two of
them are open at once, for the guards are answers to the same questions. So they can be read the
other way round: whoever knows the guards of one way knows what the operation comes to.

* `Chain.fate` — what becomes of a block, worked out from the answers; `Chain.Offered.fate_eq` —
  each way comes to that;
* `Chain.Offered.unique`, `Chain.Seeding.unique`, `Chain.ProofOffered.unique` — one way at most;
* `Chain.Offered.gives`, `Chain.ProofOffered.gives` — the operation goes the way whose guards hold.
  Neither the journal nor anything else but the memory and the store has a say in it.
-/

namespace HeaderChain

namespace Procedure

variable {σ ε α : Type} {x : Procedure σ ε α} {s : Session σ} {r : Except ε α} {m : σ}
  {cs : List Call} {P : Except ε α → σ → List Call → Prop}

/-- If `P` leaves one way only, the procedure goes it. -/
theorem ComesTo.gives (h : x.ComesTo s P)
    (hunique : ∀ {r m cs r' m' cs'}, P r m cs → P r' m' cs' → r = r' ∧ m = m' ∧ cs = cs')
    (hP : P r m cs) : x.Gives s r m cs := by
  obtain ⟨r', m', cs', hgives, hP'⟩ := h
  obtain ⟨rfl, rfl, rfl⟩ := hunique hP hP'
  exact hgives

end Procedure

namespace Chain

open Procedure

variable {k : Consensus} {v : Verifier} {b : HeaderBlock} {w : WeightProof} {c m m' : Chain}
  {d : Disk} {cs cs' : List Call} {rs : List BlockRecord} {records : Option (List BlockRecord)}
  {s : Session Chain}

/-- What becomes of a valid block with this record: the result, the memory that is left, and the
calls to the store. -/
def placement (k : Consensus) (b : HeaderBlock) (c : Chain) (d : Disk) (r : BlockRecord) :
    Except ChainError Outcome × Chain × List Call :=
  match c.standing? k r with
  | .error e => (.error e, c.kept r, [])
  | .ok choice =>
    match choice.changedFrom? r.height with
    | none => (.ok .orphan, c.kept r, [])
    | some changedFrom =>
      match c.index.pathDown changedFrom r, d.refusal? (storesPeak b) with
      | .error e, _ => (.error e, c, [])
      | .ok _, some detail => (.error (.store (.database detail)), c, [storesPeak b])
      | .ok path, none => (.ok .newPeak, c.adopted b r changedFrom path, [storesPeak b])

/-- **What becomes of a block**, worked out from the answers to the questions about it. -/
def fate (k : Consensus) (b : HeaderBlock) (c : Chain) (d : Disk) :
    Except ChainError Outcome × Chain × List Call :=
  if c.index.contains b.hash then (.ok .known, c, [])
  else
    match c.parameters? k b with
    | .error e => (.error e, c, [])
    | .ok none => (.ok (.disconnected .prevBlockHash), c, [])
    | .ok (some p) =>
      match c.verdict k b p with
      | .error code => (.ok (.invalid code), c, [])
      | .ok iters =>
        match k.build c.config.constants c.index iters b with
        | .error e => (.error e, c, [])
        | .ok r => placement k b c d r

theorem Validated.fate_eq {r : BlockRecord} (hr : Validated k b c r) :
    fate k b c d = placement k b c d r := by
  obtain ⟨hnew, p, iters, hp, hv, hbuild⟩ := hr
  simp [fate, hnew, hp, hv, hbuild]

/-- **Every way comes to the fate of the block.** -/
theorem Offered.fate_eq {a : Except ChainError Outcome} (h : Offered k b c d a m cs) :
    fate k b c d = (a, m, cs) := by
  cases h with
  | known h => simp [fate, h]
  | disconnected h hp | unadjusted h hp => simp [fate, h, hp]
  | invalid h hp hv => simp [fate, h, hp, hv]
  | unbuilt h hp hv hb => simp [fate, h, hp, hv, hb]
  -- the block is valid in all other cases
  | unresolved hr hs => simp [hr.fate_eq, placement, hs]
  | orphan hr hs hc => simp [hr.fate_eq, placement, hs, hc]
  | pathless hr hs hc hp => simp [hr.fate_eq, placement, hs, hc, hp]
  | refused hr hs hc hp hd | newPeak hr hs hc hp hd =>
    simp [hr.fate_eq, placement, hs, hc, hp, hd]

/-- **A block goes one way only.** -/
theorem Offered.unique {a a' : Except ChainError Outcome} (h : Offered k b c d a m cs)
    (h' : Offered k b c d a' m' cs') : a = a' ∧ m = m' ∧ cs = cs' := by
  simpa using h.fate_eq.symm.trans h'.fate_eq

/-- **A valid block that wins becomes the peak**, unless the store refuses it. -/
theorem Validated.newPeak_or_refused {r : BlockRecord} {choice : Choice} {changedFrom : Height}
    {path : List BlockRecord} {a : Except ChainError Outcome} (hr : Validated k b c r)
    (hs : c.standing? k r = .ok choice) (hc : choice.changedFrom? r.height = some changedFrom)
    (hpath : c.index.pathDown changedFrom r = .ok path) (h : Offered k b c d a m cs) :
    a = .ok .newPeak ∧ m = c.adopted b r changedFrom path ∧ cs = [storesPeak b] ∨
      ∃ detail, d.refusal? (storesPeak b) = some detail ∧
        a = .error (.store (.database detail)) := by
  cases hd : d.refusal? (storesPeak b) with
  | none => exact .inl (h.unique (.newPeak hr hs hc hpath hd))
  | some detail => exact .inr ⟨detail, rfl, (h.unique (.refused hr hs hc hpath hd)).1⟩

theorem Seeding.unique {persist : Bool} {a a' : Except ChainError Unit}
    (h : Seeding w rs c d persist a m cs) (h' : Seeding w rs c d persist a' m' cs') :
    a = a' ∧ m = m' ∧ cs = cs' := by
  cases h <;> cases h' <;> grind

/-- The records of a proof are given with it or answered, and not both. -/
theorem eq_of_records {rs rs' : List BlockRecord} {answer : Except String (List BlockRecord)}
    (h : records = some rs ∨ records = none ∧ answer = .ok rs)
    (h' : records = some rs' ∨ records = none ∧ answer = .ok rs') : rs = rs' := by
  rcases h with h | ⟨h, hv⟩ <;> rcases h' with h' | ⟨h', hv'⟩
  · exact Option.some.inj (h.symm.trans h')
  · cases h.symm.trans h'
  · cases h.symm.trans h'
  · exact Except.ok.inj (hv.symm.trans hv')

/-- **So does a proof.** -/
theorem ProofOffered.unique {a a' : Except ChainError Bool}
    (h : ProofOffered v w c d records a m cs) (h' : ProofOffered v w c d records a' m' cs') :
    a = a' ∧ m = m' ∧ cs = cs' := by
  cases h with
  | empty ht | tooLight ht | rejected ht => cases h' <;> grind
  | seeding ht hw hr hs =>
    cases h' with
    | empty ht' => cases ht.symm.trans ht'
    | tooLight ht' hp hlight =>
      cases ht.symm.trans ht'
      cases (hw _ hp).symm.trans hlight
    | rejected _ _ hnone hv => grind
    | seeding _ _ hr' hs' =>
      -- both runs seed the chain from the same records
      obtain rfl := eq_of_records hr hr'
      obtain ⟨rfl, rfl, rfl⟩ := hs.unique hs'
      exact ⟨rfl, rfl, rfl⟩

/-- **What a block comes to is settled** by the guards of the way that is open to it. -/
theorem Offered.gives {a : Except ChainError Outcome}
    (h : Offered k b s.memory s.disk a m cs) : (offer k b).Gives s a m cs :=
  (offer_cases k b s).gives Offered.unique h

theorem ProofOffered.gives {a : Except ChainError Bool}
    (h : ProofOffered v w s.memory s.disk records a m cs) :
    (offerProof v w records).Gives s a m cs :=
  (offerProof_cases s records).gives ProofOffered.unique h

end Chain

end HeaderChain
