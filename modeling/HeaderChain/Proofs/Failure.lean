import HeaderChain.Proofs.Canonical
import HeaderChain.Proofs.Served

/-!
# Operations of which a call is refused

What is left when the store refuses a call in the middle of an operation.

* `Chain.Changes.unharmed_of_refused` — the index and the peak are as they were, in memory and in
  the store, and so is the latest timestamp. Whatever else was left does not outlast the operation
  made again on a store that works, which ends as if it had not been tried before;
* `Chain.storage_error_iff_of_offer`, `Chain.SetsProof.storage_error_iff` — these are the operations
  that end with a failure of the store, as long as no collaborator makes one up;
* `Chain.SetsProof` — offering a proof and resetting write to the slot of the proof before they
  write to that of the peak, and there is no way back between the two. `SetsProof.cases` tells what
  they can come to, and `SetsProof.untouched_iff` when a failure has left everything as it was: it
  has not if it is the second call that is refused (`Chain.proof_kept_without_tip`).
-/

namespace HeaderChain

namespace Disk

variable {d d' : Disk} {c : Call} {cs : List Call} {key : String}

theorem accepts_nil (d : Disk) : d.Accepts [] := by
  rintro before c after h
  simp at h

/-- A list is accepted if its first call is, and the others after it. -/
theorem accepts_cons :
    d.Accepts (c :: cs) ↔ d.refusal? c = none ∧ (d.serve c).2.Accepts cs := by
  refine ⟨fun h => ⟨h [] c cs rfl, fun before c' after heq => ?_⟩, ?_⟩
  · exact h (c :: before) c' after (congrArg (c :: ·) heq)
  · rintro ⟨hc, hcs⟩ before c' after heq
    cases before with
    | nil =>
      obtain ⟨rfl, -⟩ := List.cons.inj heq
      exact hc
    | cons first before =>
      obtain ⟨rfl, rfl⟩ := List.cons.inj heq
      exact hcs before c' after rfl

/-- **A write covers what was under its key**: stores that differ there only do so no longer. -/
theorem entries_apply_of_agree (hc : ∀ key, c ≠ .get key)
    (h : ∀ key, key ≠ c.key → d.peek key = d'.peek key) :
    (d.apply c).entries = (d'.apply c).entries := by
  refine Std.ExtTreeMap.ext_getElem? fun key => ?_
  show (d.apply c).peek key = (d'.apply c).peek key
  by_cases hkey : key = c.key
  · subst hkey
    cases c with
    | get key => exact absurd rfl (hc key)
    | set key value =>
      show (d.write key value).peek key = (d'.write key value).peek key
      rw [peek_write, peek_write, if_pos rfl, if_pos rfl]
    | remove key =>
      show (d.erase key).peek key = (d'.erase key).peek key
      rw [peek_erase, peek_erase, if_pos rfl, if_pos rfl]
  · rw [peek_apply_of_ne hkey, peek_apply_of_ne hkey]
    exact h key hkey

end Disk

/-! ### Failures that are not of the store -/

/-- A result that is no failure of the store. -/
def NoStorageError {α : Type} (r : Except ChainError α) : Prop :=
  ∀ cause, r ≠ .error (.store cause)

section NoStorageError

variable {α β : Type} {r : Except ChainError α} {f : α → Except ChainError β}

theorem noStorageError_ok (a : α) : NoStorageError (.ok a) := by
  intro cause h
  cases h

/-- An error of another kind is no failure of the store. -/
theorem noStorageError_error {e : ChainError} (he : ∀ cause, e ≠ .store cause) :
    NoStorageError (.error e : Except ChainError α) := by
  intro cause h
  exact he cause (Except.error.inj h)

theorem NoStorageError.ne_store {e : ChainError}
    (h : NoStorageError (.error e : Except ChainError α)) : ∀ cause, e ≠ .store cause := by
  rintro cause rfl
  exact h cause rfl

/-- Two steps, neither of which fails for the store. -/
theorem NoStorageError.bind (hr : NoStorageError r) (hf : ∀ a, NoStorageError (f a)) :
    NoStorageError (r >>= f) := by
  cases r with
  | ok a => exact hf a
  | error e => exact noStorageError_error hr.ne_store

theorem NoStorageError.map (hr : NoStorageError r) (g : α → β) : NoStorageError (r.map g) := by
  cases r with
  | ok a => exact noStorageError_ok (g a)
  | error e => exact noStorageError_error hr.ne_store

/-- A record that is missing is no failure of the store. -/
theorem Index.noStorageError_record (i : Index) (x : Hash) : NoStorageError (i.record x) := by
  unfold Index.record
  cases i.record? x with
  | some r => exact noStorageError_ok r
  | none => exact noStorageError_error fun _ => ChainError.noConfusion

/-- Nor is one that is missing on a path. -/
theorem Index.noStorageError_pathDown (i : Index) (floor : Height) (r : BlockRecord) :
    NoStorageError (i.pathDown floor r) := by
  unfold Index.pathDown
  -- the induction is on the steps left for the walk
  induction i.pathSteps r generalizing r with
  | zero =>
    unfold Index.walkDown
    split
    · exact noStorageError_ok [r]
    · exact noStorageError_error fun _ => ChainError.noConfusion
  | succ steps ih =>
    unfold Index.walkDown
    split
    · exact noStorageError_ok [r]
    · exact (i.noStorageError_record r.parent).bind fun parent =>
        (ih parent).bind fun rest => noStorageError_ok (r :: rest)

end NoStorageError

/-- Collaborators that never answer with a failure of the store. -/
structure Consensus.Storeless (k : Consensus) : Prop where
  adjust : ∀ constants first parent i, NoStorageError (k.adjust constants first parent i)
  build : ∀ constants i iters b, NoStorageError (k.build constants i iters b)
  findFork : ∀ i r peak, NoStorageError (k.findFork i r peak)

namespace Chain

open Procedure

variable {α : Type} {x : Operation α} {proof : Option WeightProof} {c m : Chain} {d : Disk}
  {s : Session Chain} {cs : List Call}

/-! ### Writing to both slots -/

/-- The chain with a proof in its slot, or with none there. -/
def holding (c : Chain) (proof : Option WeightProof) : Chain :=
  { c with slots := { c.slots with proof } }

@[simp] theorem peak?_holding : (c.holding proof).peak? = c.peak? := rfl

@[simp] theorem config_holding : (c.holding proof).config = c.config := rfl

/-- The call that puts a proof in its slot, or empties the slot. -/
def proofCall : Option WeightProof → Call
  | some w => storesProof w
  | none => .remove proofKey

@[simp] theorem key_proofCall (proof : Option WeightProof) : (proofCall proof).key = proofKey := by
  cases proof <;> rfl

theorem proofCall_ne_get (proof : Option WeightProof) (key : String) :
    proofCall proof ≠ .get key := by
  cases proof <;> exact Call.noConfusion

/-- What is under the key of the proof after the call. -/
theorem peek_serve_proofCall (h : d.refusal? (proofCall proof) = none) :
    (d.serve (proofCall proof)).2.peek proofKey = proof.map Stored.encode := by
  rw [Disk.serve_of_served h]
  cases proof with
  | some w =>
    show (d.write proofKey (Stored.encode w)).peek proofKey = _
    rw [Disk.peek_write, if_pos rfl, Option.map_some]
  | none =>
    show (d.erase proofKey).peek proofKey = _
    rw [Disk.peek_erase, if_pos rfl, Option.map_none]

/-- **The operations that write to both slots**, with what they put in that of the proof. -/
inductive SetsProof : Option WeightProof → {α : Type} → Operation α → Prop
  | offerProof (v : Verifier) (w : WeightProof) (records : Option (List BlockRecord)) :
    SetsProof (some w) (offerProof v w records)
  | reset : SetsProof none reset

/-- **What such an operation does where no call is refused**: the value it ends with and the memory
it leaves do not depend on the proof that is in the slot. -/
def Completes (x : Operation α) (proof : Option WeightProof) (c : Chain) (a : α) (m : Chain)
    (second : Call) : Prop :=
  ∀ t : Session Chain, t.disk.Serves → t.memory.holding proof = c.holding proof →
    x.Gives t (.ok a) m [proofCall proof, second]

/-- **What it can come to.** -/
inductive Replacing (x : Operation α) (proof : Option WeightProof) (c : Chain) (d : Disk) :
    Except ChainError α → Chain → List Call → Prop
  /-- It ends before it has made a call. -/
  | quiet {r : Except ChainError α} (hr : NoStorageError r) : Replacing x proof c d r c []
  | proofRefused {a : α} {m : Chain} {second : Call} {detail : String}
    (hx : Completes x proof c a m second) (hp : d.refusal? (proofCall proof) = some detail) :
    Replacing x proof c d (.error (.store (.database detail))) c [proofCall proof]
  /-- The slot of the proof is written to, and that of the peak is not. -/
  | peakRefused {a : α} {m : Chain} {second : Call} {detail : String}
    (hx : Completes x proof c a m second) (hp : d.refusal? (proofCall proof) = none)
    (hd : (d.serve (proofCall proof)).2.refusal? second = some detail) :
    Replacing x proof c d (.error (.store (.database detail))) (c.holding proof)
      [proofCall proof, second]
  | done {a : α} {m : Chain} {second : Call} (hp : d.refusal? (proofCall proof) = none)
    (hd : (d.serve (proofCall proof)).2.refusal? second = none) :
    Replacing x proof c d (.ok a) m [proofCall proof, second]

/-- Offering a proof that is good enough, where no call is refused. -/
theorem completes_offerProof {v : Verifier} {w : WeightProof} {records : Option (List BlockRecord)}
    {rs : List BlockRecord} {tip : HeaderBlock} (ht : w.tip? = some tip)
    (hw : ∀ peak, c.peak? = some peak → isBetter tip.weight peak.weight = true)
    (hr : records = some rs ∨ records = none ∧ v w c.config.skipSegments = .ok rs)
    (htip : rs.any (·.hash == tip.hash) = true) :
    Completes (offerProof v w records) (some w) c true ((c.holding (some w)).reseeded rs tip)
      (storesPeak tip) := by
  intro t hd hsame
  -- neither the peak nor the configuration depends on the slot of the proof
  have hpeak : t.memory.peak? = c.peak? := by simpa using congrArg peak? hsame
  have hconfig : t.memory.config = c.config := by simpa using congrArg config hsame
  rw [← hpeak] at hw
  rw [← hconfig] at hr
  have hgives := offerProof_served ht hw hr htip hd
  exact hgives.leaves (congrArg (reseeded rs · tip) hsame)

/-- **A reset, where no call is refused**: nothing is left in the slots or in the index. -/
theorem completes_reset :
    Completes reset none c () { c with slots := {}, index := .empty } (.remove peakKey) := by
  intro t hd hsame
  have hconfig : t.memory.config = c.config := by simpa using congrArg config hsame
  refine (reset_served hd).leaves ?_
  simp only [hconfig]

/-- **Every way through an operation that writes to both slots.** -/
theorem SetsProof.cases (h : SetsProof proof x) (s : Session Chain) :
    x.ComesTo s (Replacing x proof s.memory s.disk) := by
  cases h with
  | offerProof v w records =>
    obtain ⟨r, m, cs, hgives, hoffered⟩ := offerProof_cases (v := v) (w := w) s records
    refine hgives.comesTo ?_
    -- the ways that make no call end before the proof is stored; the others differ in the call that
    -- is refused
    cases hoffered with
    | empty | rejected => exact .quiet (noStorageError_error fun _ => ChainError.noConfusion)
    | tooLight => exact .quiet (noStorageError_ok false)
    | seeding ht hw hr hs =>
      cases hs with
      | empty | tipMissing =>
        exact .quiet (noStorageError_error fun _ => ChainError.noConfusion)
      | proofRefused ht' htip _ hd =>
        cases ht.symm.trans ht'
        exact .proofRefused (completes_offerProof ht hw hr htip) hd
      | peakRefused ht' htip hp hd =>
        cases ht.symm.trans ht'
        exact .peakRefused (completes_offerProof ht hw hr htip) (hp rfl) hd
      | seeded _ _ hp hd => exact .done (hp rfl) hd
  | reset =>
    obtain ⟨r, m, cs, hgives, hreset⟩ := reset_cases s
    refine hgives.comesTo ?_
    cases hreset with
    | proofRefused hd => exact .proofRefused completes_reset hd
    | peakRefused hp hd => exact .peakRefused completes_reset hp hd
    | done hp hd => exact .done hp hd

/-! ### What a failure leaves -/

/-- **Nothing at all has changed**: neither the memory nor anything that is stored. -/
structure Untouched (s t : Session Chain) : Prop where
  memory : t.memory = s.memory
  entries : t.disk.entries = s.disk.entries

/-- **Half of an operation is done**: the slot of the proof is written to, in memory and in the
store, and nothing else is. -/
structure HalfDone (proof : Option WeightProof) (s t : Session Chain) : Prop where
  memory : t.memory = s.memory.holding proof
  proof : t.disk.peek proofKey = proof.map Stored.encode
  others : ∀ key, key ≠ proofKey → t.disk.peek key = s.disk.peek key

/-- If nothing has changed, the chain has not. -/
theorem Untouched.sameChain {t : Session Chain} (h : Untouched s t) : SameChain s t := by
  refine ⟨?_, ?_, ?_, Disk.peek_congr h.entries peakKey⟩ <;> rw [h.memory]

/-- Half of an operation does not touch the chain: only the slot of the proof is written to. -/
theorem HalfDone.sameChain {t : Session Chain} (h : HalfDone proof s t) : SameChain s t := by
  refine ⟨?_, ?_, ?_, h.others peakKey (by decide)⟩ <;> rw [h.memory] <;> rfl

/-- Half of an operation changes nothing exactly if that half was done before. -/
theorem HalfDone.nothing_new_iff {t : Session Chain} (h : HalfDone proof s t) :
    Untouched s t ↔
      s.memory.syncedProof? = proof ∧ s.disk.peek proofKey = proof.map Stored.encode := by
  constructor
  · rintro ⟨hmemory, hentries⟩
    refine ⟨?_, ?_⟩
    · rw [← hmemory, h.memory]
      rfl
    · rw [← h.proof, Disk.peek_congr hentries]
  · rintro ⟨hheld, hstored⟩
    refine ⟨?_, Disk.entries_eq_of_peek fun key => ?_⟩
    · rw [h.memory, ← hheld]
      rfl
    · -- under every other key nothing was written
      by_cases hkey : key = proofKey
      · rw [hkey, h.proof, hstored]
      · exact h.others key hkey

/-- **What a failure leaves** of an operation that writes to both slots: everything as it was, or
half of the operation if the second call was made. -/
theorem SetsProof.untouched_or_halfDone (h : SetsProof proof x) {e : ChainError}
    (he : x.result s = .error e) (hcs : (x.after s).calls = s.calls ++ cs) :
    cs.length ≤ 1 ∧ Untouched s (x.after s) ∨ 1 < cs.length ∧ HalfDone proof s (x.after s) := by
  obtain ⟨r, m, hgives, hreplacing⟩ := (h.cases s).of_calls hcs
  obtain rfl : r = .error e := hgives.result.symm.trans he
  cases hreplacing with
  | quiet => exact .inl ⟨Nat.zero_le 1, hgives.memory, congrArg Disk.entries hgives.disk⟩
  | proofRefused _ hp =>
    refine .inl ⟨Nat.le_refl 1, hgives.memory, ?_⟩
    rw [hgives.disk]
    exact Disk.entries_serve_of_refusal hp
  | @peakRefused a m second detail _ hp hd =>
    -- the first call was served, and the second one changes nothing
    have hpeek : ∀ key, (x.after s).disk.peek key =
        (s.disk.serve (proofCall proof)).2.peek key := by
      intro key
      rw [hgives.disk]
      exact Disk.peek_serve_of_refusal hd key
    refine .inr ⟨Nat.lt_succ_self 1, hgives.memory, ?_, fun key hkey => ?_⟩
    · rw [hpeek, peek_serve_proofCall hp]
    · rw [hpeek]
      exact Disk.peek_serve_of_ne (key_proofCall proof ▸ hkey)

/-! ### Made again -/

/-- **An operation can be made again**: once the store refuses nothing, it has the result that it
would have had at first, and leaves the same memory and the same entries. -/
structure Retried (x : Operation α) (s : Session Chain) : Prop where
  result : x.result (x.after s).healed = x.result s.healed
  after : (x.after (x.after s).healed).Alike (x.after s.healed)

/-- What has changed nothing, and cannot tell alike sessions apart, can be made again. -/
theorem Untouched.retried (h : Untouched s (x.after s)) (hx : x.Uniform) : Retried x s := by
  have halike : (x.after s).healed.Alike s.healed := Session.alike_healed h.memory h.entries
  obtain ⟨hresult, hafter⟩ := hx _ _ halike
  exact ⟨hresult, hafter⟩

/-- An attempt that got no further than the slot of the proof is covered by the next one. -/
theorem Completes.retried {a : α} {second : Call} (hx : Completes x proof s.memory a m second)
    (hmemory : (x.after s).memory.holding proof = s.memory.holding proof)
    (hagree : ∀ key, key ≠ proofKey → (x.after s).disk.peek key = s.disk.peek key) :
    Retried x s := by
  have hfirst := hx s.healed (Disk.serves_healed _) rfl
  have hagain := hx (x.after s).healed (Disk.serves_healed _) hmemory
  have hserves := fun d : Disk => d.serves_healed
  -- the first call covers what differs, and the second one finds equal stores
  have hcovered : ((x.after s).disk.healed.serve (proofCall proof)).2.entries =
      (s.disk.healed.serve (proofCall proof)).2.entries := by
    rw [(hserves _).entries_serve, (hserves _).entries_serve]
    refine Disk.entries_apply_of_agree (proofCall_ne_get proof) fun key hkey => ?_
    exact hagree key (key_proofCall proof ▸ hkey)
  have hentries : ((x.after s).disk.healed.serveAll [proofCall proof, second]).entries =
      (s.disk.healed.serveAll [proofCall proof, second]).entries :=
    ((hserves _).serveAll [proofCall proof]).entries_serveAll
      ((hserves _).serveAll [proofCall proof]) hcovered [second]
  refine ⟨?_, ?_, ?_, ?_, ?_⟩
  · rw [hagain.result, hfirst.result]
  · rw [hagain.memory, hfirst.memory]
  · rw [hagain.disk, hfirst.disk]
    exact hentries
  · rw [hagain.disk]
    exact (hserves _).serveAll _
  · rw [hfirst.disk]
    exact (hserves _).serveAll _

/-- An operation that is refused a call would have gone on to its end. -/
theorem SetsProof.completes_of_refused (h : SetsProof proof x)
    (hcs : (x.after s).calls = s.calls ++ cs) (hrefused : ¬s.disk.Accepts cs) :
    (∃ detail, x.result s = .error (.store (.database detail))) ∧
      ∃ a m second, Completes x proof s.memory a m second := by
  obtain ⟨r, m, hgives, hreplacing⟩ := (h.cases s).of_calls hcs
  cases hreplacing with
  | quiet => exact absurd (Disk.accepts_nil _) hrefused
  | proofRefused hx => exact ⟨⟨_, hgives.result⟩, _, _, _, hx⟩
  | peakRefused hx => exact ⟨⟨_, hgives.result⟩, _, _, _, hx⟩
  | done hp hd =>
    have haccepts : s.disk.Accepts [proofCall proof, _] :=
      Disk.accepts_cons.mpr ⟨hp, Disk.accepts_cons.mpr ⟨hd, Disk.accepts_nil _⟩⟩
    exact absurd haccepts hrefused

/-- **A refused call harms nothing** where an operation writes to both slots: it fails for the
store, the chain is as it was, and once the store recovers the operation ends as if it had not
failed. -/
theorem SetsProof.sameChain_and_retried (h : SetsProof proof x)
    (hcs : (x.after s).calls = s.calls ++ cs) (hrefused : ¬s.disk.Accepts cs) :
    (∃ detail, x.result s = .error (.store (.database detail))) ∧ SameChain s (x.after s) ∧
      Retried x s := by
  obtain ⟨⟨detail, hresult⟩, a, m, second, hx⟩ := h.completes_of_refused hcs hrefused
  refine ⟨⟨detail, hresult⟩, ?_⟩
  obtain ⟨-, huntouched⟩ | ⟨-, hhalf⟩ := h.untouched_or_halfDone hresult hcs
  · refine ⟨huntouched.sameChain, hx.retried ?_ fun key _ => ?_⟩
    · rw [huntouched.memory]
    · exact Disk.peek_congr huntouched.entries key
  · refine ⟨hhalf.sameChain, hx.retried ?_ hhalf.others⟩
    rw [hhalf.memory]
    rfl

/-- **A refused call harms nothing** where a block is offered. -/
theorem sameChain_and_retried_offer {k : Consensus} {b : HeaderBlock}
    (hcs : ((offer k b).after s).calls = s.calls ++ cs) (hrefused : ¬s.disk.Accepts cs) :
    (∃ detail, (offer k b).result s = .error (.store (.database detail))) ∧
      SameChain s ((offer k b).after s) ∧ Retried (offer k b) s := by
  obtain ⟨r, m, hgives, hoffered⟩ := (offer_cases k b s).of_calls hcs
  cases hoffered with
  | known | disconnected | unadjusted | invalid | unbuilt | unresolved | orphan | pathless =>
    exact absurd (Disk.accepts_nil _) hrefused
  | newPeak _ _ _ _ hd =>
    exact absurd (Disk.accepts_cons.mpr ⟨hd, Disk.accepts_nil _⟩) hrefused
  | refused _ _ _ _ hd =>
    -- the one call comes before every change
    have huntouched : Untouched s ((offer k b).after s) := by
      refine ⟨hgives.memory, ?_⟩
      rw [hgives.disk]
      exact Disk.entries_serve_of_refusal hd
    exact ⟨⟨_, hgives.result⟩, huntouched.sameChain, huntouched.retried (uniform_offer k b)⟩

/-- The operations that change a chain. -/
inductive Changes : {α : Type} → Operation α → Prop
  | offer (k : Consensus) (b : HeaderBlock) : Changes (offer k b)
  | offerProof (v : Verifier) (w : WeightProof) (records : Option (List BlockRecord)) :
    Changes (offerProof v w records)
  | reset : Changes reset

/-- **A refused call does no harm.** From any session whatsoever, an operation of which a call is
refused fails with what the store says, leaves the chain unharmed, and can be made again. -/
theorem Changes.unharmed_of_refused (h : Changes x) (hcs : (x.after s).calls = s.calls ++ cs)
    (hrefused : ¬s.disk.Accepts cs) :
    (∃ detail, x.result s = .error (.store (.database detail))) ∧ SameChain s (x.after s) ∧
      Retried x s := by
  cases h with
  | offer k b => exact sameChain_and_retried_offer hcs hrefused
  | offerProof v w records =>
    exact (SetsProof.offerProof v w records).sameChain_and_retried hcs hrefused
  | reset => exact SetsProof.reset.sameChain_and_retried hcs hrefused

end Chain

namespace Sample

/-- A store that takes a proof but no peak. -/
def full : Disk where
  fault _ c := if c.method = "set" ∧ c.key = peakKey then some "disk full" else none

/-- A chain that was opened on it. -/
def stuck : Session Chain := Chain.opened (.only forked) (.only forked) {} full

set_option maxRecDepth 4000 in
/-- The chain on that store is one that can be reached: opening it stores nothing. -/
theorem reached_stuck : Chain.Reached forkedTree false stuck := by
  have hload : (Chain.load (.only forked) (.only forked)).result ⟨Chain.fresh {}, full, []⟩ =
      .ok () := by cbv
  have hproof : stuck.memory.syncedProof?.isSome = false := by cbv
  rw [← hproof]
  exact .opened Verifier.only_obeys hload

set_option maxRecDepth 4000 in
/-- Opening it has read the two keys, and no more. -/
theorem disk_stuck : stuck.disk = full.serveAll Chain.readCalls := by
  have hcalls : stuck.calls = Chain.readCalls := by cbv
  rw [← hcalls]
  exact Chain.disk_opened

set_option maxRecDepth 8000 in
/-- A proof that is offered to it is stored, and its tip is not. -/
theorem calls_stuck : ((Chain.offerProof (.only forked) proof none).after stuck).calls =
    stuck.calls ++ [Chain.storesProof proof, Chain.storesPeak rival] := by cbv

/-- The second of the two calls is refused. -/
theorem not_accepts_stuck :
    ¬stuck.disk.Accepts [Chain.storesProof proof, Chain.storesPeak rival] := by
  intro haccepts
  have hpeak := haccepts [Chain.storesProof proof] (Chain.storesPeak rival) [] rfl
  rw [Disk.refusal?, Disk.fault_serveAll, disk_stuck, Disk.fault_serveAll] at hpeak
  simp [full, Chain.storesPeak, Call.method, Call.key] at hpeak

end Sample

namespace Chain

open Procedure

/-- Offering that proof again ends as if it had not been offered before. -/
theorem unharmed_stuck :
    Reached Sample.forkedTree false Sample.stuck ∧
      SameChain Sample.stuck ((offerProof (.only Sample.forked) Sample.proof none).after
        Sample.stuck) ∧
      Retried (offerProof (.only Sample.forked) Sample.proof none) Sample.stuck := by
  have hchanges : Changes (offerProof (.only Sample.forked) Sample.proof none) :=
    .offerProof _ _ _
  obtain ⟨-, hunharmed, hretried⟩ :=
    hchanges.unharmed_of_refused Sample.calls_stuck Sample.not_accepts_stuck
  exact ⟨Sample.reached_stuck, hunharmed, hretried⟩

variable {α : Type} {x : Operation α} {proof : Option WeightProof} {c : Chain} {s : Session Chain}
  {cs : List Call}

/-! ### When the store is to blame -/

/-- Working out what is expected of a block does not fail for the store. -/
theorem noStorageError_parameters? {k : Consensus} (hk : k.Storeless) (b : HeaderBlock) :
    NoStorageError (c.parameters? k b) := by
  unfold parameters?
  split
  · exact noStorageError_ok _
  · cases c.index.record? b.parent with
    | none => exact noStorageError_ok none
    | some parent => exact (hk.adjust _ _ _ _).map some

/-- Nor does weighing it against the peak. -/
theorem noStorageError_standing? {k : Consensus} (hk : k.Storeless) (r : BlockRecord) :
    NoStorageError (c.standing? k r) := by
  have hpeak : NoStorageError c.peakRecord := by
    unfold peakRecord
    cases c.peak? with
    | none => exact noStorageError_ok none
    | some peak => exact (c.index.noStorageError_record peak.hash).map some
  refine hpeak.bind fun peak => ?_
  unfold Choice.of
  cases peak with
  | none => exact noStorageError_ok Choice.firstPeak
  | some peak =>
    dsimp only
    -- the fork finder is asked only about a heavier block that is no child of the peak
    split_ifs
    · exact noStorageError_ok (Choice.extend peak.height)
    · exact (hk.findFork _ _ _).map _
    · exact noStorageError_ok Choice.orphan

/-- **An offered block fails for the store exactly if a call is refused**, if no collaborator says
so. -/
theorem storage_error_iff_of_offer {k : Consensus} (hk : k.Storeless) {b : HeaderBlock}
    (hcs : ((offer k b).after s).calls = s.calls ++ cs) :
    (∃ cause, (offer k b).result s = .error (.store cause)) ↔ ¬s.disk.Accepts cs := by
  refine ⟨?_, fun hrefused => ?_⟩
  · rintro ⟨cause, hcause⟩
    obtain ⟨r, m, hgives, hoffered⟩ := (offer_cases k b s).of_calls hcs
    obtain rfl : r = .error (.store cause) := hgives.result.symm.trans hcause
    -- the other failures are of collaborators and of the index, which are not the store
    cases hoffered with
    | unadjusted _ hp => exact absurd hp (noStorageError_parameters? hk b cause)
    | unbuilt _ _ _ hb => exact absurd hb (hk.build _ _ _ _ cause)
    | unresolved _ hs => exact absurd hs (noStorageError_standing? hk _ cause)
    | pathless _ _ _ hp => exact absurd hp (Index.noStorageError_pathDown _ _ _ cause)
    | refused _ _ _ _ hd =>
      intro haccepts
      cases (Disk.accepts_cons.mp haccepts).1.symm.trans hd
  · obtain ⟨⟨detail, hdetail⟩, -⟩ := sameChain_and_retried_offer hcs hrefused
    exact ⟨_, hdetail⟩

/-- **An operation on both slots fails for the store exactly if a call is refused.** -/
theorem SetsProof.storage_error_iff (h : SetsProof proof x)
    (hcs : (x.after s).calls = s.calls ++ cs) :
    (∃ cause, x.result s = .error (.store cause)) ↔ ¬s.disk.Accepts cs := by
  refine ⟨?_, fun hrefused => ?_⟩
  · rintro ⟨cause, hcause⟩
    obtain ⟨r, m, hgives, hreplacing⟩ := (h.cases s).of_calls hcs
    obtain rfl : r = .error (.store cause) := hgives.result.symm.trans hcause
    -- a failure before the first call is not of the store; after it, one of the calls was refused
    cases hreplacing with
    | quiet hr => exact absurd rfl (hr cause)
    | proofRefused _ hp =>
      intro haccepts
      cases (Disk.accepts_cons.mp haccepts).1.symm.trans hp
    | peakRefused _ _ hd =>
      intro haccepts
      obtain ⟨-, hrest⟩ := Disk.accepts_cons.mp haccepts
      cases (Disk.accepts_cons.mp hrest).1.symm.trans hd
  · obtain ⟨⟨detail, hdetail⟩, -⟩ := h.sameChain_and_retried hcs hrefused
    exact ⟨_, hdetail⟩

/-! ### All or nothing -/

/-- **When a failure leaves everything as it was**: exactly if it came before the second call, or
the first call has put into the slot of the proof what was there already. -/
theorem SetsProof.untouched_iff (h : SetsProof proof x) {e : ChainError}
    (he : x.result s = .error e) (hcs : (x.after s).calls = s.calls ++ cs) :
    Untouched s (x.after s) ↔ cs.length ≤ 1 ∨
      s.memory.syncedProof? = proof ∧ s.disk.peek proofKey = proof.map Stored.encode := by
  obtain ⟨hone, huntouched⟩ | ⟨htwo, hhalf⟩ := h.untouched_or_halfDone he hcs
  · exact iff_of_true huntouched (.inl hone)
  · rw [hhalf.nothing_new_iff, or_iff_right (Nat.not_le.mpr htwo)]

set_option maxRecDepth 8000 in
/-- The proof is refused, for want of room for its tip. -/
theorem result_stuck : (offerProof (.only Sample.forked) Sample.proof none).result Sample.stuck =
    .error (.store (.database "disk full")) := by cbv

theorem syncedProof?_stuck : Sample.stuck.memory.syncedProof? = none := by cbv

/-- A proof that is stored while its tip is not leaves something changed. -/
theorem touched_stuck :
    ¬Untouched Sample.stuck
      ((offerProof (.only Sample.forked) Sample.proof none).after Sample.stuck) := by
  have hsets : SetsProof (some Sample.proof) (offerProof (.only Sample.forked) Sample.proof none) :=
    .offerProof _ _ _
  rw [hsets.untouched_iff result_stuck Sample.calls_stuck]
  rintro (htwo | ⟨hheld, -⟩)
  · exact absurd htwo (by decide)
  · cases syncedProof?_stuck.symm.trans hheld

/-- **A failure between the two calls leaves half of the operation done**: the proof is in its slot,
in memory and in the store, where there was none before. -/
theorem proof_kept_without_tip :
    Reached Sample.forkedTree false Sample.stuck ∧
      (offerProof (.only Sample.forked) Sample.proof none).result Sample.stuck =
        .error (.store (.database "disk full")) ∧
      Sample.stuck.memory.syncedProof? = none ∧
      ((offerProof (.only Sample.forked) Sample.proof none).after
        Sample.stuck).memory.syncedProof? = some Sample.proof ∧
      Sample.stuck.disk.peek proofKey = none ∧
      ((offerProof (.only Sample.forked) Sample.proof none).after
        Sample.stuck).disk.peek proofKey = some (Stored.encode Sample.proof) := by
  have hsets : SetsProof (some Sample.proof) (offerProof (.only Sample.forked) Sample.proof none) :=
    .offerProof _ _ _
  obtain ⟨htwo, -⟩ | ⟨-, hhalf⟩ := hsets.untouched_or_halfDone result_stuck Sample.calls_stuck
  · exact absurd htwo (by decide)
  · refine ⟨Sample.reached_stuck, result_stuck, syncedProof?_stuck, ?_, ?_, hhalf.proof⟩
    · rw [hhalf.memory]
      rfl
    · rw [Sample.disk_stuck, Disk.peek_congr (entries_readCalls Sample.full)]
      exact Std.ExtTreeMap.getElem?_empty

end Chain

end HeaderChain
