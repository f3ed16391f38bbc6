import HeaderChain.Proofs.Served

/-!
# What a valid block leaves in the journal

The journal only grows (`Procedure.Extends`), so what was entered on the way of an operation is
found in it afterwards. The questions put about a block that turns out to be valid are entered
before anything is done with it, one after the other: `Chain.questions` lists them, and
`Chain.journal_offer` says that an offer begins with them.
-/

namespace HeaderChain

namespace Procedure

variable {σ τ ε ε' α β : Type} {x : Procedure σ ε α} {f : α → Procedure σ ε β}

/-- **A procedure that takes nothing back** of what is in the journal. -/
def Extends (x : Procedure σ ε α) : Prop := ∀ s, s.journal <+: (x.after s).journal

theorem extends_pure (a : α) : (pure a : Procedure σ ε α).Extends := fun _ => List.prefix_rfl

theorem extends_throw (e : ε) : (throw e : Procedure σ ε α).Extends := fun _ => List.prefix_rfl

theorem extends_memory : (memory : Procedure σ ε σ).Extends := fun _ => List.prefix_rfl

theorem extends_remember (m : σ) : (remember m : Procedure σ ε Unit).Extends :=
  fun _ => List.prefix_rfl

/-- An entry is put at the end. -/
theorem extends_enter (e : Entry) : (enter e : Procedure σ ε Unit).Extends :=
  fun _ => List.prefix_append _ _

theorem extends_log (e : Event) : (log e : Procedure σ ε Unit).Extends := extends_enter _

theorem extends_measure (v : Measurement) : (measure v : Procedure σ ε Unit).Extends :=
  extends_enter _

theorem extends_expect (a : Except ε α) : (expect a : Procedure σ ε α).Extends := by
  cases a with
  | ok a => exact extends_pure a
  | error e => exact extends_throw e

/-- Steps that extend the journal extend it one after the other. -/
theorem Extends.bind (hx : x.Extends) (hf : ∀ a, (f a).Extends) : (x >>= f).Extends := by
  intro s
  cases h : x.result s with
  | error e => exact after_bind_of_error h ▸ hx s
  | ok a => exact after_bind_of_ok h ▸ (hx s).trans (hf a _)

/-- A question is entered, and nothing else is done. -/
theorem extends_ask (q : Question) (a : α) : (ask q a : Procedure σ ε α).Extends :=
  (extends_enter _).bind fun _ => extends_pure a

/-- Attempted or not, a procedure extends the journal alike. -/
theorem Extends.attempt (hx : x.Extends) :
    (x.attempt : Procedure σ ε' (Except ε α)).Extends :=
  fun s => after_attempt x s ▸ hx s

/-- A failure that is logged is one entry more. -/
theorem Extends.logFailure (hx : x.Extends) (event : ε → Event) :
    (x.logFailure event).Extends := by
  intro s
  obtain h | ⟨e, h⟩ := after_logFailure x event s
  · exact h ▸ hx s
  · exact h ▸ (hx s).trans (extends_log (event e) _)

/-- On a part of the memory or on the whole, the journal is one. -/
theorem Extends.on {x : Procedure τ ε α} (hx : x.Extends) (part : σ → τ) (put : τ → σ → σ)
    (failure : ε → ε') : (x.on part put failure).Extends := by
  intro s
  rw [after_on]
  exact hx ⟨part s.memory, s.disk, s.journal⟩

/-- A call is entered, with whether it was refused. -/
theorem extends_call (c : Call) : (call c : Procedure σ StoreError Unit).Extends := by
  intro s
  obtain ⟨failed, h⟩ := exists_after_call c s
  exact h ▸ List.prefix_append _ _

end Procedure

open Procedure

/-- Storing a peak enters its call. -/
theorem Slots.extends_setPeak (b : HeaderBlock) (t : Option UInt64) : (setPeak b t).Extends := by
  refine ((extends_call _).logFailure _).bind fun _ => ?_
  refine extends_memory.bind fun _ => ?_
  exact (extends_log _).bind fun _ => extends_remember _

/-- Choosing where to switch enters at most the question of the fork. -/
theorem extends_choose {σ : Type} (find : ForkFinder) (i : Index) (candidate : BlockRecord)
    (peak : Option BlockRecord) :
    (choose find i candidate peak : Procedure σ ChainError Choice).Extends := by
  unfold choose
  cases peak with
  | none => exact extends_pure _
  | some peak =>
    have hfork : (forkHeight find i candidate peak : Procedure σ _ _).Extends := by
      unfold forkHeight
      -- the finder is asked only where the block is no child of the peak
      by_cases hchild : candidate.parent = peak.hash
      · rw [if_pos hchild]
        exact extends_pure _
      · rw [if_neg hchild]
        exact (extends_ask _ _).bind fun _ => extends_expect _
    dsimp only
    split_ifs
    · exact extends_pure _
    · exact extends_pure _
    · exact hfork.bind fun _ => extends_pure _

namespace Chain

variable (k : Consensus) (b : HeaderBlock) (r : BlockRecord)

theorem extends_setIndex (i : Index) : (setIndex i).Extends :=
  extends_memory.bind fun _ => extends_remember _

/-- An eviction enters how many records are gone, if any are. -/
theorem extends_evict (h : Height) : (evict h).Extends := by
  refine extends_memory.bind fun c => ?_
  cases c.config.floor? h with
  | none => exact extends_pure _
  | some floor =>
    refine (extends_setIndex _).bind fun _ => ?_
    split_ifs
    · exact (extends_log _).bind fun _ => extends_measure _
    · exact extends_pure _

/-- Announcing a peak enters its measurements and its event. -/
theorem extends_announce (old : Option HeaderBlock) (changedFrom : Height) (t : UInt64) :
    (announce r old changedFrom t).Extends := by
  unfold announce
  cases old with
  | none => exact extends_log _
  | some old =>
    by_cases hdepth : changedFrom ≤ old.height
    · simp only [hdepth, if_true]
      refine (extends_log _).bind fun _ => ?_
      exact (extends_measure _).bind fun _ => extends_measure _
    · simp only [hdepth, if_false]
      exact extends_log _

/-- Adopting a block, path or no path, extends the journal. -/
theorem extends_adopt (changedFrom : Height) : (adopt r b changedFrom).Extends := by
  refine extends_memory.bind fun c => ?_
  refine (extends_expect _).bind fun path => ?_
  refine ((Slots.extends_setPeak b _).on _ _ _).bind fun _ => ?_
  refine (extends_setIndex _).bind fun _ => ?_
  refine (extends_evict _).bind fun _ => ?_
  exact (extends_measure _).bind fun _ => extends_announce r _ _ _

/-- So does placing it, wherever it is to stand. -/
theorem extends_place : (place k r b).Extends := by
  have hstanding : (standing k r).Extends := by
    refine extends_memory.bind fun c => ?_
    exact (extends_expect _).bind fun peak => extends_choose _ _ _ peak
  refine hstanding.attempt.bind fun a => ?_
  cases a with
  | error cause =>
    -- a block that cannot be compared is indexed before the failure is passed on
    refine (extends_log _).bind fun _ => ?_
    refine extends_memory.bind fun c => ?_
    exact (extends_setIndex _).bind fun _ => extends_throw cause
  | ok choice =>
    dsimp only
    cases choice.changedFrom? r.height with
    | none =>
      refine extends_memory.bind fun c => ?_
      refine (extends_log _).bind fun _ => ?_
      exact (extends_setIndex _).bind fun _ => extends_pure _
    | some changedFrom => exact (extends_adopt b r changedFrom).bind fun _ => extends_pure _

/-! ### The questions about a valid block -/

/-- **The parameters in force for a block**, and what is asked to find them out: the configured ones
for a first block, without a question, and for any other one those that the adjuster tells for the
record of its parent, as it is indexed. -/
inductive InForce (c : Chain) : Parameters → List Entry → Prop
  | first (h : b.height = 0) : InForce c c.config.constants.startingParameters []
  | child {parent : BlockRecord} {p : Parameters} (h : b.height ≠ 0)
    (hparent : c.index.record? b.parent = some parent)
    (hp : k.adjust c.config.constants b.firstInSubSlot parent c.index = .ok p) :
    InForce c p [.asked (.adjust b.firstInSubSlot parent)]

variable {k b r} {c : Chain} {s : Session Chain} {p : Parameters} {iters : UInt64}
  {asked : List Entry}

/-- Where parameters are worked out, some are in force, asked for or not. -/
theorem exists_inForce (h : c.parameters? k b = .ok (some p)) : ∃ asked, InForce k b c p asked := by
  unfold parameters? at h
  -- a first block asks nothing; any other needs the record of its parent
  by_cases hheight : b.height = 0
  · rw [if_pos hheight] at h
    cases h
    exact ⟨_, .first hheight⟩
  · rw [if_neg hheight] at h
    cases hparent : c.index.record? b.parent with
    | none => simp [hparent] at h
    | some parent =>
      simp only [hparent] at h
      cases hp : k.adjust c.config.constants b.firstInSubSlot parent c.index with
      | error e => simp [hp, Except.map] at h
      | ok p' =>
        rw [hp] at h
        cases h
        exact ⟨_, .child hheight hparent hp⟩

/-- **The questions about a valid block**, in turn: the one for its parameters, if it is put, the
one whether it is valid with these, and the one for its record. -/
def questions (c : Chain) (b : HeaderBlock) (p : Parameters) (iters : UInt64)
    (asked : List Entry) : List Entry :=
  asked ++ [.asked (.validate c.index b p.difficulty p.subSlotIters), .asked (.build b iters)]

/-- What is done with a new block once its record is known. -/
theorem consider_eq_place (hnew : s.memory.index.contains b.hash = false)
    (hp : InForce k b s.memory p asked)
    (hv : k.validate s.memory.config.constants s.memory.index b p = .ok (some iters))
    (hb : k.build s.memory.config.constants s.memory.index iters b = .ok r) :
    consider k b s =
      place k r b { s with journal := s.journal ++ questions s.memory b p iters asked } := by
  -- the answers are given, and each question goes to the end of the journal
  cases hp with
  | first hheight =>
    simp [consider, expected, examine, ask, enter, memory, expect, bind, EStateM.bind, pure,
      EStateM.pure, questions, hnew, hheight, hv, hb]
  | child hheight hparent hp =>
    simp [consider, expected, examine, ask, enter, memory, expect, bind, EStateM.bind, pure,
      EStateM.pure, questions, hnew, hheight, hparent, hp, hv, hb]

/-- **The questions about a valid block are found in the journal**, right after what was in it when
the block was offered. -/
theorem journal_offer (hnew : s.memory.index.contains b.hash = false)
    (hp : InForce k b s.memory p asked)
    (hv : k.validate s.memory.config.constants s.memory.index b p = .ok (some iters))
    (hb : k.build s.memory.config.constants s.memory.index iters b = .ok r) :
    s.journal ++ questions s.memory b p iters asked <+: ((offer k b).after s).journal := by
  have hrest : (place k r b >>= fun outcome => do
      measure (.received outcome.label 1)
      return outcome : Operation Outcome).Extends :=
    (extends_place k b r).bind fun _ => (extends_measure _).bind fun _ => extends_pure _
  have hoffer : (offer k b).after s = (place k r b >>= fun outcome => do
      measure (.received outcome.label 1)
      return outcome : Operation Outcome).after
        { s with journal := s.journal ++ questions s.memory b p iters asked } := by
    simp only [offer, Procedure.after, bind, EStateM.bind, consider_eq_place hnew hp hv hb]
  -- and what comes after them takes nothing back
  rw [hoffer]
  exact hrest { s with journal := s.journal ++ questions s.memory b p iters asked }

end Chain

end HeaderChain
