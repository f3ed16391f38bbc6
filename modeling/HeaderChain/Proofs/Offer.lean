import HeaderChain.Chain.Offer
import HeaderChain.Proofs.Session

/-!
# What offering a block comes to

`Offered` lists all that `Chain.offer` can come to, one constructor for each way through it, with
everything that has been found out on that way: the guards, the outcome or the failure, the memory
left behind, and the calls made to the store. `offer_cases` says that there is no other way. All
that is proved of offered blocks goes by cases on it and opens no procedure again.

The questions that an operation asks are functions of the memory: `Chain.parameters?`,
`Chain.verdict`, `Chain.standing?`, `Choice.of`.
-/

namespace HeaderChain

/-- How a candidate stands to the peak. -/
def Choice.of (find : ForkFinder) (i : Index) (candidate : BlockRecord) :
    Option BlockRecord → Except ChainError Choice
  | none => .ok .firstPeak
  | some peak =>
    if isBetter candidate.weight peak.weight then
      if candidate.parent = peak.hash then .ok (.extend peak.height)
      else (find i candidate peak).map .reorganise
    else .ok .orphan

namespace Chain

variable (k : Consensus) (b : HeaderBlock) (c : Chain) (r : BlockRecord)

/-- The parameters the block has to be made with; none if its parent is unknown. -/
def parameters? : Except ChainError (Option Parameters) :=
  if b.height = 0 then .ok (some c.config.constants.startingParameters)
  else
    match c.index.record? b.parent with
    | none => .ok none
    | some parent =>
      (k.adjust c.config.constants b.firstInSubSlot parent c.index).map some

/-- The iterations asked for by the block's proof of space, or why the block is refused. -/
def verdict (p : Parameters) : Except Rejection UInt64 :=
  match k.validate c.config.constants c.index b p with
  | .ok (some requiredIters) => .ok requiredIters
  | .ok none => .error .proofOfSpace
  | .error cause => .error cause.code

variable {k b c} in
/-- A block that is not refused is valid. -/
theorem validate_of_verdict {p : Parameters} {iters : UInt64} (h : c.verdict k b p = .ok iters) :
    k.validate c.config.constants c.index b p = .ok (some iters) := by
  unfold verdict at h
  split at h
  next hvalid =>
    cases h
    exact hvalid
  next => cases h
  next => cases h

/-- How a record stands to the peak. -/
def standing? : Except ChainError Choice :=
  c.peakRecord.bind (Choice.of k.findFork c.index r)

/-- The chain with one more record. -/
def kept : Chain := { c with index := c.index.add r }

/-- The chain after the eviction for a peak at a height. -/
def evicted (h : Height) : Chain :=
  match c.config.floor? h with
  | none => c
  | some floor => { c with index := (c.index.pruneBelow floor).1 }

/-- The chain after a record was made the peak and the path from it canonical. -/
def adopted (changedFrom : Height) (path : List BlockRecord) : Chain :=
  evicted { c with
    slots := { c.slots with peak := some b, latestTimestamp := latest c.latestTimestamp path }
    index := replaceFrom (c.index.add r) changedFrom path } r.height

/-- The block is new and valid, and this is its record. -/
structure Validated : Prop where
  fresh : c.index.contains b.hash = false
  valid : ∃ p iters, c.parameters? k b = .ok (some p) ∧ c.verdict k b p = .ok iters ∧
    k.build c.config.constants c.index iters b = .ok r

/-- The call that makes a block the stored peak. -/
def storesPeak (b : HeaderBlock) : Call := .set peakKey (Stored.encode b)

/-- **What offering a block can come to**: how it ends, the memory it leaves, and its calls. -/
inductive Offered (d : Disk) : Except ChainError Outcome → Chain → List Call → Prop
  | known (h : c.index.contains b.hash = true) : Offered d (.ok .known) c []
  | disconnected (h : c.index.contains b.hash = false) (hp : c.parameters? k b = .ok none) :
    Offered d (.ok (.disconnected .prevBlockHash)) c []
  | unadjusted {e : ChainError} (h : c.index.contains b.hash = false)
    (hp : c.parameters? k b = .error e) : Offered d (.error e) c []
  | invalid {p : Parameters} {code : Rejection} (h : c.index.contains b.hash = false)
    (hp : c.parameters? k b = .ok (some p)) (hv : c.verdict k b p = .error code) :
    Offered d (.ok (.invalid code)) c []
  | unbuilt {p : Parameters} {iters : UInt64} {e : ChainError}
    (h : c.index.contains b.hash = false) (hp : c.parameters? k b = .ok (some p))
    (hv : c.verdict k b p = .ok iters)
    (hb : k.build c.config.constants c.index iters b = .error e) : Offered d (.error e) c []
  /-- The fork choice fails, and the block is kept all the same. -/
  | unresolved {r : BlockRecord} {e : ChainError} (hr : Validated k b c r)
    (hs : c.standing? k r = .error e) : Offered d (.error e) (c.kept r) []
  | orphan {r : BlockRecord} {choice : Choice} (hr : Validated k b c r)
    (hs : c.standing? k r = .ok choice) (hc : choice.changedFrom? r.height = none) :
    Offered d (.ok .orphan) (c.kept r) []
  /-- The path to the new peak cannot be walked down. -/
  | pathless {r : BlockRecord} {choice : Choice} {changedFrom : Height} {e : ChainError}
    (hr : Validated k b c r) (hs : c.standing? k r = .ok choice)
    (hc : choice.changedFrom? r.height = some changedFrom)
    (hp : c.index.pathDown changedFrom r = .error e) : Offered d (.error e) c []
  /-- The store refuses the new peak. -/
  | refused {r : BlockRecord} {choice : Choice} {changedFrom : Height} {path : List BlockRecord}
    {detail : String} (hr : Validated k b c r) (hs : c.standing? k r = .ok choice)
    (hc : choice.changedFrom? r.height = some changedFrom)
    (hp : c.index.pathDown changedFrom r = .ok path)
    (hd : d.refusal? (storesPeak b) = some detail) :
    Offered d (.error (.store (.database detail))) c [storesPeak b]
  | newPeak {r : BlockRecord} {choice : Choice} {changedFrom : Height} {path : List BlockRecord}
    (hr : Validated k b c r) (hs : c.standing? k r = .ok choice)
    (hc : choice.changedFrom? r.height = some changedFrom)
    (hp : c.index.pathDown changedFrom r = .ok path) (hd : d.refusal? (storesPeak b) = none) :
    Offered d (.ok .newPeak) (c.adopted b r changedFrom path) [storesPeak b]

section Offered

variable {k b c r} {r' : BlockRecord} {d : Disk} {a : Except ChainError Outcome} {m : Chain}
  {cs : List Call}

/-- A valid block has one record only. -/
theorem Validated.unique (hr : Validated k b c r) (hr' : Validated k b c r') : r = r' := by
  obtain ⟨-, p, iters, hp, hv, hbuild⟩ := hr
  obtain ⟨-, p', iters', hp', hv', hbuild'⟩ := hr'
  cases hp.symm.trans hp'
  cases hv.symm.trans hv'
  exact Except.ok.inj (hbuild.symm.trans hbuild')

/-- **The only call** stores the block as the peak, and is made for a valid block only. -/
theorem Offered.calls (h : Offered k b c d a m cs) :
    ∀ call ∈ cs, call = storesPeak b ∧ ∃ r, Validated k b c r := by
  cases h with
  | refused hr | newPeak hr => exact List.forall_mem_singleton.mpr ⟨rfl, _, hr⟩
  | _ => exact List.forall_mem_nil _

end Offered

end Chain

/-! ### The steps -/

open Procedure

/-- Choosing where to switch comes to what the finder says of the index. -/
theorem gives_choose {σ : Type} (find : ForkFinder) (i : Index) (candidate : BlockRecord)
    (peak : Option BlockRecord) (s : Session σ) :
    (choose find i candidate peak).Gives s (Choice.of find i candidate peak) s.memory [] := by
  unfold choose Choice.of
  cases peak with
  | none => exact gives_pure s _
  | some peak =>
    by_cases hbetter : isBetter candidate.weight peak.weight = true
    · by_cases hchild : candidate.parent = peak.hash
      · simpa [hbetter, hchild] using gives_pure s (Choice.extend peak.height)
      · simp only [hbetter, hchild, Bool.not_true, Bool.false_eq_true, if_false, if_true]
        -- only a heavier block that is no child of the peak has the finder asked
        have hfork : (forkHeight find i candidate peak : Procedure σ _ _).Gives s
            (find i candidate peak) s.memory [] := by
          rw [forkHeight, if_neg hchild]
          exact (gives_ask s _ _).bind_quiet fun s' hm _ => hm ▸ gives_expect s' _
        cases hfind : find i candidate peak with
        | ok height =>
          rw [hfind] at hfork
          exact hfork.bind_quiet fun s' hm _ => hm ▸ gives_pure s' _
        | error e =>
          rw [hfind] at hfork
          exact hfork.bind_error
    · simpa [hbetter] using gives_pure s Choice.orphan

namespace Chain

variable (k : Consensus) (b : HeaderBlock) (r : BlockRecord) (s : Session Chain)

/-- What is expected of a block is told by the chain and the adjuster. -/
theorem gives_expected :
    (expected k b).Gives s (s.memory.parameters? k b) s.memory [] := by
  refine (gives_memory s).bind_quiet fun s₁ h₁ _ => ?_
  rw [← h₁]
  unfold parameters?
  by_cases hheight : b.height = 0
  · simpa [hheight] using gives_pure s₁ (some s₁.memory.config.constants.startingParameters)
  · simp only [hheight, if_false]
    cases hparent : s₁.memory.index.record? b.parent with
    | none => exact gives_pure s₁ _
    | some parent =>
      -- the adjuster is asked, and what it answers is the result
      refine (gives_ask s₁ _ _).bind_quiet fun s₂ h₂ _ => ?_
      change Gives (expect (k.adjust s₁.memory.config.constants b.firstInSubSlot parent
        s₁.memory.index) >>= _) s₂ (Except.map some _) _ _
      cases k.adjust s₁.memory.config.constants b.firstInSubSlot parent s₁.memory.index with
      | ok p =>
        refine (gives_expect s₂ (.ok p)).bind_quiet fun s₃ h₃ _ => ?_
        exact (gives_pure s₃ _).leaves (h₃.trans h₂)
      | error e => exact (gives_expect s₂ (.error e)).bind_error.leaves h₂

/-- A block is examined without a call, and passes or is rejected. -/
theorem gives_examine (p : Parameters) :
    (examine k b p).Gives s (.ok (s.memory.verdict k b p)) s.memory [] := by
  refine (gives_memory s).bind_quiet fun s₁ h₁ _ => ?_
  refine (gives_ask s₁ _ _).bind_quiet fun s₂ h₂ _ => ?_
  rw [← h₁, ← h₂]
  unfold verdict
  cases k.validate s₂.memory.config.constants s₂.memory.index b p with
  | ok answer =>
    cases answer with
    | some iters => exact gives_pure s₂ _
    | none => exact (gives_log s₂ _).bind_quiet fun s₃ h₃ _ => h₃ ▸ gives_pure s₃ _
  | error cause => exact (gives_log s₂ _).bind_quiet fun s₃ h₃ _ => h₃ ▸ gives_pure s₃ _

/-- Weighing a block against the peak comes to what the records say. -/
theorem gives_standing :
    (standing k r).Gives s (s.memory.standing? k r) s.memory [] := by
  refine (gives_memory s).bind_quiet fun s₁ h₁ _ => ?_
  rw [← h₁]
  unfold standing?
  cases s₁.memory.peakRecord with
  | ok peak =>
    refine (gives_expect s₁ _).bind_quiet fun s₂ h₂ _ => ?_
    rw [← h₂]
    exact gives_choose _ _ _ _ s₂
  | error e => exact (gives_expect s₁ (.error e)).bind_error

theorem gives_setIndex (i : Index) :
    (setIndex i).Gives s (.ok ()) { s.memory with index := i } [] :=
  (gives_memory s).bind_quiet fun s' _ _ => gives_remember s' _

/-- An eviction goes by the floor for the height. -/
theorem gives_evict (h : Height) : (evict h).Gives s (.ok ()) (s.memory.evicted h) [] := by
  refine (gives_memory s).bind_quiet fun s₁ h₁ _ => ?_
  rw [← h₁]
  unfold evicted
  cases s₁.memory.config.floor? h with
  | none => exact gives_pure s₁ ()
  | some floor =>
    change Gives (setIndex (s₁.memory.index.pruneBelow floor).1 >>= fun _ =>
      if 0 < (s₁.memory.index.pruneBelow floor).2 then _ else _) s₁ _ _ _
    refine (gives_setIndex s₁ _).bind_quiet fun s₂ h₂ _ => ?_
    -- whether the eviction is logged or not, it changes the index alike
    by_cases hcount : 0 < (s₁.memory.index.pruneBelow floor).2
    · rw [if_pos hcount]
      refine (gives_log s₂ _).bind_quiet fun s₃ h₃ _ => ?_
      exact (gives_measure s₃ _).leaves (h₃.trans h₂)
    · rw [if_neg hcount]
      exact (gives_pure s₂ ()).leaves h₂

/-- A new peak is announced without a call. -/
theorem gives_announce (old : Option HeaderBlock) (changedFrom : Height) (t : UInt64) :
    (announce r old changedFrom t).Gives s (.ok ()) s.memory [] := by
  unfold announce
  cases old with
  | none => exact gives_log s _
  | some old =>
    by_cases hdepth : changedFrom ≤ old.height
    · simp only [hdepth, if_true]
      refine (gives_log s _).bind_quiet fun s₁ h₁ _ => ?_
      rw [← h₁]
      exact (gives_measure s₁ _).bind_quiet fun s₂ h₂ _ => h₂ ▸ gives_measure s₂ _
    · simp only [hdepth, if_false]
      exact gives_log s _

/-- An operation on the slots, as an operation on the chain. -/
theorem gives_onSlots {α : Type} {x : Slots.Operation α} {slots : Slots} {a : Except StoreError α}
    {cs : List Call} (h : ∀ j, x.Gives ⟨s.memory.slots, s.disk, j⟩ a slots cs) :
    (onSlots x).Gives s (a.mapError .store) { s.memory with slots } cs :=
  Gives.on h

/-! ### A new peak -/

section Adopt

variable {s b r} {changedFrom : Height} {path : List BlockRecord}

/-- A block becomes the stored peak, and the peak held in memory. -/
theorem onSlots_setPeak_served (t : UInt64) (hd : s.disk.refusal? (storesPeak b) = none) :
    (onSlots (Slots.setPeak b (some t))).Gives s (.ok ())
      { s.memory with slots := { s.memory.slots with peak := some b, latestTimestamp := t } }
      [storesPeak b] := by
  have hset : ∀ j, (Slots.setPeak b (some t)).Gives ⟨s.memory.slots, s.disk, j⟩ (.ok ())
      { s.memory.slots with peak := some b, latestTimestamp := t } [storesPeak b] :=
    fun j => Slots.setPeak_served _ _ hd
  exact gives_onSlots s hset

/-- If the store refuses the peak, the chain is as it was. -/
theorem onSlots_setPeak_refused (t : UInt64) {detail : String}
    (hd : s.disk.refusal? (storesPeak b) = some detail) :
    (onSlots (Slots.setPeak b (some t))).Gives s (.error (.store (.database detail))) s.memory
      [storesPeak b] :=
  gives_onSlots s fun j => Slots.setPeak_refused ⟨s.memory.slots, s.disk, j⟩ (some t) hd

/-- A block without a path is not adopted, and no call is made. -/
theorem adopt_pathless {e : ChainError}
    (hp : s.memory.index.pathDown changedFrom r = .error e) :
    (adopt r b changedFrom).Gives s (.error e) s.memory [] := by
  refine (gives_memory s).bind_quiet fun s₁ h₁ _ => ?_
  rw [hp]
  exact ((gives_expect s₁ (.error e)).bind_error).leaves h₁

/-- Nor is one that the store refuses as the peak: nothing in memory has changed yet. -/
theorem adopt_refused {detail : String}
    (hp : s.memory.index.pathDown changedFrom r = .ok path)
    (hd : s.disk.refusal? (storesPeak b) = some detail) :
    (adopt r b changedFrom).Gives s (.error (.store (.database detail))) s.memory
      [storesPeak b] := by
  refine (gives_memory s).bind_quiet fun s₁ h₁ d₁ => ?_
  rw [hp]
  refine (gives_expect s₁ (.ok path)).bind_quiet fun s₂ h₂ d₂ => ?_
  rw [← d₁, ← d₂] at hd
  exact (onSlots_setPeak_refused _ hd).bind_error.leaves (h₂.trans h₁)

/-- **A block with a path is adopted** by one call. -/
theorem adopt_served (hp : s.memory.index.pathDown changedFrom r = .ok path)
    (hd : s.disk.refusal? (storesPeak b) = none) :
    (adopt r b changedFrom).Gives s (.ok ()) (s.memory.adopted b r changedFrom path)
      [storesPeak b] := by
  refine (gives_memory s).bind_quiet fun s₁ h₁ d₁ => ?_
  rw [hp]
  refine (gives_expect s₁ (.ok path)).bind_quiet fun s₂ h₂ d₂ => ?_
  rw [← d₁, ← d₂] at hd
  refine (onSlots_setPeak_served _ hd).then_quiet fun s₃ h₃ _ => ?_
  -- from here on only the memory changes
  refine (gives_setIndex s₃ _).bind_quiet fun s₄ h₄ _ => ?_
  refine (gives_evict s₄ _).bind_quiet fun s₅ h₅ _ => ?_
  refine (gives_measure s₅ _).bind_quiet fun s₆ h₆ _ => ?_
  refine (gives_announce r s₆ _ _ _).leaves ?_
  rw [h₆, h₅, h₄, h₃, h₂, h₁]
  rfl

end Adopt

/-! ### The whole operation -/

/-- Finding the record of a valid block its place. -/
theorem place_cases (hr : Validated k b s.memory r) :
    (place k r b).ComesTo s (Offered k b s.memory s.disk) := by
  refine (gives_standing k r s).attempt.comesTo_bind fun s₁ h₁ d₁ => ?_
  cases hs : s.memory.standing? k r with
  | error e =>
    -- the failure was kept, so that the record is indexed before it is raised again
    refine Gives.comesTo ?_ (.unresolved hr hs)
    refine (gives_log s₁ _).bind_quiet fun s₂ h₂ _ => ?_
    refine (gives_memory s₂).bind_quiet fun s₃ h₃ _ => ?_
    refine (gives_setIndex s₃ _).bind_quiet fun s₄ h₄ _ => ?_
    refine (gives_throw s₄ e).leaves ?_
    rw [h₄, h₃, h₂, h₁]
    rfl
  | ok choice =>
    dsimp only
    cases hc : choice.changedFrom? r.height with
    | none =>
      refine Gives.comesTo ?_ (.orphan hr hs hc)
      refine (gives_memory s₁).bind_quiet fun s₂ h₂ _ => ?_
      refine (gives_log s₂ _).bind_quiet fun s₃ h₃ _ => ?_
      refine (gives_setIndex s₃ _).bind_quiet fun s₄ h₄ _ => ?_
      refine (gives_pure s₄ _).leaves ?_
      rw [h₄, h₃, h₂, h₁]
      rfl
    | some changedFrom =>
      -- a height changes: the path is collected first, then the peak is stored
      cases hp : s.memory.index.pathDown changedFrom r with
      | error e =>
        have hadopt := adopt_pathless (b := b) (h₁ ▸ hp)
        exact (hadopt.bind_error.leaves h₁).comesTo (.pathless hr hs hc hp)
      | ok path =>
        cases hd : s.disk.refusal? (storesPeak b) with
        | some detail =>
          have hadopt := adopt_refused (h₁ ▸ hp) (d₁ ▸ hd)
          exact (hadopt.bind_error.leaves h₁).comesTo (.refused hr hs hc hp hd)
        | none =>
          have hadopt := (adopt_served (h₁ ▸ hp) (d₁ ▸ hd)).leaves
            (congrArg (adopted b · r changedFrom path) h₁)
          refine (hadopt.then_quiet fun s₂ h₂ _ => ?_).comesTo (.newPeak hr hs hc hp hd)
          exact (gives_pure s₂ _).leaves h₂

/-- **What considering a block comes to**: one of the ten ways. -/
theorem consider_cases :
    (consider k b).ComesTo s (Offered k b s.memory s.disk) := by
  refine (gives_memory s).comesTo_bind fun s₁ h₁ d₁ => ?_
  rw [← h₁, ← d₁]
  -- each guard in turn ends the run in a way of its own, with the chain as it was
  cases h : s₁.memory.index.contains b.hash with
  | true =>
    rw [if_pos rfl]
    refine Gives.comesTo ?_ (.known h)
    exact (gives_log s₁ _).bind_quiet fun s₂ h₂ _ => (gives_pure s₂ _).leaves h₂
  | false =>
    rw [if_neg Bool.false_ne_true]
    have hexpected := gives_expected k b s₁
    cases hp : s₁.memory.parameters? k b with
    | error e =>
      rw [hp] at hexpected
      exact hexpected.bind_error.comesTo (.unadjusted h hp)
    | ok answer =>
      rw [hp] at hexpected
      refine hexpected.comesTo_bind fun s₂ h₂ d₂ => ?_
      cases answer with
      | none =>
        refine Gives.comesTo ?_ (.disconnected h hp)
        exact (gives_log s₂ _).bind_quiet fun s₃ h₃ _ => (gives_pure s₃ _).leaves (h₃.trans h₂)
      | some p =>
        have hexamine := gives_examine k b s₂ p
        rw [h₂] at hexamine
        refine hexamine.comesTo_bind fun s₃ h₃ d₃ => ?_
        cases hv : s₁.memory.verdict k b p with
        | error code => exact ((gives_pure s₃ _).leaves h₃).comesTo (.invalid h hp hv)
        | ok iters =>
          refine (gives_ask s₃ _ _).comesTo_bind fun s₄ h₄ d₄ => ?_
          cases hb : k.build s₁.memory.config.constants s₁.memory.index iters b with
          | error e =>
            refine Gives.comesTo ?_ (.unbuilt h hp hv hb)
            exact (gives_expect s₄ (.error e)).bind_error.leaves (h₄.trans h₃)
          | ok r =>
            refine (gives_expect s₄ (.ok r)).comesTo_bind fun s₅ h₅ d₅ => ?_
            -- nothing has changed since the block was found to be new
            have hr : Validated k b s₅.memory r := by
              rw [h₅, h₄, h₃]
              exact ⟨h, p, iters, hp, hv, hb⟩
            have hplace := place_cases k b r s₅ hr
            rw [h₅, d₅, h₄, d₄, h₃, d₃, d₂] at hplace
            exact hplace

/-- **Every way through an offer.** -/
theorem offer_cases : (offer k b).ComesTo s (Offered k b s.memory s.disk) := by
  obtain ⟨a, m, cs, hgives, hoffered⟩ := consider_cases k b s
  cases a with
  | error e => exact hgives.bind_error.comesTo hoffered
  | ok outcome =>
    -- an outcome is counted, and a failure is not
    refine (hgives.then_quiet fun s₁ h₁ _ => ?_).comesTo hoffered
    refine (gives_measure s₁ _).bind_quiet fun s₂ h₂ _ => ?_
    exact (gives_pure s₂ _).leaves (h₂.trans h₁)

/-- The session after blocks were offered in turn, each with the same collaborators. -/
def offerAll (blocks : List HeaderBlock) (s : Session Chain) : Session Chain :=
  blocks.foldl (fun s b => (offer k b).after s) s

@[simp] theorem offerAll_nil : offerAll k [] s = s := rfl

/-- One more block is offered where the others have led. -/
theorem offerAll_append_singleton (blocks : List HeaderBlock) :
    offerAll k (blocks ++ [b]) s = (offer k b).after (offerAll k blocks s) :=
  List.foldl_append

end Chain

end HeaderChain
