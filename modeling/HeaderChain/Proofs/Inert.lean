import HeaderChain.Proofs.Retention

/-!
# What an outcome tells

The outcome of an offered block tells what the block has done to the chain, and that nothing else
was done. A block that is known, invalid or disconnected does nothing at all, so that it can be left
out of any run.

* `Chain.isInert` — the answers to blocks that do nothing; `Chain.offer_unmoved`;
* `Chain.SetAside`, `Chain.Leads` — what is left of an orphan, and of a new peak; in either case the
  block is indexed, and known when it comes again (`Chain.Acknowledged`);
* `Chain.effective` — the blocks of a run that are not inert; `Chain.offerAll_effective` — without
  the others they come to the same, and leave the same chain and the same store;
* `Chain.Reachable.outcomes_tell` — all of this together.
-/

namespace HeaderChain

namespace Chain

open Procedure

/-- **A block that gets such an answer is inert.** One that fails is not: a valid block is kept even
if its fork choice fails. -/
def isInert : Except ChainError Outcome → Bool
  | .ok .known | .ok (.invalid _) | .ok (.disconnected _) => true
  | .ok .newPeak | .ok .orphan | .error _ => false

variable {heightOf : Hash → Height} {k : Consensus} {b : HeaderBlock} {c m : Chain} {d : Disk}
  {cs : List Call} {s t : Session Chain} {blocks : List HeaderBlock}

/-! ### One block -/

/-- **An inert block**: the memory is as it was, and the store was not called. -/
theorem Offered.eq_of_isInert {a : Except ChainError Outcome} (h : Offered k b c d a m cs)
    (ha : isInert a = true) : m = c ∧ cs = [] := by
  cases h with
  | known | disconnected | invalid => exact ⟨rfl, rfl⟩
  | unadjusted | unbuilt | unresolved | orphan | pathless | refused | newPeak => cases ha

theorem offer_unmoved (h : isInert ((offer k b).result s) = true) :
    s.Unmoved ((offer k b).after s) := by
  obtain ⟨a, m, cs, hgives, hoffered⟩ := offer_cases k b s
  obtain ⟨rfl, rfl⟩ := hoffered.eq_of_isInert (hgives.result ▸ h)
  exact hgives.unmoved

/-- A block is known from now on: whoever looks at it next finds it indexed, and it does nothing. -/
def Acknowledged (b : HeaderBlock) (t : Session Chain) : Prop :=
  ∀ k, (offer k b).result t = .ok .known ∧ t.Unmoved ((offer k b).after t)

theorem acknowledged_of_contains (h : t.memory.index.contains b.hash = true) :
    Acknowledged b t := by
  intro k
  have hgives : (offer k b).Gives t _ _ _ := Offered.gives (.known h)
  exact ⟨hgives.result, hgives.unmoved⟩

/-- **A block was set aside** as an orphan: it has a record under its hash, where there was none,
and nothing else has changed. -/
structure SetAside (k : Consensus) (b : HeaderBlock) (s t : Session Chain) : Prop where
  fresh : s.memory.index.contains b.hash = false
  indexed : ∃ r, Validated k b s.memory r ∧ t.memory.index = s.memory.index.add r ∧
    ∀ x, t.memory.index.record? x = if b.hash = x then some r else s.memory.index.record? x
  canonical : t.memory.index.canonical = s.memory.index.canonical
  slots : t.memory.slots = s.memory.slots
  config : t.memory.config = s.memory.config
  disk : t.disk = s.disk
  calls : t.calls = s.calls

theorem setAside_of_orphan (hq : (Setting.graded heightOf).admits s (.offer k b))
    (h : (offer k b).result s = .ok .orphan) : SetAside k b s ((offer k b).after s) := by
  obtain ⟨a, m, cs, hgives, hoffered⟩ := offer_cases k b s
  obtain rfl : a = .ok .orphan := hgives.result.symm.trans h
  cases hoffered with
  | @orphan r _ hr =>
    obtain ⟨hhash, -, -⟩ := hr.graded hq
    have hindex : ((offer k b).after s).memory.index = s.memory.index.add r := by
      rw [hgives.memory]
      rfl
    -- the record is all that is new
    refine ⟨hr.fresh, ⟨r, hr, hindex, fun x => ?_⟩, ?_, ?_, ?_, hgives.disk,
      hgives.calls.trans (List.append_nil _)⟩
    · rw [hindex, Index.record?_add, hhash]
    · rw [hindex, Index.canonical_add]
    · rw [hgives.memory]
      rfl
    · rw [hgives.memory]
      rfl

theorem SetAside.contains (h : SetAside k b s t) : t.memory.index.contains b.hash = true := by
  obtain ⟨r, -, -, hrecord⟩ := h.indexed
  exact Index.contains_iff.mpr ⟨r, by rw [hrecord, if_pos rfl]⟩

/-- **A block is the peak**, in memory and in the store. -/
structure Leads (b : HeaderBlock) (t : Session Chain) : Prop where
  peak : t.memory.peak? = some b
  stored : t.disk.peek peakKey = some (Stored.encode b)

theorem leads_of_newPeak (h : (offer k b).result s = .ok .newPeak) :
    Leads b ((offer k b).after s) := by
  obtain ⟨a, m, cs, hgives, hoffered⟩ := offer_cases k b s
  obtain rfl : a = .ok .newPeak := hgives.result.symm.trans h
  cases hoffered with
  | newPeak _ _ _ _ hd =>
    refine ⟨?_, ?_⟩
    · rw [hgives.memory, adopted_eq, Chain.peak?, slots_evicted]
      rfl
    · rw [hgives.disk]
      exact Disk.peek_serve_storesPeak hd

/-- **A new peak is not evicted** by the eviction that it causes. -/
theorem contains_of_newPeak (hs : Reachable (.graded heightOf) s)
    (hq : (Setting.graded heightOf).admits s (.offer k b))
    (h : (offer k b).result s = .ok .newPeak) :
    ((offer k b).after s).memory.index.contains b.hash = true := by
  obtain ⟨-, r, hr, hretains⟩ := retains_newPeak hs hq h
  obtain ⟨hhash, hheight, -⟩ := hr.graded hq
  refine (hretains.kept _).mpr ⟨r, .inr ⟨List.mem_singleton_self r, hhash⟩, fun floor hf => ?_⟩
  rw [hheight]
  exact Config.floor?_le_peak hf

/-! ### A run -/

/-- **The blocks of a run that do something**, or fail: those that are not inert. -/
def effective (k : Consensus) (blocks : List HeaderBlock) (s : Session Chain) : List HeaderBlock :=
  ((blocks.zip (outcomes k blocks s)).filter fun p => !isInert p.2).map (·.1)

theorem effective_cons : effective k (b :: blocks) s =
    if isInert ((offer k b).result s) then effective k blocks ((offer k b).after s)
    else b :: effective k blocks ((offer k b).after s) := by
  cases h : isInert ((offer k b).result s) <;> simp [effective, outcomes, h]

/-- What a block comes to is settled by the memory and the store. -/
theorem offer_congr (h : s.Unmoved t) : (offer k b).result t = (offer k b).result s ∧
    ((offer k b).after s).Unmoved ((offer k b).after t) := by
  obtain ⟨a, m, cs, hgives, hoffered⟩ := offer_cases k b s
  rw [← h.memory, ← h.disk] at hoffered
  have hgives' := hoffered.gives
  refine ⟨hgives'.result.trans hgives.result.symm, ?_, ?_, ?_⟩
  · rw [hgives.memory, hgives'.memory]
  · rw [hgives.disk, hgives'.disk, h.disk]
  · rw [hgives.calls, hgives'.calls, h.calls]

/-- **Inert blocks may be left out of a run.** The others come to the same without them, and the
chain, the store and the calls to it are the same in the end. -/
theorem offerAll_effective (k : Consensus) (blocks : List HeaderBlock) (s : Session Chain) :
    outcomes k (effective k blocks s) s = (outcomes k blocks s).filter (!isInert ·) ∧
      (offerAll k blocks s).Unmoved (offerAll k (effective k blocks s) s) := by
  -- the run without them soon goes on from another session, but only its journal is another one
  suffices hmoved : ∀ t, s.Unmoved t →
      outcomes k (effective k blocks s) t = (outcomes k blocks s).filter (!isInert ·) ∧
        (offerAll k blocks s).Unmoved (offerAll k (effective k blocks s) t) from
    hmoved s ⟨rfl, rfl, rfl⟩
  induction blocks generalizing s with
  | nil => exact fun t h => ⟨rfl, h⟩
  | cons b blocks ih =>
    intro t h
    obtain ⟨hresult, hafter⟩ := offer_congr (k := k) (b := b) h
    rw [effective_cons, outcomes]
    cases hinert : isInert ((offer k b).result s) with
    | true =>
      rw [List.filter_cons_of_neg (by simp [hinert]), if_pos rfl]
      exact ih _ t ((offer_unmoved hinert).symm.trans h)
    | false =>
      obtain ⟨houtcomes, hend⟩ := ih _ _ hafter
      rw [List.filter_cons_of_pos (by simp [hinert]), if_neg Bool.false_ne_true, outcomes, hresult,
        houtcomes]
      exact ⟨rfl, hend⟩

/-- **Outcomes tell the effect.** A block that is known, invalid or disconnected does nothing. An
orphan is set aside, without the store, and does nothing else; a new peak is the peak in memory and
in the store; and either is known when it comes again. So inert blocks may be left out of a run. -/
theorem Reachable.outcomes_tell (hs : Reachable (.graded heightOf) s) (k : Consensus) :
    (∀ b, isInert ((offer k b).result s) = true → s.Unmoved ((offer k b).after s)) ∧
    (∀ b, (Setting.graded heightOf).admits s (.offer k b) →
      ((offer k b).result s = .ok .orphan →
        SetAside k b s ((offer k b).after s) ∧ Acknowledged b ((offer k b).after s)) ∧
      ((offer k b).result s = .ok .newPeak →
        Leads b ((offer k b).after s) ∧ Acknowledged b ((offer k b).after s))) ∧
    ∀ blocks, outcomes k (effective k blocks s) s = (outcomes k blocks s).filter (!isInert ·) ∧
      (Chain.offerAll k blocks s).Unmoved (Chain.offerAll k (effective k blocks s) s) := by
  refine ⟨fun b => offer_unmoved, fun b hq => ⟨fun h => ?orphan, fun h => ?newPeak⟩,
    fun blocks => offerAll_effective k blocks s⟩
  case orphan =>
    have haside := setAside_of_orphan hq h
    exact ⟨haside, acknowledged_of_contains haside.contains⟩
  case newPeak =>
    exact ⟨leads_of_newPeak h, acknowledged_of_contains (contains_of_newPeak hs hq h)⟩

end Chain

namespace Sample

/-- A chain on the heavier of two branches. -/
def onRival : Session Chain :=
  Chain.offerAll (.only forked) [root, rival] (Chain.opened doubting (.only forked) {} {})

/-- A block before its parent, the parent twice, and the block again, which is no good. -/
def stuttering : List HeaderBlock := [third, child, child, third]

theorem reachable_onRival : Chain.Reachable (.graded forkedHeight) onRival := by
  have hopened : Chain.Reachable (.graded forkedHeight)
      (Chain.opened doubting (.only forked) {} {}) :=
    .opened_empty (opens_doubting _) rfl fun _ _ => rfl
  refine hopened.offerAll_of_forall fun s b hb => ?_
  have hmem : b ∈ forked := by
    fin_cases hb <;> decide +kernel
  exact Chain.Setting.admits_only height_forked s b hmem

end Sample

set_option maxRecDepth 4000 in
/-- Four blocks of which only the second does something: it is kept as an orphan. -/
theorem Chain.outcomes_tell_forked :
    outcomes (.only Sample.forked) Sample.stuttering Sample.onRival =
        [.ok (.disconnected .prevBlockHash), .ok .orphan, .ok .known,
          .ok (.invalid .proofOfSpace)] ∧
      outcomes (.only Sample.forked) [Sample.child] Sample.onRival = [.ok .orphan] ∧
      SetAside (.only Sample.forked) Sample.child Sample.onRival
        ((offer (.only Sample.forked) Sample.child).after Sample.onRival) := by
  obtain ⟨-, htell, hrun⟩ := Sample.reachable_onRival.outcomes_tell (.only Sample.forked)
  have houtcomes : outcomes (.only Sample.forked) Sample.stuttering Sample.onRival =
      [.ok (.disconnected .prevBlockHash), .ok .orphan, .ok .known,
        .ok (.invalid .proofOfSpace)] := by cbv
  -- of the four offers only the orphan changes anything
  have heffective : effective (.only Sample.forked) Sample.stuttering Sample.onRival =
      [Sample.child] := by
    rw [effective, houtcomes]
    rfl
  have halone := (hrun Sample.stuttering).1
  rw [heffective, houtcomes] at halone
  have horphan : (offer (.only Sample.forked) Sample.child).result Sample.onRival = .ok .orphan :=
    (List.cons.inj halone).1
  have hadmits := Setting.admits_only Sample.height_forked Sample.onRival Sample.child
    (by decide +kernel)
  exact ⟨houtcomes, halone, ((htell _ hadmits).1 horphan).1⟩

end HeaderChain
