import HeaderChain.Proofs.Determined
import HeaderChain.Proofs.Restart

/-!
# Operations on a store that serves

A store that refuses no call takes all choice away: what an operation comes to is then settled by
the memory and by what is stored, and neither by the journal nor by the number of calls that were
made before.

* `Session.Alike` — two sessions with one memory and one content of the store;
* `Procedure.Uniform` — a procedure that ends alike from sessions that are alike, and leaves
  sessions that are alike. Whatever is put together from such procedures is one (`Uniform.bind`);
* `Chain.uniform_offer`, `Chain.alike_offerAll` — so it is with offered blocks, one or many, with
  all that becomes of them (`Chain.outcomes`);
* `Chain.offer_newPeak`, `Chain.offerProof_served`, `Chain.reset_served` — what a block that wins, a
  proof that is good enough and a reset come to, told outright;
* `Chain.SameChain` — two sessions that differ by no more than the proof they stand on.
-/

namespace HeaderChain

namespace Disk

variable {d d' : Disk} {c : Call} {cs : List Call} {key : String}

/-! ### What a call does to a store -/

/-- Stores that answer alike have the same entries. -/
theorem entries_eq_of_peek (h : ∀ key, d.peek key = d'.peek key) : d.entries = d'.entries :=
  Std.ExtTreeMap.ext_getElem? h

/-- Stores with the same entries answer alike. -/
theorem peek_congr (h : d.entries = d'.entries) (key : String) : d.peek key = d'.peek key := by
  rw [peek, h, peek]

/-- A call that is refused changes no entry. -/
theorem entries_serve_of_refusal {detail : String} (h : d.refusal? c = some detail) :
    (d.serve c).2.entries = d.entries := by
  rw [serve_of_refusal h]

/-- A call that is served changes the entries as it says. -/
theorem entries_serve_of_served (h : d.refusal? c = none) :
    (d.serve c).2.entries = (d.apply c).entries := by
  rw [serve_of_served h]

/-- A call that is served does nothing to the other keys. -/
theorem peek_apply_of_ne (h : key ≠ c.key) : (d.apply c).peek key = d.peek key := by
  cases c with
  | get => rfl
  | set key' value =>
    rw [apply, peek_write]
    exact if_neg (Ne.symm h)
  | remove key' =>
    rw [apply, peek_erase]
    exact if_neg (Ne.symm h)

/-- Neither does one that is refused. -/
theorem peek_serve_of_ne (h : key ≠ c.key) : (d.serve c).2.peek key = d.peek key := by
  cases hc : d.refusal? c with
  | some detail =>
    rw [serve_of_refusal hc]
    rfl
  | none =>
    rw [serve_of_served hc]
    exact peek_apply_of_ne h

/-- A refused call changes nothing under any key. -/
theorem peek_serve_of_refusal {detail : String} (h : d.refusal? c = some detail) (key : String) :
    (d.serve c).2.peek key = d.peek key :=
  peek_congr (entries_serve_of_refusal h) key

/-- Calls about other keys change nothing under this one, served or refused. -/
theorem peek_serveAll_of_ne (h : ∀ c ∈ cs, key ≠ c.key) :
    (d.serveAll cs).peek key = d.peek key := by
  induction cs generalizing d with
  | nil => rfl
  | cons c cs ih =>
    obtain ⟨hc, hcs⟩ := List.forall_mem_cons.mp h
    exact (ih hcs).trans (peek_serve_of_ne hc)

/-- Reading changes no entry. -/
theorem entries_serveAll_of_reads (h : ∀ c ∈ cs, ∃ key, c = .get key) :
    (d.serveAll cs).entries = d.entries := by
  induction cs generalizing d with
  | nil => rfl
  | cons c cs ih =>
    obtain ⟨⟨key, rfl⟩, hcs⟩ := List.forall_mem_cons.mp h
    rw [serveAll_cons, ih hcs, entries_serve_get]

/-- What a call does to the entries depends on nothing else. -/
theorem entries_apply_congr (h : d.entries = d'.entries) (c : Call) :
    (d.apply c).entries = (d'.apply c).entries := by
  cases c with
  | get key => exact h
  | set key value => exact congrArg (·.insert key value) h
  | remove key => exact congrArg (·.erase key) h

theorem Serves.entries_serve (hd : d.Serves) (c : Call) :
    (d.serve c).2.entries = (d.apply c).entries :=
  entries_serve_of_served (hd.refusal? c)

/-- What is stored is there, if nothing is refused. -/
theorem Serves.peek_serve_set (hd : d.Serves) (key : String) (value : Bytes) :
    (d.serve (.set key value)).2.peek key = some value := by
  rw [serve_of_served (hd.refusal? _)]
  show (d.write key value).peek key = _
  rw [peek_write, if_pos rfl]

/-- Calls that are served change equal entries to equal entries. -/
theorem Serves.entries_serveAll (hd : d.Serves) (hd' : d'.Serves) (h : d.entries = d'.entries)
    (cs : List Call) : (d.serveAll cs).entries = (d'.serveAll cs).entries := by
  induction cs generalizing d d' with
  | nil => exact h
  | cons c cs ih =>
    have hentries : (d.serve c).2.entries = (d'.serve c).2.entries := by
      rw [hd.entries_serve, hd'.entries_serve]
      exact entries_apply_congr h c
    exact ih (hd.serveAll [c]) (hd'.serveAll [c]) hentries

/-- The same entries, and no call is refused. -/
def healed (d : Disk) : Disk := { d with fault := fun _ _ => none }

theorem serves_healed (d : Disk) : d.healed.Serves := fun _ _ => rfl

end Disk

namespace Session

variable {σ : Type} {s t : Session σ}

/-- The session on a store that refuses nothing from now on. -/
def healed (s : Session σ) : Session σ := { s with disk := s.disk.healed }

/-- **Sessions that no operation can tell apart**: one memory, the same entries in the store, and no
call that is refused. -/
structure Alike (s t : Session σ) : Prop where
  memory : s.memory = t.memory
  entries : s.disk.entries = t.disk.entries
  left : s.disk.Serves
  right : t.disk.Serves

/-- Whatever the stores refused, they refuse it no longer. -/
theorem alike_healed (hm : s.memory = t.memory) (hd : s.disk.entries = t.disk.entries) :
    s.healed.Alike t.healed :=
  ⟨hm, hd, s.disk.serves_healed, t.disk.serves_healed⟩

end Session

namespace Procedure

variable {σ ε ε' α β : Type} {x : Procedure σ ε α} {f : α → Procedure σ ε β} {s t : Session σ}

/-- **A procedure that cannot tell alike sessions apart.** -/
def Uniform (x : Procedure σ ε α) : Prop :=
  ∀ s t, s.Alike t → x.result s = x.result t ∧ (x.after s).Alike (x.after t)

/-- The same calls made from alike sessions leave alike sessions. -/
theorem Gives.alike {r : Except ε α} {m : σ} {cs : List Call} (h : s.Alike t)
    (hs : x.Gives s r m cs) (ht : x.Gives t r m cs) :
    x.result s = x.result t ∧ (x.after s).Alike (x.after t) := by
  refine ⟨hs.result.trans ht.result.symm, hs.memory.trans ht.memory.symm, ?_, ?_, ?_⟩
  · rw [hs.disk, ht.disk]
    exact h.left.entries_serveAll h.right h.entries cs
  · rw [hs.disk]
    exact h.left.serveAll cs
  · rw [ht.disk]
    exact h.right.serveAll cs

/-- A procedure is uniform if its result, the memory it leaves and its calls are functions of the
memory as long as no call is refused. -/
theorem uniform_of_gives (r : σ → Except ε α) (m : σ → σ) (cs : σ → List Call)
    (h : ∀ s, s.disk.Serves → x.Gives s (r s.memory) (m s.memory) (cs s.memory)) :
    x.Uniform := by
  intro s t halike
  refine Gives.alike halike (h s halike.left) ?_
  rw [halike.memory]
  exact h t halike.right

/-- A procedure that makes no call, and whose end is told by the memory alone. -/
theorem uniform_of_quiet (r : σ → Except ε α)
    (h : ∀ s, x.Gives s (r s.memory) s.memory []) : x.Uniform :=
  uniform_of_gives r id (fun _ => []) fun s _ => h s

theorem uniform_pure (a : α) : (pure a : Procedure σ ε α).Uniform :=
  uniform_of_quiet (fun _ => .ok a) fun s => gives_pure s a

theorem uniform_throw (e : ε) : (throw e : Procedure σ ε α).Uniform :=
  uniform_of_quiet (fun _ => .error e) fun s => gives_throw s e

theorem uniform_memory : (memory : Procedure σ ε σ).Uniform :=
  uniform_of_quiet .ok gives_memory

theorem uniform_log (e : Event) : (log e : Procedure σ ε Unit).Uniform :=
  uniform_of_quiet (fun _ => .ok ()) fun s => gives_log s e

theorem uniform_measure (v : Measurement) : (measure v : Procedure σ ε Unit).Uniform :=
  uniform_of_quiet (fun _ => .ok ()) fun s => gives_measure s v

theorem uniform_ask (q : Question) (a : α) : (ask q a : Procedure σ ε α).Uniform :=
  uniform_of_quiet (fun _ => .ok a) fun s => gives_ask s q a

theorem uniform_expect (a : Except ε α) : (expect a : Procedure σ ε α).Uniform :=
  uniform_of_quiet (fun _ => a) fun s => gives_expect s a

/-- **One uniform procedure after another.** The second one starts from sessions that are alike
again, and with one value, or it is not reached from either. -/
theorem Uniform.bind (hx : x.Uniform) (hf : ∀ a, (f a).Uniform) : (x >>= f).Uniform := by
  intro s t h
  obtain ⟨hresult, hafter⟩ := hx s t h
  -- both runs end the first step alike, so both stop there or both go on
  cases hs : x.result s with
  | error e =>
    have ht : x.result t = .error e := hresult.symm.trans hs
    rw [result_bind_of_error hs, result_bind_of_error ht, after_bind_of_error hs,
      after_bind_of_error ht]
    exact ⟨rfl, hafter⟩
  | ok a =>
    have ht : x.result t = .ok a := hresult.symm.trans hs
    rw [result_bind_of_ok hs, result_bind_of_ok ht, after_bind_of_ok hs, after_bind_of_ok ht]
    exact hf a _ _ hafter

/-- A failure that is kept is kept alike. -/
theorem Uniform.attempt (hx : x.Uniform) :
    (x.attempt : Procedure σ ε' (Except ε α)).Uniform := by
  intro s t h
  obtain ⟨hresult, hafter⟩ := hx s t h
  rw [result_attempt, result_attempt, after_attempt, after_attempt, hresult]
  exact ⟨rfl, hafter⟩

end Procedure

namespace Chain

open Procedure

/-- **Two sessions with one chain**: the same records and canonical map, the same peak, in memory
and in the store, and the same latest timestamp. All that may differ is the proof. -/
structure SameChain (s t : Session Chain) : Prop where
  index : t.memory.index = s.memory.index
  peak : t.memory.peak? = s.memory.peak?
  latestTimestamp : t.memory.latestTimestamp = s.memory.latestTimestamp
  stored : t.disk.peek peakKey = s.disk.peek peakKey

/-- Reading the slots changes no entry. -/
theorem entries_readCalls (d : Disk) : (d.serveAll readCalls).entries = d.entries :=
  Disk.entries_serveAll_of_reads (by simp [readCalls])

variable (k : Consensus) (b : HeaderBlock)

/-! ### Offering blocks -/

theorem uniform_setIndex (i : Index) : (setIndex i).Uniform :=
  uniform_of_gives (fun _ => .ok ()) ({ · with index := i }) (fun _ => []) fun s _ =>
    gives_setIndex s i

/-- Storing a peak goes alike in sessions that cannot be told apart. -/
theorem uniform_setPeak (t : UInt64) : (onSlots (Slots.setPeak b (some t))).Uniform :=
  uniform_of_gives (fun _ => .ok ())
    (fun c => { c with slots := { c.slots with peak := some b, latestTimestamp := t } })
    (fun _ => [storesPeak b]) fun _ hd => onSlots_setPeak_served t (hd.refusal? _)

/-- Adopting a block goes alike in sessions that cannot be told apart. -/
theorem uniform_adopt (r : BlockRecord) (changedFrom : Height) :
    (adopt r b changedFrom).Uniform := by
  refine uniform_memory.bind fun c => ?_
  refine (uniform_expect _).bind fun path => ?_
  refine (uniform_setPeak b _).bind fun _ => ?_
  refine (uniform_setIndex _).bind fun _ => ?_
  refine Uniform.bind ?_ fun _ => ?_
  · exact uniform_of_gives (fun _ => .ok ()) (evicted · r.height) (fun _ => []) fun s _ =>
      gives_evict s r.height
  · refine (uniform_measure _).bind fun _ => ?_
    exact uniform_of_quiet (fun _ => .ok ()) fun s => gives_announce r s _ _ _

/-- So does placing it, wherever it is to stand. -/
theorem uniform_place (r : BlockRecord) : (place k r b).Uniform := by
  have hstanding : (standing k r).Uniform :=
    uniform_of_quiet (standing? k · r) fun s => gives_standing k r s
  refine hstanding.attempt.bind fun a => ?_
  cases a with
  | error cause =>
    -- a block that cannot be compared is indexed before the failure is passed on
    refine (uniform_log _).bind fun _ => ?_
    refine uniform_memory.bind fun c => ?_
    exact (uniform_setIndex _).bind fun _ => uniform_throw cause
  | ok choice =>
    dsimp only
    cases choice.changedFrom? r.height with
    | none =>
      refine uniform_memory.bind fun c => ?_
      refine (uniform_log _).bind fun _ => ?_
      exact (uniform_setIndex _).bind fun _ => uniform_pure _
    | some changedFrom => exact (uniform_adopt b r changedFrom).bind fun _ => uniform_pure _

/-- And all that is done about an offered block. -/
theorem uniform_consider : (consider k b).Uniform := by
  refine uniform_memory.bind fun c => ?_
  cases c.index.contains b.hash with
  | true => exact (uniform_log _).bind fun _ => uniform_pure _
  | false =>
    rw [if_neg Bool.false_ne_true]
    have hexpected : (expected k b).Uniform :=
      uniform_of_quiet (parameters? k b) fun s => gives_expected k b s
    -- no parameters are known where the parent is not
    refine hexpected.bind fun answer => ?_
    cases answer with
    | none => exact (uniform_log _).bind fun _ => uniform_pure _
    | some p =>
      have hexamine : (examine k b p).Uniform :=
        uniform_of_quiet (fun c => .ok (verdict k b c p)) fun s => gives_examine k b s p
      refine hexamine.bind fun verdict => ?_
      cases verdict with
      | error code => exact uniform_pure _
      | ok iters =>
        refine (uniform_ask _ _).bind fun built => ?_
        exact (uniform_expect built).bind fun r => uniform_place k b r

/-- **What becomes of an offered block** depends on the memory alone. -/
theorem uniform_offer : (offer k b).Uniform := by
  refine (uniform_consider k b).bind fun outcome => ?_
  exact (uniform_measure _).bind fun _ => uniform_pure outcome

/-- What becomes of blocks that are offered in turn. -/
def outcomes : List HeaderBlock → Session Chain → List (Except ChainError Outcome)
  | [], _ => []
  | b :: blocks, s => (offer k b).result s :: outcomes blocks ((offer k b).after s)

/-- **Blocks offered in turn** become the same from alike sessions, and leave alike sessions. -/
theorem alike_offerAll {s t : Session Chain} (h : s.Alike t) (blocks : List HeaderBlock) :
    outcomes k blocks s = outcomes k blocks t ∧
      (offerAll k blocks s).Alike (offerAll k blocks t) := by
  induction blocks generalizing s t with
  | nil => exact ⟨rfl, h⟩
  | cons b blocks ih =>
    obtain ⟨hresult, hafter⟩ := uniform_offer k b s t h
    obtain ⟨hrest, hend⟩ := ih hafter
    refine ⟨?_, hend⟩
    rw [outcomes, outcomes, hresult, hrest]

/-- One more block: its outcome is that of offering it where the others have led. -/
theorem outcomes_append_singleton (blocks : List HeaderBlock) (s : Session Chain) :
    outcomes k (blocks ++ [b]) s =
      outcomes k blocks s ++ [(offer k b).result (offerAll k blocks s)] := by
  induction blocks generalizing s with
  | nil => rfl
  | cons b' blocks ih =>
    show (offer k b').result s :: outcomes k (blocks ++ [b]) ((offer k b').after s) = _
    rw [ih]
    rfl

section Told

variable {k b} {s : Session Chain} {r : BlockRecord} {p : Parameters} {iters : UInt64}
  {choice : Choice} {changedFrom : Height} {path : List BlockRecord}

/-- **A valid block that wins becomes the peak**, if the store takes it. -/
theorem offer_newPeak (hnew : s.memory.index.contains b.hash = false)
    (hp : s.memory.parameters? k b = .ok (some p)) (hv : s.memory.verdict k b p = .ok iters)
    (hbuild : k.build s.memory.config.constants s.memory.index iters b = .ok r)
    (hs : s.memory.standing? k r = .ok choice)
    (hc : choice.changedFrom? r.height = some changedFrom)
    (hpath : s.memory.index.pathDown changedFrom r = .ok path) (hd : s.disk.Serves) :
    (offer k b).Gives s (.ok .newPeak) (s.memory.adopted b r changedFrom path) [storesPeak b] := by
  have hr : Validated k b s.memory r := ⟨hnew, p, iters, hp, hv, hbuild⟩
  exact Offered.gives (.newPeak hr hs hc hpath (hd.refusal? _))

end Told

/-! ### Offering a proof, and resetting -/

section Seeded

variable {v : Verifier} {w : WeightProof} {records : Option (List BlockRecord)}
  {rs : List BlockRecord} {tip : HeaderBlock} {s : Session Chain}

/-- **A proof that is good enough is taken**: it outweighs the peak, and its tip is among its
records, which are given or answered. -/
theorem offerProof_served (ht : w.tip? = some tip)
    (hw : ∀ peak, s.memory.peak? = some peak → isBetter tip.weight peak.weight = true)
    (hr : records = some rs ∨ records = none ∧ v w s.memory.config.skipSegments = .ok rs)
    (htip : rs.any (·.hash == tip.hash) = true) (hd : s.disk.Serves) :
    (offerProof v w records).Gives s (.ok true) ((s.memory.withProof w true).reseeded rs tip)
      [storesProof w, storesPeak tip] := by
  have hseeding : Seeding w rs s.memory s.disk true (.ok ()) _ _ :=
    .seeded ht htip (fun _ => hd.refusal? _) ((hd.serveAll _).refusal? _)
  exact ProofOffered.gives (.seeding ht hw hr hseeding)

/-- A reset on a store that refuses nothing ends well and leaves an empty chain. -/
theorem reset_served (hd : s.disk.Serves) :
    reset.Gives s (.ok ()) { s.memory with slots := {}, index := .empty }
      [.remove proofKey, .remove peakKey] := by
  obtain ⟨a, m, cs, hgives, hreset⟩ := reset_cases s
  cases hreset with
  | proofRefused hrefused => cases (hd.refusal? _).symm.trans hrefused
  | peakRefused _ hrefused => cases ((hd.serveAll _).refusal? _).symm.trans hrefused
  | done => exact hgives

end Seeded

end Chain

end HeaderChain
