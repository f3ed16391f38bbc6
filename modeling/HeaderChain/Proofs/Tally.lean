import HeaderChain.Proofs.Journal
import HeaderChain.Proofs.Records

/-!
# What operations measure

A recorder that has seen nothing else knows of a chain what its journal tells
(`Session.readings`). A `Tally` is what these readings should come to, and `Session.Tallies` says
that they do. Most steps of an operation measure nothing and leave the index alone
(`Procedure.Still`), so that a tally changes at few places.

* `Index.size_addAll`, `Index.size_pruneBelow` — an index has one record more for each one that is
  added under a hash which is not indexed at that moment (`Index.novel`), and one less for each one
  that is evicted and counted;
* `Procedure.EndsIn` — what a procedure comes to, told of the session it leaves, with the rules for
  one procedure after another;
* `Chain.tallies_adopt`, `Chain.tallies_seed` — a record that is made the peak, and the records of a
  proof. A failure on the way leaves the tally as it was.
-/

namespace HeaderChain

/-! ### The number of records -/

namespace Index

variable {i j : Index} {r : BlockRecord}

/-- A record counts once: an index grows by one only if it did not know the hash. -/
theorem size_add : (i.add r).size = i.size + if i.contains r.hash then 0 else 1 := by
  have hcontains : i.records.contains r.hash = i.contains r.hash := by
    rw [Std.ExtTreeMap.contains_eq_isSome_getElem?]
    rfl
  show (i.records.insert r.hash r).size = i.records.size + _
  rw [Std.ExtTreeMap.size_insert, hcontains]
  split <;> rfl

@[simp] theorem size_empty : empty.size = 0 := Std.ExtTreeMap.size_empty

/-- **The number of records that are new** when they are added in turn: those under a hash which is
not indexed at that moment. -/
def novel : Index → List BlockRecord → Nat
  | _, [] => 0
  | i, r :: rs => (if i.contains r.hash then 0 else 1) + (i.add r).novel rs

/-- An index with more records, added in turn. -/
def addAll (i : Index) (rs : List BlockRecord) : Index := rs.foldl add i

@[simp] theorem novel_nil : i.novel [] = 0 := rfl

@[simp] theorem addAll_nil : i.addAll [] = i := rfl

theorem addAll_cons (rs : List BlockRecord) : i.addAll (r :: rs) = (i.add r).addAll rs := rfl

/-- An index grows by the records that are new to it, each counted once. -/
theorem size_addAll (i : Index) (rs : List BlockRecord) :
    (i.addAll rs).size = i.size + i.novel rs := by
  induction rs generalizing i with
  | nil => rfl
  | cons r rs ih => rw [addAll_cons, ih, novel, size_add, Nat.add_assoc]

/-- A record under a hash that is indexed already is not new. -/
theorem novel_singleton_of_record? {old : BlockRecord} (h : i.record? r.hash = some old) :
    i.novel [r] = 0 := by
  simp [novel, contains, h]

/-- **The same records in the same buckets**: indices that differ in the canonical map only. -/
structure SameRecords (i j : Index) : Prop where
  records : i.records = j.records
  buckets : i.buckets = j.buckets

theorem SameRecords.refl (i : Index) : i.SameRecords i := ⟨rfl, rfl⟩

theorem SameRecords.trans {m : Index} (h : i.SameRecords j) (h' : j.SameRecords m) :
    i.SameRecords m :=
  ⟨h.records.trans h'.records, h.buckets.trans h'.buckets⟩

/-- Indices with the same records are of one size. -/
theorem SameRecords.size_eq (h : i.SameRecords j) : i.size = j.size := congrArg (·.size) h.records

/-- A record added to both sides leaves them with the same records. -/
theorem SameRecords.add (h : i.SameRecords j) (r : BlockRecord) :
    (i.add r).SameRecords (j.add r) := by
  constructor <;> simp [Index.add, contains, record?, h.records, h.buckets]

/-- What is evicted is settled by the records and the buckets. -/
theorem SameRecords.pruneBelow (h : i.SameRecords j) (height : Height) :
    (i.pruneBelow height).1.SameRecords (j.pruneBelow height).1 := by
  constructor <;> simp [Index.pruneBelow, hashesBelow, h.records, h.buckets]

/-- Nothing is below the height 0. -/
theorem pruneBelow_zero (i : Index) : (i.pruneBelow 0).1 = i := by
  have hnone : i.hashesBelow 0 = [] := by
    refine List.eq_nil_iff_forall_not_mem.mpr fun x hx => ?_
    obtain ⟨k, hk, -⟩ := mem_hashesBelow.mp hx
    exact absurd hk (by simp)
  have hall : i.buckets.filter (fun h _ => 0 ≤ h) = i.buckets :=
    Std.ExtTreeMap.filter_eq_self_iff.mpr fun h _ => by simp
  rw [Index.pruneBelow, hnone, hall]
  rfl

/-- Dropping heights forgets no record. -/
theorem sameRecords_dropHeightsFrom (i : Index) (h : Height) :
    (i.dropHeightsFrom h).SameRecords i :=
  ⟨records_ext fun x => congrFun (record?_dropHeightsFrom i h) x, buckets_dropHeightsFrom i h⟩

/-- A canonical map rewritten along a path keeps every record. -/
theorem sameRecords_replaceFrom (i : Index) (h : Height) (path : List BlockRecord) :
    (Chain.replaceFrom i h path).SameRecords i :=
  ⟨records_ext fun x => congrFun record?_replaceFrom x, buckets_replaceFrom⟩

/-- Seeding adds the records; the heights it writes are of no account here. -/
theorem sameRecords_reseed (i : Index) (rs : List BlockRecord) :
    (Chain.reseed i rs).SameRecords (i.addAll rs) := by
  have hfold : ∀ {i j : Index}, i.SameRecords j →
      (rs.foldl (fun i r => (i.setHeight r.height r.hash).add r) i).SameRecords (j.addAll rs) := by
    induction rs with
    | nil => exact id
    | cons r rs ih =>
      intro i j h
      have hset : (i.setHeight r.height r.hash).SameRecords j := ⟨h.records, h.buckets⟩
      exact ih (hset.add r)
  exact hfold (sameRecords_dropHeightsFrom i 0)

/-- Evicting one hash takes a record away and counts it, or does neither. -/
theorem size_evictHash (state : Std.ExtTreeMap Hash BlockRecord × Nat) (x : Hash) :
    (evictHash state x).1.size + (evictHash state x).2 = state.1.size + state.2 := by
  unfold evictHash
  split
  next hx =>
    have hpos : state.1.size ≠ 0 := by
      intro hzero
      rw [Std.ExtTreeMap.eq_empty_iff_size_eq_zero.mpr hzero] at hx
      simp at hx
    show (state.1.erase x).size + (state.2 + 1) = _
    rw [Std.ExtTreeMap.size_erase, if_pos hx]
    omega
  next => rfl

/-- **What is evicted is counted**: as many records are gone as the count says. -/
theorem size_pruneBelow (i : Index) (h : Height) :
    (i.pruneBelow h).1.size + (i.pruneBelow h).2 = i.size := by
  have hfold : ∀ (hashes : List Hash) (state : Std.ExtTreeMap Hash BlockRecord × Nat),
      (hashes.foldl evictHash state).1.size + (hashes.foldl evictHash state).2 =
        state.1.size + state.2 := by
    intro hashes
    induction hashes with
    | nil => exact fun state => rfl
    | cons x hashes ih => exact fun state => (ih _).trans (size_evictHash state x)
  exact hfold (i.hashesBelow h) (i.records, 0)

end Index

/-! ### Steps that measure nothing -/

namespace Session

variable {σ τ : Type} {part : σ → τ} {s t u : Session σ}

/-- The measurements the journal tells of, the earliest first. -/
def measurements (s : Session σ) : List Measurement := s.journal.filterMap Entry.measurement?

/-- What a recorder has seen that had seen nothing before. -/
def readings (s : Session σ) : Readings := ({} : Readings).recordAll s.measurements

/-- **Nothing was measured between two sessions**, and this part of the memory is the same. -/
structure SameFor (part : σ → τ) (s t : Session σ) : Prop where
  part : part t.memory = part s.memory
  measurements : t.measurements = s.measurements

theorem SameFor.refl (s : Session σ) : s.SameFor part s := ⟨rfl, rfl⟩

/-- What is the same is so for every part. -/
theorem SameFor.of_id (h : s.SameFor id t) : s.SameFor part t :=
  ⟨congrArg part h.part, h.measurements⟩

theorem SameFor.trans (h : s.SameFor part t) (h' : t.SameFor part u) : s.SameFor part u :=
  ⟨h'.part.trans h.part, h'.measurements.trans h.measurements⟩

end Session

namespace Procedure

open Session

variable {σ τ ε ε' α β : Type} {part : σ → τ} {x : Procedure σ ε α} {f : α → Procedure σ ε β}
  {s : Session σ}

/-- **A procedure that measures nothing** and leaves a part of the memory as it is. -/
def Still (part : σ → τ) (x : Procedure σ ε α) : Prop :=
  ∀ s : Session σ, s.SameFor part (x.after s)

theorem still_pure (a : α) : (pure a : Procedure σ ε α).Still part := fun s => .refl s

theorem still_throw (e : ε) : (throw e : Procedure σ ε α).Still part := fun s => .refl s

theorem still_memory : (memory : Procedure σ ε σ).Still part := fun s => .refl s

theorem still_remember (m : σ) : (remember m : Procedure σ ε Unit).Still fun _ => () :=
  fun _ => ⟨rfl, rfl⟩

theorem still_enter {e : Entry} (h : e.measurement? = none) :
    (enter e : Procedure σ ε Unit).Still part :=
  fun s => ⟨rfl, by simp [Procedure.after, enter, measurements, h]⟩

theorem still_log (e : Event) : (log e : Procedure σ ε Unit).Still part := still_enter rfl

theorem still_expect (a : Except ε α) : (expect a : Procedure σ ε α).Still part := by
  cases a with
  | ok a => exact still_pure a
  | error e => exact still_throw e

/-- A sequence of steps that measure nothing measures nothing. -/
theorem Still.bind (hx : x.Still part) (hf : ∀ a, (f a).Still part) : (x >>= f).Still part := by
  intro s
  cases h : x.result s with
  | error e => exact after_bind_of_error h ▸ hx s
  | ok a => exact after_bind_of_ok h ▸ (hx s).trans (hf a _)

/-- Asking a collaborator measures nothing. -/
theorem still_ask (q : Question) (a : α) : (ask q a : Procedure σ ε α).Still part :=
  (still_enter rfl).bind fun _ => still_pure a

/-- Attempted or not, such a step measures nothing. -/
theorem Still.attempt (hx : x.Still part) :
    (x.attempt : Procedure σ ε' (Except ε α)).Still part :=
  fun s => after_attempt x s ▸ hx s

/-- A logged failure is not a measurement. -/
theorem Still.logFailure (hx : x.Still part) (event : ε → Event) :
    (x.logFailure event).Still part := by
  intro s
  obtain h | ⟨e, h⟩ := after_logFailure x event s
  · exact h ▸ hx s
  · exact h ▸ (hx s).trans (still_log (event e) _)

/-- A call to the store measures nothing, served or refused. -/
theorem still_call (c : Call) : (call c : Procedure σ StoreError Unit).Still part := by
  intro s
  obtain ⟨failed, h⟩ := exists_after_call c s
  exact h ▸ ⟨rfl, by simp [measurements, Entry.measurement?]⟩

/-- Nor does a read of a value, whatever the bytes come to. -/
theorem still_fetchValue [Stored α] (key : String) :
    (fetchValue α key : Procedure σ StoreError (Option α)).Still part := by
  have hfetch : (fetch key : Procedure σ StoreError (Option Bytes)).Still part := by
    intro s
    have hcall : (call (.get key) : Procedure σ StoreError Unit).Still part := still_call _
    have hs := hcall s
    unfold Procedure.after fetch at *
    cases h : call (.get key) s <;> simpa [h] using hs
  refine hfetch.bind fun found => ?_
  -- bytes that cannot be read are logged, which is no measurement
  cases found with
  | none => exact still_pure _
  | some raw =>
    dsimp only
    cases (Stored.decode? raw : Option α) with
    | some a => exact still_pure _
    | none => exact (still_log _).bind fun _ => still_throw _

/-- A procedure on a part of the memory leaves what does not depend on that part. -/
theorem Still.on {x : Procedure τ ε α} (hx : x.Still fun _ => ()) {part : σ → τ}
    {put : τ → σ → σ} {failure : ε → ε'} {other : σ → β}
    (hput : ∀ t m, other (put t m) = other m) : (x.on part put failure).Still other := by
  intro s
  rw [after_on]
  exact ⟨hput _ _, (hx ⟨part s.memory, s.disk, s.journal⟩).measurements⟩

/-! ### Ends -/

/-- **What a procedure comes to from a session**, told of its result and the session it leaves. -/
def EndsIn (x : Procedure σ ε α) (s : Session σ) (Q : Except ε α → Session σ → Prop) : Prop :=
  Q (x.result s) (x.after s)

variable {P : Except ε α → Session σ → Prop} {Q : Except ε β → Session σ → Prop}

/-- One procedure after another. -/
theorem EndsIn.bind (hx : x.EndsIn s P) (herror : ∀ e t, P (.error e) t → Q (.error e) t)
    (hf : ∀ a t, P (.ok a) t → (f a).EndsIn t Q) : (x >>= f).EndsIn s Q := by
  unfold EndsIn at *
  cases h : x.result s with
  | error e =>
    rw [result_bind_of_error h, after_bind_of_error h]
    exact herror e _ (h ▸ hx)
  | ok a =>
    rw [result_bind_of_ok h, after_bind_of_ok h]
    exact hf a _ (h ▸ hx)

/-- One procedure after another that does not fail. -/
theorem endsIn_bind_of_ok {a : α} (hx : x.result s = .ok a) (hf : (f a).EndsIn (x.after s) Q) :
    (x >>= f).EndsIn s Q := by
  unfold EndsIn at *
  rwa [result_bind_of_ok hx, after_bind_of_ok hx]

theorem endsIn_memory_bind {f : σ → Procedure σ ε β} (hf : (f s.memory).EndsIn s Q) :
    (memory >>= f).EndsIn s Q :=
  hf

theorem endsIn_expect_bind {a : α} (hf : (f a).EndsIn s Q) : (expect (.ok a) >>= f).EndsIn s Q :=
  hf

/-- What fails is not gone on with. -/
theorem endsIn_bind_of_error {e : ε} (hx : x.result s = .error e) (hQ : Q (.error e) (x.after s)) :
    (x >>= f).EndsIn s Q := by
  unfold EndsIn
  rwa [result_bind_of_error hx, after_bind_of_error hx]

/-- How a procedure ends, told by its result and by what it leaves. -/
theorem endsIn_of_result {r : Except ε α} (hx : x.result s = r) (hP : P r (x.after s)) :
    x.EndsIn s P := by
  unfold EndsIn
  rwa [hx]

/-- A step that measures nothing ends with the readings it started with. -/
theorem Still.endsIn (hx : x.Still part) (s : Session σ) : x.EndsIn s fun _ => s.SameFor part :=
  hx s

end Procedure

open Procedure Session

/-! ### Tallies -/

namespace Outcome

/-- Whether two outcomes are of one kind: they are the same, or differ in the rejection only. -/
def sameKind : Outcome → Outcome → Bool
  | newPeak, newPeak | orphan, orphan | known, known => true
  | invalid _, invalid _ | disconnected _, disconnected _ => true
  | _, _ => false

/-- **A label tells the kind.** -/
theorem label_eq_iff (o o' : Outcome) : o.label = o'.label ↔ o.sameKind o' = true := by
  cases o <;> cases o' <;> simp [label, sameKind]

end Outcome

/-- What a recorder should have seen of a chain. -/
structure Tally where
  /-- The height at which the peak stands. -/
  peak : Height := 0
  /-- How many blocks had an outcome of this kind. -/
  outcomes : Outcome → Nat := fun _ => 0
  /-- How many proofs were adopted. -/
  proofs : Nat := 0
  /-- How many records were added, less those that are gone without having been evicted. -/
  known : Nat := 0

/-- One proof more, with these records in an index like this one, and the peak at its tip. -/
def Tally.seeded (t : Tally) (i : Index) (rs : List BlockRecord) (tip : HeaderBlock) : Tally where
  peak := tip.height
  outcomes := t.outcomes
  proofs := t.proofs + 1
  known := t.known + i.novel rs

/-- One record more in an index like this one, and the peak at its height. -/
def Tally.raised (t : Tally) (i : Index) (r : BlockRecord) : Tally :=
  { t with peak := r.height, known := t.known + i.novel [r] }

/-- One block more with an outcome of this kind. -/
def Tally.received (t : Tally) (o : Outcome) : Tally :=
  { t with outcomes := fun o' => t.outcomes o' + if o.sameKind o' then 1 else 0 }

/-- **The readings come to a tally**: the records that were evicted and those that are indexed
together make up the known ones, and after the zero that opens the chain there is one depth for each
reorganisation. -/
structure Session.Tallies (s : Session Chain) (t : Tally) : Prop where
  peakHeight : s.readings.peakHeight = some t.peak
  received : ∀ o : Outcome, s.readings.received[o.label]? = some (t.outcomes o)
  proofsAdopted : s.readings.proofsAdopted = some t.proofs
  evicted : ∃ n, s.readings.evicted = some n ∧ n + s.memory.index.size = t.known
  reorganised : ∃ depths, s.readings.depths = 0 :: depths ∧
    s.readings.reorganisations = some depths.length

section Tallies

variable {σ ε : Type} {s : Session Chain} {t : Tally}

/-- Sessions alike in this sense have the same readings. -/
theorem Session.SameFor.readings {τ : Type} {part : σ → τ} {s s' : Session σ}
    (h : s.SameFor part s') : s'.readings = s.readings := by
  rw [Session.readings, h.measurements, Session.readings]

/-- A measurement is recorded. -/
theorem readings_measure (s : Session σ) (v : Measurement) :
    ((Procedure.measure v : Procedure σ ε Unit).after s).readings = s.readings.record v := by
  have hlast : ((Procedure.measure v : Procedure σ ε Unit).after s).measurements =
      s.measurements ++ [v] := by
    simp [Procedure.measure, enter, Procedure.after, Session.measurements, Entry.measurement?]
  rw [Session.readings, hlast, Readings.recordAll, List.foldl_append]
  rfl

/-- **A tally is about the index and the measurements** and about nothing else. -/
theorem Session.Tallies.of_same {s' : Session Chain} (h : s.Tallies t)
    (hsame : s.SameFor Chain.index s') : s'.Tallies t := by
  have hindex : s'.memory.index = s.memory.index := hsame.part
  constructor
  · exact hsame.readings ▸ h.peakHeight
  · exact hsame.readings ▸ h.received
  · exact hsame.readings ▸ h.proofsAdopted
  · rw [hsame.readings, hindex]
    exact h.evicted
  · exact hsame.readings ▸ h.reorganised

/-- All records that are indexed are known. -/
theorem Session.Tallies.size_le (h : s.Tallies t) : s.memory.index.size ≤ t.known := by
  obtain ⟨n, -, hknown⟩ := h.evicted
  omega

/-- The peak is told of. -/
theorem tallies_peakAt (h : s.Tallies t) (height : Height) :
    ((Procedure.measure (.peakAt height) : Chain.Operation Unit).after s).Tallies
      { t with peak := height } := by
  constructor <;> rw [readings_measure]
  · rfl
  · exact h.received
  · exact h.proofsAdopted
  · exact h.evicted
  · exact h.reorganised

/-- A proof is counted. -/
theorem tallies_proofAdopted (h : s.Tallies t) :
    ((Procedure.measure (.proofsAdopted 1) : Chain.Operation Unit).after s).Tallies
      { t with proofs := t.proofs + 1 } := by
  constructor <;> rw [readings_measure]
  · exact h.peakHeight
  · exact h.received
  · show Readings.increase s.readings.proofsAdopted 1 = _
    rw [h.proofsAdopted]
    rfl
  · exact h.evicted
  · exact h.reorganised

/-- Evicted records are counted. -/
theorem tallies_evicted (h : s.Tallies t) (count : Nat) :
    ((Procedure.measure (.evicted count) : Chain.Operation Unit).after s).Tallies
      { t with known := t.known + count } := by
  obtain ⟨n, hn, hknown⟩ := h.evicted
  constructor <;> rw [readings_measure]
  · exact h.peakHeight
  · exact h.received
  · exact h.proofsAdopted
  · refine ⟨n + count, ?_, ?_⟩
    · show Readings.increase s.readings.evicted count = _
      rw [hn]
      rfl
    · show n + count + s.memory.index.size = t.known + count
      omega
  · exact h.reorganised

/-- A reorganisation is counted, and its depth goes with it. -/
theorem tallies_reorganised (h : s.Tallies t) (depth : UInt32) :
    ((Procedure.measure (.depth depth) : Chain.Operation Unit).after
      ((Procedure.measure (.reorganised 1) : Chain.Operation Unit).after s)).Tallies t := by
  obtain ⟨depths, hdepths, hcount⟩ := h.reorganised
  constructor <;> rw [readings_measure, readings_measure]
  · exact h.peakHeight
  · exact h.received
  · exact h.proofsAdopted
  · exact h.evicted
  · refine ⟨depths ++ [depth], ?_, ?_⟩
    · show s.readings.depths ++ [depth] = _
      rw [hdepths]
      rfl
    · show Readings.increase s.readings.reorganisations 1 = _
      rw [hcount, List.length_append]
      rfl

/-- An outcome is counted under the label of its kind. -/
theorem tallies_received (h : s.Tallies t) (o : Outcome) :
    ((Procedure.measure (.received o.label 1) : Chain.Operation Unit).after s).Tallies
      (t.received o) := by
  constructor <;> rw [readings_measure]
  · exact h.peakHeight
  · intro o'
    show (s.readings.received.insert o.label _)[o'.label]? = _
    rw [Std.ExtTreeMap.getElem?_insert, h.received o]
    -- outcomes of one kind share a label, and with it their counter
    by_cases hkind : o.label = o'.label
    · have hsame : t.outcomes o = t.outcomes o' := by
        have hreceived := h.received o
        rw [hkind, h.received o'] at hreceived
        exact (Option.some.inj hreceived).symm
      simp [Tally.received, hkind, (Outcome.label_eq_iff o o').mp hkind, hsame]
    · have hkind' : o.sameKind o' = false := by
        rwa [← Bool.not_eq_true, ← Outcome.label_eq_iff]
      simp [Tally.received, hkind, hkind', h.received o']
  · exact h.proofsAdopted
  · exact h.evicted
  · exact h.reorganised

end Tallies

/-! ### The steps -/

theorem Slots.still_setPeak (b : HeaderBlock) (t : Option UInt64) :
    (setPeak b t).Still fun _ => () := by
  refine ((still_call _).logFailure _).bind fun _ => ?_
  refine still_memory.bind fun _ => ?_
  exact (still_log _).bind fun _ => still_remember _

theorem Slots.still_setProof (w : WeightProof) : (setProof w).Still fun _ => () := by
  refine ((still_call _).logFailure _).bind fun _ => ?_
  exact still_memory.bind fun _ => still_remember _

theorem Slots.still_clearPeak : clearPeak.Still fun _ => () := by
  refine ((still_call _).logFailure _).bind fun _ => ?_
  exact still_memory.bind fun _ => still_remember _

theorem Slots.still_clearProof : clearProof.Still fun _ => () := by
  refine ((still_call _).logFailure _).bind fun _ => ?_
  exact still_memory.bind fun _ => still_remember _

theorem Slots.still_loadPeak : loadPeak.Still fun _ => () :=
  (still_fetchValue _).logFailure _

theorem Slots.still_getProof : getProof.Still fun _ => () := by
  refine still_memory.bind fun slots => ?_
  cases slots.proof with
  | some proof => exact still_pure _
  | none =>
    refine ((still_fetchValue _).logFailure _).bind fun proof => ?_
    exact (still_remember _).bind fun _ => still_pure _

/-- Choosing where to switch measures nothing: the finder is only asked. -/
theorem still_choose {σ τ : Type} {part : σ → τ} (find : ForkFinder) (i : Index)
    (candidate : BlockRecord) (peak : Option BlockRecord) :
    (choose find i candidate peak : Procedure σ ChainError Choice).Still part := by
  unfold choose
  cases peak with
  | none => exact still_pure _
  | some peak =>
    have hfork : (forkHeight find i candidate peak : Procedure σ _ _).Still part := by
      unfold forkHeight
      -- for a child of the peak nobody is asked
      by_cases hchild : candidate.parent = peak.hash
      · rw [if_pos hchild]
        exact still_pure _
      · rw [if_neg hchild]
        exact (still_ask _ _).bind fun _ => still_expect _
    dsimp only
    split_ifs
    · exact still_pure _
    · exact still_pure _
    · exact hfork.bind fun _ => still_pure _

namespace Chain

variable {α τ : Type} {part : Chain → τ} {k : Consensus} {v : Verifier} {b tip : HeaderBlock}
  {r : BlockRecord} {w : WeightProof} {rs : List BlockRecord} {s : Session Chain} {t : Tally}

/-- An operation on the slots leaves the index alone. -/
theorem still_onSlots {x : Slots.Operation α} (hx : x.Still fun _ => ()) :
    (onSlots x).Still index :=
  hx.on fun _ _ => rfl

/-- Weighing a block against the peak measures nothing. -/
theorem still_standing : (standing k r).Still part := by
  refine still_memory.bind fun c => ?_
  exact (still_expect _).bind fun peak => still_choose _ _ _ peak

/-- Working out what is expected of a block measures nothing. -/
theorem still_expected : (expected k b).Still part := by
  refine still_memory.bind fun c => ?_
  by_cases hheight : b.height = 0
  · simpa only [hheight, if_true] using still_pure _
  · simp only [hheight, if_false]
    cases c.index.record? b.parent with
    | none => exact still_pure _
    | some parent =>
      refine (still_ask _ _).bind fun answer => ?_
      exact (still_expect answer).bind fun p => still_pure _

/-- Examining a block measures nothing, passed or rejected. -/
theorem still_examine (p : Parameters) : (examine k b p).Still part := by
  refine still_memory.bind fun c => (still_ask _ _).bind fun answer => ?_
  cases answer with
  | ok iters =>
    cases iters with
    | some iters => exact still_pure _
    | none => exact (still_log _).bind fun _ => still_pure _
  | error cause => exact (still_log _).bind fun _ => still_pure _

/-- Having a proof verified measures nothing. -/
theorem still_verify : (verify v w).Still part := by
  refine still_memory.bind fun c => ?_
  refine (still_ask _ _).bind fun answer => ?_
  cases answer with
  | ok rs => exact still_pure _
  | error reason => exact (still_log _).bind fun _ => still_throw _

/-- Another index is put in place. -/
theorem tallies_setIndex {i : Index} {known : Nat} (h : s.Tallies t)
    (hsize : i.size + t.known = s.memory.index.size + known) :
    ((setIndex i).after s).Tallies { t with known } := by
  obtain ⟨n, hn, hknown⟩ := h.evicted
  refine ⟨h.peakHeight, h.received, h.proofsAdopted, ⟨n, hn, ?_⟩, h.reorganised⟩
  show n + i.size = known
  omega

/-- **An eviction moves records from one side of the account to the other.** -/
theorem tallies_evict (h : s.Tallies t) (height : Height) : ((evict height).after s).Tallies t := by
  have hsame : (memory : Operation Chain).after s = s := rfl
  unfold evict
  rw [after_bind_of_ok (gives_memory s).result, hsame]
  cases s.memory.config.floor? height with
  | none => exact h
  | some floor =>
    dsimp only
    have hsize := s.memory.index.size_pruneBelow floor
    obtain ⟨n, -, hknown⟩ := h.evicted
    generalize s.memory.index.pruneBelow floor = pruned at hsize ⊢
    -- the records that go are missing until they are counted
    have hgone : ((setIndex pruned.1).after s).Tallies { t with known := n + pruned.1.size } :=
      tallies_setIndex h (by omega)
    rw [after_bind_of_ok (gives_setIndex s _).result]
    by_cases hcount : 0 < pruned.2
    · rw [if_pos hcount, after_bind_of_ok (gives_log _ _).result]
      have hcounted := tallies_evicted (s := (log (.evicted floor pruned.2) : Operation Unit).after
        ((setIndex pruned.1).after s)) (hgone.of_same (still_log _ _)) pruned.2
      rwa [Nat.add_assoc, hsize, hknown] at hcounted
    · rw [if_neg hcount]
      have hnone : pruned.2 = 0 := Nat.eq_zero_of_not_pos hcount
      rw [hnone, Nat.add_zero] at hsize
      rwa [hsize, hknown] at hgone

/-- **A new peak is told of**, and with a reorganisation how deep it goes. -/
theorem tallies_announce (h : s.Tallies t) (old : Option HeaderBlock) (changedFrom : Height)
    (timestamp : UInt64) : ((announce r old changedFrom timestamp).after s).Tallies t := by
  unfold announce
  cases old with
  | none => exact h.of_same (still_log _ _)
  | some old =>
    by_cases hdepth : changedFrom ≤ old.height
    · simp only [hdepth, if_true]
      rw [after_bind_of_ok (gives_log s _).result, after_bind_of_ok (gives_measure _ _).result]
      exact tallies_reorganised (h.of_same (still_log _ _)) _
    · simp only [hdepth, if_false]
      exact h.of_same (still_log _ _)

/-! ### A new peak, and the records of a proof -/

/-- **A record that is made the peak** is told of and known from then on; a failure changes
nothing. -/
theorem tallies_adopt (h : s.Tallies t) (changedFrom : Height) :
    (adopt r b changedFrom).EndsIn s fun a s' =>
      match a with
      | .ok _ => s'.Tallies (t.raised s.memory.index r)
      | .error _ => s'.Tallies t := by
  unfold adopt
  refine endsIn_memory_bind ?_
  refine ((still_expect _).endsIn s).bind (fun e s₁ h₁ => h.of_same h₁) fun path s₁ h₁ => ?_
  refine ((still_onSlots (Slots.still_setPeak b _)).endsIn s₁).bind
    (fun e s₂ h₂ => h.of_same (h₁.trans h₂)) fun _ s₂ h₂ => ?_
  -- from here on nothing fails
  have hsize : (replaceFrom (s.memory.index.add r) changedFrom path).size + t.known =
      s₂.memory.index.size + (t.known + s.memory.index.novel [r]) := by
    have hindex : s₂.memory.index = s.memory.index := (h₁.trans h₂).part
    have hadd : (s.memory.index.add r).size = s.memory.index.size + s.memory.index.novel [r] :=
      s.memory.index.size_addAll [r]
    rw [(Index.sameRecords_replaceFrom _ _ path).size_eq, hadd, hindex]
    omega
  have hadded := tallies_setIndex (h.of_same (h₁.trans h₂)) hsize
  refine endsIn_bind_of_ok (gives_setIndex _ _).result ?_
  refine endsIn_bind_of_ok (gives_evict _ _).result ?_
  refine endsIn_bind_of_ok (gives_measure _ _).result ?_
  refine endsIn_of_result (gives_announce r _ _ _ _).result ?_
  exact tallies_announce (tallies_peakAt (tallies_evict hadded r.height) r.height) _ _ _

/-- The last part of seeding, from the call that makes the tip the stored peak on. -/
theorem tallies_seed_tip {s' : Session Chain} (h : s.Tallies t) (hsame : s.SameFor index s')
    (latestTimestamp : UInt64) (event : Event) :
    (do
      onSlots (Slots.setPeak tip (some latestTimestamp))
      setIndex (reseed (← memory).index rs)
      evict tip.height
      Procedure.measure (.peakAt tip.height)
      Procedure.measure (.proofsAdopted 1)
      log event : Operation Unit).EndsIn s' fun a s'' =>
      match a with
      | .ok _ => s''.Tallies (t.seeded s.memory.index rs tip)
      | .error _ => s''.Tallies t := by
  refine ((still_onSlots (Slots.still_setPeak tip _)).endsIn s').bind
    (fun e s₁ h₁ => h.of_same (hsame.trans h₁)) fun _ s₁ h₁ => ?_
  -- from here on nothing fails
  have hsize : (reseed s₁.memory.index rs).size + t.known =
      s₁.memory.index.size + (t.known + s.memory.index.novel rs) := by
    have hindex : s₁.memory.index = s.memory.index := (hsame.trans h₁).part
    rw [(Index.sameRecords_reseed _ rs).size_eq, Index.size_addAll, hindex]
    omega
  have hadded := tallies_setIndex (h.of_same (hsame.trans h₁)) hsize
  refine endsIn_memory_bind ?_
  refine endsIn_bind_of_ok (gives_setIndex _ _).result ?_
  refine endsIn_bind_of_ok (gives_evict _ _).result ?_
  refine endsIn_bind_of_ok (gives_measure _ _).result ?_
  refine endsIn_bind_of_ok (gives_measure _ _).result ?_
  refine endsIn_of_result (gives_log _ event).result ?_
  refine Session.Tallies.of_same ?_ (still_log event _)
  exact tallies_proofAdopted (tallies_peakAt (tallies_evict hadded tip.height) tip.height)

/-- **The records of a proof that is taken** are known from then on, its tip is the peak, and the
proof is counted; a failure changes nothing. -/
theorem tallies_seed (h : s.Tallies t) (ht : w.tip? = some tip) (persist : Bool) :
    (seed w rs persist).EndsIn s fun a s' =>
      match a with
      | .ok _ => s'.Tallies (t.seeded s.memory.index rs tip)
      | .error _ => s'.Tallies t := by
  have htip : tipOf w = .ok tip := by simp [tipOf, ht]
  unfold seed
  rw [htip]
  refine endsIn_expect_bind ?_
  cases hr : rs.any (·.hash == tip.hash) with
  | false => exact h.of_same (still_log (ε := ChainError) _ s)
  | true =>
    refine endsIn_memory_bind ?_
    -- the proof is stored first, if at all, and then its tip
    cases persist with
    | false => exact tallies_seed_tip h (.refl s) _ _
    | true =>
      exact ((still_onSlots (Slots.still_setProof w)).endsIn s).bind
        (fun e s₁ h₁ => h.of_same h₁) fun _ s₁ h₁ => tallies_seed_tip h h₁ _ _

end Chain

end HeaderChain
