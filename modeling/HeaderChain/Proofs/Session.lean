import HeaderChain.Slots

/-!
# What a procedure comes to

A procedure is told by how it ends, by the memory it leaves, and by the calls it has made to the
store: `Procedure.Gives`. The calls account for the store (`Disk.serveAll`), and the journal tells
of all of them (`Session.calls`), so that a run can be cut after any of its calls.

* `Gives.bind`, `Gives.bind_error` — procedures one after the other;
* `gives_log`, `gives_measure`, … — the steps that make no call;
* `gives_call_served`, `gives_call_refused`, and from them one pair of lemmas for each operation on
  the durable slots.
-/

namespace HeaderChain

/-- The call an entry tells of. -/
def Entry.call? : Entry → Option Call
  | called c _ => some c
  | _ => none

/-- The calls the journal tells of, the earliest first. -/
def Session.calls {σ : Type} (s : Session σ) : List Call := s.journal.filterMap Entry.call?

namespace Disk

/-- What the store says to the next call if it refuses it. -/
def refusal? (d : Disk) (c : Call) : Option String := d.fault d.served c

/-- The store after calls in turn. -/
def serveAll (d : Disk) (cs : List Call) : Disk := cs.foldl (fun d c => (d.serve c).2) d

@[simp] theorem serveAll_nil (d : Disk) : d.serveAll [] = d := rfl

theorem serveAll_cons (d : Disk) (c : Call) (cs : List Call) :
    d.serveAll (c :: cs) = (d.serve c).2.serveAll cs := rfl

/-- Serving one list after another is serving them as one. -/
theorem serveAll_append (d : Disk) (cs cs' : List Call) :
    d.serveAll (cs ++ cs') = (d.serveAll cs).serveAll cs' :=
  List.foldl_append

/-- A refused call changes no entry; it is only counted. -/
theorem serve_of_refusal {d : Disk} {c : Call} {detail : String} (h : d.refusal? c = some detail) :
    d.serve c = (some detail, { d with served := d.served + 1 }) := by
  unfold refusal? at h
  simp [serve, h]

/-- A call that is not refused is applied, and counted. -/
theorem serve_of_served {d : Disk} {c : Call} (h : d.refusal? c = none) :
    d.serve c = (none, { d.apply c with served := d.served + 1 }) := by
  unfold refusal? at h
  simp [serve, h]

/-- What a store will refuse is not changed by the calls it is given. -/
@[simp] theorem fault_serveAll (d : Disk) (cs : List Call) : (d.serveAll cs).fault = d.fault := by
  induction cs generalizing d with
  | nil => rfl
  | cons c cs ih =>
    rw [serveAll_cons, ih, serve]
    split
    · rfl
    · cases c <;> rfl

/-- A store that refuses no call. -/
def Serves (d : Disk) : Prop := ∀ n c, d.fault n c = none

theorem Serves.refusal? {d : Disk} (h : d.Serves) (c : Call) : d.refusal? c = none := h _ c

/-- A store that refuses nothing still refuses nothing after any calls. -/
theorem Serves.serveAll {d : Disk} (h : d.Serves) (cs : List Call) : (d.serveAll cs).Serves := by
  intro n c
  rw [fault_serveAll]
  exact h n c

end Disk

namespace Procedure

variable {σ τ ε ε' α β : Type}

/-- How a procedure ends. -/
def result (x : Procedure σ ε α) (s : Session σ) : Except ε α :=
  match x s with
  | .ok a _ => .ok a
  | .error e _ => .error e

/-- The session a procedure leaves, however it ends. -/
def after (x : Procedure σ ε α) (s : Session σ) : Session σ :=
  match x s with
  | .ok _ s' => s'
  | .error _ s' => s'

/-- **What a procedure comes to** from a session: it ends with `r`, leaves the memory `m`, and has
made the calls `cs`, by which alone it has changed the store. -/
structure Gives (x : Procedure σ ε α) (s : Session σ) (r : Except ε α) (m : σ) (cs : List Call) :
    Prop where
  result : x.result s = r
  memory : (x.after s).memory = m
  disk : (x.after s).disk = s.disk.serveAll cs
  calls : (x.after s).calls = s.calls ++ cs

section Gives

variable {x : Procedure σ ε α} {f : α → Procedure σ ε β} {s : Session σ}
  {r : Except ε β} {m m' : σ} {cs cs' : List Call}

/-- A procedure ends well exactly where it runs to that value and the session it leaves. -/
theorem result_eq_ok {a : α} : x.result s = .ok a ↔ x s = .ok a (x.after s) := by
  unfold result after
  cases x s <;> simp

/-- A procedure fails exactly where it runs to that error and the session it leaves. -/
theorem result_eq_error {e : ε} : x.result s = .error e ↔ x s = .error e (x.after s) := by
  unfold result after
  cases x s <;> simp

/-- What a run that ends well comes to, read off the session it leaves. -/
theorem gives_of_eq_ok {a : α} {t : Session σ} (h : x s = .ok a t)
    (hd : t.disk = s.disk.serveAll cs) (hc : t.calls = s.calls ++ cs) :
    x.Gives s (.ok a) t.memory cs := by
  have hafter : x.after s = t := by simp [after, h]
  refine ⟨by simp [result, h], ?_, ?_, ?_⟩ <;> rw [hafter]
  · exact hd
  · exact hc

/-- What a failed run comes to, read off the session it leaves. -/
theorem gives_of_eq_error {e : ε} {t : Session σ} (h : x s = .error e t)
    (hd : t.disk = s.disk.serveAll cs) (hc : t.calls = s.calls ++ cs) :
    x.Gives s (.error e) t.memory cs := by
  have hafter : x.after s = t := by simp [after, h]
  refine ⟨by simp [result, h], ?_, ?_, ?_⟩ <;> rw [hafter]
  · exact hd
  · exact hc

/-- After a step that ends well, the rest runs from the session it leaves. -/
theorem bind_of_ok {a : α} {s' : Session σ} (h : x s = .ok a s') : (x >>= f) s = f a s' := by
  change EStateM.bind x f s = _
  simp [EStateM.bind, h]

/-- After a failed step, nothing more runs. -/
theorem bind_of_error {e : ε} {s' : Session σ} (h : x s = .error e s') :
    (x >>= f) s = .error e s' := by
  change EStateM.bind x f s = _
  simp [EStateM.bind, h]

theorem result_bind_of_ok {a : α} (h : x.result s = .ok a) :
    (x >>= f).result s = (f a).result (x.after s) := by
  simp [Procedure.result, bind_of_ok (f := f) (result_eq_ok.mp h)]

theorem after_bind_of_ok {a : α} (h : x.result s = .ok a) :
    (x >>= f).after s = (f a).after (x.after s) := by
  simp [Procedure.after, bind_of_ok (f := f) (result_eq_ok.mp h)]

theorem result_bind_of_error {e : ε} (h : x.result s = .error e) :
    (x >>= f).result s = .error e := by
  simp [Procedure.result, bind_of_error (f := f) (result_eq_error.mp h)]

theorem after_bind_of_error {e : ε} (h : x.result s = .error e) :
    (x >>= f).after s = x.after s := by
  simp [Procedure.after, bind_of_error (f := f) (result_eq_error.mp h)]

/-- An attempt ends well always; how the procedure ended is its answer. -/
theorem result_attempt (x : Procedure σ ε α) (s : Session σ) :
    (x.attempt : Procedure σ ε' (Except ε α)).result s = .ok (x.result s) := by
  unfold Procedure.result Procedure.attempt
  cases x s <;> rfl

/-- An attempt leaves what the procedure leaves. -/
theorem after_attempt (x : Procedure σ ε α) (s : Session σ) :
    (x.attempt : Procedure σ ε' (Except ε α)).after s = x.after s := by
  unfold Procedure.after Procedure.attempt
  cases x s <;> rfl

/-- A logged procedure leaves what it leaves alone, or this with one event more. -/
theorem after_logFailure (x : Procedure σ ε α) (event : ε → Event) (s : Session σ) :
    (x.logFailure event).after s = x.after s ∨
      ∃ e, (x.logFailure event).after s =
        (log (event e) : Procedure σ ε Unit).after (x.after s) := by
  unfold Procedure.after Procedure.logFailure
  cases x s with
  | ok a t => exact .inl rfl
  | error e t => exact .inr ⟨e, rfl⟩

/-- A procedure on a part of the memory leaves the rest of it as it was. -/
theorem after_on (x : Procedure τ ε α) (part : σ → τ) (put : τ → σ → σ) (failure : ε → ε')
    (s : Session σ) : (x.on part put failure).after s =
      { memory := put (x.after ⟨part s.memory, s.disk, s.journal⟩).memory s.memory
        disk := (x.after ⟨part s.memory, s.disk, s.journal⟩).disk
        journal := (x.after ⟨part s.memory, s.disk, s.journal⟩).journal } := by
  unfold Procedure.after Procedure.on
  cases x ⟨part s.memory, s.disk, s.journal⟩ <;> rfl

/-- A call is entered in the journal, whether it is served or not. -/
theorem exists_after_call (c : Call) (s : Session σ) : ∃ failed, (call c).after s =
    { s with disk := (s.disk.serve c).2, journal := s.journal ++ [.called c failed] } := by
  unfold Procedure.after call
  obtain ⟨_ | detail, disk⟩ := s.disk.serve c
  · exact ⟨false, rfl⟩
  · exact ⟨true, rfl⟩

/-- The memory left behind may be told in other words. -/
theorem Gives.leaves {x : Procedure σ ε α} {r : Except ε α} (h : x.Gives s r m cs) (hm : m = m') :
    x.Gives s r m' cs :=
  hm ▸ h

/-- One procedure after another, which starts from the session that the first one has left. -/
theorem Gives.andThen {a : α} (h : x.Gives s (.ok a) m cs)
    (hf : (f a).Gives (x.after s) r m' cs') : (x >>= f).Gives s r m' (cs ++ cs') := by
  have hafter := after_bind_of_ok (f := f) h.result
  refine ⟨?_, ?_, ?_, ?_⟩
  · rw [result_bind_of_ok h.result, hf.result]
  · rw [hafter, hf.memory]
  · rw [hafter, hf.disk, h.disk, Disk.serveAll_append]
  · rw [hafter, hf.calls, h.calls, List.append_assoc]

/-- Of the session in between only the memory and the store matter. -/
theorem Gives.bind {a : α} (h : x.Gives s (.ok a) m cs)
    (hf : ∀ s', s'.memory = m → s'.disk = s.disk.serveAll cs → (f a).Gives s' r m' cs') :
    (x >>= f).Gives s r m' (cs ++ cs') :=
  h.andThen (hf _ h.memory h.disk)

/-- One procedure after another that makes no call. -/
theorem Gives.bind_quiet {a : α} (h : x.Gives s (.ok a) m [])
    (hf : ∀ s', s'.memory = m → s'.disk = s.disk → (f a).Gives s' r m' cs) :
    (x >>= f).Gives s r m' cs :=
  h.bind hf

/-- One procedure after another, where the second one makes no call. -/
theorem Gives.then_quiet {a : α} (h : x.Gives s (.ok a) m cs)
    (hf : ∀ s', s'.memory = m → s'.disk = s.disk.serveAll cs → (f a).Gives s' r m' []) :
    (x >>= f).Gives s r m' cs :=
  List.append_nil cs ▸ h.bind hf

/-- What fails is not gone on with. -/
theorem Gives.bind_error {e : ε} (h : x.Gives s (.error e) m cs) :
    (x >>= f).Gives s (.error e) m cs := by
  have hafter := after_bind_of_error (f := f) h.result
  exact ⟨result_bind_of_error h.result, hafter ▸ h.memory, hafter ▸ h.disk, hafter ▸ h.calls⟩

/-- What a procedure comes to, whichever of its ways it takes, is one of the things `P` lists. -/
def ComesTo (x : Procedure σ ε α) (s : Session σ) (P : Except ε α → σ → List Call → Prop) : Prop :=
  ∃ r m cs, x.Gives s r m cs ∧ P r m cs

variable {P : Except ε β → σ → List Call → Prop}

theorem Gives.comesTo {x : Procedure σ ε β} (h : x.Gives s r m cs) (hP : P r m cs) :
    x.ComesTo s P :=
  ⟨r, m, cs, h, hP⟩

/-- A step is passed over, with the calls it makes. -/
theorem Gives.comesTo_bind_calls {a : α} (h : x.Gives s (.ok a) m cs)
    (hf : ∀ s', s'.memory = m → s'.disk = s.disk.serveAll cs →
      (f a).ComesTo s' fun r m cs' => P r m (cs ++ cs')) : (x >>= f).ComesTo s P := by
  obtain ⟨r, m', cs', hgives, hP⟩ := hf _ h.memory h.disk
  exact ⟨r, m', cs ++ cs', h.andThen hgives, hP⟩

/-- A step that makes no call is passed over. -/
theorem Gives.comesTo_bind {a : α} (h : x.Gives s (.ok a) m [])
    (hf : ∀ s', s'.memory = m → s'.disk = s.disk → (f a).ComesTo s' P) : (x >>= f).ComesTo s P :=
  h.comesTo_bind_calls hf

/-- What a procedure comes to may be said with less. -/
theorem ComesTo.imp {x : Procedure σ ε β} {Q : Except ε β → σ → List Call → Prop}
    (h : x.ComesTo s P) (hPQ : ∀ r m cs, P r m cs → Q r m cs) : x.ComesTo s Q := by
  obtain ⟨r, m, cs, hgives, hP⟩ := h
  exact ⟨r, m, cs, hgives, hPQ r m cs hP⟩

/-- The calls are those that the journal has grown by. -/
theorem ComesTo.of_calls {x : Procedure σ ε β} (h : x.ComesTo s P)
    (hcs : (x.after s).calls = s.calls ++ cs) : ∃ r m, x.Gives s r m cs ∧ P r m cs := by
  obtain ⟨r, m, cs', hgives, hP⟩ := h
  obtain rfl : cs = cs' := List.append_cancel_left (hcs.symm.trans hgives.calls)
  exact ⟨r, m, hgives, hP⟩

end Gives

/-! ### Steps that make no call -/

section Steps

variable (s : Session σ) {r : Except ε β} {m : σ} {cs : List Call}

theorem gives_pure (a : α) : (pure a : Procedure σ ε α).Gives s (.ok a) s.memory [] :=
  gives_of_eq_ok (t := s) rfl rfl (by simp)

theorem gives_throw (e : ε) : (throw e : Procedure σ ε α).Gives s (.error e) s.memory [] :=
  gives_of_eq_error (t := s) rfl rfl (by simp)

theorem gives_memory : (Procedure.memory : Procedure σ ε σ).Gives s (.ok s.memory) s.memory [] :=
  gives_of_eq_ok (t := s) rfl rfl (by simp)

theorem gives_remember (m : σ) : (remember m : Procedure σ ε Unit).Gives s (.ok ()) m [] :=
  gives_of_eq_ok (t := { s with memory := m }) rfl rfl (by simp [Session.calls])

theorem gives_enter {e : Entry} (h : e.call? = none) :
    (enter e : Procedure σ ε Unit).Gives s (.ok ()) s.memory [] :=
  gives_of_eq_ok (t := { s with journal := s.journal ++ [e] }) rfl rfl
    (by simp [Session.calls, h])

theorem gives_log (e : Event) : (log e : Procedure σ ε Unit).Gives s (.ok ()) s.memory [] :=
  gives_enter s rfl

theorem gives_measure (v : Measurement) :
    (Procedure.measure v : Procedure σ ε Unit).Gives s (.ok ()) s.memory [] :=
  gives_enter s rfl

theorem gives_ask (q : Question) (a : α) :
    (ask q a : Procedure σ ε α).Gives s (.ok a) s.memory [] :=
  (gives_enter s rfl).bind_quiet fun s' hm _ => hm ▸ gives_pure s' a

theorem gives_expect (a : Except ε α) : (expect a : Procedure σ ε α).Gives s a s.memory [] := by
  cases a with
  | ok a => exact gives_pure s a
  | error e => exact gives_throw s e

/-- Measurements leave the memory and make no call, however many there are. -/
theorem gives_forM_measure (vs : List Measurement) :
    (vs.forM Procedure.measure : Procedure σ ε Unit).Gives s (.ok ()) s.memory [] := by
  induction vs generalizing s with
  | nil => exact gives_pure s ()
  | cons v vs ih =>
    change (Procedure.measure v >>= fun _ => vs.forM Procedure.measure).Gives s _ _ _
    exact (gives_measure s v).bind_quiet fun s' hm _ => hm ▸ ih s'

end Steps

/-! ### Failures that are told of or kept -/

section Failures

variable {x : Procedure σ ε α} {s : Session σ} {m : σ} {cs : List Call}

/-- A logged failure is the same failure, and logging makes no call. -/
theorem Gives.logFailure {r : Except ε α} (h : x.Gives s r m cs) (event : ε → Event) :
    (x.logFailure event).Gives s r m cs := by
  cases r with
  | ok a =>
    have hx := result_eq_ok.mp h.result
    have heq : x.logFailure event s = .ok a (x.after s) := by simp [Procedure.logFailure, hx]
    exact h.memory ▸ gives_of_eq_ok heq h.disk h.calls
  | error e =>
    have hx := result_eq_error.mp h.result
    have heq : x.logFailure event s = .error e { x.after s with
        journal := (x.after s).journal ++ [.logged (event e)] } := by
      simp [Procedure.logFailure, hx]
    -- the entry that is added tells of no call
    have hcalls : ({ x.after s with journal := (x.after s).journal ++ [.logged (event e)] } :
        Session σ).calls = s.calls ++ cs := by
      rw [← h.calls]
      simp [Session.calls, Entry.call?]
    rw [← h.memory]
    exact gives_of_eq_error (t := { x.after s with
      journal := (x.after s).journal ++ [.logged (event e)] }) heq h.disk hcalls

/-- An attempted procedure does what it does alone, but does not fail. -/
theorem Gives.attempt {r : Except ε α} (h : x.Gives s r m cs) :
    (x.attempt : Procedure σ ε' (Except ε α)).Gives s (.ok r) m cs := by
  have hafter : (x.attempt : Procedure σ ε' (Except ε α)).after s = x.after s := after_attempt x s
  exact ⟨h.result ▸ result_attempt x s, hafter ▸ h.memory, hafter ▸ h.disk, hafter ▸ h.calls⟩

/-- A procedure on a part of the memory. -/
theorem Gives.on {x : Procedure τ ε α} {part : σ → τ} {put : τ → σ → σ} {failure : ε → ε'}
    {t : τ} {r : Except ε α}
    (h : ∀ j, x.Gives ⟨part s.memory, s.disk, j⟩ r t cs) :
    (x.on part put failure).Gives s (r.mapError failure) (put t s.memory) cs := by
  have hx := h s.journal
  have hcalls : (x.after ⟨part s.memory, s.disk, s.journal⟩).calls = s.calls ++ cs := hx.calls
  -- the journal is one, so the calls of the part are those of the whole
  cases r with
  | ok a =>
    have heq : x.on part put failure s = .ok a
        { memory := put (x.after ⟨part s.memory, s.disk, s.journal⟩).memory s.memory,
          disk := (x.after ⟨part s.memory, s.disk, s.journal⟩).disk,
          journal := (x.after ⟨part s.memory, s.disk, s.journal⟩).journal } := by
      simp [Procedure.on, result_eq_ok.mp hx.result]
    exact hx.memory ▸ gives_of_eq_ok heq hx.disk hcalls
  | error e =>
    have heq : x.on part put failure s = .error (failure e)
        { memory := put (x.after ⟨part s.memory, s.disk, s.journal⟩).memory s.memory,
          disk := (x.after ⟨part s.memory, s.disk, s.journal⟩).disk,
          journal := (x.after ⟨part s.memory, s.disk, s.journal⟩).journal } := by
      simp [Procedure.on, result_eq_error.mp hx.result]
    exact hx.memory ▸ gives_of_eq_error heq hx.disk hcalls

end Failures

/-! ### Calls to the store -/

section Calls

variable (s : Session σ)

/-- A served call ends well and is the only one made. -/
theorem gives_call_served {c : Call} (h : s.disk.refusal? c = none) :
    (call c).Gives s (.ok ()) s.memory [c] := by
  refine gives_of_eq_ok (t := { s with
    disk := (s.disk.serve c).2, journal := s.journal ++ [.called c false] }) ?_ rfl ?_
  · simp [call, Disk.serve_of_served h]
  · simp [Session.calls, Entry.call?]

/-- A refused call fails with the text the store gives; it has been made all the same. -/
theorem gives_call_refused {c : Call} {detail : String} (h : s.disk.refusal? c = some detail) :
    (call c).Gives s (.error (.database detail)) s.memory [c] := by
  refine gives_of_eq_error (t := { s with
    disk := (s.disk.serve c).2, journal := s.journal ++ [.called c true] }) ?_ rfl ?_
  · simp [call, Disk.serve_of_refusal h]
  · simp [Session.calls, Entry.call?]

/-- A served read gives what is under the key. -/
theorem gives_fetch_served {key : String} (h : s.disk.refusal? (.get key) = none) :
    (fetch key).Gives s (.ok (s.disk.peek key)) s.memory [.get key] := by
  have hcall := gives_call_served s h
  have heq : fetch key s = .ok (s.disk.peek key) ((call (.get key)).after s) := by
    simp [fetch, result_eq_ok.mp hcall.result]
  exact hcall.memory ▸ gives_of_eq_ok heq hcall.disk hcall.calls

/-- A refused read fails with the text the store gives. -/
theorem gives_fetch_refused {key detail : String} (h : s.disk.refusal? (.get key) = some detail) :
    (fetch key).Gives s (.error (.database detail)) s.memory [.get key] := by
  have hcall := gives_call_refused s h
  have heq : fetch key s = .error (.database detail) ((call (.get key)).after s) := by
    simp [fetch, result_eq_error.mp hcall.result]
  exact hcall.memory ▸ gives_of_eq_error heq hcall.disk hcall.calls

end Calls

end Procedure

namespace Disk

/-- A read changes no entry, served or refused. -/
@[simp] theorem entries_serve_get (d : Disk) (key : String) :
    (d.serve (.get key)).2.entries = d.entries := by
  unfold serve
  cases d.fault d.served (.get key) <;> rfl

end Disk

/-- What is stored under a key, read as a value. -/
def Disk.value? (α : Type) [Stored α] (d : Disk) (key : String) : Except StoreError (Option α) :=
  match d.peek key with
  | none => .ok none
  | some raw =>
    match (Stored.decode? raw : Option α) with
    | some a => .ok (some a)
    | none => .error .malformed

/-- Only the entries matter to what is read. -/
theorem Disk.value?_congr {α : Type} [Stored α] {d d' : Disk} (h : d.entries = d'.entries)
    (key : String) : d.value? α key = d'.value? α key := by
  simp [Disk.value?, Disk.peek, h]

namespace Procedure

variable {σ α : Type} [Stored α] (s : Session σ)

/-- A served read of a value gives what the bytes under the key stand for. -/
theorem gives_fetchValue_served {key : String} (h : s.disk.refusal? (.get key) = none) :
    (fetchValue α key).Gives s (s.disk.value? α key) s.memory [.get key] := by
  -- the only call is made; what is left is to read the bytes that were found
  refine Gives.then_quiet (gives_fetch_served s h) fun s' hm _ => ?_
  rw [← hm]
  unfold Disk.value?
  cases s.disk.peek key with
  | none => exact gives_pure s' _
  | some raw =>
    cases hdecode : (Stored.decode? raw : Option α) with
    | some a => simpa only [hdecode] using gives_pure s' _
    | none =>
      simp only [hdecode]
      exact (gives_log s' _).bind_quiet fun s'' hm' _ => hm' ▸ gives_throw s'' _

/-- A refused read of a value fails as the read of its bytes does. -/
theorem gives_fetchValue_refused {key detail : String}
    (h : s.disk.refusal? (.get key) = some detail) :
    (fetchValue α key).Gives s (.error (.database detail)) s.memory [.get key] :=
  (gives_fetch_refused s h).bind_error

end Procedure

/-! ### The durable slots -/

namespace Slots

open Procedure

variable (s : Session Slots)

/-- Once the peak is stored, the memory follows, with its timestamp. -/
theorem setPeak_served {b : HeaderBlock} (t : Option UInt64)
    (h : s.disk.refusal? (.set peakKey (Stored.encode b)) = none) :
    (setPeak b t).Gives s (.ok ()) { s.memory with
      peak := some b, latestTimestamp := (t.or b.timestamp).getD s.memory.latestTimestamp }
      [.set peakKey (Stored.encode b)] := by
  refine Gives.then_quiet ((gives_call_served s h).logFailure _) fun s₁ h₁ _ => ?_
  refine (gives_memory s₁).bind_quiet fun s₂ h₂ _ => ?_
  refine (gives_log s₂ _).bind_quiet fun s₃ _ _ => ?_
  exact h₁ ▸ gives_remember s₃ _

/-- If the store refuses the peak, the memory keeps the peak it had. -/
theorem setPeak_refused {b : HeaderBlock} (t : Option UInt64) {detail : String}
    (h : s.disk.refusal? (.set peakKey (Stored.encode b)) = some detail) :
    (setPeak b t).Gives s (.error (.database detail)) s.memory
      [.set peakKey (Stored.encode b)] :=
  ((gives_call_refused s h).logFailure _).bind_error

/-- Once the proof is stored, the memory follows. -/
theorem setProof_served {w : WeightProof}
    (h : s.disk.refusal? (.set proofKey (Stored.encode w)) = none) :
    (setProof w).Gives s (.ok ()) { s.memory with proof := some w }
      [.set proofKey (Stored.encode w)] := by
  refine Gives.then_quiet ((gives_call_served s h).logFailure _) fun s₁ h₁ _ => ?_
  refine (gives_memory s₁).bind_quiet fun s₂ _ _ => ?_
  exact h₁ ▸ gives_remember s₂ _

/-- If the store refuses the proof, the memory keeps the one it had. -/
theorem setProof_refused {w : WeightProof} {detail : String}
    (h : s.disk.refusal? (.set proofKey (Stored.encode w)) = some detail) :
    (setProof w).Gives s (.error (.database detail)) s.memory [.set proofKey (Stored.encode w)] :=
  ((gives_call_refused s h).logFailure _).bind_error

/-- Once the stored peak is removed, the memory forgets it. -/
theorem clearPeak_served (h : s.disk.refusal? (.remove peakKey) = none) :
    clearPeak.Gives s (.ok ()) { s.memory with peak := none, latestTimestamp := 0 }
      [.remove peakKey] := by
  refine Gives.then_quiet ((gives_call_served s h).logFailure _) fun s₁ h₁ _ => ?_
  refine (gives_memory s₁).bind_quiet fun s₂ _ _ => ?_
  exact h₁ ▸ gives_remember s₂ _

/-- If the store refuses to remove the peak, the memory keeps it. -/
theorem clearPeak_refused {detail : String}
    (h : s.disk.refusal? (.remove peakKey) = some detail) :
    clearPeak.Gives s (.error (.database detail)) s.memory [.remove peakKey] :=
  ((gives_call_refused s h).logFailure _).bind_error

/-- Once the stored proof is removed, the memory forgets it. -/
theorem clearProof_served (h : s.disk.refusal? (.remove proofKey) = none) :
    clearProof.Gives s (.ok ()) { s.memory with proof := none } [.remove proofKey] := by
  refine Gives.then_quiet ((gives_call_served s h).logFailure _) fun s₁ h₁ _ => ?_
  refine (gives_memory s₁).bind_quiet fun s₂ _ _ => ?_
  exact h₁ ▸ gives_remember s₂ _

/-- If the store refuses to remove the proof, the memory keeps it. -/
theorem clearProof_refused {detail : String}
    (h : s.disk.refusal? (.remove proofKey) = some detail) :
    clearProof.Gives s (.error (.database detail)) s.memory [.remove proofKey] :=
  ((gives_call_refused s h).logFailure _).bind_error

/-- Reading the stored peak leaves everything as it is. -/
theorem loadPeak_served (h : s.disk.refusal? (.get peakKey) = none) :
    loadPeak.Gives s (s.disk.value? HeaderBlock peakKey) s.memory [.get peakKey] :=
  (gives_fetchValue_served s h).logFailure _

/-- A refused read of the stored peak fails, and the memory keeps the one it had. -/
theorem loadPeak_refused {detail : String} (h : s.disk.refusal? (.get peakKey) = some detail) :
    loadPeak.Gives s (.error (.database detail)) s.memory [.get peakKey] :=
  (gives_fetchValue_refused s h).logFailure _

/-- The stored proof is taken into memory if there is none. -/
theorem getProof_served (hnone : s.memory.proof = none)
    (h : s.disk.refusal? (.get proofKey) = none) {proof : Option WeightProof}
    (hv : s.disk.value? WeightProof proofKey = .ok proof) :
    getProof.Gives s (.ok proof) { s.memory with proof } [.get proofKey] := by
  refine (gives_memory s).bind_quiet fun s₁ h₁ hd => ?_
  rw [← hd] at h hv
  simp only [hnone]
  have hfetch := (gives_fetchValue_served (α := WeightProof) s₁ h).logFailure .proofNotLoaded
  rw [hv] at hfetch
  refine hfetch.then_quiet fun s₂ _ _ => ?_
  exact (gives_remember s₂ _).bind_quiet fun s₃ h₃ _ => h₃ ▸ gives_pure s₃ _

/-- A stored proof that cannot be read is an error, and nothing is remembered. -/
theorem getProof_malformed (hnone : s.memory.proof = none)
    (h : s.disk.refusal? (.get proofKey) = none) {cause : StoreError}
    (hv : s.disk.value? WeightProof proofKey = .error cause) :
    getProof.Gives s (.error cause) s.memory [.get proofKey] := by
  refine (gives_memory s).bind_quiet fun s₁ h₁ hd => ?_
  rw [← hd] at h hv
  simp only [hnone]
  have hfetch := (gives_fetchValue_served (α := WeightProof) s₁ h).logFailure .proofNotLoaded
  rw [hv] at hfetch
  exact h₁ ▸ hfetch.bind_error

/-- A refused read of the stored proof is an error, and nothing is remembered. -/
theorem getProof_refused (hnone : s.memory.proof = none) {detail : String}
    (h : s.disk.refusal? (.get proofKey) = some detail) :
    getProof.Gives s (.error (.database detail)) s.memory [.get proofKey] := by
  refine (gives_memory s).bind_quiet fun s₁ h₁ hd => ?_
  rw [← hd] at h
  simp only [hnone]
  exact h₁ ▸ ((gives_fetchValue_refused s₁ h).logFailure _).bind_error

end Slots

end HeaderChain
