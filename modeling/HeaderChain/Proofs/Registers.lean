import Mathlib.Data.List.DropRight
import HeaderChain.Proofs.Agreement

/-!
# The slots as two registers

Each of the two durable slots is held twice, in memory and in the store, and what is read may come
from either place: from memory, where it was put or kept after an earlier look, or from the store,
if memory knows of nothing. A client need not care. It sees two registers that outlast every run,
and a timestamp that does not.

* `Slots.Change`, `Slots.Request` — what the client may ask for. Opening the slots anew on the same
  store is one of the changes, as memory starts again with nothing;
* `Slots.lastPeak`, `Slots.lastProof`, `Slots.stampAfter` — the two registers and the timestamp,
  told by the changes that were made and by nothing else;
* `Slots.History` — the sessions that come about on a store that was empty, with the changes that
  were made. Any call may fail on the way, and what has failed is no change;
* `Slots.Mirrored` — what every request preserves: the store holds the two registers, and memory
  holds what is in a register, or nothing;
* `Slots.History.registers` — so whatever is read is what is in the register.
-/

namespace HeaderChain

namespace Slots

open Procedure

/-! ### Requests -/

/-- **What may be changed**, as the client asks for it. -/
inductive Change
  | peakSet (b : HeaderBlock) (timestamp : Option UInt64)
  | peakCleared
  | proofSet (w : WeightProof)
  | proofCleared
  /-- The slots are opened anew on the same store. -/
  | reopened

namespace Change

/-- The operation that makes a change. -/
def operation : Change → Operation Unit
  | peakSet b timestamp => Slots.setPeak b timestamp
  | peakCleared => Slots.clearPeak
  | proofSet w => Slots.setProof w
  | proofCleared => Slots.clearProof
  | reopened => remember {}

/-- The call it takes. -/
def call? : Change → Option Call
  | peakSet b _ => some (.set peakKey (Stored.encode b))
  | peakCleared => some (.remove peakKey)
  | proofSet w => some (.set proofKey (Stored.encode w))
  | proofCleared => some (.remove proofKey)
  | reopened => none

/-- What becomes of memory. -/
def applied (m : Slots) : Change → Slots
  | peakSet b timestamp => { m with
      peak := some b, latestTimestamp := (timestamp.or b.timestamp).getD m.latestTimestamp }
  | peakCleared => { m with peak := none, latestTimestamp := 0 }
  | proofSet w => { m with proof := some w }
  | proofCleared => { m with proof := none }
  | reopened => {}

/-- The block that is put into the slot of the peak. -/
def peak? : Change → Option HeaderBlock
  | peakSet b _ => some b
  | _ => none

/-- The proof that is put into the slot of the proof. -/
def proof? : Change → Option WeightProof
  | proofSet w => some w
  | _ => none

/-- The timestamp that comes with a peak: the one that is given, or else that of the block. -/
def timestamp? : Change → Option UInt64
  | peakSet b timestamp => timestamp.or b.timestamp
  | _ => none

/-- Whether the slot of the peak is emptied. -/
def clearsPeak : Change → Bool
  | peakCleared => true
  | _ => false

/-- Whether the slot of the proof is emptied. -/
def clearsProof : Change → Bool
  | proofCleared => true
  | _ => false

/-- Whether the timestamp starts from zero again. -/
def forgets : Change → Bool
  | peakCleared | reopened => true
  | _ => false

end Change

/-- **What may be asked of the slots**: a change, or what is in one of them. -/
inductive Request
  | change (c : Change)
  | getPeak
  | loadPeak
  | getProof

namespace Request

/-- The session a request leaves, whether it fails or not. -/
def after (s : Session Slots) : Request → Session Slots
  | change c => c.operation.after s
  | getPeak => Slots.getPeak.after s
  | loadPeak => Slots.loadPeak.after s
  | getProof => Slots.getProof.after s

/-- The change that a request has made: none if it has failed or only reads. -/
def made (s : Session Slots) : Request → List Change
  | change c => if (c.operation.result s).isOk then [c] else []
  | getPeak | loadPeak | getProof => []

/-- Whether a request has to do with the slot of the peak alone. -/
def onPeak : Request → Bool
  | change (.peakSet ..) | change .peakCleared | getPeak | loadPeak => true
  | change (.proofSet _) | change .proofCleared | change .reopened | getProof => false

/-- Whether a request has to do with the slot of the proof alone. -/
def onProof : Request → Bool
  | change (.proofSet _) | change .proofCleared | getProof => true
  | change (.peakSet ..) | change .peakCleared | change .reopened | getPeak | loadPeak => false

end Request

/-! ### The registers -/

variable {changes : List Change} {c : Change} {s : Session Slots} {m m' : Slots} {d d' : Disk}
  {peak : Option HeaderBlock} {proof : Option WeightProof} {detail : String}

/-- **The peak register**: the last block that was put there since it was last emptied. -/
def lastPeak (changes : List Change) : Option HeaderBlock :=
  ((changes.rtakeWhile fun c => !c.clearsPeak).filterMap (·.peak?)).getLast?

/-- **The proof register**: the last proof that was put there since it was last emptied. -/
def lastProof (changes : List Change) : Option WeightProof :=
  ((changes.rtakeWhile fun c => !c.clearsProof).filterMap (·.proof?)).getLast?

/-- **The latest timestamp**: since the slots were last opened or the peak was last removed, each
peak that was put there has replaced it by its own timestamp, if it came with one. -/
def stampAfter (changes : List Change) : UInt64 :=
  (changes.rtakeWhile fun c => !c.forgets).foldl (fun stamp c => c.timestamp?.getD stamp) 0

theorem lastPeak_concat (changes : List Change) (c : Change) :
    lastPeak (changes ++ [c]) = if c.clearsPeak then none else c.peak?.or (lastPeak changes) := by
  unfold lastPeak
  rw [List.rtakeWhile_concat]
  cases c <;> simp [Change.clearsPeak, Change.peak?]

theorem lastProof_concat (changes : List Change) (c : Change) :
    lastProof (changes ++ [c]) =
      if c.clearsProof then none else c.proof?.or (lastProof changes) := by
  unfold lastProof
  rw [List.rtakeWhile_concat]
  cases c <;> simp [Change.clearsProof, Change.proof?]

theorem stampAfter_concat (changes : List Change) (c : Change) :
    stampAfter (changes ++ [c]) =
      if c.forgets then 0 else c.timestamp?.getD (stampAfter changes) := by
  unfold stampAfter
  rw [List.rtakeWhile_concat]
  cases c <;> simp [Change.forgets, Change.timestamp?]

/-! ### What a request comes to -/

/-- A change that the store serves. -/
theorem Change.gives_served (s : Session Slots) (c : Change)
    (h : ∀ call, c.call? = some call → s.disk.refusal? call = none) :
    c.operation.Gives s (.ok ()) (c.applied s.memory) c.call?.toList := by
  cases c with
  | peakSet b timestamp => exact setPeak_served s timestamp (h _ rfl)
  | peakCleared => exact clearPeak_served s (h _ rfl)
  | proofSet w => exact setProof_served s (h _ rfl)
  | proofCleared => exact clearProof_served s (h _ rfl)
  | reopened => exact gives_remember s {}

/-- A change that the store refuses leaves memory as it is. -/
theorem Change.gives_refused (s : Session Slots) {c : Change} {call : Call}
    (hcall : c.call? = some call) (h : s.disk.refusal? call = some detail) :
    c.operation.Gives s (.error (.database detail)) s.memory [call] := by
  cases c with
  | peakSet b timestamp =>
    cases hcall
    exact setPeak_refused s timestamp h
  | peakCleared =>
    cases hcall
    exact clearPeak_refused s h
  | proofSet w =>
    cases hcall
    exact setProof_refused s h
  | proofCleared =>
    cases hcall
    exact clearProof_refused s h
  | reopened => cases hcall

/-- What is in memory is not looked for in the store. -/
theorem getPeak_held (s : Session Slots) {b : HeaderBlock} (h : s.memory.peak = some b) :
    getPeak.Gives s (.ok (some b)) s.memory [] := by
  refine (gives_memory s).bind_quiet fun s₁ hm _ => ?_
  simp only [h]
  exact hm ▸ gives_pure s₁ _

/-- The stored peak is taken into memory if there is none. -/
theorem getPeak_served (s : Session Slots) (hnone : s.memory.peak = none)
    (h : s.disk.refusal? (.get peakKey) = none)
    (hv : s.disk.value? HeaderBlock peakKey = .ok peak) :
    getPeak.Gives s (.ok peak) { s.memory with peak } [.get peakKey] := by
  refine (gives_memory s).bind_quiet fun s₁ h₁ hd => ?_
  rw [← hd] at h hv
  simp only [hnone]
  have hload := loadPeak_served s₁ h
  rw [hv] at hload
  refine hload.then_quiet fun s₂ _ _ => ?_
  exact (gives_remember s₂ _).bind_quiet fun s₃ h₃ _ => h₃ ▸ gives_pure s₃ _

theorem getPeak_refused (s : Session Slots) (hnone : s.memory.peak = none)
    (h : s.disk.refusal? (.get peakKey) = some detail) :
    getPeak.Gives s (.error (.database detail)) s.memory [.get peakKey] := by
  refine (gives_memory s).bind_quiet fun s₁ h₁ hd => ?_
  rw [← hd] at h
  simp only [hnone]
  exact h₁ ▸ (loadPeak_refused s₁ h).bind_error

theorem getProof_held (s : Session Slots) {w : WeightProof} (h : s.memory.proof = some w) :
    getProof.Gives s (.ok (some w)) s.memory [] := by
  refine (gives_memory s).bind_quiet fun s₁ hm _ => ?_
  simp only [h]
  exact hm ▸ gives_pure s₁ _

/-! ### What every request preserves -/

/-- **Memory and store follow the registers.** The store holds what is in them, in its written form.
Memory holds what is in a register, or nothing, and it alone holds the timestamp. -/
structure Mirrored (changes : List Change) (m : Slots) (d : Disk) : Prop where
  storedPeak : d.peek peakKey = (lastPeak changes).map Stored.encode
  storedProof : d.peek proofKey = (lastProof changes).map Stored.encode
  peak : ∀ b, m.peak = some b → lastPeak changes = some b
  proof : ∀ w, m.proof = some w → lastProof changes = some w
  latestTimestamp : m.latestTimestamp = stampAfter changes

namespace Mirrored

theorem empty (hd : d.entries = ∅) : Mirrored [] {} d where
  storedPeak := by simp [Disk.peek, hd, lastPeak]
  storedProof := by simp [Disk.peek, hd, lastProof]
  peak _ h := nomatch h
  proof _ h := nomatch h
  latestTimestamp := rfl

/-- Of the store only the two entries matter. -/
theorem congr (h : Mirrored changes m d) (hd : ∀ key, d'.peek key = d.peek key) :
    Mirrored changes m d' :=
  ⟨(hd _).trans h.storedPeak, (hd _).trans h.storedProof, h.peak, h.proof, h.latestTimestamp⟩

/-- **What is stored reads back** as what is in the register. -/
theorem value?_peak (h : Mirrored changes m d) :
    d.value? HeaderBlock peakKey = .ok (lastPeak changes) := by
  have hstored := h.storedPeak
  cases hlast : lastPeak changes with
  | none =>
    rw [hlast] at hstored
    simp [Disk.value?, hstored]
  | some b =>
    rw [hlast] at hstored
    exact Disk.value?_of_peek hstored b.decode?_encode

theorem value?_proof (h : Mirrored changes m d) :
    d.value? WeightProof proofKey = .ok (lastProof changes) := by
  have hstored := h.storedProof
  cases hlast : lastProof changes with
  | none =>
    rw [hlast] at hstored
    simp [Disk.value?, hstored]
  | some w =>
    rw [hlast] at hstored
    exact Disk.value?_of_peek hstored w.decode?_encode

/-- **A change that is made** is made in the register, in the store and in memory. -/
theorem applied (h : Mirrored changes m d) (c : Change)
    (hd : ∀ call, c.call? = some call → d.refusal? call = none) :
    Mirrored (changes ++ [c]) (c.applied m) (d.serveAll c.call?.toList) := by
  -- what a call that is served does to the two entries
  have hentry : ∀ {call : Call} (key : String), c.call? = some call →
      (d.serveAll c.call?.toList).peek key = (d.apply call).peek key := by
    intro call key hcall
    rw [hcall]
    exact Disk.peek_congr (Disk.entries_serve_of_served (hd call hcall)) key
  constructor
  · -- what is stored as the peak: a change of the proof is about another key
    rw [lastPeak_concat]
    cases c with
    | peakSet b timestamp => simp [hentry _ rfl, Disk.apply, Disk.peek_write, Change.clearsPeak,
        Change.peak?]
    | peakCleared => simp [hentry _ rfl, Disk.apply, Disk.peek_erase, Change.clearsPeak]
    | proofSet w =>
      rw [hentry _ rfl, Disk.peek_apply_of_ne (show peakKey ≠ proofKey by decide)]
      exact h.storedPeak
    | proofCleared =>
      rw [hentry _ rfl, Disk.peek_apply_of_ne (show peakKey ≠ proofKey by decide)]
      exact h.storedPeak
    | reopened => exact h.storedPeak
  · -- what is stored as the proof, likewise
    rw [lastProof_concat]
    cases c with
    | peakSet b timestamp =>
      rw [hentry _ rfl, Disk.peek_apply_of_ne (show proofKey ≠ peakKey by decide)]
      exact h.storedProof
    | peakCleared =>
      rw [hentry _ rfl, Disk.peek_apply_of_ne (show proofKey ≠ peakKey by decide)]
      exact h.storedProof
    | proofSet w => simp [hentry _ rfl, Disk.apply, Disk.peek_write, Change.clearsProof,
        Change.proof?]
    | proofCleared => simp [hentry _ rfl, Disk.apply, Disk.peek_erase, Change.clearsProof]
    | reopened => exact h.storedProof
  · -- what is in memory, where a reopening forgets both
    intro b hb
    rw [lastPeak_concat]
    cases c with
    | peakSet => exact hb
    | proofSet | proofCleared => exact h.peak b hb
    | peakCleared | reopened => cases hb
  · intro w hw
    rw [lastProof_concat]
    cases c with
    | proofSet => exact hw
    | peakSet | peakCleared => exact h.proof w hw
    | proofCleared | reopened => cases hw
  · rw [stampAfter_concat]
    cases c with
    | peakSet b timestamp =>
      show (timestamp.or b.timestamp).getD m.latestTimestamp = _
      rw [h.latestTimestamp]
      rfl
    | proofSet | proofCleared => exact h.latestTimestamp
    | peakCleared | reopened => rfl

/-- The peak may be taken into memory. -/
theorem withPeak (h : Mirrored changes m d) :
    Mirrored changes { m with peak := lastPeak changes } d :=
  ⟨h.storedPeak, h.storedProof, fun _ hb => hb, h.proof, h.latestTimestamp⟩

/-- So may the proof. -/
theorem withProof (h : Mirrored changes m d) :
    Mirrored changes { m with proof := lastProof changes } d :=
  ⟨h.storedPeak, h.storedProof, h.peak, fun _ hw => hw, h.latestTimestamp⟩

end Mirrored

/-- **Every way through a request** whose slots follow the registers: the changes it has made, the
memory it leaves, and its calls. -/
inductive Way (changes : List Change) (m : Slots) (d : Disk) :
    Request → List Change → Slots → List Call → Prop
  | made {c : Change} (hd : ∀ call, c.call? = some call → d.refusal? call = none) :
    Way changes m d (.change c) [c] (c.applied m) c.call?.toList
  | refused {c : Change} {call : Call} {detail : String} (hcall : c.call? = some call)
    (hd : d.refusal? call = some detail) : Way changes m d (.change c) [] m [call]
  | tookPeak {cs : List Call} (hcs : ∀ call ∈ cs, call = .get peakKey) :
    Way changes m d .getPeak [] { m with peak := lastPeak changes } cs
  | tookProof {cs : List Call} (hcs : ∀ call ∈ cs, call = .get proofKey) :
    Way changes m d .getProof [] { m with proof := lastProof changes } cs
  /-- What is asked for is only looked at, or the store refuses the call. -/
  | looked {q : Request} {key : String} (hq : ∀ c, q ≠ .change c) :
    Way changes m d q [] m [.get key]

/-- **The peak that is asked for** is what is in the register, unless the store is asked and refuses
the call. -/
theorem Mirrored.getPeak_cases (h : Mirrored changes s.memory s.disk) :
    (∃ cs, getPeak.Gives s (.ok (lastPeak changes)) { s.memory with peak := lastPeak changes } cs ∧
      ∀ call ∈ cs, call = .get peakKey) ∨
    s.memory.peak = none ∧ ∃ detail, s.disk.refusal? (.get peakKey) = some detail ∧
      getPeak.Gives s (.error (.database detail)) s.memory [.get peakKey] := by
  -- a peak in memory is the last one set; else the store is asked
  cases hpeak : s.memory.peak with
  | some b =>
    have hlast := h.peak b hpeak
    have hmemory : s.memory = { s.memory with peak := lastPeak changes } := by rw [hlast, ← hpeak]
    refine .inl ⟨[], ?_, by simp⟩
    rw [hlast] at hmemory ⊢
    exact (getPeak_held s hpeak).leaves hmemory
  | none =>
    cases hd : s.disk.refusal? (.get peakKey) with
    | none => exact .inl ⟨_, getPeak_served s hpeak hd h.value?_peak, by simp⟩
    | some detail => exact .inr ⟨rfl, detail, rfl, getPeak_refused s hpeak hd⟩

/-- So it is with the proof. -/
theorem Mirrored.getProof_cases (h : Mirrored changes s.memory s.disk) :
    (∃ cs, getProof.Gives s (.ok (lastProof changes))
        { s.memory with proof := lastProof changes } cs ∧ ∀ call ∈ cs, call = .get proofKey) ∨
    s.memory.proof = none ∧ ∃ detail, s.disk.refusal? (.get proofKey) = some detail ∧
      getProof.Gives s (.error (.database detail)) s.memory [.get proofKey] := by
  -- a proof in memory is the last one set; else the store is asked
  cases hproof : s.memory.proof with
  | some w =>
    have hlast := h.proof w hproof
    have hmemory : s.memory = { s.memory with proof := lastProof changes } := by
      rw [hlast, ← hproof]
    refine .inl ⟨[], ?_, by simp⟩
    rw [hlast] at hmemory ⊢
    exact (getProof_held s hproof).leaves hmemory
  | none =>
    cases hd : s.disk.refusal? (.get proofKey) with
    | none => exact .inl ⟨_, getProof_served s hproof hd h.value?_proof, by simp⟩
    | some detail => exact .inr ⟨rfl, detail, rfl, getProof_refused s hproof hd⟩

/-- The stored peak, asked for without being taken into memory. -/
theorem Mirrored.loadPeak_cases (h : Mirrored changes s.memory s.disk) :
    loadPeak.Gives s (.ok (lastPeak changes)) s.memory [.get peakKey] ∨
    ∃ detail, s.disk.refusal? (.get peakKey) = some detail ∧
      loadPeak.Gives s (.error (.database detail)) s.memory [.get peakKey] := by
  cases hd : s.disk.refusal? (.get peakKey) with
  | none => exact .inl (h.value?_peak ▸ loadPeak_served s hd)
  | some detail => exact .inr ⟨detail, rfl, loadPeak_refused s hd⟩

/-- A change is made, or the store refuses its call. -/
theorem Change.cases (s : Session Slots) (c : Change) :
    (∀ call, c.call? = some call → s.disk.refusal? call = none) ∨
      ∃ call detail, c.call? = some call ∧ s.disk.refusal? call = some detail := by
  by_cases hd : ∀ call, c.call? = some call → s.disk.refusal? call = none
  · exact .inl hd
  · push Not at hd
    obtain ⟨call, hcall, hrefused⟩ := hd
    obtain ⟨detail, hdetail⟩ := Option.ne_none_iff_exists'.mp hrefused
    exact .inr ⟨call, detail, hcall, hdetail⟩

theorem Mirrored.way (h : Mirrored changes s.memory s.disk) (q : Request) :
    ∃ cs, (q.after s).disk = s.disk.serveAll cs ∧
      Way changes s.memory s.disk q (q.made s) (q.after s).memory cs := by
  cases q with
  | change c =>
    -- a change is served, or its one call is refused
    obtain hd | ⟨call, detail, hcall, hd⟩ := c.cases s
    · have hgives := c.gives_served s hd
      have hmade : (Request.change c).made s = [c] := by simp [Request.made, hgives.result,
        Except.isOk, Except.toBool]
      exact ⟨_, hgives.disk, hmade ▸ hgives.memory ▸ .made hd⟩
    · have hgives := Change.gives_refused s hcall hd
      have hmade : (Request.change c).made s = [] := by simp [Request.made, hgives.result,
        Except.isOk, Except.toBool]
      exact ⟨_, hgives.disk, hmade ▸ hgives.memory ▸ .refused hcall hd⟩
  | getPeak =>
    -- a read may take the value into memory, which is then the one that is stored
    obtain ⟨cs, hgives, hcs⟩ | ⟨-, detail, -, hgives⟩ := h.getPeak_cases
    · exact ⟨cs, hgives.disk, hgives.memory ▸ .tookPeak hcs⟩
    · exact ⟨_, hgives.disk, hgives.memory ▸ .looked (by simp)⟩
  | loadPeak =>
    obtain hgives | ⟨detail, -, hgives⟩ := h.loadPeak_cases
    · exact ⟨_, hgives.disk, hgives.memory ▸ .looked (by simp)⟩
    · exact ⟨_, hgives.disk, hgives.memory ▸ .looked (by simp)⟩
  | getProof =>
    obtain ⟨cs, hgives, hcs⟩ | ⟨-, detail, -, hgives⟩ := h.getProof_cases
    · exact ⟨cs, hgives.disk, hgives.memory ▸ .tookProof hcs⟩
    · exact ⟨_, hgives.disk, hgives.memory ▸ .looked (by simp)⟩

/-- **Every request keeps memory and store in step with the registers.** -/
theorem Mirrored.request (h : Mirrored changes s.memory s.disk) (q : Request) :
    Mirrored (changes ++ q.made s) (q.after s).memory (q.after s).disk := by
  obtain ⟨cs, hdisk, hway⟩ := h.way q
  -- reading changes no entry
  have hread : ∀ {m key}, (∀ call ∈ cs, call = .get key) → Mirrored changes m s.disk →
      Mirrored (changes ++ []) m (s.disk.serveAll cs) := by
    intro m key hcs hm
    rw [List.append_nil]
    refine hm.congr (Disk.peek_congr (Disk.entries_serveAll_of_reads fun call hcall => ?_))
    exact ⟨key, hcs call hcall⟩
  rw [hdisk]
  generalize q.made s = made at hway ⊢
  generalize (q.after s).memory = m at hway ⊢
  cases hway with
  | made hd => exact h.applied _ hd
  | refused hcall hd =>
    rw [List.append_nil]
    exact h.congr (Disk.peek_serve_of_refusal hd)
  | tookPeak hcs => exact hread hcs h.withPeak
  | tookProof hcs => exact hread hcs h.withProof
  | looked hq => exact hread (fun _ => List.mem_singleton.mp) h

/-! ### One slot and the other -/

/-- A call to the slot of the peak is none to that of the proof. -/
theorem proofKey_ne_peakKey : proofKey ≠ peakKey := by decide

/-- **What has to do with the peak** leaves the proof alone, in memory and in the store. -/
theorem Way.apart_of_onPeak {q : Request} {made : List Change} {cs : List Call}
    (h : Way changes m d q made m' cs) (hq : q.onPeak = true) :
    m'.proof = m.proof ∧ (d.serveAll cs).peek proofKey = d.peek proofKey := by
  cases h with
  | @made c hd =>
    cases c with
    | peakSet | peakCleared => exact ⟨rfl, Disk.peek_serve_of_ne proofKey_ne_peakKey⟩
    | proofSet | proofCleared | reopened => cases hq
  | @refused c call _ hcall hd => exact ⟨rfl, Disk.peek_serve_of_refusal hd proofKey⟩
  | tookPeak hcs =>
    refine ⟨rfl, Disk.peek_serveAll_of_ne fun call hcall => ?_⟩
    rw [hcs call hcall]
    exact proofKey_ne_peakKey
  | tookProof => cases hq
  | looked hq' => exact ⟨rfl, Disk.peek_congr (Disk.entries_serve_get d _) proofKey⟩

/-- **What has to do with the proof** leaves the peak and the timestamp alone. -/
theorem Way.apart_of_onProof {q : Request} {made : List Change} {cs : List Call}
    (h : Way changes m d q made m' cs) (hq : q.onProof = true) :
    m'.peak = m.peak ∧ m'.latestTimestamp = m.latestTimestamp ∧
      (d.serveAll cs).peek peakKey = d.peek peakKey := by
  cases h with
  | @made c hd =>
    cases c with
    | proofSet | proofCleared =>
      exact ⟨rfl, rfl, Disk.peek_serve_of_ne proofKey_ne_peakKey.symm⟩
    | peakSet | peakCleared | reopened => cases hq
  | @refused c call _ hcall hd => exact ⟨rfl, rfl, Disk.peek_serve_of_refusal hd peakKey⟩
  | tookPeak => cases hq
  | tookProof hcs =>
    refine ⟨rfl, rfl, Disk.peek_serveAll_of_ne fun call hcall => ?_⟩
    rw [hcs call hcall]
    exact proofKey_ne_peakKey.symm
  | looked hq' => exact ⟨rfl, rfl, Disk.peek_congr (Disk.entries_serve_get d _) peakKey⟩

/-! ### Runs -/

/-- **The sessions of the slots** on a store that was empty to begin with and may refuse any calls,
with the changes that were made, the earliest first. -/
inductive History : List Change → Session Slots → Prop
  | opened {d : Disk} (hd : d.entries = ∅) : History [] ⟨{}, d, []⟩
  | asked {changes : List Change} {s : Session Slots} (h : History changes s) (q : Request) :
    History (changes ++ q.made s) (q.after s)

/-- **In every run** memory and store follow the registers. -/
theorem History.mirrored (h : History changes s) : Mirrored changes s.memory s.disk := by
  induction h with
  | opened hd => exact .empty hd
  | asked _ q ih => exact ih.request q

/-- **The slots are two registers**, told by the changes that were made. -/
structure Registers (changes : List Change) (s : Session Slots) : Prop where
  /-- The peak that is asked for is the one in the register, wherever it is found. There is no other
  way for this to fail than that memory knows of no peak and the store refuses the call. -/
  getPeak : getPeak.result s = .ok (lastPeak changes) ∨
    s.memory.peak = none ∧ ∃ detail, s.disk.refusal? (.get peakKey) = some detail ∧
      getPeak.result s = .error (.database detail)
  /-- The same without a look at memory. -/
  loadPeak : loadPeak.result s = .ok (lastPeak changes) ∨
    ∃ detail, s.disk.refusal? (.get peakKey) = some detail ∧
      loadPeak.result s = .error (.database detail)
  getProof : getProof.result s = .ok (lastProof changes) ∨
    s.memory.proof = none ∧ ∃ detail, s.disk.refusal? (.get proofKey) = some detail ∧
      getProof.result s = .error (.database detail)
  /-- The timestamp follows the peaks that were put there. -/
  latestTimestamp : s.memory.latestTimestamp = stampAfter changes
  /-- What is asked of the peak leaves the proof alone, in memory and in the store. -/
  peakApart : ∀ q : Request, q.onPeak = true → (q.after s).memory.proof = s.memory.proof ∧
    (q.after s).disk.peek proofKey = s.disk.peek proofKey
  /-- What is asked of the proof leaves the peak and the timestamp alone. -/
  proofApart : ∀ q : Request, q.onProof = true → (q.after s).memory.peak = s.memory.peak ∧
    (q.after s).memory.latestTimestamp = s.memory.latestTimestamp ∧
    (q.after s).disk.peek peakKey = s.disk.peek peakKey
  /-- What fails or only reads leaves the timestamp alone. -/
  unmade : ∀ q : Request, q.made s = [] →
    (q.after s).memory.latestTimestamp = s.memory.latestTimestamp

theorem Mirrored.readable (h : Mirrored changes s.memory s.disk) : Registers changes s where
  getPeak := by
    obtain ⟨cs, hgives, -⟩ | ⟨hnone, detail, hd, hgives⟩ := h.getPeak_cases
    · exact .inl hgives.result
    · exact .inr ⟨hnone, detail, hd, hgives.result⟩
  loadPeak := by
    obtain hgives | ⟨detail, hd, hgives⟩ := h.loadPeak_cases
    · exact .inl hgives.result
    · exact .inr ⟨detail, hd, hgives.result⟩
  getProof := by
    obtain ⟨cs, hgives, -⟩ | ⟨hnone, detail, hd, hgives⟩ := h.getProof_cases
    · exact .inl hgives.result
    · exact .inr ⟨hnone, detail, hd, hgives.result⟩
  latestTimestamp := h.latestTimestamp
  -- a request that does not change a register makes no call that could
  peakApart q hq := by
    obtain ⟨cs, hdisk, hway⟩ := h.way q
    rw [hdisk]
    exact hway.apart_of_onPeak hq
  proofApart q hq := by
    obtain ⟨cs, hdisk, hway⟩ := h.way q
    rw [hdisk]
    exact hway.apart_of_onProof hq
  unmade q hq := by
    have hafter := (h.request q).latestTimestamp
    rw [hq, List.append_nil] at hafter
    rw [hafter, h.latestTimestamp]

/-- **Whatever is read is what is in the register**: after any requests, made on a store that was
empty and may refuse any calls, each slot reads as what was last put there since it was last
emptied, from memory or from the store, and each leaves the other alone. -/
theorem History.registers (h : History changes s) : Registers changes s :=
  h.mirrored.readable

end Slots

namespace Sample

/-- Both slots are filled, and one is emptied again. Then they are opened anew, and the store
refuses another peak. -/
def slotRequests : List Slots.Request :=
  [.change (.peakSet root none), .change (.proofSet proof), .change .proofCleared,
    .change .reopened, .change (.peakSet child (some 5))]

/-- The session after these requests, with the changes that were made. -/
def slotsAsked : List Slots.Change × Session Slots :=
  slotRequests.foldl (fun p q => (p.1 ++ q.made p.2, q.after p.2)) ([], ⟨{}, flaky, []⟩)

theorem history_slotsAsked : Slots.History slotsAsked.1 slotsAsked.2 := by
  have hfold : ∀ (qs : List Slots.Request) (p : List Slots.Change × Session Slots),
      Slots.History p.1 p.2 →
        Slots.History (qs.foldl (fun p q => (p.1 ++ q.made p.2, q.after p.2)) p).1
          (qs.foldl (fun p q => (p.1 ++ q.made p.2, q.after p.2)) p).2 := by
    intro qs
    induction qs with
    | nil => exact fun p hp => hp
    | cons q qs ih => exact fun p hp => ih _ (hp.asked q)
  exact hfold slotRequests _ (.opened rfl)

end Sample

set_option maxRecDepth 8000 in
/-- The peak that was put there first is read back from the store after the second one was refused,
the proof that was removed is not, and the timestamp has started from zero again. -/
theorem Slots.registers_asked : Slots.History Sample.slotsAsked.1 Sample.slotsAsked.2 ∧
    getPeak.result Sample.slotsAsked.2 = .ok (some Sample.root) ∧
    getProof.result Sample.slotsAsked.2 = .ok none ∧
    Sample.slotsAsked.2.memory.latestTimestamp = 0 := by
  -- the four changes that have been made say what each register is to hold
  have hregisters := Sample.history_slotsAsked.registers
  have hmade : Sample.slotsAsked.1 =
      [.peakSet Sample.root none, .proofSet Sample.proof, .proofCleared, .reopened] := by cbv
  have hserved : ∀ key, Sample.slotsAsked.2.disk.refusal? (.get key) = none := by
    intro key
    cbv
  refine ⟨Sample.history_slotsAsked, ?_, ?_, ?_⟩
  · obtain hpeak | ⟨-, detail, hrefused, -⟩ := hregisters.getPeak
    · rw [hpeak, hmade]
      rfl
    · cases (hserved peakKey).symm.trans hrefused
  · obtain hproof | ⟨-, detail, hrefused, -⟩ := hregisters.getProof
    · rw [hproof, hmade]
      rfl
    · cases (hserved proofKey).symm.trans hrefused
  · rw [hregisters.latestTimestamp, hmade]
    rfl

end HeaderChain
