import HeaderChain.Proofs.Failure
import HeaderChain.Proofs.Reachable

/-!
# Memory and store

The peak and the proof are held in memory and stored, and a change is made in two steps, each of
which may fail. All the same memory and store agree after every operation, and once a peak was
stored there is one at every point between two calls, until a reset removes it. Nothing is asked of
the collaborators, of what was stored before, or of the calls that fail.

* `Chain.Agrees` — the peak in memory is stored, and the proof in memory is the stored one;
  `Offered.agrees`, `ProofOffered.agrees`, `Resetting.agrees`, `Loading.agrees` — each operation
  keeps that, whether it fails or not;
* `Disk.Persists` — a block is stored as the peak, whole; `Disk.Keeps` — calls that leave one there,
  each for itself;
* `Chain.Spell` — a run from opening or from a reset on, with the calls made since;
  `Chain.Spell.memory_agrees` — what holds at its end and between its calls.
-/

namespace HeaderChain

/-! ### The stored peak, call by call -/

/-- **A call by which no stored peak is lost.** -/
def Call.Spares (c : Call) : Prop :=
  c.key = peakKey → (∃ key, c = .get key) ∨ ∃ b, c = Chain.storesPeak b

/-- A call about another key spares the peak. -/
theorem Call.spares_of_key_ne {c : Call} (h : c.key ≠ peakKey) : c.Spares :=
  fun hkey => absurd hkey h

theorem Call.spares_get (key : String) : (Call.get key).Spares := fun _ => .inl ⟨key, rfl⟩

theorem Chain.spares_storesPeak (b : HeaderBlock) : (Chain.storesPeak b).Spares :=
  fun _ => .inr ⟨b, rfl⟩

namespace Disk

variable {d d' : Disk} {c : Call} {cs cs' : List Call} {b : HeaderBlock}

/-- **A block is stored as the peak**, whole. -/
def Persists (d : Disk) : Prop := ∃ b : HeaderBlock, d.peek peakKey = some (Stored.encode b)

/-- Only what is under the key of the peak matters. -/
theorem Persists.congr (hd : d.Persists) (h : d'.peek peakKey = d.peek peakKey) : d'.Persists := by
  obtain ⟨b, hb⟩ := hd
  exact ⟨b, h.trans hb⟩

/-- A peak that is stored is there, whole. -/
theorem peek_serve_storesPeak (h : d.refusal? (Chain.storesPeak b) = none) :
    (d.serve (Chain.storesPeak b)).2.peek peakKey = some (Stored.encode b) := by
  rw [serve_of_served h]
  show (d.write peakKey (Stored.encode b)).peek peakKey = _
  rw [peek_write, if_pos rfl]

/-- **A single call leaves a stored peak there** if it spares it or is refused. -/
theorem Persists.serve (hd : d.Persists) (hc : c.Spares ∨ d.refusal? c ≠ none) :
    (d.serve c).2.Persists := by
  cases hrefused : d.refusal? c with
  | some detail => exact hd.congr (peek_serve_of_refusal hrefused peakKey)
  | none =>
    by_cases hkey : c.key = peakKey
    · obtain ⟨key, rfl⟩ | ⟨b, rfl⟩ := (hc.resolve_right (not_not_intro hrefused)) hkey
      · exact hd.congr (peek_congr (d.entries_serve_get key) peakKey)
      · exact ⟨b, peek_serve_storesPeak hrefused⟩
    · exact hd.congr (peek_serve_of_ne (Ne.symm hkey))

/-- **Calls that leave a stored peak there**, made in turn: each of them spares it or is refused. -/
def Keeps : Disk → List Call → Prop
  | _, [] => True
  | d, c :: cs => (c.Spares ∨ d.refusal? c ≠ none) ∧ (d.serve c).2.Keeps cs

/-- Calls made after others keep a peak if both lists do, the second where the first has led. -/
theorem keeps_append : d.Keeps (cs ++ cs') ↔ d.Keeps cs ∧ (d.serveAll cs).Keeps cs' := by
  induction cs generalizing d with
  | nil => simp [Keeps]
  | cons c cs ih => rw [List.cons_append, Keeps, ih, Keeps, serveAll_cons, and_assoc]

theorem keeps_of_spares (h : ∀ c ∈ cs, c.Spares) : d.Keeps cs := by
  induction cs generalizing d with
  | nil => exact trivial
  | cons c cs ih =>
    obtain ⟨hc, hcs⟩ := List.forall_mem_cons.mp h
    exact ⟨.inl hc, ih hcs⟩

/-- **A stored peak stays there** through calls that spare it or are refused. -/
theorem Keeps.persists (hcs : d.Keeps cs) (hd : d.Persists) : (d.serveAll cs).Persists := by
  induction cs generalizing d with
  | nil => exact hd
  | cons c cs ih => exact ih hcs.2 (hd.serve hcs.1)

/-- **Once a peak was stored there is one**, after any number of such calls. -/
theorem Keeps.persists_of_stored {pre mid : List Call}
    (hcs : d.Keeps (pre ++ Chain.storesPeak b :: mid))
    (h : (d.serveAll pre).refusal? (Chain.storesPeak b) = none) :
    (d.serveAll (pre ++ Chain.storesPeak b :: mid)).Persists := by
  rw [serveAll_append]
  exact (keeps_append.mp hcs).2.2.persists ⟨b, peek_serve_storesPeak h⟩

/-- What a key stands for is told by the bytes under it. -/
theorem value?_congr_peek {α : Type} [Stored α] {key : String} (h : d'.peek key = d.peek key) :
    d'.value? α key = d.value? α key := by
  rw [value?, h, value?]

end Disk

namespace Chain

open Procedure

variable {k : Consensus} {v : Verifier} {config : Config} {c m : Chain} {d d' : Disk} {call : Call}
  {cs : List Call} {b : HeaderBlock} {w : WeightProof} {rs : List BlockRecord}
  {records : Option (List BlockRecord)} {s : Session Chain}

/-! ### What is in memory, and what is stored -/

/-- **Memory and store agree**: what is stored as the peak reads back as the peak in memory, if
there is one, and what is stored as the proof reads back as a proof exactly if that is in memory. -/
structure Agrees (c : Chain) (d : Disk) : Prop where
  peak : ∀ b, c.peak? = some b → d.value? HeaderBlock peakKey = .ok (some b)
  proof : ∀ w, c.syncedProof? = some w ↔ d.value? WeightProof proofKey = .ok (some w)

/-- Only the two slots and what is stored under the two keys matter. -/
theorem Agrees.congr (h : c.Agrees d) (hp : m.peak? = c.peak?)
    (hw : m.syncedProof? = c.syncedProof?) (hd : ∀ key, d'.peek key = d.peek key) :
    m.Agrees d' := by
  refine ⟨fun b hb => ?_, fun w => ?_⟩
  · rw [Disk.value?_congr_peek (hd peakKey)]
    exact h.peak b (hp ▸ hb)
  · rw [Disk.value?_congr_peek (hd proofKey), hw]
    exact h.proof w

/-- A call that is refused changes nothing, if memory does not change either. -/
theorem Agrees.refused (h : c.Agrees d) {detail : String} (hd : d.refusal? call = some detail) :
    c.Agrees (d.serve call).2 :=
  h.congr rfl rfl (Disk.peek_serve_of_refusal hd)

/-- The peak is stored first, and then put into memory. -/
theorem Agrees.storesPeak (h : c.Agrees d) (hd : d.refusal? (storesPeak b) = none)
    (hp : m.peak? = some b) (hw : m.syncedProof? = c.syncedProof?) :
    m.Agrees (d.serve (Chain.storesPeak b)).2 := by
  refine ⟨fun b' hb' => ?_, fun w => ?_⟩
  · obtain rfl : b = b' := Option.some.inj (hp.symm.trans hb')
    exact Disk.value?_of_peek (Disk.peek_serve_storesPeak hd) b.decode?_encode
  · have hne : proofKey ≠ (Chain.storesPeak b).key := show proofKey ≠ peakKey by decide
    rw [Disk.value?_congr_peek (Disk.peek_serve_of_ne hne), hw]
    exact h.proof w

/-- The proof is stored or removed first, and then in memory. -/
theorem Agrees.holding (h : c.Agrees d) (proof : Option WeightProof)
    (hd : d.refusal? (proofCall proof) = none) :
    (c.holding proof).Agrees (d.serve (proofCall proof)).2 := by
  refine ⟨fun b hb => ?_, fun w => ?_⟩
  · have hne : peakKey ≠ (proofCall proof).key := by
      rw [key_proofCall]
      decide
    rw [Disk.value?_congr_peek (Disk.peek_serve_of_ne hne)]
    exact h.peak b hb
  · show proof = some w ↔ _
    -- the call puts the proof there, or takes it away
    have hpeek := peek_serve_proofCall hd
    cases proof with
    | none => simp [Disk.value?, hpeek]
    | some w' =>
      rw [Disk.value?_of_peek hpeek w'.decode?_encode]
      simp

/-! ### Each operation -/

/-- Offering a block keeps memory and store agreed, refused or not. -/
theorem Offered.agrees (hc : c.Agrees d) {a : Except ChainError Outcome}
    (h : Offered k b c d a m cs) : m.Agrees (d.serveAll cs) := by
  cases h with
  | known | disconnected | unadjusted | invalid | unbuilt | pathless => exact hc
  | unresolved | orphan => exact hc.congr rfl rfl fun _ => rfl
  | refused _ _ _ _ hd => exact hc.refused hd
  | newPeak _ _ _ _ hd => exact hc.storesPeak hd (by simp) (by simp)

/-- So does seeding, at whichever call it stops. -/
theorem Seeding.agrees (hc : c.Agrees d) {persist : Bool} {a : Except ChainError Unit}
    (h : Seeding w rs c d persist a m cs) : m.Agrees (d.serveAll cs) := by
  -- the first call, if it is made and served
  have hproof : (persist = true → d.refusal? (storesProof w) = none) →
      (c.withProof w persist).Agrees (d.serveAll (proofCalls w persist)) := by
    intro hd
    cases persist with
    | false => exact hc
    | true => exact hc.holding (some w) (hd rfl)
  cases h with
  | empty | tipMissing => exact hc
  | proofRefused _ _ _ hd => exact hc.refused hd
  | peakRefused _ _ hp hd =>
    rw [Disk.serveAll_append]
    exact (hproof hp).refused hd
  | seeded _ _ hp hd =>
    rw [Disk.serveAll_append]
    exact (hproof hp).storesPeak hd (by simp) (by simp)

/-- So does offering a proof. -/
theorem ProofOffered.agrees (hc : c.Agrees d) {a : Except ChainError Bool}
    (h : ProofOffered v w c d records a m cs) : m.Agrees (d.serveAll cs) := by
  cases h with
  | empty | tooLight | rejected => exact hc
  | seeding _ _ _ hs => exact hs.agrees hc

/-- So does a reset, even one that has removed the proof only. -/
theorem Resetting.agrees (hc : c.Agrees d) {a : Except ChainError Unit}
    (h : Resetting c d a m cs) : m.Agrees (d.serveAll cs) := by
  cases h with
  | proofRefused hd => exact hc.refused hd
  | peakRefused hd hp => exact (hc.holding none hd).refused hp
  -- what is stored as the proof is gone with the first call, and the second is about another key
  | done hd hp =>
    have hremoved : ∀ w, (none : Option WeightProof) = some w ↔ _ :=
      (hc.holding none hd).proof
    refine ⟨fun b hb => (by cases hb), fun w => ?_⟩
    have hne : proofKey ≠ (Call.remove peakKey).key := show proofKey ≠ peakKey by decide
    show none = some w ↔ Disk.value? WeightProof ((d.serve (.remove proofKey)).2.serve
      (.remove peakKey)).2 proofKey = _
    rw [Disk.value?_congr_peek (Disk.peek_serve_of_ne hne)]
    exact hremoved w

/-- So does the readoption of a stored peak. -/
theorem Readopting.agrees (hc : c.Agrees d) {stored : Option HeaderBlock}
    {a : Except ChainError Unit} (h : Readopting k c d stored a m cs) :
    m.Agrees (d.serveAll cs) := by
  cases h with
  | absent | current | unknown | unresolved | tooLight | pathless => exact hc
  | refused _ _ _ _ hd => exact hc.refused hd
  | readopted _ _ _ _ hd => exact hc.storesPeak hd (by simp) (by simp)

/-- **A chain that was opened agrees with its store**, whatever is in it. -/
theorem Loading.agrees (h : Loading k v (fresh config) d (.ok ()) m cs) :
    m.Agrees (d.serveAll cs) := by
  -- once both slots were read the proof is in memory, and no peak is yet
  have hread : ∀ {proof}, d.value? WeightProof proofKey = .ok proof →
      ((fresh config).holding proof).Agrees (d.serveAll readCalls) := by
    intro proof hw
    refine ⟨fun b hb => (by cases hb), fun w => ?_⟩
    rw [Disk.value?_congr (entries_readCalls d), hw]
    show proof = some w ↔ _
    simp
  cases h with
  | unseeded hw _ hr =>
    rw [Disk.serveAll_append]
    exact hr.agrees (hread hw)
  | seeded hw _ _ hs hr =>
    rw [Disk.serveAll_append, Disk.serveAll_append]
    rw [Disk.serveAll_append] at hr
    exact hr.agrees (hs.agrees (hread hw))

/-! ### The calls of each operation -/

theorem spares_storesProof (w : WeightProof) : (storesProof w).Spares :=
  Call.spares_of_key_ne (show proofKey ≠ peakKey by decide)

theorem spares_removesProof : (Call.remove proofKey).Spares :=
  Call.spares_of_key_ne (show proofKey ≠ peakKey by decide)

/-- Both calls of a proof spare the peak: the second puts another block there. -/
theorem spares_of_proof {call : Call} {tip : HeaderBlock}
    (hcall : call = storesProof w ∨ call = storesPeak tip) : call.Spares := by
  rcases hcall with rfl | rfl
  · exact spares_storesProof w
  · exact spares_storesPeak tip

/-- Offering a block never takes a stored peak away. -/
theorem Offered.spares {a : Except ChainError Outcome} (h : Offered k b c d a m cs) :
    ∀ call ∈ cs, call.Spares := by
  intro call hcall
  obtain ⟨rfl, -⟩ := h.calls call hcall
  exact spares_storesPeak b

/-- Nor does offering a proof. -/
theorem ProofOffered.spares {a : Except ChainError Bool}
    (h : ProofOffered v w c d records a m cs) : ∀ call ∈ cs, call.Spares := by
  intro call hcall
  obtain ⟨rs, tip, -, -, hcall⟩ := h.calls call hcall
  exact spares_of_proof hcall

/-- Nor does loading. -/
theorem Loading.spares {a : Except ChainError Unit} (h : Loading k v c d a m cs) :
    ∀ call ∈ cs, call.Spares := by
  intro call hcall
  obtain ⟨key, rfl⟩ | ⟨w, rs, tip, -, -, hcall⟩ | ⟨peak, -, rfl⟩ := h.calls call hcall
  · exact Call.spares_get key
  · exact spares_of_proof hcall
  · exact spares_storesPeak peak

/-- A reset that fails has not removed the peak. -/
theorem Resetting.keeps {a : Except ChainError Unit} (h : Resetting c d a m cs)
    (ha : a ≠ .ok ()) : d.Keeps cs := by
  cases h with
  | proofRefused => exact ⟨.inl spares_removesProof, trivial⟩
  | peakRefused _ hp =>
    have hrefused : (d.serve (.remove proofKey)).2.refusal? (.remove peakKey) = some _ := hp
    exact ⟨.inl spares_removesProof, .inr (by simp [hrefused]), trivial⟩
  | done => exact absurd rfl ha

/-! ### Runs -/

/-- **A spell**: a run that begins on a store when a chain is opened or a reset has succeeded, with
the calls made since, up to the next reset that succeeds. Whatever is asked in between may fail. The
flag tells whether there is a chain to go on with. -/
inductive Spell : (live : Bool) → Disk → List Call → Session Chain → Prop
  | opened (v : Verifier) (k : Consensus) (config : Config) (d : Disk) :
    Spell ((load v k).result ⟨fresh config, d, []⟩).isOk d (opened v k config d).calls
      (opened v k config d)
  | went {start : Disk} {cs cs' : List Call} {s : Session Chain} {q : Request}
    (hs : Spell true start cs s) (hq : q = .reset → reset.result s ≠ .ok ())
    (hcalls : (q.after s).calls = s.calls ++ cs') : Spell true start (cs ++ cs') (q.after s)
  | wasReset {start : Disk} {cs : List Call} {s : Session Chain} (hs : Spell true start cs s)
    (h : reset.result s = .ok ()) : Spell true (reset.after s).disk [] (reset.after s)

variable {live : Bool} {start : Disk}

/-- Whatever can be reached is reached by a spell. -/
theorem Reachable.exists_spell {setting : Setting} (h : Reachable setting s) :
    ∃ start cs, Spell true start cs s := by
  induction h with
  | @opened v k config d _ h =>
    refine ⟨d, (Chain.opened v k config d).calls, ?_⟩
    have hspell := Spell.opened v k config d
    rwa [h] at hspell
  | @asked s q _ _ ih =>
    obtain ⟨start, cs, hs⟩ := ih
    -- a reset that succeeds begins another spell; anything else goes on with the one there is
    by_cases hq : q = .reset → reset.result s ≠ .ok ()
    · obtain ⟨cs', -, hcalls, -⟩ := q.cases (P := fun _ _ => True) s (fun _ _ _ => trivial)
        (fun _ _ _ => trivial) fun _ _ _ => trivial
      exact ⟨start, cs ++ cs', hs.went hq hcalls⟩
    · obtain ⟨rfl, hreset⟩ := Classical.not_imp.mp hq
      exact ⟨_, [], hs.wasReset (not_not.mp hreset)⟩

/-- **A request that is no successful reset** keeps memory and store agreed, and leaves a stored
peak there at every point. -/
theorem agrees_request {q : Request} (hq : q = .reset → reset.result s ≠ .ok ())
    (hcalls : (q.after s).calls = s.calls ++ cs) (hs : s.memory.Agrees s.disk) :
    (q.after s).memory.Agrees (q.after s).disk ∧ (q.after s).disk = s.disk.serveAll cs ∧
      s.disk.Keeps cs := by
  obtain ⟨cs', hdisk, hcalls', hagrees, hkeeps⟩ := q.cases
    (P := fun m cs => m.Agrees (s.disk.serveAll cs) ∧ s.disk.Keeps cs) s
    (fun _ _ h => ⟨h.agrees hs, Disk.keeps_of_spares h.spares⟩)
    (fun _ _ h => ⟨h.agrees hs, Disk.keeps_of_spares h.spares⟩)
    (fun hreset ha h => ⟨h.agrees hs, h.keeps (ha ▸ hq hreset)⟩)
  obtain rfl : cs = cs' := List.append_cancel_left (hcalls.symm.trans hcalls')
  exact ⟨hdisk ▸ hagrees, hdisk, hkeeps⟩

/-- **In a spell** the calls account for the store, and each of them leaves a stored peak there. -/
theorem Spell.keeps (h : Spell live start cs s) :
    (live = true → s.memory.Agrees s.disk) ∧ s.disk = start.serveAll cs ∧ start.Keeps cs := by
  -- the induction is on the run; a reset that succeeds begins with the store as it leaves it
  induction h with
  | opened v k config d =>
    have hloading := loading_opened v k config d
    have hdisk : (Chain.opened v k config d).disk =
      d.serveAll (Chain.opened v k config d).calls := disk_opened
    -- which calls were made does not matter, and they are not to be computed
    generalize (Chain.opened v k config d).calls = cs at hloading hdisk ⊢
    refine ⟨fun hlive => ?_, hdisk, Disk.keeps_of_spares hloading.spares⟩
    cases hresult : (load v k).result ⟨fresh config, d, []⟩ with
    | error e => simp [hresult, Except.isOk, Except.toBool] at hlive
    | ok u =>
      rw [hresult] at hloading
      rw [hdisk]
      exact hloading.agrees
  | went hs hq hcalls ih =>
    obtain ⟨hagrees, hdisk, hkeeps⟩ := ih
    obtain ⟨hagrees', hdisk', hkeeps'⟩ := agrees_request hq hcalls (hagrees rfl)
    refine ⟨fun _ => hagrees', ?_, Disk.keeps_append.mpr ⟨hkeeps, hdisk ▸ hkeeps'⟩⟩
    rw [hdisk', hdisk, Disk.serveAll_append]
  | @wasReset start cs s hs _ ih =>
    obtain ⟨hagrees, -⟩ := ih
    obtain ⟨a, m, cs, hgives, hreset⟩ := reset_cases s
    refine ⟨fun _ => ?_, rfl, trivial⟩
    rw [hgives.memory, hgives.disk]
    exact hreset.agrees (hagrees rfl)

/-- **Memory and store agree** as long as there is a chain: what is stored as the peak reads back as
the peak in memory, and what is stored as the proof reads back as a proof exactly if that is in
memory. And at every point between two calls, from the first peak that was stored on, a whole block
is stored as the peak; so it is up to the next reset, the first call of which is counted here. -/
theorem Spell.memory_agrees (h : Spell live start cs s) :
    (live = true →
      (∀ b, s.memory.peak? = some b → s.disk.value? HeaderBlock peakKey = .ok (some b)) ∧
      ∀ w, s.memory.syncedProof? = some w ↔
        s.disk.value? WeightProof proofKey = .ok (some w)) ∧
    s.disk = start.serveAll cs ∧
    ∀ pre b mid post, cs ++ [.remove proofKey] = pre ++ storesPeak b :: mid ++ post →
      (start.serveAll pre).refusal? (storesPeak b) = none →
      ∃ b', (start.serveAll (pre ++ storesPeak b :: mid)).peek peakKey =
        some (Stored.encode (b' : HeaderBlock)) := by
  obtain ⟨hagrees, hdisk, hkeeps⟩ := h.keeps
  refine ⟨fun hlive => ⟨(hagrees hlive).peak, (hagrees hlive).proof⟩, hdisk, ?_⟩
  intro pre b mid post hcut hserved
  have hnext : start.Keeps (cs ++ [.remove proofKey]) :=
    Disk.keeps_append.mpr ⟨hkeeps, .inl spares_removesProof, trivial⟩
  rw [hcut] at hnext
  exact (Disk.keeps_append.mp hnext).1.persists_of_stored hserved

end Chain

namespace Sample

/-- A store that refuses its fourth call. -/
def flaky : Disk where
  fault n _ := if n = 3 then some "disk full" else none

/-- A chain that was offered a block, which is stored, and its child, which is not. -/
def unsettled : Session Chain :=
  (Chain.offer (.only forked) child).after ((Chain.offer (.only forked) root).after
    (Chain.opened (.only forked) (.only forked) {} flaky))

set_option maxRecDepth 8000 in
theorem spell_unsettled : Chain.Spell true flaky
    (Chain.readCalls ++ [Chain.storesPeak root] ++ [Chain.storesPeak child]) unsettled := by
  have hoffered : ∀ {cs cs' : List Call} {s : Session Chain} {k : Consensus} {b : HeaderBlock},
      Chain.Spell true flaky cs s → ((Chain.offer k b).after s).calls = s.calls ++ cs' →
        Chain.Spell true flaky (cs ++ cs') ((Chain.offer k b).after s) :=
    fun {_ _ _ k b} hs hcalls => hs.went (q := .offer k b) (by simp) hcalls
  have hopened := Chain.Spell.opened (.only forked) (.only forked) {} flaky
  -- which calls were made, and whether the open ended well, is computed
  have hlive : ((Chain.load (.only forked) (.only forked)).result
      ⟨Chain.fresh {}, flaky, []⟩).isOk = true := by cbv
  have hcalls : (Chain.opened (.only forked) (.only forked) {} flaky).calls =
      Chain.readCalls := by cbv
  rw [hlive, hcalls] at hopened
  have hroot : ((Chain.offer (.only forked) root).after
      (Chain.opened (.only forked) (.only forked) {} flaky)).calls =
        (Chain.opened (.only forked) (.only forked) {} flaky).calls ++
          [Chain.storesPeak root] := by cbv
  have hchild : unsettled.calls = ((Chain.offer (.only forked) root).after
      (Chain.opened (.only forked) (.only forked) {} flaky)).calls ++
        [Chain.storesPeak child] := by cbv
  exact hoffered (hoffered hopened hroot) hchild

end Sample

set_option maxRecDepth 4000 in
/-- What was stored first is still there when the second peak is refused, and is what is in
memory. -/
theorem Chain.agrees_unsettled :
    Sample.unsettled.memory.peak? = some Sample.root ∧
      Sample.unsettled.disk.value? HeaderBlock peakKey = .ok (some Sample.root) ∧
      ∃ b : HeaderBlock, Sample.unsettled.disk.peek peakKey = some (Stored.encode b) := by
  have hpeak : Sample.unsettled.memory.peak? = some Sample.root := by cbv
  obtain ⟨hagrees, hdisk, hstored⟩ := Sample.spell_unsettled.memory_agrees
  have hserved : (Sample.flaky.serveAll Chain.readCalls).refusal?
      (Chain.storesPeak Sample.root) = none := rfl
  obtain ⟨b, hb⟩ := hstored Chain.readCalls Sample.root [Chain.storesPeak Sample.child]
    [.remove proofKey] rfl hserved
  refine ⟨hpeak, (hagrees rfl).1 _ hpeak, b, ?_⟩
  rw [hdisk]
  exact hb

end HeaderChain
