import HeaderChain.Proofs.FiniteTree
import HeaderChain.Proofs.Reseeding
import HeaderChain.Proofs.Stored

/-!
# Opening what an earlier run has left

* `Chain.Ran` — the sessions of a run on a store: a chain is opened, and if that succeeds, blocks
  and weight proofs are offered to it and it is reset, in any order. Any call to the store may fail;
* `Chain.LeftBehind` — the stores that runs leave, each cut after any number of its calls, and each
  but the first begun on what the one before has left;
* `Disk.Legible` — what all of them have in common (`Chain.LeftBehind.legible`): each of the two
  keys has nothing under it or a value that reads back, and a proof there attests to records. Every
  single call keeps that (`Call.Proper`), so it does not matter after which of them a run was cut;
* `Chain.LeftBehind.reopens` — a chain opens on each of them. Any peak may be stored beside any
  proof; it is not adopted, as no block that the proof makes known outweighs its tip.
-/

namespace HeaderChain

/-! ### What is stored -/

/-- **A call that keeps a store legible**: what it writes is a block under the key of the peak, or
under that of the proof one that attests to records. -/
inductive Call.Proper (tree : BlockTree) : Call → Prop
  | get {key : String} : Proper tree (.get key)
  | setPeak {b : HeaderBlock} : Proper tree (.set peakKey (Stored.encode b))
  | setProof {w : WeightProof} {rs : List BlockRecord} {tip : HeaderBlock}
    (hw : tree.attests w rs) (ht : w.tip? = some tip) :
    Proper tree (.set proofKey (Stored.encode w))
  | remove {key : String} : Proper tree (.remove key)

namespace Disk

variable {tree : BlockTree} {d : Disk} {c : Call} {cs : List Call}

/-- **A store that can be opened**: a stored peak is some block, and a stored proof attests to
records. -/
structure Legible (tree : BlockTree) (d : Disk) : Prop where
  peak : ∀ raw, d.peek peakKey = some raw → ∃ b : HeaderBlock, raw = Stored.encode b
  proof : ∀ raw, d.peek proofKey = some raw → ∃ (w : WeightProof) (rs : List BlockRecord)
    (tip : HeaderBlock), raw = Stored.encode w ∧ tree.attests w rs ∧ w.tip? = some tip

/-- An empty store is legible. -/
theorem legible_of_empty (hd : d.entries = ∅) : d.Legible tree := by
  constructor <;> simp [peek, hd]

/-- Only the entries matter. -/
theorem Legible.congr {d' : Disk} (hd : d.Legible tree) (h : d'.entries = d.entries) :
    d'.Legible tree := by
  have hpeek : d'.peek = d.peek := by
    funext key
    rw [peek, h, peek]
  exact ⟨hpeek ▸ hd.peak, hpeek ▸ hd.proof⟩

/-- What is written is under its key, and under no other. -/
theorem peek_write (d : Disk) (key other : String) (value : Bytes) :
    (d.write key value).peek other = if key = other then some value else d.peek other := by
  simp [peek, write, Std.ExtTreeMap.getElem?_insert]

/-- What is erased is gone from under its key, and from no other. -/
theorem peek_erase (d : Disk) (key other : String) :
    (d.erase key).peek other = if key = other then none else d.peek other := by
  simp [peek, erase, Std.ExtTreeMap.getElem?_erase]

/-- **One write at a time keeps a store legible**, so that it does not matter after which of them a
run is cut off. -/
theorem Legible.apply (hd : d.Legible tree) (hc : c.Proper tree) : (d.apply c).Legible tree := by
  -- a write under one of the keys leaves what is under the other
  cases hc with
  | get => exact hd
  | @setPeak b =>
    refine ⟨fun raw hraw => ?_, fun raw hraw => ?_⟩ <;> rw [Disk.apply, peek_write] at hraw
    · exact ⟨b, (Option.some.inj hraw).symm⟩
    · exact hd.proof raw hraw
  | @setProof w rs tip hw ht =>
    refine ⟨fun raw hraw => ?_, fun raw hraw => ?_⟩ <;> rw [Disk.apply, peek_write] at hraw
    · exact hd.peak raw hraw
    · exact ⟨w, rs, tip, (Option.some.inj hraw).symm, hw, ht⟩
  | remove =>
    refine ⟨fun raw hraw => ?_, fun raw hraw => ?_⟩ <;> rw [Disk.apply, peek_erase] at hraw <;>
      split at hraw
    · cases hraw
    · exact hd.peak raw hraw
    · cases hraw
    · exact hd.proof raw hraw

/-- **A single call keeps a store legible**, whether it is served or refused. -/
theorem Legible.serve (hd : d.Legible tree) (hc : c.Proper tree) :
    (d.serve c).2.Legible tree := by
  cases h : d.refusal? c with
  | some detail =>
    rw [serve_of_refusal h]
    exact hd.congr rfl
  | none =>
    rw [serve_of_served h]
    exact (hd.apply hc).congr rfl

/-- So do calls in turn, however many of them are made. -/
theorem Legible.serveAll (hd : d.Legible tree) (hcs : ∀ c ∈ cs, c.Proper tree) :
    (d.serveAll cs).Legible tree := by
  induction cs generalizing d with
  | nil => exact hd
  | cons c cs ih =>
    obtain ⟨hc, hcs⟩ := List.forall_mem_cons.mp hcs
    exact ih (hd.serve hc) hcs

/-- Bytes that decode stand for their value. -/
theorem value?_of_peek {α : Type} [Stored α] {key : String} {a : α}
    (h : d.peek key = some (Stored.encode a))
    (hdecode : Stored.decode? (Stored.encode a) = some a) : d.value? α key = .ok (some a) := by
  simp [value?, h, hdecode]

/-- What is stored as the peak reads back. -/
theorem Legible.value?_peak (hd : d.Legible tree) :
    ∃ peak, d.value? HeaderBlock peakKey = .ok peak := by
  cases h : d.peek peakKey with
  | none => exact ⟨none, by simp [value?, h]⟩
  | some raw =>
    obtain ⟨b, rfl⟩ := hd.peak raw h
    exact ⟨some b, value?_of_peek h b.decode?_encode⟩

/-! ### Calls that are served -/

/-- The store refuses none of these calls, made in turn. -/
def Accepts (d : Disk) (cs : List Call) : Prop :=
  ∀ before c after, cs = before ++ c :: after → (d.serveAll before).refusal? c = none

/-- If a list of calls is accepted, its first part is. -/
theorem Accepts.left {cs' : List Call} (h : d.Accepts (cs ++ cs')) : d.Accepts cs := by
  rintro before c after rfl
  exact h before c (after ++ cs') (by simp)

/-- And so is the rest, where the first part has led. -/
theorem Accepts.right {cs' : List Call} (h : d.Accepts (cs ++ cs')) :
    (d.serveAll cs).Accepts cs' := by
  rintro before c after rfl
  rw [← serveAll_append]
  exact h (cs ++ before) c after (by simp)

theorem Serves.accepts (h : d.Serves) (cs : List Call) : d.Accepts cs :=
  fun before c _ _ => (h.serveAll before).refusal? c

end Disk

namespace Chain

open Procedure

section Calls

variable {tree : BlockTree} {consensus : Consensus} {verifier : Verifier} {c m : Chain} {d : Disk}
  {w : WeightProof} {rs : List BlockRecord} {cs : List Call}

/-! ### The calls of each operation -/

/-- Offering a block makes proper calls only. -/
theorem Offered.proper {b : HeaderBlock} {a : Except ChainError Outcome}
    (h : Offered consensus b c d a m cs) : ∀ call ∈ cs, call.Proper tree := by
  intro call hcall
  obtain ⟨rfl, -⟩ := h.calls call hcall
  exact .setPeak

/-- A proof that attests to records is stored, or its tip is. -/
theorem proper_of_attests {call : Call} {tip : HeaderBlock} (hw : tree.attests w rs)
    (ht : w.tip? = some tip) (hcall : call = storesProof w ∨ call = storesPeak tip) :
    call.Proper tree := by
  rcases hcall with rfl | rfl
  · exact .setProof hw ht
  · exact .setPeak

/-- So does offering a proof. -/
theorem ProofOffered.proper (hv : verifier.Obeys tree) {records : Option (List BlockRecord)}
    (hw : ∀ rs, records = some rs → tree.attests w rs) {a : Except ChainError Bool}
    (h : ProofOffered verifier w c d records a m cs) : ∀ call ∈ cs, call.Proper tree := by
  intro call hcall
  obtain ⟨rs, tip, hr, ht, hcall⟩ := h.calls call hcall
  exact proper_of_attests (hr.elim (hw rs) fun hr => hv hr.2) ht hcall

/-- So does loading. -/
theorem Loading.proper (hv : verifier.Obeys tree) {a : Except ChainError Unit}
    (h : Loading consensus verifier c d a m cs) : ∀ call ∈ cs, call.Proper tree := by
  intro call hcall
  obtain ⟨key, rfl⟩ | ⟨w, rs, tip, hw, ht, hcall⟩ | ⟨peak, -, rfl⟩ := h.calls call hcall
  · exact .get
  · exact proper_of_attests (hv hw) ht hcall
  · exact .setPeak

/-- So does a reset. -/
theorem Resetting.proper {a : Except ChainError Unit} (h : Resetting c d a m cs) :
    ∀ call ∈ cs, call.Proper tree := by
  intro call hcall
  obtain ⟨key, rfl⟩ := h.calls call hcall
  exact .remove

end Calls

/-! ### Runs, and what they leave -/

/-- **The sessions of a run on a store**: a chain is opened, and if that has succeeded, blocks and
weight proofs are offered to it and it is reset. Nothing is asked of the blocks. The flag tells
whether there is a chain to go on with. -/
inductive Ran (tree : BlockTree) (disk : Disk) : Bool → Session Chain → Prop
  | opened {verifier : Verifier} (hv : verifier.Obeys tree) (consensus : Consensus)
    (config : Config) :
    Ran tree disk ((load verifier consensus).result ⟨fresh config, disk, []⟩).isOk
      (opened verifier consensus config disk)
  | offered {s : Session Chain} (hs : Ran tree disk true s) (consensus : Consensus)
    (b : HeaderBlock) : Ran tree disk true ((offer consensus b).after s)
  | proofOffered {s : Session Chain} (hs : Ran tree disk true s) {verifier : Verifier}
    (hv : verifier.Obeys tree) {w : WeightProof} {records : Option (List BlockRecord)}
    (hw : ∀ rs, records = some rs → tree.attests w rs) :
    Ran tree disk true ((offerProof verifier w records).after s)
  | wasReset {s : Session Chain} (hs : Ran tree disk true s) : Ran tree disk true (reset.after s)

/-- **The stores that runs leave behind**: a run begins on an empty store or on what was left, and
is cut after any number of calls. Which calls the store refuses later on is not determined by what
is in it. -/
inductive LeftBehind (tree : BlockTree) : Disk → Prop
  | empty {d : Disk} (hd : d.entries = ∅) : LeftBehind tree d
  | cut {d d' : Disk} {live : Bool} {s : Session Chain} (hd : LeftBehind tree d)
    (hs : Ran tree d live s) (n : Nat) (h : d'.entries = (d.serveAll (s.calls.take n)).entries) :
    LeftBehind tree d'

variable {tree : BlockTree} {disk : Disk} {live : Bool} {s : Session Chain}

/-- **The calls of a run account for the store**, and every one of them keeps it legible. -/
theorem Ran.calls (h : Ran tree disk live s) :
    s.disk = disk.serveAll s.calls ∧ ∀ call ∈ s.calls, call.Proper tree := by
  -- an operation appends its calls to those that were made before
  have hstep : ∀ {α : Type} {x : Operation α} {s : Session Chain} {a : Except ChainError α}
      {m : Chain} {cs : List Call}, x.Gives s a m cs → (∀ call ∈ cs, call.Proper tree) →
        (s.disk = disk.serveAll s.calls ∧ ∀ call ∈ s.calls, call.Proper tree) →
          (x.after s).disk = disk.serveAll (x.after s).calls ∧
            ∀ call ∈ (x.after s).calls, call.Proper tree := by
    intro α x s a m cs hgives hcs ⟨hdisk, hproper⟩
    refine ⟨?_, ?_⟩
    · rw [hgives.disk, hgives.calls, hdisk, Disk.serveAll_append]
    · rw [hgives.calls]
      exact List.forall_mem_append.mpr ⟨hproper, hcs⟩
  induction h with
  | opened hv consensus config =>
    exact ⟨disk_opened, (loading_opened _ consensus config disk).proper hv⟩
  | offered hs consensus b ih =>
    obtain ⟨a, m, cs, hgives, hoffered⟩ := offer_cases consensus b _
    exact hstep hgives hoffered.proper ih
  | @proofOffered s hs verifier hv w records hw ih =>
    obtain ⟨a, m, cs, hgives, hoffered⟩ := offerProof_cases (v := verifier) (w := w) s records
    exact hstep hgives (hoffered.proper hv hw) ih
  | wasReset hs ih =>
    obtain ⟨a, m, cs, hgives, hreset⟩ := reset_cases _
    exact hstep hgives hreset.proper ih

/-- What a run leaves if it is not cut. -/
theorem Ran.leftBehind (hd : LeftBehind tree disk) (hs : Ran tree disk live s) :
    LeftBehind tree s.disk := by
  refine .cut hd hs s.calls.length ?_
  rw [List.take_length, ← hs.calls.1]

/-- **Whatever was left is legible**, wherever the runs before were cut. -/
theorem LeftBehind.legible (h : LeftBehind tree disk) : disk.Legible tree := by
  induction h with
  | empty hd => exact Disk.legible_of_empty hd
  | cut _ hs n heq ih =>
    refine Disk.Legible.congr (ih.serveAll fun call hcall => ?_) heq
    exact hs.calls.2 call (List.mem_of_mem_take hcall)

/-! ### Opening again -/

/-- A chain that knows of nothing. -/
structure Blank (c : Chain) : Prop where
  peak : c.peak? = none
  records : ∀ x, c.index.record? x = none
  heights : ∀ h, c.index.hashAt? h = none

/-- **A chain that stands on the records of a proof**: its peak is the tip, its canonical map is
that of the records, and the record of the tip is indexed. -/
structure StandsOn (c : Chain) (rs : List BlockRecord) (tip : HeaderBlock) : Prop where
  peak : c.peak? = some tip
  heights : ∀ h x, c.index.hashAt? h = some x ↔ ∃ r ∈ rs, r.height = h ∧ r.hash = x
  indexed : ∃ r ∈ rs, c.index.record? tip.hash = some r ∧ r.Copies tip

variable {verifier : Verifier} {consensus : Consensus} {config : Config} {m : Chain}
  {cs : List Call}

theorem blank_fresh (config : Config) : (fresh config).Blank :=
  ⟨rfl, Index.record?_empty, Index.hashAt?_empty⟩

/-- A chain that is empty and seeded stands on the records of the proof. -/
theorem standsOn_reseeded {c : Chain} (hempty : c.index = .empty) {w : WeightProof}
    {rs : List BlockRecord} {tip : HeaderBlock} (hw : tree.attests w rs) (ht : w.tip? = some tip) :
    (c.reseeded rs tip).StandsOn rs tip :=
  have hruns := tree.runs_of_attests hw
  ⟨peak?_reseeded, fun _ _ => hashAt?_reseeded hruns ht, exists_record?_reseeded hempty hruns ht⟩

/-- Seeding from a proof that attests to the records succeeds if the store takes its tip. -/
theorem Seeding.eq_of_attests {c : Chain} {w : WeightProof} {rs : List BlockRecord}
    {tip : HeaderBlock} (hw : tree.attests w rs) (ht : w.tip? = some tip)
    {a : Except ChainError Unit} (h : Seeding w rs c disk false a m cs)
    (haccepts : disk.Accepts cs) :
    a = .ok () ∧ m = c.reseeded rs tip ∧ cs = [storesPeak tip] := by
  obtain ⟨blocks, hblocks, hcovers⟩ := tree.covers_of_attests hw
  -- the run ends with the tip, so its record is among those of the proof
  obtain ⟨r, hr, hcopies⟩ := hcovers.exists_tip ht
  cases h with
  | empty hnone => simp [ht] at hnone
  | tipMissing ht' hmissing =>
    obtain rfl := Option.some.inj (ht.symm.trans ht')
    simp only [List.any_eq_false, beq_iff_eq] at hmissing
    exact absurd hcopies.hash (hmissing r hr)
  | proofRefused _ _ hpersist => cases hpersist
  | peakRefused _ _ _ hrefused => cases (haccepts [] _ _ rfl).symm.trans hrefused
  | seeded ht' =>
    obtain rfl := Option.some.inj (ht.symm.trans ht')
    exact ⟨rfl, rfl, rfl⟩

/-- Without a stored proof nothing is opened but a fresh chain. -/
theorem Loading.blank (hd : disk.Legible tree) (hnone : disk.peek proofKey = none)
    {a : Except ChainError Unit} (h : Loading consensus verifier (fresh config) disk a m cs)
    (haccepts : disk.Accepts cs) : a = .ok () ∧ m.Blank := by
  have hvalue : disk.value? WeightProof proofKey = .ok none := by simp [Disk.value?, hnone]
  obtain ⟨peak, hpeak⟩ := hd.value?_peak
  -- the store is legible and serves, and there is no proof to be seeded from
  cases h with
  | proofRefused hrefused => cases (haccepts [] _ _ rfl).symm.trans hrefused
  | peakRefused _ hrefused => cases (haccepts [.get proofKey] _ _ rfl).symm.trans hrefused
  | proofMalformed _ hw | rejected hw | unseedable hw | seeded hw =>
    cases hvalue.symm.trans hw
  | peakMalformed _ _ hp => cases hpeak.symm.trans hp
  | unseeded _ _ hr =>
    have hblank := blank_fresh config
    obtain ⟨ha, rfl, -⟩ := hr.eq_of_orphan fun x r hr => absurd hr (by simp [hblank.records])
    exact ⟨ha, hblank⟩

/-- **A stored proof is seeded from**, whatever peak is stored beside it. -/
theorem Loading.eq_reseeded (hd : disk.Legible tree) {w : WeightProof} {rs : List BlockRecord}
    {tip : HeaderBlock} (hstored : disk.peek proofKey = some (Stored.encode w))
    (hw : tree.attests w rs) (ht : w.tip? = some tip)
    (hanswer : verifier w config.skipSegments = .ok rs) {a : Except ChainError Unit}
    (h : Loading consensus verifier (fresh config) disk a m cs) (haccepts : disk.Accepts cs) :
    a = .ok () ∧ m = ((fresh config).withProof w true).reseeded rs tip ∧
      cs = readCalls ++ [storesPeak tip] := by
  have hvalue := Disk.value?_of_peek hstored w.decode?_encode
  obtain ⟨peak, hpeak⟩ := hd.value?_peak
  cases h with
  | proofRefused hrefused => cases (haccepts [] _ _ rfl).symm.trans hrefused
  | peakRefused _ hrefused => cases (haccepts [.get proofKey] _ _ rfl).symm.trans hrefused
  | proofMalformed _ hw' | unseeded hw' => cases hvalue.symm.trans hw'
  | peakMalformed _ _ hp => cases hpeak.symm.trans hp
  | rejected hw' hrejected =>
    cases hvalue.symm.trans hw'
    cases hanswer.symm.trans hrejected
  | unseedable hw' hverified hseed =>
    -- the records are those the proof attests to, so the tip is among them
    cases hvalue.symm.trans hw'
    cases hanswer.symm.trans hverified
    cases (hseed.eq_of_attests hw ht haccepts.right).1
  | seeded hw' _ hverified hseed hr =>
    cases hvalue.symm.trans hw'
    cases hanswer.symm.trans hverified
    -- the stored peak is unknown, or is an orphan to the tip
    obtain ⟨-, rfl, rfl⟩ := hseed.eq_of_attests hw ht haccepts.left.right
    obtain ⟨ha, rfl, rfl⟩ := hr.eq_of_orphan fun _ _ => standing?_reseeded rfl hw ht
    exact ⟨ha, rfl, List.append_nil _⟩

/-- **A restart with a stored proof** leads to a chain that stands on the records of that proof. -/
theorem Loading.standsOn (hd : disk.Legible tree) (hv : verifier.Answers tree) {w : WeightProof}
    {rs : List BlockRecord} {tip : HeaderBlock}
    (hstored : disk.peek proofKey = some (Stored.encode w)) (hw : tree.attests w rs)
    (ht : w.tip? = some tip) {a : Except ChainError Unit}
    (h : Loading consensus verifier (fresh config) disk a m cs) (haccepts : disk.Accepts cs) :
    a = .ok () ∧ m.StandsOn rs tip := by
  obtain ⟨ha, rfl, -⟩ := h.eq_reseeded hd hstored hw ht (hv hw config.skipSegments) haccepts
  exact ⟨ha, standsOn_reseeded rfl hw ht⟩

/-- **A chain opens on whatever was left**, if the store serves the calls that opening it makes.
Without a stored proof it knows of nothing, even if a peak is stored; with one it stands on the
records of that proof. -/
theorem LeftBehind.reopens (h : LeftBehind tree disk) (hv : verifier.Answers tree)
    (consensus : Consensus) (config : Config)
    (haccepts : disk.Accepts (opened verifier consensus config disk).calls) :
    (load verifier consensus).result ⟨fresh config, disk, []⟩ = .ok () ∧
      (disk.peek proofKey = none ∧ (opened verifier consensus config disk).memory.Blank ∨
        ∃ w rs tip, disk.peek proofKey = some (Stored.encode w) ∧ tree.attests w rs ∧
          w.tip? = some tip ∧ (opened verifier consensus config disk).memory.StandsOn rs tip) := by
  have hloading := loading_opened verifier consensus config disk
  have hlegible := h.legible
  -- all depends on whether a proof was stored when the run was cut off
  cases hproof : disk.peek proofKey with
  | none =>
    obtain ⟨ha, hblank⟩ := hloading.blank hlegible hproof haccepts
    exact ⟨ha, .inl ⟨rfl, hblank⟩⟩
  | some raw =>
    obtain ⟨w, rs, tip, rfl, hw, ht⟩ := hlegible.proof raw hproof
    obtain ⟨ha, hstands⟩ := hloading.standsOn hlegible hv hproof hw ht haccepts
    exact ⟨ha, .inr ⟨w, rs, tip, rfl, hw, ht, hstands⟩⟩

end Chain

/-! ### A crash between two writes -/

namespace Sample

/-- A proof that ends at the heavier branch. -/
def proof : WeightProof := { recent := [root, rival] }

/-- The store of a run that was cut after the proof was stored and before its tip was. -/
def interrupted : Disk :=
  ({} : Disk).serveAll (((Chain.offerProof (.only forked) proof none).after
    (Chain.opened (.only forked) (.only forked) {} {})).calls.take 3)

/-- The store of the run that was cut off is one that may be left behind. -/
theorem leftBehind_interrupted : Chain.LeftBehind forkedTree interrupted := by
  have hopened : Chain.Ran forkedTree {} _ (Chain.opened (.only forked) (.only forked) {} {}) :=
    .opened Verifier.only_obeys (.only forked) {}
  have hload := Chain.load_of_empty (v := .only forked) (k := .only forked)
    ⟨Chain.fresh {}, {}, []⟩ rfl rfl fun _ _ => rfl
  rw [hload.result] at hopened
  exact .cut (.empty rfl) (hopened.proofOffered Verifier.only_obeys (by simp)) 3 rfl

set_option maxRecDepth 8000 in
theorem peek_interrupted : interrupted.peek proofKey = some (Stored.encode proof) := by
  have hcalls : ((Chain.offerProof (.only forked) proof none).after
      (Chain.opened (.only forked) (.only forked) {} {})).calls.take 3 =
        [.get proofKey, .get peakKey, .set proofKey (Stored.encode proof)] := by cbv
  rw [interrupted, hcalls]
  change (Disk.write {} proofKey (Stored.encode proof)).peek proofKey = _
  rw [Disk.peek_write, if_pos rfl]

end Sample

/-- A chain opens on the proof that was stored although no peak was. -/
theorem Chain.reopens_interrupted :
    Chain.LeftBehind Sample.forkedTree Sample.interrupted ∧ ∃ rs,
      (Chain.opened (.only Sample.forked) (.only Sample.forked) {}
        Sample.interrupted).memory.StandsOn rs Sample.rival := by
  have hserves : Sample.interrupted.Serves := Disk.Serves.serveAll (fun _ _ => rfl) _
  have hleft := Sample.leftBehind_interrupted
  obtain ⟨-, hmemory⟩ := hleft.reopens Verifier.only_answers (.only Sample.forked) {}
    (hserves.accepts _)
  obtain ⟨hnone, -⟩ | ⟨w, rs, tip, hstored, -, ht, hstands⟩ := hmemory
  · cases hnone.symm.trans Sample.peek_interrupted
  · have hraw := Option.some.inj (hstored.symm.trans Sample.peek_interrupted)
    -- the bytes that are stored decode to one proof only
    have hw : some w = some Sample.proof := by
      rw [← w.decode?_encode, hraw, WeightProof.decode?_encode]
    cases hw
    obtain rfl : Sample.rival = tip := Option.some.inj ht
    exact ⟨hleft, rs, hstands⟩

end HeaderChain
