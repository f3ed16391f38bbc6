import HeaderChain.Proofs.Agreement
import HeaderChain.Proofs.Reopening

/-!
# What a chain opens with

A chain that opens does so on two stored values, and what it comes to is settled by them, as long as
the store serves the calls that are made.

* `Chain.Wins` — the stored peak is adopted again; else it is left aside, unless opening fails;
* `Chain.Opening` — the chain, the peaks it has stored in turn, and the records it has made
  canonical, told by the stored values alone; `Chain.Loading.opening` and `Chain.Opening.of_loading`
  say that this is what opening comes to;
* `Chain.Opening.again` — the chain with its own peak as the stored one opens to the same;
* `Chain.load_idempotent` — so opening a chain a second time leaves memory and store as the first
  time has left them.

The second time does not go the way of the first. A peak that was left aside is overwritten by the
tip of the proof, which is then found to be the peak already; and one that was adopted again is
overwritten by the tip for a while, and adopted from there as before.
-/

namespace HeaderChain

/-! ### Peaks that are stored in turn -/

namespace Disk

variable {d d' : Disk} {bs : List HeaderBlock} {key : String}

/-- **What is under a key** after peaks were stored in turn: the last of them, if there is one and
this is its key. -/
def peekAfter (d : Disk) (bs : List HeaderBlock) (key : String) : Option Bytes :=
  if key = peakKey then (bs.getLast?.map Stored.encode).or (d.peek key) else d.peek key

theorem peek_serveAll_storesPeak (h : d.Accepts (bs.map Chain.storesPeak)) (key : String) :
    (d.serveAll (bs.map Chain.storesPeak)).peek key = d.peekAfter bs key := by
  unfold peekAfter
  -- each peak covers the one before it, so that only the last one is found
  induction bs generalizing d with
  | nil => simp
  | cons b bs ih =>
    obtain ⟨hb, hbs⟩ := accepts_cons.mp h
    rw [List.map_cons, serveAll_cons, ih hbs]
    by_cases hkey : key = peakKey
    · subst hkey
      rw [if_pos rfl, if_pos rfl, peek_serve_storesPeak hb]
      cases bs with
      | nil => rfl
      | cons b' bs => simp [List.getLast?_cons]
    · rw [if_neg hkey, if_neg hkey]
      exact peek_serve_of_ne hkey

/-- Storing the same peaks once more changes nothing. -/
theorem peekAfter_peekAfter (h : d'.peek key = d.peekAfter bs key) :
    d'.peekAfter bs key = d'.peek key := by
  unfold peekAfter at h ⊢
  split
  next hkey =>
    rw [if_pos hkey] at h
    cases hlast : bs.getLast? with
    | none => rfl
    | some b =>
      rw [hlast] at h
      exact h.symm
  next => rfl

end Disk

namespace Chain

open Procedure

variable {k : Consensus} {v : Verifier} {config : Config} {c m : Chain} {d : Disk}
  {cs : List Call} {a : Except ChainError Unit} {b tip : HeaderBlock} {r : BlockRecord}
  {changedFrom : Height} {path rs written : List BlockRecord} {w : WeightProof}
  {proof : Option WeightProof} {stored : Option HeaderBlock} {peaks : List HeaderBlock}

/-! ### The stored peak -/

/-- **A stored peak that wins**: its record is indexed and outweighs the peak, and the way down to
the canonical chain is known. -/
structure Wins (k : Consensus) (c : Chain) (b : HeaderBlock) (r : BlockRecord)
    (changedFrom : Height) (path : List BlockRecord) : Prop where
  record : c.index.record? b.hash = some r
  standing : ∃ choice, c.standing? k r = .ok choice ∧
    choice.changedFrom? r.height = some changedFrom
  path : c.index.pathDown changedFrom r = .ok path

/-- The peak does not outweigh itself. -/
theorem standing?_self (hp : c.peak? = some b) (hr : c.index.record? b.hash = some r) :
    c.standing? k r = .ok .orphan := by
  have hknown : c.peakRecord = .ok (some r) := by
    simp [peakRecord, hp, Index.record, hr, Except.map]
  have hnot : isBetter r.weight r.weight = false := by simp [isBetter]
  simp [standing?, hknown, Except.bind, Choice.of, hnot]

/-- The peak itself, found in the store, is left aside. -/
theorem leftAside_of_peak (hp : c.peak? = some tip) (hh : tip.hash = b.hash) :
    LeftAside k c (some b) := by
  rintro _ r ⟨⟩ hr
  exact ⟨.orphan, standing?_self hp (hh ▸ hr), rfl⟩

/-- What wins is not the peak. -/
theorem Wins.hash_ne (h : Wins k c b r changedFrom path) (hp : c.peak? = some tip) :
    tip.hash ≠ b.hash := by
  intro hh
  obtain ⟨choice, hs, hc⟩ := h.standing
  obtain rfl := Except.ok.inj (hs.symm.trans (standing?_self hp (hh ▸ h.record)))
  cases hc

/-- **A stored peak that wins is adopted again** if the store takes it. -/
theorem Readopting.eq_of_wins (h : Readopting k c d (some b) a m cs)
    (hwins : Wins k c b r changedFrom path) (haccepts : d.Accepts cs) :
    a = .ok () ∧ m = c.adopted b r changedFrom path ∧ cs = [storesPeak b] := by
  obtain ⟨choice, hs, hc⟩ := hwins.standing
  -- on the way to the store everything is settled by `hwins`, and the store accepts the call
  cases h with
  | current hp hh => exact absurd hh (hwins.hash_ne hp)
  | unknown hr => cases hr.symm.trans hwins.record
  | unresolved hr hs' =>
    cases hr.symm.trans hwins.record
    cases hs.symm.trans hs'
  | tooLight hr hs' hc' =>
    cases hr.symm.trans hwins.record
    cases hs.symm.trans hs'
    cases hc.symm.trans hc'
  | pathless hr hs' hc' hp =>
    cases hr.symm.trans hwins.record
    cases hs.symm.trans hs'
    cases hc.symm.trans hc'
    cases hp.symm.trans hwins.path
  | refused _ _ _ _ hd => cases (haccepts [] _ _ rfl).symm.trans hd
  | readopted hr hs' hc' hp =>
    cases hr.symm.trans hwins.record
    cases hs.symm.trans hs'
    cases hc.symm.trans hc'
    cases hp.symm.trans hwins.path
    exact ⟨rfl, rfl, rfl⟩

/-- The stored peak is left aside, or it wins, unless opening fails. -/
theorem Readopting.leftAside_or_wins (h : Readopting k c d stored (.ok ()) m cs) :
    LeftAside k c stored ∧ m = c ∧ cs = [] ∨
      ∃ b r changedFrom path, stored = some b ∧ Wins k c b r changedFrom path ∧
        m = c.adopted b r changedFrom path ∧ cs = [storesPeak b] ∧
        d.refusal? (storesPeak b) = none := by
  -- a stored peak is left aside where its record is unknown, its own or too light; else it wins
  cases h with
  | absent => exact .inl ⟨fun _ _ hb _ => (nomatch hb), rfl, rfl⟩
  | current hp hh => exact .inl ⟨leftAside_of_peak hp hh, rfl, rfl⟩
  | unknown hr =>
    refine .inl ⟨?_, rfl, rfl⟩
    rintro _ r ⟨⟩ hr'
    cases hr.symm.trans hr'
  | tooLight hr hs hc =>
    refine .inl ⟨?_, rfl, rfl⟩
    rintro _ r ⟨⟩ hr'
    cases hr.symm.trans hr'
    exact ⟨_, hs, hc⟩
  | readopted hr hs hc hp hd =>
    exact .inr ⟨_, _, _, _, rfl, ⟨hr, ⟨_, hs, hc⟩, hp⟩, rfl, rfl, hd⟩

/-! ### Opening -/

/-- **A chain that was just founded on a proof** with these records. -/
def founded (config : Config) (w : WeightProof) (rs : List BlockRecord) (tip : HeaderBlock) :
    Chain :=
  ((fresh config).withProof w true).reseeded rs tip

/-- **What opening comes to** on a stored proof and a stored peak: the chain, the peaks that were
stored in turn, and the records that were made canonical. -/
inductive Opening (k : Consensus) (v : Verifier) (config : Config) :
    Option WeightProof → Option HeaderBlock → Chain → List HeaderBlock → List BlockRecord → Prop
  | blank (stored : Option HeaderBlock) : Opening k v config none stored (fresh config) [] []
  | founded {w : WeightProof} {rs : List BlockRecord} {tip : HeaderBlock}
    {stored : Option HeaderBlock} (hv : v w config.skipSegments = .ok rs) (ht : w.tip? = some tip)
    (hr : rs.any (·.hash == tip.hash) = true)
    (hleft : LeftAside k (founded config w rs tip) stored) :
    Opening k v config (some w) stored (founded config w rs tip) [tip] rs
  | readopted {w : WeightProof} {rs : List BlockRecord} {tip b : HeaderBlock} {r : BlockRecord}
    {changedFrom : Height} {path : List BlockRecord} (hv : v w config.skipSegments = .ok rs)
    (ht : w.tip? = some tip) (hr : rs.any (·.hash == tip.hash) = true)
    (hwins : Wins k (founded config w rs tip) b r changedFrom path) :
    Opening k v config (some w) (some b)
      ((founded config w rs tip).adopted b r changedFrom path) [tip, b] (rs ++ path)

@[simp] theorem peak?_founded : (founded config w rs tip).peak? = some tip := peak?_reseeded

/-- The peak is the last one that was stored. -/
theorem Opening.peak?_eq (h : Opening k v config proof stored m peaks written) :
    m.peak? = peaks.getLast? := by
  cases h with
  | blank => rfl
  | founded => exact peak?_founded
  | readopted => exact peak?_adopted

/-- A stored peak alone is left aside. -/
theorem leftAside_fresh : LeftAside k (fresh config) stored := by
  intro b r _ hr
  cases (Index.record?_empty b.hash).symm.trans hr

/-- **Every opening that succeeds** is one of these. -/
theorem Loading.opening (h : Loading k v (fresh config) d (.ok ()) m cs) :
    ∃ proof stored peaks written, d.value? WeightProof proofKey = .ok proof ∧
      d.value? HeaderBlock peakKey = .ok stored ∧
      Opening k v config proof stored m peaks written ∧
      cs = readCalls ++ peaks.map storesPeak ∧
      (d.serveAll readCalls).Accepts (peaks.map storesPeak) := by
  cases h with
  | unseeded hw hp hr =>
    obtain ⟨-, rfl, rfl⟩ := hr.eq_of_leftAside leftAside_fresh
    exact ⟨none, _, [], [], hw, hp, .blank _, rfl, Disk.accepts_nil _⟩
  | seeded hw hp hv hs hr =>
    -- the proof is stored already, so the one call is that for its tip
    cases hs with
    | seeded ht hany _ hd =>
      obtain ⟨hleft, rfl, rfl⟩ | ⟨b, r, changedFrom, path, rfl, hwins, rfl, rfl, hd'⟩ :=
        hr.leftAside_or_wins
      · refine ⟨_, _, [_], _, hw, hp, .founded hv ht hany hleft, List.append_nil _, ?_⟩
        exact Disk.accepts_cons.mpr ⟨hd, Disk.accepts_nil _⟩
      · refine ⟨_, _, [_, b], _, hw, hp, .readopted hv ht hany hwins, rfl, ?_⟩
        rw [Disk.serveAll_append] at hd'
        exact Disk.accepts_cons.mpr ⟨hd, Disk.accepts_cons.mpr ⟨hd', Disk.accepts_nil _⟩⟩

/-- Seeding with a tip that has a record succeeds if the store takes the tip. -/
theorem Seeding.eq_of_tip (h : Seeding w rs c d false a m cs) (ht : w.tip? = some tip)
    (hr : rs.any (·.hash == tip.hash) = true) (haccepts : d.Accepts cs) :
    a = .ok () ∧ m = c.reseeded rs tip ∧ cs = [storesPeak tip] := by
  cases h with
  | empty hnone => cases ht.symm.trans hnone
  | tipMissing ht' hmissing =>
    cases ht.symm.trans ht'
    cases hr.symm.trans hmissing
  | proofRefused _ _ hpersist => cases hpersist
  | peakRefused _ _ _ hrefused => cases (haccepts [] _ _ rfl).symm.trans hrefused
  | seeded ht' =>
    cases ht.symm.trans ht'
    exact ⟨rfl, rfl, rfl⟩

/-- **Opening comes to nothing else**, if the store serves the calls that are made. -/
theorem Opening.of_loading (h : Opening k v config proof stored m peaks written)
    (hproof : d.value? WeightProof proofKey = .ok proof)
    (hstored : d.value? HeaderBlock peakKey = .ok stored) {m' : Chain}
    (hloading : Loading k v (fresh config) d a m' cs) (haccepts : d.Accepts cs) :
    a = .ok () ∧ m' = m ∧ cs = readCalls ++ peaks.map storesPeak := by
  -- what was read is what `h` is about, and the verifier answers as it did there
  cases hloading with
  | proofRefused hrefused => cases (haccepts [] _ _ rfl).symm.trans hrefused
  | peakRefused _ hrefused => cases (haccepts [.get proofKey] _ _ rfl).symm.trans hrefused
  | proofMalformed _ hw => cases hproof.symm.trans hw
  | peakMalformed _ _ hp => cases hstored.symm.trans hp
  | unseeded hw hp hr =>
    cases hproof.symm.trans hw
    cases hstored.symm.trans hp
    cases h
    obtain ⟨rfl, rfl, rfl⟩ := hr.eq_of_leftAside leftAside_fresh
    exact ⟨rfl, rfl, rfl⟩
  | rejected hw hv =>
    cases hproof.symm.trans hw
    cases h with
    | founded hv' | readopted hv' => cases hv'.symm.trans hv
  | unseedable hw hv hs =>
    cases hproof.symm.trans hw
    cases h with
    | founded hv' ht hany | readopted hv' ht hany =>
      cases hv'.symm.trans hv
      cases (hs.eq_of_tip ht hany haccepts.right).1
  -- the tip is stored alike, and the stored peak stands to it as it stood
  | seeded hw hp hv hs hr =>
    cases hproof.symm.trans hw
    cases hstored.symm.trans hp
    cases h with
    | founded hv' ht hany hleft =>
      cases hv'.symm.trans hv
      obtain ⟨-, rfl, rfl⟩ := hs.eq_of_tip ht hany haccepts.left.right
      obtain ⟨rfl, rfl, rfl⟩ := hr.eq_of_leftAside hleft
      exact ⟨rfl, rfl, rfl⟩
    | readopted hv' ht hany hwins =>
      cases hv'.symm.trans hv
      obtain ⟨-, rfl, rfl⟩ := hs.eq_of_tip ht hany haccepts.left.right
      obtain ⟨rfl, rfl, rfl⟩ := hr.eq_of_wins hwins haccepts.right
      exact ⟨rfl, rfl, rfl⟩

/-! ### Opening again -/

/-- **With its own peak as the stored one a chain opens to the same.** The tip of the proof is then
the peak already, and a stored peak that has won wins once more. -/
theorem Opening.again (h : Opening k v config proof stored m peaks written) :
    Opening k v config proof (m.peak?.or stored) m peaks written := by
  cases h with
  | blank => exact .blank _
  | founded hv ht hr =>
    -- nothing is left of the peak that was stored
    rw [peak?_founded]
    exact .founded hv ht hr (leftAside_of_peak peak?_founded rfl)
  | readopted hv ht hr hwins =>
    rw [peak?_adopted]
    exact .readopted hv ht hr hwins

/-- The calls of an opening store its peaks, after both slots were read. -/
theorem peek_of_opening {disk : Disk}
    (hdisk : d = disk.serveAll (readCalls ++ peaks.map storesPeak))
    (haccepts : (disk.serveAll readCalls).Accepts (peaks.map storesPeak)) (key : String) :
    d.peek key = disk.peekAfter peaks key := by
  have hread : ∀ key, (disk.serveAll readCalls).peek key = disk.peek key :=
    Disk.peek_congr (entries_readCalls disk)
  rw [hdisk, Disk.serveAll_append, Disk.peek_serveAll_storesPeak haccepts, Disk.peekAfter, hread,
    Disk.peekAfter]

/-- What a chain was opened with, if it was opened. -/
theorem exists_opening {disk : Disk} (h : (load v k).result ⟨fresh config, disk, []⟩ = .ok ()) :
    ∃ proof stored peaks written, disk.value? WeightProof proofKey = .ok proof ∧
      disk.value? HeaderBlock peakKey = .ok stored ∧
      Opening k v config proof stored (opened v k config disk).memory peaks written ∧
      ∀ key, (opened v k config disk).disk.peek key = disk.peekAfter peaks key := by
  obtain ⟨proof, stored, peaks, written, hproof, hstored, hopening, hcalls, hserved⟩ :=
    (loading_of_opens h).opening
  refine ⟨proof, stored, peaks, written, hproof, hstored, hopening, ?_⟩
  exact peek_of_opening (hcalls ▸ disk_opened) hserved

/-- A chain that can be opened is, if the calls that are made are served. -/
theorem Opening.opened {disk : Disk} (h : Opening k v config proof stored m peaks written)
    (hproof : disk.value? WeightProof proofKey = .ok proof)
    (hstored : disk.value? HeaderBlock peakKey = .ok stored)
    (haccepts : disk.Accepts (opened v k config disk).calls) :
    (load v k).result ⟨fresh config, disk, []⟩ = .ok () ∧
      (opened v k config disk).memory = m ∧
      ∀ key, (opened v k config disk).disk.peek key = disk.peekAfter peaks key := by
  obtain ⟨hresult, hmemory, hcalls⟩ :=
    h.of_loading hproof hstored (loading_opened v k config disk) haccepts
  rw [hcalls] at haccepts
  exact ⟨hresult, hmemory, peek_of_opening (hcalls ▸ disk_opened) haccepts.right⟩

/-- The stored peak is the peak from then on, if there is one. -/
theorem Opening.value?_peak {disk : Disk} (h : Opening k v config proof stored m peaks written)
    (hstored : disk.value? HeaderBlock peakKey = .ok stored)
    (hd : d.peek peakKey = disk.peekAfter peaks peakKey) :
    d.value? HeaderBlock peakKey = .ok (m.peak?.or stored) := by
  rw [Disk.peekAfter, if_pos rfl] at hd
  rw [h.peak?_eq]
  cases hpeaks : peaks.getLast? with
  | none =>
    rw [hpeaks] at hd
    rw [Disk.value?_congr_peek hd, hstored]
    rfl
  | some b =>
    rw [hpeaks] at hd
    exact Disk.value?_of_peek hd b.decode?_encode

/-- **A chain that was opened opens again**, on whatever store has the entries that it has left: if
the calls that are made are served, this succeeds, the chain is the same, records, canonical map,
peak, latest timestamp and proof, and every stored value stays as it was. -/
theorem load_idempotent {disk disk' : Disk}
    (h : (load v k).result ⟨fresh config, disk, []⟩ = .ok ())
    (hentries : disk'.entries = (opened v k config disk).disk.entries)
    (haccepts : disk'.Accepts (opened v k config disk').calls) :
    (load v k).result ⟨fresh config, disk', []⟩ = .ok () ∧
      (opened v k config disk').memory = (opened v k config disk).memory ∧
      (opened v k config disk').disk.entries = (opened v k config disk).disk.entries := by
  obtain ⟨proof, stored, peaks, written, hproof, hstored, hopening, hleft⟩ := exists_opening h
  have hpeek : ∀ key, disk'.peek key = disk.peekAfter peaks key := fun key =>
    (Disk.peek_congr hentries key).trans (hleft key)
  -- the proof is stored as it was, and the peak has become the stored one
  have hproof' : disk'.value? WeightProof proofKey = .ok proof := by
    have hsame : disk'.peek proofKey = disk.peek proofKey :=
      (hpeek proofKey).trans (if_neg (by decide))
    rw [Disk.value?_congr_peek hsame, hproof]
  have hstored' := hopening.value?_peak hstored (hpeek peakKey)
  obtain ⟨hresult, hmemory, hleft'⟩ := hopening.again.opened hproof' hstored' haccepts
  refine ⟨hresult, hmemory, Disk.entries_eq_of_peek fun key => ?_⟩
  calc (opened v k config disk').disk.peek key
      = disk'.peekAfter peaks key := hleft' key
    _ = disk'.peek key := Disk.peekAfter_peekAfter (hpeek key)
    _ = (opened v k config disk).disk.peek key := Disk.peek_congr hentries key

end Chain

/-! ### A stored peak that wins twice -/

namespace Sample

/-- A verifier that knows of both branches, whichever of them a proof ends at. -/
def lenient : Verifier := fun _ _ => .ok ([root, rival, child].map record)

/-- A store with a proof of the lighter branch and a peak on the heavier one. -/
def ahead : Disk :=
  (({} : Disk).write proofKey (Stored.encode lighter)).write peakKey (Stored.encode rival)

theorem serves_ahead : ahead.Serves := fun _ _ => rfl

theorem value?_proof_ahead : ahead.value? WeightProof proofKey = .ok (some lighter) := by
  refine Disk.value?_of_peek ?_ lighter.decode?_encode
  rw [ahead, Disk.peek_write, if_neg (by decide), Disk.peek_write, if_pos rfl]

theorem value?_peak_ahead : ahead.value? HeaderBlock peakKey = .ok (some rival) := by
  refine Disk.value?_of_peek ?_ rival.decode?_encode
  rw [ahead, Disk.peek_write, if_pos rfl]

set_option maxRecDepth 8000 in
theorem wins_ahead : Chain.Wins accepting
    (Chain.founded {} lighter ([root, rival, child].map record) child) rival (record rival) 1
    [record rival] where
  record := by cbv
  standing := ⟨.reorganise (some 0), by cbv, by cbv⟩
  path := by cbv

end Sample

/-- The stored peak is not the tip of the stored proof, and wins against it. The second time it has
to win again, over a tip that was stored in its place in between. -/
theorem Chain.load_idempotent_ahead :
    (opened Sample.lenient Sample.accepting {} Sample.ahead).memory.peak? = some Sample.rival ∧
      (opened Sample.lenient Sample.accepting {}
          (opened Sample.lenient Sample.accepting {} Sample.ahead).disk).memory =
        (opened Sample.lenient Sample.accepting {} Sample.ahead).memory ∧
      (opened Sample.lenient Sample.accepting {}
          (opened Sample.lenient Sample.accepting {} Sample.ahead).disk).disk.entries =
        (opened Sample.lenient Sample.accepting {} Sample.ahead).disk.entries := by
  have hopening : Opening Sample.accepting Sample.lenient {} (some Sample.lighter)
      (some Sample.rival) _ _ _ := .readopted rfl rfl (by decide) Sample.wins_ahead
  obtain ⟨hresult, hmemory, -⟩ := hopening.opened Sample.value?_proof_ahead
    Sample.value?_peak_ahead (Sample.serves_ahead.accepts _)
  -- the store still serves, so that opening it again goes through
  have hserves : (opened Sample.lenient Sample.accepting {} Sample.ahead).disk.Serves := by
    rw [disk_opened]
    exact Sample.serves_ahead.serveAll _
  obtain ⟨-, hagain, hentries⟩ := load_idempotent hresult rfl (hserves.accepts _)
  refine ⟨?_, hagain, hentries⟩
  rw [hmemory]
  exact peak?_adopted

end HeaderChain
