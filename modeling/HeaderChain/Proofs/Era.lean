import HeaderChain.Proofs.Opening

/-!
# Eras

A reset that succeeds forgets everything, so that what is in memory at any time goes back to what
has happened since the last one, or since the chain was opened. That is an era: its beginning, and
all requests since with the sessions in which they were made. Whoever helps to answer them may be
another one each time, any call to the store may fail, and so may a request.

* `Chain.Era` — the sessions of an era; every session that can be reached is one
  (`Chain.Reachable.exists_era`);
* `Chain.Inscribed` — a record was put on the canonical chain in an era, whether it is still there
  or not; `Index.Rewrites` — one canonical map is made of another one by dropping heights and by
  writing records in turn;
* `Chain.Era.exists_written` — the canonical map is made of what is inscribed in the era, and of
  nothing else, and the latest timestamp is that of all of it;
* `Chain.Era.latestTimestamp_greatest` — so that this is the highest timestamp that was ever
  canonical, and nothing lowers it before the era ends.
-/

namespace HeaderChain

namespace Index

variable {i j k : Index} {rs rs' : List BlockRecord} {h : Height} {x : Hash}

/-- **How a canonical map is rewritten**: some heights are dropped on the way, and these records are
written in turn, each at its height. Of two indices only the canonical maps matter. -/
inductive Rewrites : Index → List BlockRecord → Index → Prop
  | same {i j : Index} (h : j.canonical = i.canonical) : Rewrites i [] j
  | dropped {i j : Index} {rs : List BlockRecord} (h : Height)
    (hrest : Rewrites (i.dropHeightsFrom h) rs j) : Rewrites i rs j
  | written {i j : Index} {r : BlockRecord} {rs : List BlockRecord}
    (hrest : Rewrites (i.setHeight r.height r.hash) rs j) : Rewrites i (r :: rs) j

theorem Rewrites.congr_left (hij : Rewrites i rs j) (h : k.canonical = i.canonical) :
    Rewrites k rs j := by
  induction hij generalizing k with
  | same heq => exact .same (heq.trans h.symm)
  | dropped height _ ih =>
    refine .dropped height (ih ?_)
    rw [canonical_dropHeightsFrom, canonical_dropHeightsFrom, h]
  | @written i j r rs _ ih =>
    exact .written (ih (congrArg (·.insert r.height r.hash) h))

/-- Rewritings add up, and so do the records they put there. -/
theorem Rewrites.trans (hij : Rewrites i rs j) (hjk : Rewrites j rs' k) :
    Rewrites i (rs ++ rs') k := by
  induction hij with
  | same heq => exact hjk.congr_left heq.symm
  | dropped height _ ih => exact .dropped height (ih hjk)
  | written _ ih => exact .written (ih hjk)

theorem Rewrites.congr_right (hij : Rewrites i rs j) (h : k.canonical = j.canonical) :
    Rewrites i rs k :=
  List.append_nil rs ▸ hij.trans (.same h)

/-- **What is canonical was written, or was there before.** -/
theorem Rewrites.mem (hij : Rewrites i rs j) (hx : j.hashAt? h = some x) :
    (∃ r ∈ rs, r.height = h ∧ r.hash = x) ∨ i.hashAt? h = some x := by
  -- the earliest change comes first: what no later one has put there it has put, or left there
  induction hij with
  | same heq =>
    rw [hashAt?, heq] at hx
    exact .inr hx
  | dropped height _ ih =>
    refine (ih hx).imp_right fun hx => ?_
    rw [hashAt?_dropHeightsFrom] at hx
    split at hx
    · exact hx
    · cases hx
  | @written i j r rs _ ih =>
    rcases ih hx with ⟨s, hs, hsx⟩ | hx
    · exact .inl ⟨s, List.mem_cons_of_mem r hs, hsx⟩
    · rw [hashAt?_setHeight] at hx
      split at hx
      next heq => exact .inl ⟨r, List.mem_cons_self, heq, Option.some.inj hx⟩
      next => exact .inr hx

/-- Records that are written one after the other by a function that does to the canonical map what
`Index.setHeight` does. -/
theorem rewrites_foldl {f : Index → BlockRecord → Index}
    (hf : ∀ i r, (f i r).canonical = (i.setHeight r.height r.hash).canonical) (i : Index)
    (rs : List BlockRecord) : Rewrites i rs (rs.foldl f i) := by
  induction rs generalizing i with
  | nil => exact .same rfl
  | cons r rs ih => exact .written ((ih (f i r)).congr_left (hf i r).symm)

/-- A switch rewrites the map with the records of the path. -/
theorem rewrites_replaceFrom (i : Index) (changedFrom : Height) (path : List BlockRecord) :
    Rewrites i path (Chain.replaceFrom i changedFrom path) :=
  .dropped changedFrom (rewrites_foldl (fun _ _ => rfl) _ path)

/-- Seeding rewrites the map with the records of the proof. -/
theorem rewrites_reseed (i : Index) (rs : List BlockRecord) :
    Rewrites i rs (Chain.reseed i rs) :=
  .dropped 0 (rewrites_foldl (f := fun i r => (i.setHeight r.height r.hash).add r)
    (fun _ _ => rfl) _ rs)

end Index

namespace Chain

open Procedure

variable {k : Consensus} {v : Verifier} {config : Config} {c m : Chain} {disk : Disk}
  {b tip : HeaderBlock} {r : BlockRecord} {changedFrom : Height}
  {path rs written : List BlockRecord}
  {w : WeightProof} {proof : Option WeightProof} {stored : Option HeaderBlock}
  {peaks : List HeaderBlock} {s : Session Chain} {q : Request}

/-! ### What is rewritten -/

/-- Adopting a block rewrites the map with the path down from it. -/
theorem rewrites_adopted :
    Index.Rewrites c.index path (c.adopted b r changedFrom path).index := by
  have hreplaced := Index.rewrites_replaceFrom (c.index.add r) changedFrom path
  refine (hreplaced.congr_left (k := c.index) rfl).congr_right ?_
  rw [adopted, canonical_evicted]

/-- Adopting a proof rewrites the map with its records. -/
theorem rewrites_reseeded : Index.Rewrites c.index rs (c.reseeded rs tip).index :=
  (Index.rewrites_reseed c.index rs).congr_right canonical_reseeded

@[simp] theorem latestTimestamp_adopted :
    (c.adopted b r changedFrom path).latestTimestamp = latest c.latestTimestamp path := by
  simp [latestTimestamp, adopted]

@[simp] theorem latestTimestamp_reseeded :
    (c.reseeded rs tip).latestTimestamp = latest c.latestTimestamp rs := by
  simp [latestTimestamp, reseeded]

/-- **Opening writes the records it is said to write**, into a map that was empty. -/
theorem Opening.rewrites (h : Opening k v config proof stored m peaks written) :
    Index.Rewrites .empty written m.index ∧ m.latestTimestamp = latest 0 written := by
  have hfounded : ∀ {w rs tip}, Index.Rewrites .empty rs (Chain.founded config w rs tip).index ∧
      (Chain.founded config w rs tip).latestTimestamp = latest 0 rs :=
    ⟨rewrites_reseeded (c := (fresh config).withProof _ true), latestTimestamp_reseeded⟩
  cases h with
  | blank => exact ⟨.same rfl, rfl⟩
  | founded => exact hfounded
  | readopted =>
    -- the stored peak is adopted on top of what the proof has written
    refine ⟨hfounded.1.trans rewrites_adopted, ?_⟩
    rw [latestTimestamp_adopted, hfounded.2, latest_append]

/-- What wins does so in one way only. -/
theorem Wins.unique {r' : BlockRecord} {changedFrom' : Height} {path' : List BlockRecord}
    (h : Wins k c b r changedFrom path) (h' : Wins k c b r' changedFrom' path') :
    r = r' ∧ path = path' := by
  obtain ⟨choice, hs, hc⟩ := h.standing
  obtain ⟨choice', hs', hc'⟩ := h'.standing
  obtain rfl := Option.some.inj (h.record.symm.trans h'.record)
  obtain rfl := Except.ok.inj (hs.symm.trans hs')
  obtain rfl := Option.some.inj (hc.symm.trans hc')
  exact ⟨rfl, Except.ok.inj (h.path.symm.trans h'.path)⟩

/-- A block that wins is not left aside. -/
theorem Wins.not_leftAside (h : Wins k c b r changedFrom path) : ¬LeftAside k c (some b) := by
  intro hleft
  obtain ⟨choice, hs, hc⟩ := h.standing
  obtain ⟨choice', hs', hc'⟩ := hleft b r rfl h.record
  obtain rfl := Except.ok.inj (hs.symm.trans hs')
  cases hc.symm.trans hc'

/-- Opening writes the same records each time. -/
theorem Opening.unique {m' : Chain} {peaks' : List HeaderBlock} {written' : List BlockRecord}
    (h : Opening k v config proof stored m peaks written)
    (h' : Opening k v config proof stored m' peaks' written') : written = written' := by
  -- the verifier answers the same records, and no peak both wins and is left aside
  cases h with
  | blank => cases h' with | blank => rfl
  | founded hv ht hr hleft =>
    cases h' with
    | founded hv' => exact Except.ok.inj (hv.symm.trans hv')
    | readopted hv' ht' _ hwins =>
      obtain rfl := Except.ok.inj (hv.symm.trans hv')
      cases ht.symm.trans ht'
      exact absurd hleft hwins.not_leftAside
  | readopted hv ht hr hwins =>
    cases h' with
    | founded hv' ht' _ hleft =>
      obtain rfl := Except.ok.inj (hv.symm.trans hv')
      cases ht.symm.trans ht'
      exact absurd hleft hwins.not_leftAside
    | readopted hv' ht' _ hwins' =>
      obtain rfl := Except.ok.inj (hv.symm.trans hv')
      cases ht.symm.trans ht'
      rw [(hwins.unique hwins').2]

/-! ### Eras -/

/-- A reset that succeeds, which ends an era and begins the next one. -/
def Request.EndsEra (s : Session Chain) (q : Request) : Prop :=
  q = .reset ∧ Chain.reset.result s = .ok ()

/-- No offered block ends an era. -/
theorem not_endsEra_offer (k : Consensus) (b : HeaderBlock) (s : Session Chain) :
    ¬(Request.offer k b).EndsEra s :=
  fun h => nomatch h.1

/-- How an era begins. -/
inductive Start
  | opened (v : Verifier) (k : Consensus) (config : Config) (disk : Disk)
  | wasReset

/-- **The sessions of an era**, with its beginning and all requests since, the latest first, each
with the session in which it was made. -/
inductive Era : Start → List (Session Chain × Request) → Session Chain → Prop
  | opened {v : Verifier} {k : Consensus} {config : Config} {disk : Disk}
    (h : (load v k).result ⟨fresh config, disk, []⟩ = .ok ()) :
    Era (.opened v k config disk) [] (Chain.opened v k config disk)
  | asked {start : Start} {steps : List (Session Chain × Request)} {s : Session Chain}
    {q : Request} (hs : Era start steps s) (hq : ¬q.EndsEra s) :
    Era start ((s, q) :: steps) (q.after s)
  | wasReset {start : Start} {steps : List (Session Chain × Request)} {s : Session Chain}
    (hs : Era start steps s) (h : reset.result s = .ok ()) : Era .wasReset [] (reset.after s)

variable {start : Start} {steps : List (Session Chain × Request)}

/-- **Every session that can be reached is one of an era.** -/
theorem Reachable.exists_era {setting : Setting} (h : Reachable setting s) :
    ∃ start steps, Era start steps s := by
  induction h with
  | opened _ h => exact ⟨_, _, .opened h⟩
  | @asked s q _ _ ih =>
    obtain ⟨start, steps, hs⟩ := ih
    by_cases hq : q.EndsEra s
    · obtain ⟨rfl, hreset⟩ := hq
      exact ⟨_, _, hs.wasReset hreset⟩
    · exact ⟨_, _, hs.asked hq⟩

/-- **A weight proof is taken** by a request, with the records that come with it, or those that the
verifier answers with. -/
inductive Request.Takes (s : Session Chain) (w : WeightProof) (rs : List BlockRecord) :
    Request → Prop
  | intro {v : Verifier} {records : Option (List BlockRecord)}
    (h : (Chain.offerProof v w records).result s = .ok true)
    (hr : records = some rs ∨ records = none ∧ v w s.memory.config.skipSegments = .ok rs) :
    Takes s w rs (.offerProof v w records)

/-- **What a request puts on the canonical chain**, if it puts anything there: the path down from a
new peak to where the heights change, or the records of a proof. -/
inductive Request.Inscribes (s : Session Chain) : Request → List BlockRecord → Prop
  | newPeak {k : Consensus} {b : HeaderBlock} {r : BlockRecord} {choice : Choice}
    {changedFrom : Height} {path : List BlockRecord}
    (h : (Chain.offer k b).result s = .ok .newPeak) (hr : Validated k b s.memory r)
    (hs : s.memory.standing? k r = .ok choice)
    (hc : choice.changedFrom? r.height = some changedFrom)
    (hpath : s.memory.index.pathDown changedFrom r = .ok path) : Inscribes s (.offer k b) path
  | taken {q : Request} {w : WeightProof} {rs : List BlockRecord} (h : q.Takes s w rs) :
    Inscribes s q rs

/-- **A record was put on the canonical chain** in an era. -/
inductive Inscribed (start : Start) (steps : List (Session Chain × Request)) (r : BlockRecord) :
    Prop
  | opening {v : Verifier} {k : Consensus} {config : Config} {disk : Disk}
    {proof : Option WeightProof} {stored : Option HeaderBlock} {m : Chain}
    {peaks : List HeaderBlock} {written : List BlockRecord}
    (hstart : start = .opened v k config disk)
    (hproof : disk.value? WeightProof proofKey = .ok proof)
    (hstored : disk.value? HeaderBlock peakKey = .ok stored)
    (h : Opening k v config proof stored m peaks written) (hr : r ∈ written)
  | step {s : Session Chain} {q : Request} {rs : List BlockRecord} (hstep : (s, q) ∈ steps)
    (h : q.Inscribes s rs) (hr : r ∈ rs)

/-- A request puts one list of records on the canonical chain, if any. -/
theorem Request.Inscribes.unique {rs' : List BlockRecord} (h : q.Inscribes s rs)
    (h' : q.Inscribes s rs') : rs = rs' := by
  cases h with
  | newPeak _ hr hs hc hpath =>
    cases h' with
    | newPeak _ hr' hs' hc' hpath' =>
      obtain rfl := hr.unique hr'
      cases hs.symm.trans hs'
      cases hc.symm.trans hc'
      exact Except.ok.inj (hpath.symm.trans hpath')
    | taken h' => cases h'
  | taken h =>
    cases h with
    | intro _ hr =>
      cases h' with
      | taken h' =>
        cases h' with
        | intro _ hr' =>
          -- the records come with the request or from the verifier, never from both
          rcases hr with hr | ⟨hr, hv⟩ <;> rcases hr' with hr' | ⟨hr', hv'⟩
          · exact Option.some.inj (hr.symm.trans hr')
          · cases hr.symm.trans hr'
          · cases hr.symm.trans hr'
          · exact Except.ok.inj (hv.symm.trans hv')

/-- One request more inscribes no more than what it puts on the canonical chain itself. -/
theorem inscribed_cons :
    Inscribed start ((s, q) :: steps) r ↔
      Inscribed start steps r ∨ ∃ rs, q.Inscribes s rs ∧ r ∈ rs := by
  constructor
  · rintro (⟨hstart, hproof, hstored, h, hr⟩ | ⟨hstep, h, hr⟩)
    · exact .inl (.opening hstart hproof hstored h hr)
    · rcases List.mem_cons.mp hstep with heq | hstep
      · cases heq
        exact .inr ⟨_, h, hr⟩
      · exact .inl (.step hstep h hr)
  · rintro ((⟨hstart, hproof, hstored, h, hr⟩ | ⟨hstep, h, hr⟩) | ⟨rs, h, hr⟩)
    · exact .opening hstart hproof hstored h hr
    · exact .step (List.mem_cons_of_mem _ hstep) h hr
    · exact .step List.mem_cons_self h hr

/-- **What a request does to the canonical map and to the latest timestamp**: it puts records on the
chain, or both stay as they are. -/
def Request.Accounts (s : Session Chain) (q : Request) (m : Chain) : Prop :=
  (∃ rs, q.Inscribes s rs ∧ Index.Rewrites s.memory.index rs m.index ∧
      m.latestTimestamp = latest s.memory.latestTimestamp rs) ∨
    (∀ rs, ¬q.Inscribes s rs) ∧ m.index.canonical = s.memory.index.canonical ∧
      m.latestTimestamp = s.memory.latestTimestamp

/-- **One request within an era**: what it puts on the canonical chain accounts for the timestamp
and for the map. -/
theorem Request.accounts (hq : ¬q.EndsEra s) : q.Accounts s (q.after s).memory := by
  refine q.memory_cases (P := q.Accounts s) s ?_ ?_ ?_
  · rintro k b a m cs rfl ha h
    -- nothing is put on the chain but for a new peak
    have hnothing : a ≠ .ok .newPeak → ∀ rs, ¬(Request.offer k b).Inscribes s rs := by
      rintro hne rs (⟨hnew⟩ | ⟨⟨⟩⟩)
      exact hne (ha.symm.trans hnew)
    cases h with
    | newPeak hr hs hc hpath =>
      exact .inl ⟨_, .newPeak ha hr hs hc hpath, rewrites_adopted, latestTimestamp_adopted⟩
    | _ => exact .inr ⟨hnothing (by simp), rfl, rfl⟩
  · rintro v w records a m cs rfl ha h
    have hnothing : a ≠ .ok true → ∀ rs, ¬(Request.offerProof v w records).Inscribes s rs := by
      rintro hne rs (⟨⟩ | ⟨htaken, -⟩)
      exact hne (ha.symm.trans htaken)
    cases h with
    | empty | tooLight | rejected => exact .inr ⟨hnothing (by simp), rfl, rfl⟩
    | seeding _ _ hr hs =>
      cases hs with
      | seeded =>
        refine .inl ⟨_, .taken ⟨ha, hr⟩, ?_, latestTimestamp_reseeded⟩
        exact rewrites_reseeded (c := s.memory.withProof w true)
      | _ => exact .inr ⟨hnothing (by simp [Except.map]), rfl, rfl⟩
  · rintro a m cs rfl ha h
    have hnothing : ∀ rs, ¬Request.reset.Inscribes s rs := by rintro rs (⟨⟩ | ⟨⟨⟩⟩)
    cases h with
    | proofRefused | peakRefused => exact .inr ⟨hnothing, rfl, rfl⟩
    | done => exact absurd ⟨rfl, ha⟩ hq

/-- A reset that succeeds leaves nothing in memory. -/
theorem memory_of_reset (h : reset.result s = .ok ()) :
    (reset.after s).memory = { s.memory with slots := {}, index := .empty } := by
  obtain ⟨a, m, cs, hgives, hreset⟩ := reset_cases s
  obtain rfl : a = .ok () := hgives.result.symm.trans h
  rw [hgives.memory]
  cases hreset with
  | done => rfl

/-- **An era can be told by what is written in it**: all records that were put on the canonical
chain in turn. They make up the canonical map, out of an empty one, and the latest timestamp. -/
theorem Era.exists_written (h : Era start steps s) :
    ∃ written, (∀ r, r ∈ written ↔ Inscribed start steps r) ∧
      Index.Rewrites .empty written s.memory.index ∧
      s.memory.latestTimestamp = latest 0 written := by
  -- the induction is on the era; a reset begins another one, with nothing written
  induction h with
  | opened h =>
    obtain ⟨proof, stored, peaks, written, hproof, hstored, hopening, -⟩ := exists_opening h
    refine ⟨written, fun r => ⟨.opening rfl hproof hstored hopening, ?_⟩, hopening.rewrites⟩
    rintro (⟨⟨⟩, hproof', hstored', hopening', hr⟩ | ⟨⟨⟩⟩)
    cases hproof.symm.trans hproof'
    cases hstored.symm.trans hstored'
    exact hopening.unique hopening' ▸ hr
  | @asked start steps s q hs hq ih =>
    obtain ⟨written, hmem, hrewrites, hlatest⟩ := ih
    -- what the request writes comes after all that was written before
    obtain ⟨rs, hrs, hmap, htime⟩ | ⟨hnothing, hmap, htime⟩ := q.accounts hq
    · refine ⟨written ++ rs, fun r => ?_, hrewrites.trans hmap, ?_⟩
      · rw [List.mem_append, hmem, inscribed_cons]
        refine or_congr_right ⟨fun hr => ⟨rs, hrs, hr⟩, ?_⟩
        rintro ⟨rs', hrs', hr⟩
        exact hrs.unique hrs' ▸ hr
      · rw [htime, hlatest, latest_append]
    · refine ⟨written, fun r => ?_, hrewrites.congr_right hmap, htime.trans hlatest⟩
      rw [hmem, inscribed_cons]
      exact (or_iff_left fun ⟨rs, hrs, _⟩ => hnothing rs hrs).symm
  | wasReset hs h =>
    refine ⟨[], fun r => iff_of_false List.not_mem_nil ?_, ?_, ?_⟩
    · rintro (⟨⟨⟩⟩ | ⟨⟨⟩⟩)
    · rw [memory_of_reset h]
      exact .same rfl
    · rw [memory_of_reset h]
      rfl

/-! ### The latest timestamp -/

/-- The greater of two timestamps. -/
theorem isGreatest_max (t u : UInt64) : IsGreatest {t, u} (max t u) := by
  have hmax : max t u = if t ≤ u then u else t := rfl
  rw [hmax]
  by_cases h : t ≤ u
  · rw [if_pos h]
    refine ⟨.inr rfl, ?_⟩
    rintro x (rfl | rfl)
    · exact h
    · exact UInt64.le_refl x
  · rw [if_neg h]
    refine ⟨.inl rfl, ?_⟩
    rintro x (rfl | rfl)
    · exact UInt64.le_refl x
    · exact UInt64.le_of_lt (UInt64.not_le.mp h)

/-- The greatest of a timestamp and some others. -/
theorem isGreatest_foldl_max (t : UInt64) (ts : List UInt64) :
    IsGreatest (insert t {u | u ∈ ts}) (ts.foldl max t) := by
  induction ts generalizing t with
  | nil => simp [IsGreatest, upperBounds]
  | cons u ts ih =>
    obtain ⟨hmem, hupper⟩ := ih (max t u)
    obtain ⟨hmax, hpair⟩ := isGreatest_max t u
    have hstart : max t u ≤ ts.foldl max (max t u) := hupper (Set.mem_insert _ _)
    rw [List.foldl_cons]
    constructor
    · -- the rest of the fold starts from one of the two
      rcases hmem with heq | hmem
      · rw [heq]
        exact hmax.imp_right fun hu => List.mem_cons.mpr (.inl hu)
      · exact .inr (List.mem_cons_of_mem u hmem)
    · rintro x (rfl | hx)
      · exact UInt64.le_trans (hpair (.inl rfl)) hstart
      · rcases List.mem_cons.mp hx with rfl | hx
        · exact UInt64.le_trans (hpair (.inr rfl)) hstart
        · exact hupper (Set.mem_insert_of_mem _ hx)

/-- The latest timestamp of records is the greatest among theirs and the one before. -/
theorem isGreatest_latest (t : UInt64) (rs : List BlockRecord) :
    IsGreatest (insert t {u | ∃ r ∈ rs, r.timestamp = some u}) (latest t rs) := by
  have hset : {u | ∃ r ∈ rs, r.timestamp = some u} = {u | u ∈ rs.filterMap (·.timestamp)} := by
    ext u
    simp [List.mem_filterMap]
  rw [hset]
  exact isGreatest_foldl_max t _

/-- Records that are put on the chain do not lower the latest timestamp. -/
theorem le_latest (t : UInt64) (rs : List BlockRecord) : t ≤ latest t rs :=
  (isGreatest_latest t rs).2 (Set.mem_insert _ _)

/-- **The latest timestamp is the highest one that was ever canonical** in the era: the greatest of
zero and the timestamps of all records that were put on the canonical chain since the chain was
opened or was last reset. No request lowers it but a reset that succeeds. The records that count are
those that the canonical map was made of, in turn. -/
theorem Era.latestTimestamp_greatest (h : Era start steps s) :
    IsGreatest (insert 0 {t | ∃ r, Inscribed start steps r ∧ r.timestamp = some t})
        s.memory.latestTimestamp ∧
      (∀ q : Request, ¬q.EndsEra s →
        s.memory.latestTimestamp ≤ (q.after s).memory.latestTimestamp) ∧
      ∃ written, (∀ r, r ∈ written ↔ Inscribed start steps r) ∧
        Index.Rewrites .empty written s.memory.index := by
  obtain ⟨written, hmem, hrewrites, hlatest⟩ := h.exists_written
  refine ⟨?_, fun q hq => ?_, written, hmem, hrewrites⟩
  · rw [hlatest]
    simpa only [hmem] using isGreatest_latest 0 written
  · obtain ⟨rs, -, -, htime⟩ | ⟨-, -, htime⟩ := q.accounts hq
    · rw [htime]
      exact le_latest _ rs
    · exact UInt64.le_of_eq htime.symm

end Chain

/-! ### A branch with older timestamps -/

namespace Sample

/-- A first block that is heavier than the other one, and older. -/
def elder : HeaderBlock := block 6 0 Hash.zero 40 (some 1600000000)

/-- A chain that was opened on an empty store and offered the younger one. -/
def young : Session Chain :=
  (Chain.Request.offer accepting root).after (Chain.opened verifier accepting {} {})

/-- The same chain, after it was offered the older one as well. -/
def aged : Session Chain := (Chain.Request.offer accepting elder).after young

/-- What was asked of it. -/
def aging : List (Session Chain × Chain.Request) :=
  [(young, .offer accepting elder), (Chain.opened verifier accepting {} {}, .offer accepting root)]

theorem era_aged : Chain.Era (.opened verifier accepting {} {}) aging aged := by
  have hload := Chain.load_of_empty (v := verifier) (k := accepting) ⟨Chain.fresh {}, {}, []⟩
    rfl rfl fun _ _ => rfl
  have hyoung : Chain.Era (.opened verifier accepting {} {}) _ young :=
    (Chain.Era.opened hload.result).asked (Chain.not_endsEra_offer accepting root _)
  exact hyoung.asked (Chain.not_endsEra_offer accepting elder _)

end Sample

set_option maxRecDepth 4000 in
/-- The older block takes the place of the first one, and the latest timestamp stays that of the
block that is no longer canonical. -/
theorem Chain.latestTimestamp_greatest_aged :
    Sample.aged.memory.peak? = some Sample.elder ∧
      Sample.aged.memory.latestTimestamp = Sample.genesisTimestamp ∧
      IsGreatest (insert 0 {t | ∃ r,
          Inscribed (.opened Sample.verifier Sample.accepting {} {}) Sample.aging r ∧
            r.timestamp = some t}) Sample.genesisTimestamp := by
  obtain ⟨hgreatest, -⟩ := Sample.era_aged.latestTimestamp_greatest
  have hlatest : Sample.aged.memory.latestTimestamp = Sample.genesisTimestamp := by cbv
  exact ⟨by cbv, hlatest, hlatest ▸ hgreatest⟩

end HeaderChain
