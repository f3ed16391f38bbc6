import HeaderChain.Proofs.Metrics
import HeaderChain.Proofs.Takeover
import HeaderChain.Proofs.Window

/-!
# What eviction keeps

Eviction goes by the buckets, never by the records. As long as a hash has one height the buckets
mirror the records, however often these are added, replaced, evicted and added again, and then
eviction keeps exactly the window.

* `Chain.Setting.graded` — the setting in which a hash comes with one height, and builders copy hash
  and height of a block; `Chain.Reachable.graded` — what is indexed then stands at the height of its
  hash, and the buckets tell the truth;
* `Chain.contains_evicted_of_sameRecords` — records are added and then evicted: what is left of them
  and of those before is what stands at the floor or above it;
* `Session.Tallies.evicted_grows` — the counter of evicted records grows by the number of hashes
  that are gone;
* `Chain.Retains` — both, and that the canonical map is the one there would be without any eviction;
  `Chain.Reachable.retains` — so it is with every block that becomes the peak and with every proof
  that is taken.
-/

namespace HeaderChain

open Procedure

/-! ### Records that are added -/

namespace Index

variable {P : BlockRecord → Prop} {Q : Index → Prop} {i j : Index} {r : BlockRecord}
  {rs : List BlockRecord} {x : Hash}

/-- Records that are added in turn are indexed then, beside what was. -/
theorem contains_addAll : (i.addAll rs).contains x = true ↔
    i.contains x = true ∨ ∃ r ∈ rs, r.hash = x := by
  induction rs generalizing i with
  | nil => simp
  | cons r rs ih =>
    rw [addAll_cons, ih, Chain.contains_add, or_assoc, or_left_comm]
    simp

/-- What is indexed then is one of them, or was indexed before. -/
theorem mem_of_record?_addAll (h : (i.addAll rs).record? x = some r) :
    i.record? x = some r ∨ r ∈ rs ∧ r.hash = x := by
  induction rs generalizing i with
  | nil => exact .inl h
  | cons s rs ih =>
    rcases ih h with hr | ⟨hmem, hr⟩
    · rw [record?_add] at hr
      split at hr
      next hx =>
        obtain rfl := Option.some.inj hr
        exact .inr ⟨List.mem_cons_self, hx⟩
      next => exact .inl hr
    · exact .inr ⟨List.mem_cons_of_mem s hmem, hr⟩

theorem Lasts.addAll (hQ : Lasts P Q) (hi : Q i) (hrs : ∀ r ∈ rs, P r) : Q (i.addAll rs) := by
  induction rs generalizing i with
  | nil => exact hi
  | cons r rs ih =>
    obtain ⟨hr, hrs⟩ := List.forall_mem_cons.mp hrs
    exact ih (hQ.add hi hr) hrs

/-- **The hashes that are gone** from one index to another one make up the difference in size. -/
theorem exists_gone (hsub : ∀ x, j.contains x = true → i.contains x = true) :
    ∃ gone : List Hash, gone.Nodup ∧
      (∀ x, x ∈ gone ↔ i.contains x = true ∧ j.contains x = false) ∧
      gone.length + j.size = i.size := by
  have hinter : (i.records ∩ j.records).size = j.records.size :=
    Std.ExtTreeMap.size_inter_eq_size_right fun x hx =>
      contains_iff_mem.mp (hsub x (contains_iff_mem.mpr hx))
  refine ⟨(i.records \ j.records).keys, Std.ExtTreeMap.nodup_keys, fun x => ?_, ?_⟩
  · rw [Std.ExtTreeMap.mem_keys, Std.ExtTreeMap.mem_diff_iff, ← contains_iff_mem,
      ← contains_iff_mem, Bool.not_eq_true]
  · rw [Std.ExtTreeMap.length_keys, size, size, ← hinter]
    exact Std.ExtTreeMap.size_diff_add_size_inter_eq_size_left

end Index

/-! ### The counter -/

/-- **The counter of evicted records grows by what is gone**, if records were added and nothing but
eviction took others away. -/
theorem Session.Tallies.evicted_grows {s s' : Session Chain} {t t' : Tally}
    {rs : List BlockRecord} (h : s.Tallies t) (h' : s'.Tallies t')
    (hknown : t'.known = t.known + s.memory.index.novel rs)
    (hsub : ∀ x, s'.memory.index.contains x = true →
      (s.memory.index.addAll rs).contains x = true) :
    ∃ (n : Nat) (gone : List Hash), s.readings.evicted = some n ∧
      s'.readings.evicted = some (n + gone.length) ∧ gone.Nodup ∧ ∀ x, x ∈ gone ↔
        (s.memory.index.addAll rs).contains x = true ∧ s'.memory.index.contains x = false := by
  obtain ⟨n, hn, hbefore⟩ := h.evicted
  obtain ⟨n', hn', hafter⟩ := h'.evicted
  obtain ⟨gone, hnodup, hgone, hlength⟩ := Index.exists_gone hsub
  -- what is neither indexed any more nor counted would be missing from the account
  have hsize := s.memory.index.size_addAll rs
  have hgrows : n' = n + gone.length := by omega
  exact ⟨n, gone, hn, hgrows ▸ hn', hnodup, hgone⟩

namespace Chain

variable {heightOf : Hash → Height} {k : Consensus} {v : Verifier} {b tip peak : HeaderBlock}
  {r : BlockRecord} {w : WeightProof} {rs added : List BlockRecord}
  {records : Option (List BlockRecord)} {c c' m : Chain} {d : Disk} {cs : List Call}
  {s : Session Chain} {h : Height} {x : Hash}

/-! ### Heights by hashes -/

/-- **The setting in which a hash comes with one height**, wherever it turns up: in a block that is
offered, in the records of a proof and in a stored peak. Builders copy the hash and the height of a
block. -/
def Setting.graded (heightOf : Hash → Height) : Setting where
  opens v d := v.Follows (fun _ rs => ∀ r ∈ rs, r.height = heightOf r.hash) ∧
    ∀ b, d.value? HeaderBlock peakKey = .ok (some b) → b.height = heightOf b.hash
  admits _
    | .offer k b => b.height = heightOf b.hash ∧ ∀ constants i iters r,
      k.build constants i iters b = .ok r → r.hash = b.hash ∧ r.height = b.height
    | .offerProof v _ records => v.Follows (fun _ rs => ∀ r ∈ rs, r.height = heightOf r.hash) ∧
      ∀ rs, records = some rs → ∀ r ∈ rs, r.height = heightOf r.hash
    | .reset => True

/-- What is indexed lies under its hash and stands at its height, and the buckets tell where. -/
def Graded (heightOf : Hash → Height) (i : Index) : Prop :=
  i.All (fun r => r.height = heightOf r.hash) ∧ i.Filed

theorem lasts_graded (heightOf : Hash → Height) :
    Index.Lasts (fun r => r.height = heightOf r.hash) (Graded heightOf) :=
  Index.lasts_filed fun hr hr' hhash => by rw [hr, hr', hhash]

/-- Collaborators that accept some blocks only may be asked about these. -/
theorem Setting.admits_only {blocks : List HeaderBlock}
    (h : ∀ b ∈ blocks, b.height = heightOf b.hash) (s : Session Chain) :
    ∀ b ∈ blocks, (Setting.graded heightOf).admits s (.offer (.only blocks) b) := by
  refine fun b hb => ⟨h b hb, fun constants i iters r hbuild => ?_⟩
  obtain rfl : Sample.record b = r := Except.ok.inj hbuild
  exact ⟨rfl, rfl⟩

/-- The record of a block is a copy of it. -/
theorem Validated.graded (hr : Validated k b s.memory r)
    (hq : (Setting.graded heightOf).admits s (.offer k b)) :
    r.hash = b.hash ∧ r.height = b.height ∧ r.height = heightOf r.hash := by
  obtain ⟨-, p, iters, -, -, hbuild⟩ := hr
  obtain ⟨hhash, hheight⟩ := hq.2 _ _ _ _ hbuild
  exact ⟨hhash, hheight, by rw [hheight, hhash, hq.1]⟩

/-- The records of a proof that is admitted stand at the heights of their hashes. -/
theorem Supplies.graded (hrs : Supplies v w records s.memory rs)
    (hq : (Setting.graded heightOf).admits s (.offerProof v w records)) :
    ∀ r ∈ rs, r.height = heightOf r.hash := by
  rcases hrs with hrs | ⟨-, hv⟩
  · exact hq.2 rs hrs
  · exact hq.1 hv

/-- **At all times** what is indexed stands at the height of its hash. -/
theorem Reachable.graded (hs : Reachable (.graded heightOf) s) :
    Graded heightOf s.memory.index := by
  refine hs.lasts_of (lasts_graded heightOf) (fun hopens _ _ _ hv => hopens.1 hv) ?_ ?_
  · exact fun hq hr => (hr.graded hq).2.2
  · exact fun hq => ⟨hq.1, hq.2⟩

/-- The account is kept whatever a request comes to. -/
theorem Request.exists_tallies {t : Tally} (ht : s.Tallies t) (q : Request) :
    ∃ t', (q.after s).Tallies t' := by
  -- each operation goes on with some tally, however it ends
  cases q with
  | offer k b =>
    have htallies := Chain.tallies_offer (k := k) (b := b) ht
    unfold EndsIn at htallies
    rcases ha : (Chain.offer k b).result s with e | o <;> rw [ha] at htallies
    · exact ⟨_, htallies⟩
    · exact ⟨_, htallies⟩
  | offerProof v w records =>
    have htallies := Chain.tallies_offerProof (v := v) (w := w) ht records
    unfold EndsIn at htallies
    rcases ha : (Chain.offerProof v w records).result s with e | _ | _ <;> rw [ha] at htallies
    · exact ⟨_, htallies⟩
    · exact ⟨_, htallies⟩
    · obtain ⟨tip, rs, -, -, htallies⟩ := htallies
      exact ⟨_, htallies⟩
  | reset =>
    have htallies := Chain.tallies_reset ht
    unfold EndsIn at htallies
    rcases ha : Chain.reset.result s with e | _ <;> rw [ha] at htallies
    · exact ⟨_, htallies⟩
    · exact ⟨_, htallies⟩

theorem Reachable.exists_tallies (hs : Reachable (.graded heightOf) s) : ∃ t, s.Tallies t := by
  induction hs with
  | opened hopens h => exact ⟨_, tallies_load hopens.1 hopens.2 h⟩
  | asked _ _ ih =>
    obtain ⟨t, ht⟩ := ih
    exact Request.exists_tallies ht _

/-! ### The window -/

/-- Eviction keeps what stands at the floor or above it, and everything if there is none. -/
theorem contains_evicted (hf : c.index.Filed) : (c.evicted h).index.contains x = true ↔
    ∃ r, c.index.record? x = some r ∧
      ∀ floor, c.config.floor? h = some floor → floor ≤ r.height := by
  rw [Index.contains_iff]
  unfold evicted
  cases c.config.floor? h with
  | none => simp
  | some floor =>
    change (∃ r, (c.index.pruneBelow floor).1.record? x = some r) ↔ _
    simp only [Index.record?_pruneBelow hf, Option.filter_eq_some_iff, decide_eq_true_eq,
      Option.some.injEq, forall_eq']

/-- **Records are added and old ones evicted**: what is left are the hashes that were indexed or are
added and that stand at the floor or above it. -/
theorem contains_evicted_of_sameRecords (hc : Graded heightOf c.index)
    (hadded : ∀ r ∈ added, r.height = heightOf r.hash)
    (hsame : c'.index.SameRecords (c.index.addAll added)) :
    (c'.evicted h).index.contains x = true ↔
      ∃ r, (c.index.record? x = some r ∨ r ∈ added ∧ r.hash = x) ∧
        ∀ floor, c'.config.floor? h = some floor → floor ≤ r.height := by
  have hrecord : c'.index.record? = (c.index.addAll added).record? := by
    funext y
    rw [Index.record?, hsame.records, Index.record?]
  have hboth := (lasts_graded heightOf).addAll hc hadded
  have hfiled : c'.index.Filed := Index.filed_congr hsame.buckets.symm hrecord.symm hboth.2
  rw [contains_evicted hfiled, hrecord]
  constructor
  · rintro ⟨r, hr, hfloor⟩
    exact ⟨r, Index.mem_of_record?_addAll hr, hfloor⟩
  · rintro ⟨r, hr, hfloor⟩
    -- a record of this hash is indexed, perhaps another one, but it stands at the same height
    have hcontains : (c.index.addAll added).contains x = true :=
      Index.contains_addAll.mpr (hr.imp (fun hr => Index.contains_iff.mpr ⟨r, hr⟩) fun hr =>
        ⟨r, hr⟩)
    obtain ⟨r', hr'⟩ := Index.contains_iff.mp hcontains
    have hheight : r.height = heightOf x := by
      rcases hr with hr | ⟨hmem, rfl⟩
      · obtain ⟨rfl, hheight⟩ := hc.1 x r hr
        exact hheight
      · exact hadded r hmem
    have hheight' : r'.height = heightOf x := by
      obtain ⟨rfl, hheight'⟩ := hboth.1 x r' hr'
      exact hheight'
    exact ⟨r', hr', fun floor hf => by rw [hheight', ← hheight]; exact hfloor floor hf⟩

/-! ### Operations -/

/-- The chain with a configuration that evicts nothing. -/
def unbounded (c : Chain) : Chain := { c with config := { c.config with blockRetention := 0 } }

theorem evicted_unbounded (c : Chain) (h : Height) : c.unbounded.evicted h = c.unbounded := rfl

end Chain

/-- The session of a chain that evicts nothing. -/
def Session.unbounded (s : Session Chain) : Session Chain :=
  { s with memory := s.memory.unbounded }

namespace Chain

variable {heightOf : Hash → Height} {k : Consensus} {v : Verifier} {b tip peak : HeaderBlock}
  {r : BlockRecord} {w : WeightProof} {rs added : List BlockRecord}
  {records : Option (List BlockRecord)} {c' : Chain} {s t u : Session Chain}

/-- **The window is kept, and nothing else** by an operation that adds records and makes a block the
peak. It has led from `s` to `t`, and would have led to `u` if nothing were evicted. -/
structure Retains (added : List BlockRecord) (peak : HeaderBlock) (s t u : Session Chain) :
    Prop where
  peak?_eq : t.memory.peak? = some peak
  /-- It is the height of a record that decides, be it canonical or not. -/
  kept : ∀ x, t.memory.index.contains x = true ↔
    ∃ r, (s.memory.index.record? x = some r ∨ r ∈ added ∧ r.hash = x) ∧
      ∀ floor, s.memory.config.floor? peak.height = some floor → floor ≤ r.height
  hoarded : ∀ x, u.memory.index.contains x = true ↔
    s.memory.index.contains x = true ∨ ∃ r ∈ added, r.hash = x
  /-- Eviction leaves the canonical map alone. -/
  canonical : t.memory.index.canonical = u.memory.index.canonical
  counted : ∃ (n : Nat) (gone : List Hash), s.readings.evicted = some n ∧
    t.readings.evicted = some (n + gone.length) ∧ gone.Nodup ∧
    ∀ x, x ∈ gone ↔ u.memory.index.contains x = true ∧ t.memory.index.contains x = false

/-- An operation that ends with an eviction retains the window. -/
theorem retains_of_evicted (hs : Graded heightOf s.memory.index)
    (hadded : ∀ r ∈ added, r.height = heightOf r.hash)
    (ht : t.memory = c'.evicted peak.height) (hu : u.memory = c'.unbounded.evicted peak.height)
    (hsame : c'.index.SameRecords (s.memory.index.addAll added))
    (hconfig : c'.config = s.memory.config) (hpeak : c'.peak? = some peak)
    {tally tally' : Tally} (hbefore : s.Tallies tally) (hafter : t.Tallies tally')
    (hknown : tally'.known = tally.known + s.memory.index.novel added) :
    Retains added peak s t u := by
  have hindex : u.memory.index = c'.index := by rw [hu, evicted_unbounded]; rfl
  -- without a bound, everything is kept; with one, what stands at the floor or above
  have hcontains : ∀ x, u.memory.index.contains x = (s.memory.index.addAll added).contains x :=
    fun x => by rw [hindex, Index.contains, Index.record?, hsame.records]; rfl
  have hkept : ∀ x, t.memory.index.contains x = true ↔
      ∃ r, (s.memory.index.record? x = some r ∨ r ∈ added ∧ r.hash = x) ∧
        ∀ floor, s.memory.config.floor? peak.height = some floor → floor ≤ r.height := by
    intro x
    rw [ht, contains_evicted_of_sameRecords hs hadded hsame, hconfig]
  refine ⟨?_, hkept, fun x => ?_, ?_, ?_⟩
  · rw [ht, Chain.peak?, slots_evicted]
    exact hpeak
  · rw [hcontains, Index.contains_addAll]
  · rw [ht, canonical_evicted, hindex]
  · have hsub : ∀ x, t.memory.index.contains x = true →
        (s.memory.index.addAll added).contains x = true := by
      intro x hx
      obtain ⟨r, hr, -⟩ := (hkept x).mp hx
      exact Index.contains_addAll.mpr
        (hr.imp (fun hr => Index.contains_iff.mpr ⟨r, hr⟩) fun hr => ⟨r, hr⟩)
    simpa only [hcontains] using hbefore.evicted_grows hafter hknown hsub

/-- The chain after a record was made the peak, before anything is evicted for that. -/
def crowned (c : Chain) (b : HeaderBlock) (r : BlockRecord) (changedFrom : Height)
    (path : List BlockRecord) : Chain :=
  { c with
    slots := { c.slots with peak := some b, latestTimestamp := latest c.latestTimestamp path }
    index := replaceFrom (c.index.add r) changedFrom path }

theorem adopted_eq (c : Chain) (b : HeaderBlock) (r : BlockRecord) (changedFrom : Height)
    (path : List BlockRecord) :
    c.adopted b r changedFrom path = (c.crowned b r changedFrom path).evicted r.height := rfl

/-- **A block that becomes the peak.** -/
theorem retains_newPeak (hs : Reachable (.graded heightOf) s)
    (hq : (Setting.graded heightOf).admits s (.offer k b))
    (h : (offer k b).result s = .ok .newPeak) :
    (offer k b).result s.unbounded = .ok .newPeak ∧ ∃ r, Validated k b s.memory r ∧
      Retains [r] b s ((offer k b).after s) ((offer k b).after s.unbounded) := by
  obtain ⟨tally, hbefore⟩ := hs.exists_tallies
  have hafter := tallies_offer (k := k) (b := b) hbefore
  unfold EndsIn at hafter
  rw [h] at hafter
  obtain ⟨a, m, cs, hgives, hoffered⟩ := offer_cases k b s
  obtain rfl : a = .ok .newPeak := hgives.result.symm.trans h
  cases hoffered with
  | @newPeak r choice changedFrom path hr hstanding hc hpath hd =>
    -- the configuration decides about nothing but the eviction
    have hfree : Offered k b s.memory.unbounded s.disk (.ok .newPeak)
        (s.memory.unbounded.adopted b r changedFrom path) [storesPeak b] :=
      .newPeak ⟨hr.fresh, hr.valid⟩ hstanding hc hpath hd
    have hunbounded : (offer k b).Gives s.unbounded _ _ _ := hfree.gives
    obtain ⟨-, hheight, hgraded⟩ := hr.graded hq
    have hmemory : ((offer k b).after s).memory =
        (s.memory.crowned b r changedFrom path).evicted b.height := by
      rw [hgives.memory, adopted_eq, hheight]
    have hfree' : ((offer k b).after s.unbounded).memory =
        (s.memory.crowned b r changedFrom path).unbounded.evicted b.height := by
      rw [hunbounded.memory, adopted_eq, hheight]
      rfl
    have hadded : ∀ r' ∈ [r], r'.height = heightOf r'.hash := by simpa using hgraded
    have hknown := Tally.considered_newPeak (t := tally) hr
    refine ⟨hunbounded.result, r, hr, ?_⟩
    exact retains_of_evicted hs.graded hadded hmemory hfree'
      (Index.sameRecords_replaceFrom (s.memory.index.add r) changedFrom path) rfl rfl hbefore
      hafter (by rw [hknown]; rfl)

/-- **A proof that is taken.** -/
theorem retains_takeover (hs : Reachable (.graded heightOf) s)
    (hq : (Setting.graded heightOf).admits s (.offerProof v w records))
    (h : (offerProof v w records).result s = .ok true) :
    (offerProof v w records).result s.unbounded = .ok true ∧ ∃ tip rs,
      Qualifies v w records s.memory tip rs ∧
      Retains rs tip s ((offerProof v w records).after s)
        ((offerProof v w records).after s.unbounded) := by
  obtain ⟨tally, hbefore⟩ := hs.exists_tallies
  have hafter := tallies_offerProof (v := v) (w := w) hbefore records
  unfold EndsIn at hafter
  rw [h] at hafter
  obtain ⟨tip, rs, ht, hsupplies, hafter⟩ := hafter
  obtain ⟨tip', rs', hqualifies, haccepts⟩ := (result_offerProof_eq_iff s _).mp h
  obtain rfl : tip = tip' := Option.some.inj (ht.symm.trans hqualifies.outweighs.ends)
  obtain rfl : rs = rs' := eq_of_records hsupplies hqualifies.supplies
  have hgives := (hqualifies.taken haccepts).gives
  -- the configuration decides about nothing but the eviction
  have hfree : Qualifies v w records s.memory.unbounded tip rs :=
    ⟨⟨ht, hqualifies.outweighs.heavier⟩, hqualifies.supplies, hqualifies.holds_tip⟩
  have hunbounded : (offerProof v w records).Gives s.unbounded _ _ _ :=
    (hfree.taken haccepts).gives
  refine ⟨hunbounded.result, tip, rs, hqualifies, ?_⟩
  exact retains_of_evicted hs.graded (Supplies.graded hsupplies hq) hgives.memory
    hunbounded.memory (Index.sameRecords_reseed _ rs) rfl rfl hbefore hafter rfl

/-- **Retention keeps exactly the window.** Whenever a block becomes the peak or a proof is taken,
the hashes indexed afterwards are those that were indexed or are added and that stand at the floor
for the new peak or above it, whether they are canonical or not. The canonical map is as it would be
without an eviction, and the counter of evicted records grows by the number of hashes that are
gone. -/
theorem Reachable.retains (hs : Reachable (.graded heightOf) s) :
    (∀ k b, (Setting.graded heightOf).admits s (.offer k b) →
      (offer k b).result s = .ok .newPeak →
        (offer k b).result s.unbounded = .ok .newPeak ∧ ∃ r, Validated k b s.memory r ∧
          Retains [r] b s ((offer k b).after s) ((offer k b).after s.unbounded)) ∧
    ∀ v w records, (Setting.graded heightOf).admits s (.offerProof v w records) →
      (offerProof v w records).result s = .ok true →
        (offerProof v w records).result s.unbounded = .ok true ∧ ∃ tip rs,
          Qualifies v w records s.memory tip rs ∧
          Retains rs tip s ((offerProof v w records).after s)
            ((offerProof v w records).after s.unbounded) :=
  ⟨fun _ _ => retains_newPeak hs, fun _ _ _ => retains_takeover hs⟩

end Chain

namespace Sample

/-- The heights of the blocks in a row, by their hashes. -/
def tallHeight (x : Hash) : Height := .ofNat ((tall.map (·.hash)).idxOf x)

/-- A configuration with a window of one height. -/
def tight : Config where
  constants := { epochBlocks := 0, subEpochBlocks := 0 }
  blockRetention := 1

/-- A verifier that takes no proof. -/
def doubting : Verifier := fun _ _ => .error "no proof is taken"

/-- A chain that knows of the first two of the blocks in a row, and of no more than its window. -/
def windowed : Session Chain :=
  Chain.offerAll (.only tall) (tall.take 2) (Chain.opened doubting (.only tall) tight {})

/-- The third of the blocks. -/
def third : HeaderBlock := next 0 10 tall[1]?

/-- A proof over the first three of them. -/
def upToThird : WeightProof := { recent := tall.take 3 }

theorem height_tall : ∀ b ∈ tall, b.height = tallHeight b.hash := by
  decide +kernel

/-- A chain may be opened on nothing. -/
theorem opens_doubting (heightOf : Hash → Height) :
    (Chain.Setting.graded heightOf).opens doubting {} := by
  refine ⟨fun hv => ?_, fun b hb => ?_⟩
  · cases hv
  · cases hb

theorem reachable_windowed : Chain.Reachable (.graded tallHeight) windowed :=
  (Chain.Reachable.opened_empty (opens_doubting _) rfl fun _ _ => rfl).offerAll_of_forall
    fun s b hb => Chain.Setting.admits_only height_tall s b (List.mem_of_mem_take hb)

end Sample

set_option maxRecDepth 4000 in
/-- The third of the blocks in a row evicts the first one, and so does a proof over all three. -/
theorem Chain.retains_tall :
    Sample.windowed.memory.index.contains (Sample.blockHash 0 0) = true ∧
      ((offer (.only Sample.tall) Sample.third).after Sample.windowed).memory.index.contains
        (Sample.blockHash 0 0) = false ∧
      (∃ r, Retains [r] Sample.third Sample.windowed
        ((offer (.only Sample.tall) Sample.third).after Sample.windowed)
        ((offer (.only Sample.tall) Sample.third).after Sample.windowed.unbounded)) ∧
      ∃ tip rs, Retains rs tip Sample.windowed
        ((offerProof Sample.doubting Sample.upToThird
          (some (Sample.upToThird.recent.map Sample.record))).after Sample.windowed)
        ((offerProof Sample.doubting Sample.upToThird
          (some (Sample.upToThird.recent.map Sample.record))).after Sample.windowed.unbounded) := by
  obtain ⟨hblocks, hproofs⟩ := Sample.reachable_windowed.retains
  -- one evaluation tells what becomes of the lowest block, offered either way
  have hstate : (fun s : Session Chain => (s.memory.index.contains (Sample.blockHash 0 0),
      (offer (.only Sample.tall) Sample.third).result s,
      ((offer (.only Sample.tall) Sample.third).after s).memory.index.contains
        (Sample.blockHash 0 0),
      (offerProof Sample.doubting Sample.upToThird
        (some (Sample.upToThird.recent.map Sample.record))).result s)) Sample.windowed =
        (true, .ok .newPeak, false, .ok true) := by cbv
  simp only [Prod.mk.injEq] at hstate
  obtain ⟨hknown, hpeak, hgone, htaken⟩ := hstate
  have hthird : Sample.third ∈ Sample.tall := by decide +kernel
  have hproof : (Setting.graded Sample.tallHeight).admits Sample.windowed (.offerProof
      Sample.doubting Sample.upToThird (some (Sample.upToThird.recent.map Sample.record))) := by
    refine ⟨(Sample.opens_doubting Sample.tallHeight).1, fun rs hrs r hr => ?_⟩
    obtain rfl := Option.some.inj hrs
    obtain ⟨b, hb, rfl⟩ := List.mem_map.mp hr
    exact Sample.height_tall b (List.mem_of_mem_take hb)
  have hadmits := Setting.admits_only Sample.height_tall Sample.windowed Sample.third hthird
  obtain ⟨-, r, -, hretains⟩ := hblocks _ _ hadmits hpeak
  obtain ⟨-, tip, rs, -, hretains'⟩ := hproofs _ _ _ hproof htaken
  exact ⟨hknown, hgone, ⟨r, hretains⟩, tip, rs, hretains'⟩

end HeaderChain
