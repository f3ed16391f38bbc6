import HeaderChain.Proofs.Reseeding

/-!
# What lasts on the records of an index

Records come into an index in two ways only: as what a builder made of an offered block, or with a
weight proof. So what holds of all of these, and bears eviction, holds of whatever is indexed, and
no more than that has to be known of the operations.

* `Index.All` — every record lies under its own hash and has a property;
* `Index.Lasts` — what an index keeps as long as only records with that property are added to it:
  the property itself (`Index.lasts_all`), and that the buckets tell the truth, if records of one
  hash stand at one height (`Index.lasts_filed`);
* `Chain.lasts_offered`, `Chain.lasts_proofOffered`, `Chain.lasts_loaded`, `Chain.lasts_reset` —
  each operation keeps it.
-/

namespace HeaderChain

namespace Index

variable {P : BlockRecord → Prop} {Q : Index → Prop} {i : Index} {r : BlockRecord}

/-- **Every record has a property**, and lies under its own hash. -/
def All (P : BlockRecord → Prop) (i : Index) : Prop :=
  ∀ x r, i.record? x = some r → r.hash = x ∧ P r

/-- **What lasts** on an index to which only records with the property `P` are added: it holds of
the empty index, whatever changes the records keeps it, and it is about nothing but records and
buckets. -/
structure Lasts (P : BlockRecord → Prop) (Q : Index → Prop) : Prop where
  empty : Q .empty
  add : ∀ {i r}, Q i → P r → Q (i.add r)
  pruneBelow : ∀ {i} (h : Height), Q i → Q (i.pruneBelow h).1
  congr : ∀ {i j}, i.record? = j.record? → i.buckets = j.buckets → Q i → Q j
  /-- The records have the property. -/
  record : ∀ {i x r}, Q i → i.record? x = some r → P r

theorem lasts_all (P : BlockRecord → Prop) : Lasts P (All P) where
  empty x r hr := by simp at hr
  add {i r} hi hr x r' hr' := by
    rw [record?_add] at hr'
    split at hr'
    next hx => exact Option.some.inj hr' ▸ ⟨hx, hr⟩
    next => exact hi x r' hr'
  pruneBelow h hi x r hr := hi x r (record?_of_pruneBelow hr)
  congr heq _ hi x r hr := hi x r (heq ▸ hr)
  record hi hr := (hi _ _ hr).2

/-- **The buckets go on to tell the truth** if records of one hash stand at one height. -/
theorem lasts_filed (hP : ∀ {r r'}, P r → P r' → r.hash = r'.hash → r.height = r'.height) :
    Lasts P fun i => All P i ∧ i.Filed where
  empty := ⟨(lasts_all P).empty, filed_empty⟩
  add {i r} hi hr := by
    refine ⟨(lasts_all P).add hi.1 hr, hi.2.add fun old hold => ?_⟩
    obtain ⟨hhash, hold⟩ := hi.1 _ _ hold
    exact hP hold hr hhash
  pruneBelow h hi := ⟨(lasts_all P).pruneBelow h hi.1, hi.2.pruneBelow h⟩
  congr hr hb hi := ⟨(lasts_all P).congr hr hb hi.1, filed_congr hb hr hi.2⟩
  record hi := (lasts_all P).record hi.1

/-! ### Changes to the index -/

variable (hQ : Lasts P Q)

include hQ

theorem Lasts.replaceFrom (hi : Q i) (k : Height) (path : List BlockRecord) :
    Q (Chain.replaceFrom i k path) :=
  hQ.congr record?_replaceFrom.symm buckets_replaceFrom.symm hi

theorem Lasts.reseed (hi : Q i) {rs : List BlockRecord} (hrs : ∀ r ∈ rs, P r) :
    Q (Chain.reseed i rs) := by
  refine reseed_induction ?_ fun j hj r hr => hQ.add ?_ (hrs r hr)
  · exact hQ.congr (record?_dropHeightsFrom i 0).symm (buckets_dropHeightsFrom i 0).symm hi
  · exact hQ.congr (i := j) rfl rfl hj

end Index

/-! ### Operations -/

namespace Chain

variable {P : BlockRecord → Prop} {Q : Index → Prop} (hQ : Index.Lasts P Q) {k : Consensus}
  {v : Verifier} {c m : Chain} {d : Disk} {cs : List Call} {b tip : HeaderBlock} {r : BlockRecord}
  {w : WeightProof} {rs : List BlockRecord}

include hQ

theorem lasts_evicted (hc : Q c.index) (h : Height) : Q (c.evicted h).index := by
  unfold evicted
  split
  · exact hc
  · exact hQ.pruneBelow _ hc

theorem lasts_adopted (hc : Q c.index) (hr : P r) (changedFrom : Height)
    (path : List BlockRecord) : Q (c.adopted b r changedFrom path).index :=
  lasts_evicted hQ (hQ.replaceFrom (hQ.add hc hr) changedFrom path) r.height

theorem lasts_reseeded (hc : Q c.index) (hrs : ∀ r ∈ rs, P r) : Q (c.reseeded rs tip).index :=
  lasts_evicted hQ (hQ.reseed hc hrs) tip.height

/-- **Offering a block** adds no record but the one that was built. -/
theorem lasts_offered (hc : Q c.index) (hbuilt : ∀ r, Validated k b c r → P r)
    {a : Except ChainError Outcome} (h : Offered k b c d a m cs) : Q m.index := by
  cases h with
  | known | disconnected | unadjusted | invalid | unbuilt | pathless | refused => exact hc
  | unresolved hr | orphan hr => exact hQ.add hc (hbuilt _ hr)
  | newPeak hr => exact lasts_adopted hQ hc (hbuilt _ hr) _ _

omit hQ in
@[simp] theorem index_withProof (persist : Bool) : (c.withProof w persist).index = c.index := by
  cases persist <;> rfl

theorem lasts_seeded (hc : Q c.index) (hrs : ∀ r ∈ rs, P r) {persist : Bool}
    {a : Except ChainError Unit} (h : Seeding w rs c d persist a m cs) : Q m.index := by
  have hstored : Q (c.withProof w persist).index := by rwa [index_withProof]
  cases h with
  | empty | tipMissing | proofRefused => exact hc
  | peakRefused => exact hstored
  | seeded => exact lasts_reseeded hQ hstored hrs

/-- **Offering a proof** adds no records but its own. -/
theorem lasts_proofOffered {records : Option (List BlockRecord)} (hc : Q c.index)
    (hv : ∀ {w skip rs}, v w skip = .ok rs → ∀ r ∈ rs, P r)
    (hrecords : ∀ rs, records = some rs → ∀ r ∈ rs, P r) {a : Except ChainError Bool}
    (h : ProofOffered v w c d records a m cs) : Q m.index := by
  cases h with
  | empty | tooLight | rejected => exact hc
  | seeding _ _ hr hs =>
    refine lasts_seeded hQ hc ?_ hs
    rcases hr with hr | ⟨-, hr⟩
    · exact hrecords _ hr
    · exact hv hr

/-- A peak that is adopted again is one whose record is indexed already. -/
theorem lasts_readopted (hc : Q c.index) {stored : Option HeaderBlock}
    {a : Except ChainError Unit} (h : Readopting k c d stored a m cs) : Q m.index := by
  cases h with
  | absent | current | unknown | unresolved | tooLight | pathless | refused => exact hc
  | readopted hr => exact lasts_adopted hQ hc (hQ.record hc hr) _ _

/-- **Opening a chain** adds no records but those of the stored proof. -/
theorem lasts_loaded (hc : Q c.index) (hv : ∀ {w skip rs}, v w skip = .ok rs → ∀ r ∈ rs, P r)
    {a : Except ChainError Unit} (h : Loading k v c d a m cs) : Q m.index := by
  have hstored : ∀ w, Q (c.withProof w true).index := fun _ => hc
  cases h with
  | proofRefused | proofMalformed | peakRefused | peakMalformed => exact hc
  | rejected => exact hstored _
  | unseeded _ _ hr => exact lasts_readopted hQ hc hr
  | unseedable _ hverified hs => exact lasts_seeded hQ (hstored _) (hv hverified) hs
  | seeded _ _ hverified hs hr =>
    exact lasts_readopted hQ (lasts_seeded hQ (hstored _) (hv hverified) hs) hr

theorem lasts_reset (hc : Q c.index) {a : Except ChainError Unit} (h : Resetting c d a m cs) :
    Q m.index := by
  cases h with
  | proofRefused | peakRefused => exact hc
  | done => exact hQ.empty

end Chain

end HeaderChain
