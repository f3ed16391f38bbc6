import HeaderChain.Chain.Basic

/-!
# What changes to the index do to look-ups

One equation for each pair of a change and a look-up, so that nothing else has to open the three
maps of an index.

* `Index.record?_add`, `Index.hashAt?_setHeight`, `Index.hashAt?_dropHeightsFrom` — the single
  changes;
* `Index.Filed` — the buckets tell the truth: a hash lies in the bucket of a height exactly if its
  record stands at that height. Eviction goes by the buckets alone, so this is what makes
  `Index.pruneBelow` a filter by height (`Index.record?_pruneBelow`);
* `Index.canonical_ext`, `Index.eq_of_lookups` — canonical maps, and indices, that answer alike are
  equal;
* `Index.pruneBelow_add_pruneBelow` — an eviction may be left to the next one.
-/

namespace HeaderChain

namespace Index

variable (i : Index) (r : BlockRecord) (x : Hash) (h k : Height)

/-! ### Single changes -/

/-- The last record added under a hash is the one that is found. -/
theorem record?_add : (i.add r).record? x = if r.hash = x then some r else i.record? x := by
  simp [record?, add, Std.ExtTreeMap.getElem?_insert]

@[simp] theorem canonical_add : (i.add r).canonical = i.canonical := rfl

@[simp] theorem hashAt?_add : (i.add r).hashAt? h = i.hashAt? h := rfl

@[simp] theorem record?_setHeight : (i.setHeight h x).record? = i.record? := rfl

@[simp] theorem buckets_setHeight : (i.setHeight h x).buckets = i.buckets := rfl

/-- The last hash set at a height is the one that is found there. -/
theorem hashAt?_setHeight :
    (i.setHeight h x).hashAt? k = if h = k then some x else i.hashAt? k := by
  simp [hashAt?, setHeight, Std.ExtTreeMap.getElem?_insert]

@[simp] theorem record?_dropHeightsFrom : (i.dropHeightsFrom h).record? = i.record? := by
  unfold dropHeightsFrom
  split <;> rfl

@[simp] theorem buckets_dropHeightsFrom : (i.dropHeightsFrom h).buckets = i.buckets := by
  unfold dropHeightsFrom
  split <;> rfl

/-- Heights below the given one are kept, and no others. -/
theorem hashAt?_dropHeightsFrom :
    (i.dropHeightsFrom h).hashAt? k = if k < h then i.hashAt? k else none := by
  rw [hashAt?, canonical_dropHeightsFrom, Std.ExtTreeMap.getElem?_filter']
  by_cases hk : k < h <;> cases hl : i.canonical[k]? <;> simp [hashAt?, hk, hl]

@[simp] theorem canonical_pruneBelow : (i.pruneBelow h).1.canonical = i.canonical := rfl

@[simp] theorem hashAt?_pruneBelow : (i.pruneBelow h).1.hashAt? k = i.hashAt? k := rfl

/-- Nothing is known in the empty index. -/
@[simp] theorem record?_empty : empty.record? x = none := by
  simp [record?, empty]

@[simp] theorem hashAt?_empty : empty.hashAt? h = none := by
  simp [hashAt?, empty]

variable {i r x h}

/-- A hash is known if it has a record. -/
theorem contains_iff : i.contains x = true ↔ ∃ r, i.record? x = some r :=
  Option.isSome_iff_exists

theorem contains_iff_mem : i.contains x = true ↔ x ∈ i.records :=
  Std.ExtTreeMap.mem_iff_isSome_getElem?.symm

/-- Looking up a record that must be there ends well if it is. -/
theorem record_eq_ok : i.record x = .ok r ↔ i.record? x = some r := by
  unfold record
  cases i.record? x <;> simp

/-- A height is canonical if a hash is set there. -/
theorem containsHeight_iff : i.containsHeight h = true ↔ ∃ x, i.hashAt? h = some x :=
  Option.isSome_iff_exists

/-- Canonical maps that answer alike are equal. -/
theorem canonical_ext {i j : Index} (h : ∀ k x, i.hashAt? k = some x ↔ j.hashAt? k = some x) :
    i.canonical = j.canonical :=
  Std.ExtTreeMap.ext_getElem? fun k => Option.ext fun x => h k x

/-- Records that are looked up alike are equal. -/
theorem records_ext {i j : Index} (h : ∀ x, i.record? x = j.record? x) : i.records = j.records :=
  Std.ExtTreeMap.ext_getElem? h

/-! ### Buckets -/

/-- The hashes in the bucket of a height. -/
def bucket (i : Index) (k : Height) : List Hash := (i.buckets[k]?).getD []

/-- The buckets tell where the records stand. -/
def Filed (i : Index) : Prop :=
  ∀ k x, x ∈ i.bucket k ↔ ∃ r, i.record? x = some r ∧ r.height = k

theorem filed_empty : Filed empty := by
  intro k x
  simp [bucket, empty, record?]

/-- Only buckets and records matter. -/
theorem filed_congr {i j : Index} (hb : i.buckets = j.buckets) (hr : i.record? = j.record?)
    (h : Filed i) : Filed j := by
  intro k x
  rw [bucket, ← hb, ← hr]
  exact h k x

/-- A record that takes the place of another one leaves the buckets as they are. -/
theorem bucket_add_of_contains (hknown : i.contains r.hash = true) (k : Height) :
    (i.add r).bucket k = i.bucket k := by
  simp [bucket, Index.add, hknown]

/-- A record that is new, or that stands where the one it replaces stood, keeps the buckets true. -/
theorem Filed.add (hf : Filed i) (hr : ∀ old, i.record? r.hash = some old → old.height = r.height) :
    Filed (i.add r) := by
  intro k x
  rw [record?_add]
  by_cases hk : i.contains r.hash = true
  · rw [bucket_add_of_contains hk, hf k x]
    obtain ⟨old, hold⟩ := contains_iff.mp hk
    by_cases hx : r.hash = x
    · subst hx
      simp [hold, hr old hold]
    · simp [hx]
  · -- the hash is put into the bucket of its height
    have hnone : i.record? r.hash = none := by
      simpa [contains] using hk
    have hbucket : (i.add r).bucket k =
        if r.height = k then r.hash :: i.bucket k else i.bucket k := by
      by_cases hrk : r.height = k
      · subst hrk
        simp [bucket, Index.add, hk]
      · simp [bucket, Index.add, hk, hrk, Std.ExtTreeMap.getElem?_insert]
    by_cases hx : r.hash = x
    · subst hx
      have hnot : r.hash ∉ i.bucket k := by simp [hf k r.hash, hnone]
      by_cases hrk : r.height = k <;> simp [hbucket, hrk, hnot]
    · by_cases hrk : r.height = k <;> simp [hbucket, hrk, hx, Ne.symm hx, hf k x]

/-! ### Eviction -/

/-- The hashes that an eviction goes through are those in the low buckets. -/
theorem mem_hashesBelow : x ∈ i.hashesBelow h ↔ ∃ k, k < h ∧ x ∈ i.bucket k := by
  simp only [hashesBelow, List.mem_flatMap, Prod.exists,
    Std.ExtTreeMap.mem_toList_iff_getElem?_eq_some, Std.ExtTreeMap.getElem?_filter', bucket]
  constructor
  · rintro ⟨k, l, hl, hx⟩
    obtain ⟨hl, hk⟩ := Option.filter_eq_some_iff.mp hl
    exact ⟨k, by simpa using hk, by simpa [hl] using hx⟩
  · rintro ⟨k, hk, hx⟩
    cases hl : i.buckets[k]? with
    | none => simp [hl] at hx
    | some l => exact ⟨k, l, by simp [hl, hk], by simpa [hl] using hx⟩

/-- Evicting hashes in turn leaves the records under all others. -/
theorem getElem?_foldl_evictHash (hashes : List Hash) (x : Hash)
    (state : Std.ExtTreeMap Hash BlockRecord × Nat) :
    (hashes.foldl evictHash state).1[x]? = if x ∈ hashes then none else state.1[x]? := by
  induction hashes generalizing state with
  | nil => simp
  | cons y hashes ih =>
    have hstep : (evictHash state y).1[x]? = if x = y then none else state.1[x]? := by
      -- a hash that is not known is passed over
      unfold evictHash
      split
      next hc =>
        rw [Std.ExtTreeMap.getElem?_erase]
        by_cases hxy : x = y <;> simp [hxy, Ne.symm]
      next hc =>
        by_cases hxy : x = y
        · subst hxy
          simpa using hc
        · simp [hxy]
    rw [List.foldl_cons, ih, hstep]
    by_cases hxy : x = y <;> by_cases hx : x ∈ hashes <;> simp [hxy, hx]

/-- **Eviction goes by the buckets**: what lies in a low one is gone. -/
theorem record?_pruneBelow_eq_ite (i : Index) (h : Height) (x : Hash) :
    (i.pruneBelow h).1.record? x = if x ∈ i.hashesBelow h then none else i.record? x :=
  getElem?_foldl_evictHash _ _ _

/-- The low buckets are emptied; the others stay. -/
theorem bucket_pruneBelow (i : Index) (h k : Height) :
    (i.pruneBelow h).1.bucket k = if h ≤ k then i.bucket k else [] := by
  simp only [bucket, Index.pruneBelow, Std.ExtTreeMap.getElem?_filter']
  by_cases hk : h ≤ k <;> cases i.buckets[k]? <;> simp [Option.filter, hk]

/-- **Eviction is a filter by height**, as long as the buckets tell the truth. -/
theorem record?_pruneBelow (hf : Filed i) (h : Height) (x : Hash) :
    (i.pruneBelow h).1.record? x = (i.record? x).filter (h ≤ ·.height) := by
  rw [record?_pruneBelow_eq_ite]
  -- a hash is in a bucket below the height exactly if its record stands there
  cases hr : i.record? x with
  | none => simp
  | some r =>
    have hmem : x ∈ i.hashesBelow h ↔ r.height < h := by
      rw [mem_hashesBelow]
      simp [hf _ x, hr]
    by_cases hlt : r.height < h
    · simp [hmem, hlt, Option.filter, UInt32.not_le.mpr hlt]
    · simp [hmem, hlt, Option.filter, UInt32.not_lt.mp hlt]

/-- Eviction keeps the buckets true: records and buckets go together. -/
theorem Filed.pruneBelow (hf : Filed i) (h : Height) : Filed (i.pruneBelow h).1 := by
  intro k x
  rw [bucket_pruneBelow, record?_pruneBelow hf]
  by_cases hk : h ≤ k
  · rw [if_pos hk, hf k x]
    simp only [Option.filter_eq_some_iff]
    constructor
    · rintro ⟨r, hr, rfl⟩
      exact ⟨r, ⟨hr, by simpa using hk⟩, rfl⟩
    · rintro ⟨r, ⟨hr, -⟩, rfl⟩
      exact ⟨r, hr, rfl⟩
  · rw [if_neg hk]
    simp only [Option.filter_eq_some_iff]
    constructor
    · simp
    · -- a record that is left stands at the height or above, so in no bucket that was emptied
      rintro ⟨r, ⟨-, hr⟩, rfl⟩
      exact absurd (by simpa using hr) hk

/-! ### Whole indices -/

/-- **Indices that answer alike are equal.** -/
theorem eq_of_lookups {i j : Index} (hr : ∀ x, i.record? x = j.record? x)
    (hc : ∀ k, i.hashAt? k = j.hashAt? k) (hb : ∀ k : Height, i.buckets[k]? = j.buckets[k]?) :
    i = j := by
  have hrecords := records_ext hr
  have hcanonical := canonical_ext (i := i) (j := j) fun k x => by rw [hc k]
  have hbuckets : i.buckets = j.buckets := Std.ExtTreeMap.ext_getElem? hb
  cases i
  cases j
  simp_all

/-- Nothing is dropped if all that is canonical lies below. -/
theorem dropHeightsFrom_eq_self (hlow : ∀ k x, i.hashAt? k = some x → k < h) :
    i.dropHeightsFrom h = i := by
  refine eq_of_lookups (fun x => by simp) (fun k => ?_) (fun k => by simp)
  rw [hashAt?_dropHeightsFrom]
  cases hx : i.hashAt? k with
  | none => simp
  | some x => rw [if_pos (hlow k x hx)]

/-- A new hash is put in front of those of its height. -/
theorem getElem?_buckets_add (hnew : i.record? r.hash = none) (k : Height) :
    (i.add r).buckets[k]? =
      if r.height = k then some (r.hash :: (i.buckets[k]?).getD []) else i.buckets[k]? := by
  have hcontains : i.contains r.hash = false := by simp [contains, hnew]
  simp only [add, hcontains, Bool.false_eq_true, if_false, Std.ExtTreeMap.getElem?_insert]
  by_cases hk : r.height = k <;> simp [hk]

/-- **A hash is put into a bucket** when it is new, and stays there when its record is replaced. -/
theorem mem_bucket_add : x ∈ (i.add r).bucket k ↔
    x ∈ i.bucket k ∨ i.record? x = none ∧ r.hash = x ∧ r.height = k := by
  by_cases hnew : i.record? r.hash = none
  · rw [bucket, getElem?_buckets_add hnew]
    by_cases hk : r.height = k
    · subst hk
      have hmem : x ∈ r.hash :: i.bucket r.height ↔
          x ∈ i.bucket r.height ∨ i.record? x = none ∧ r.hash = x := by
        rw [List.mem_cons, or_comm]
        refine or_congr_right ⟨fun hx => ⟨hx ▸ hnew, hx.symm⟩, fun hx => hx.2.symm⟩
      simpa [bucket] using hmem
    · simp [hk, bucket]
  · -- the hash is known, and stays where it is
    have hcontains : i.contains r.hash = true := by
      simpa [contains, Option.isSome_iff_ne_none] using hnew
    rw [bucket_add_of_contains hcontains, iff_self_or]
    rintro ⟨hnone, rfl, -⟩
    exact absurd hnone hnew

/-- The low buckets are taken away as a whole. -/
theorem getElem?_buckets_pruneBelow (k : Height) :
    (i.pruneBelow h).1.buckets[k]? = if h ≤ k then i.buckets[k]? else none := by
  simp only [pruneBelow, Std.ExtTreeMap.getElem?_filter']
  by_cases hk : h ≤ k <;> cases i.buckets[k]? <;> simp [Option.filter, hk]

/-- **An eviction may be left to the next one**, if that goes as far: what it would have evicted is
evicted then, and a record that is new in between is filed alike. -/
theorem pruneBelow_add_pruneBelow {g : Height} (hf : Filed i) (hnew : i.record? r.hash = none)
    (hle : h ≤ g) :
    (((i.pruneBelow h).1.add r).pruneBelow g).1 = ((i.add r).pruneBelow g).1 := by
  have hnew' : (i.pruneBelow h).1.record? r.hash = none := by
    rw [record?_pruneBelow hf, hnew]
    rfl
  have hadd : Filed (i.add r) := hf.add fun old hold => by simp [hnew] at hold
  have hadd' : Filed ((i.pruneBelow h).1.add r) :=
    (hf.pruneBelow h).add fun old hold => by simp [hnew'] at hold
  refine eq_of_lookups (fun x => ?_) (fun k => rfl) fun k => ?_
  · rw [record?_pruneBelow hadd', record?_pruneBelow hadd, record?_add, record?_add,
      record?_pruneBelow hf]
    by_cases hx : r.hash = x
    · rw [if_pos hx, if_pos hx]
    · rw [if_neg hx, if_neg hx, Option.filter_filter]
      -- what stands above the higher floor stands above the lower one
      congr 1
      funext old
      by_cases hg : g ≤ old.height
      · simp [hg, UInt32.le_trans hle hg]
      · simp [hg]
  · rw [getElem?_buckets_pruneBelow, getElem?_buckets_pruneBelow]
    by_cases hg : g ≤ k
    · rw [if_pos hg, if_pos hg, getElem?_buckets_add hnew', getElem?_buckets_add hnew,
        getElem?_buckets_pruneBelow, if_pos (UInt32.le_trans hle hg)]
    · rw [if_neg hg, if_neg hg]

end Index

end HeaderChain
