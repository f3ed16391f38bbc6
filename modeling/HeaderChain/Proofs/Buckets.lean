import Mathlib.Logic.Function.Basic
import Mathlib.Order.Bounds.Defs
import HeaderChain.Proofs.Tally

/-!
# What the buckets go by

Eviction looks at the buckets and never at the records, and a hash is put into a bucket only when it
is new. A record that takes the place of another one of its hash is evicted with the bucket of the
first one, wherever it stands itself. So the height that counts is the one at which the hash was
filed, and the index does not tell it: it is a matter of the history.

* `Index.Edit` — the changes that an index sees;
* `Index.Filing` — an index with the heights at which its hashes were filed, which are carried along
  from one change to the next; `Index.Filing.Sound` is what every change preserves;
* `Index.GoesBy` — eviction and the lowest height go by a height that each hash has;
* `Index.eviction_goes_by_filed_height` — they go by the filed heights after every history, and by
  the heights of the records exactly if these are the same.
-/

namespace HeaderChain.Index

/-! ### Histories of an index -/

/-- A change to an index. -/
inductive Edit
  | add (r : BlockRecord)
  | setHeight (h : Height) (x : Hash)
  | dropHeightsFrom (h : Height)
  | pruneBelow (h : Height)

/-- The index after an edit. -/
def Edit.apply (i : Index) : Edit → Index
  | add r => i.add r
  | setHeight h x => i.setHeight h x
  | dropHeightsFrom h => i.dropHeightsFrom h
  | pruneBelow h => (i.pruneBelow h).1

/-- **An index with a history**: beside it stands the height at which each hash was filed, which is
that of the record under which the hash was last new. -/
structure Filing where
  index : Index := .empty
  filedAt : Hash → Option Height := fun _ => none

namespace Filing

/-- What is filed after an edit. -/
def step (f : Filing) (e : Edit) : Filing where
  index := e.apply f.index
  filedAt := match e with
    | .add r =>
      if f.index.contains r.hash then f.filedAt
      else Function.update f.filedAt r.hash (some r.height)
    | _ => f.filedAt

/-- An empty index after some changes, made in turn. -/
def after (edits : List Edit) : Filing := edits.foldl step {}

/-- **The buckets follow the filed heights.** -/
structure Sound (f : Filing) : Prop where
  mem_bucket : ∀ k x, x ∈ f.index.bucket k ↔ f.index.contains x = true ∧ f.filedAt x = some k
  occupied : ∀ k : Height, f.index.buckets[k]? ≠ some []
  filed : ∀ x, f.index.contains x = true → ∃ k, f.filedAt x = some k

end Filing

variable {i : Index} {r : BlockRecord} {x : Hash} {h k : Height} {f : Filing} {e : Edit}

theorem contains_add : (i.add r).contains x = true ↔ r.hash = x ∨ i.contains x = true := by
  rw [contains, record?_add]
  by_cases hx : r.hash = x
  · simp [hx]
  · simp [hx, contains]

theorem contains_pruneBelow :
    (i.pruneBelow h).1.contains x = true ↔ i.contains x = true ∧ x ∉ i.hashesBelow h := by
  rw [contains, record?_pruneBelow_eq_ite]
  by_cases hx : x ∈ i.hashesBelow h <;> simp [hx, contains]

theorem contains_eq_false_iff : i.contains x = false ↔ i.record? x = none :=
  Option.isSome_eq_false_iff.trans Option.isNone_iff_eq_none

namespace Filing

/-! ### What every change preserves -/

theorem sound_empty : Sound {} where
  mem_bucket k x := by simp [bucket, empty, contains, record?]
  occupied k := by simp [empty]
  filed x hx := by simp [empty, contains, record?] at hx

/-- A change that leaves the records and the buckets alone. -/
theorem Sound.congr {g : Filing} (hf : f.Sound) (hr : g.index.record? = f.index.record?)
    (hb : g.index.buckets = f.index.buckets) (hg : g.filedAt = f.filedAt) : g.Sound where
  mem_bucket k x := by
    rw [bucket, hb, contains, hr, hg]
    exact hf.mem_bucket k x
  occupied k := hb ▸ hf.occupied k
  filed x hx := by
    rw [contains, hr] at hx
    exact hg ▸ hf.filed x hx

theorem Sound.add (hf : f.Sound) (r : BlockRecord) : (f.step (.add r)).Sound := by
  cases hknown : f.index.contains r.hash with
  | true =>
    -- the record takes the place of another one, and its hash stays where it is
    have hfiled : (f.step (.add r)).filedAt = f.filedAt := if_pos hknown
    have hbuckets : (f.step (.add r)).index.buckets = f.index.buckets := if_pos hknown
    have hcontains : ∀ x, (f.step (.add r)).index.contains x = true ↔
        f.index.contains x = true := by
      intro x
      refine contains_add.trans (or_iff_right_of_imp ?_)
      rintro rfl
      exact hknown
    refine ⟨fun k x => ?_, fun k => hbuckets ▸ hf.occupied k, fun x hx => ?_⟩
    · rw [bucket, hbuckets, hcontains, hfiled]
      exact hf.mem_bucket k x
    · exact hfiled ▸ hf.filed x ((hcontains x).mp hx)
  | false =>
    -- a new hash goes into the bucket of the height, where it was in none before
    have hnew : f.index.record? r.hash = none := contains_eq_false_iff.mp hknown
    have hfiled : ∀ x, (f.step (.add r)).filedAt x =
        if x = r.hash then some r.height else f.filedAt x := by
      intro x
      show (if f.index.contains r.hash = true then f.filedAt else _) x = _
      rw [hknown, if_neg Bool.false_ne_true, Function.update_apply]
    refine ⟨fun k x => ?_, fun k => ?_, fun x hx => ?_⟩
    · show x ∈ (f.index.add r).bucket k ↔ (f.index.add r).contains x = true ∧ _
      rw [mem_bucket_add, hf.mem_bucket, contains_add, hfiled]
      by_cases hx : x = r.hash
      · subst hx
        simp [hnew, hknown]
      · simp [hx, Ne.symm hx]
    · show (f.index.add r).buckets[k]? ≠ some []
      rw [getElem?_buckets_add hnew]
      split_ifs
      · simp
      · exact hf.occupied k
    · rw [hfiled]
      split_ifs with hr
      · exact ⟨_, rfl⟩
      · exact hf.filed x ((contains_add.mp hx).resolve_left (Ne.symm hr))

/-- What lies in a bucket below a height. -/
theorem Sound.mem_hashesBelow (hf : f.Sound) : x ∈ f.index.hashesBelow h ↔
    f.index.contains x = true ∧ ∃ k, f.filedAt x = some k ∧ k < h := by
  rw [Index.mem_hashesBelow]
  simp only [hf.mem_bucket]
  constructor
  · rintro ⟨k, hk, hx, hfiled⟩
    exact ⟨hx, k, hfiled, hk⟩
  · rintro ⟨hx, k, hfiled, hk⟩
    exact ⟨k, hk, hx, hfiled⟩

theorem Sound.pruneBelow (hf : f.Sound) (h : Height) : (f.step (.pruneBelow h)).Sound := by
  have hcontains : ∀ x, (f.step (.pruneBelow h)).index.contains x = true ↔
      f.index.contains x = true ∧ x ∉ f.index.hashesBelow h := fun x => contains_pruneBelow
  refine ⟨fun k x => ?_, fun k => ?_, fun x hx => hf.filed x ((hcontains x).mp hx).1⟩
  · show x ∈ (f.index.pruneBelow h).1.bucket k ↔ _ ∧ f.filedAt x = some k
    rw [bucket_pruneBelow, hcontains, hf.mem_hashesBelow]
    -- what is filed at the height or above is left, and nothing below it
    by_cases hk : h ≤ k
    · rw [if_pos hk, hf.mem_bucket]
      grind
    · rw [if_neg hk]
      grind
  · show (f.index.pruneBelow h).1.buckets[k]? ≠ some []
    rw [getElem?_buckets_pruneBelow]
    split_ifs
    · exact hf.occupied k
    · exact nofun

theorem Sound.step (hf : f.Sound) (e : Edit) : (f.step e).Sound := by
  cases e with
  | add r => exact hf.add r
  | setHeight h x => exact hf.congr rfl rfl rfl
  | dropHeightsFrom h =>
    exact hf.congr (record?_dropHeightsFrom f.index h) (buckets_dropHeightsFrom f.index h) rfl
  | pruneBelow h => exact hf.pruneBelow h

/-- **After every history** the buckets follow the filed heights. -/
theorem sound_after (edits : List Edit) : (after edits).Sound := by
  have hfold : ∀ {f : Filing}, f.Sound → (edits.foldl Filing.step f).Sound := by
    induction edits with
    | nil => exact id
    | cons e edits ih => exact fun hf => ih (hf.step e)
  exact hfold sound_empty

end Filing

/-! ### What eviction goes by -/

/-- The height of the record under a hash. -/
def height? (i : Index) (x : Hash) : Option Height := (i.record? x).map (·.height)

/-- **Eviction and the lowest height go by a height** that each hash has. -/
structure GoesBy (i : Index) (level : Hash → Option Height) : Prop where
  /-- There is a lowest height as long as there are records. -/
  lowest_none : i.lowest? = none ↔ i.isEmpty = true
  /-- It is the least height of those that are indexed. -/
  lowest : ∀ k, i.lowest? = some k →
    IsLeast {l | ∃ x, i.contains x = true ∧ level x = some l} k
  /-- What stands below a height is evicted, and nothing else. -/
  evicted : ∀ h x, (i.pruneBelow h).1.record? x =
    if (level x).any (· < h) then none else i.record? x
  /-- The number of evicted records is returned. -/
  count : ∀ h, (i.pruneBelow h).2 = (i.records.filter fun x _ => (level x).any (· < h)).size
  /-- What is canonical stays so. -/
  canonical : ∀ h, (i.pruneBelow h).1.canonical = i.canonical

/-- As many records are left as do not stand below the height. -/
theorem size_filter_add_size_filter (i : Index) (p : Hash → BlockRecord → Bool) :
    (i.records.filter fun x r => !p x r).size + (i.records.filter p).size = i.size := by
  rw [size, ← Std.ExtTreeMap.length_toList, ← Std.ExtTreeMap.length_toList,
    ← Std.ExtTreeMap.length_toList, Std.ExtTreeMap.toList_filter, Std.ExtTreeMap.toList_filter,
    Nat.add_comm]
  exact (List.length_eq_length_filter_add _).symm

/-- **What is evicted is counted** wherever it is known what is evicted. -/
theorem count_pruneBelow {level : Hash → Option Height}
    (hevicted : ∀ x, (i.pruneBelow h).1.record? x =
      if (level x).any (· < h) then none else i.record? x) :
    (i.pruneBelow h).2 = (i.records.filter fun x _ => (level x).any (· < h)).size := by
  have hrecords : (i.pruneBelow h).1.records =
      i.records.filter fun x _ => !(level x).any (· < h) := by
    refine Std.ExtTreeMap.ext_getElem? fun x => (hevicted x).trans ?_
    rw [Std.ExtTreeMap.getElem?_filter']
    show _ = (i.record? x).filter fun _ => !(level x).any (· < h)
    cases i.record? x <;> cases (level x).any (· < h) <;> rfl
  have hleft := i.size_pruneBelow h
  have hboth := i.size_filter_add_size_filter fun x _ => (level x).any (· < h)
  rw [size, hrecords] at hleft
  omega

/-- What eviction goes by matters for the hashes that are indexed. -/
theorem GoesBy.congr {level level' : Hash → Option Height} (hi : i.GoesBy level)
    (hsame : ∀ x, i.contains x = true → level' x = level x) : i.GoesBy level' := by
  have hevicted : ∀ h x, (i.pruneBelow h).1.record? x =
      if (level' x).any (· < h) then none else i.record? x := by
    intro h x
    rw [hi.evicted]
    -- of what is not indexed there is nothing to evict
    cases hx : i.contains x with
    | false => simp [contains_eq_false_iff.mp hx]
    | true => rw [hsame x hx]
  have hlevels : {l | ∃ x, i.contains x = true ∧ level' x = some l} =
      {l | ∃ x, i.contains x = true ∧ level x = some l} := by
    ext l
    exact exists_congr fun x => and_congr_right fun hx => by rw [hsame x hx]
  exact ⟨hi.lowest_none, fun k hk => hlevels ▸ hi.lowest k hk, hevicted,
    fun h => count_pruneBelow (hevicted h), hi.canonical⟩

namespace Filing

theorem Sound.mem_buckets (hf : f.Sound) :
    k ∈ f.index.buckets ↔ ∃ x, f.index.contains x = true ∧ f.filedAt x = some k := by
  simp only [← hf.mem_bucket]
  rw [Std.ExtTreeMap.mem_iff_isSome_getElem?, bucket]
  cases hk : f.index.buckets[k]? with
  | none => simp
  | some l =>
    cases l with
    | nil => exact absurd hk (hf.occupied k)
    | cons x l => simp

theorem Sound.lowest?_eq_none (hf : f.Sound) :
    f.index.lowest? = none ↔ f.index.isEmpty = true := by
  rw [lowest?, Std.ExtTreeMap.minKey?_eq_none_iff, isEmpty, Std.ExtTreeMap.isEmpty_iff,
    Std.ExtTreeMap.eq_empty_iff_forall_not_mem, Std.ExtTreeMap.eq_empty_iff_forall_not_mem]
  refine ⟨fun hnone x hx => ?_, fun hnone k hk => ?_⟩
  · have hx' : f.index.contains x = true := contains_iff_mem.mpr hx
    obtain ⟨k, hk⟩ := hf.filed x hx'
    exact hnone k (hf.mem_buckets.mpr ⟨x, hx', hk⟩)
  · obtain ⟨x, hx, -⟩ := hf.mem_buckets.mp hk
    exact hnone x (contains_iff_mem.mp hx)

/-- **Eviction goes by the filed heights.** -/
theorem Sound.goesBy (hf : f.Sound) : f.index.GoesBy f.filedAt := by
  have hevicted : ∀ h x, (f.index.pruneBelow h).1.record? x =
      if (f.filedAt x).any (· < h) then none else f.index.record? x := by
    intro h x
    rw [record?_pruneBelow_eq_ite]
    cases hx : f.index.contains x with
    | false => simp [contains_eq_false_iff.mp hx]
    | true => simp [hf.mem_hashesBelow, hx, Option.any_eq_true]
  refine ⟨hf.lowest?_eq_none, fun k hk => ?_, hevicted, fun h => count_pruneBelow (hevicted h),
    fun h => rfl⟩
  -- the lowest bucket is the lowest height at which something is filed
  obtain ⟨hmem, hleast⟩ := Std.ExtTreeMap.minKey?_eq_some_iff_mem_and_forall.mp hk
  refine ⟨hf.mem_buckets.mp hmem, fun l hl => ?_⟩
  exact Std.isLE_compare.mp (hleast l (hf.mem_buckets.mpr hl))

/-- **And by the heights of the records** as long as these are the same. -/
theorem Sound.goesBy_height?_iff (hf : f.Sound) : f.index.GoesBy f.index.height? ↔
    ∀ x r, f.index.record? x = some r → f.filedAt x = some r.height := by
  refine ⟨fun hheight x r hr => ?_, fun hsame => ?_⟩
  · -- evicting below either height would tell the two apart
    have hx : f.index.contains x = true := contains_iff.mpr ⟨r, hr⟩
    obtain ⟨k, hk⟩ := hf.filed x hx
    have hboth : ∀ h, k < h ↔ r.height < h := by
      intro h
      have heq := (hf.goesBy.evicted h x).symm.trans (hheight.evicted h x)
      rw [hk, height?, hr] at heq
      simp only [Option.map_some, Option.any_some, decide_eq_true_eq] at heq
      refine ⟨fun hkh => ?_, fun hrh => ?_⟩
      · by_contra hrh
        rw [if_pos hkh, if_neg hrh] at heq
        cases heq
      · by_contra hkh
        rw [if_neg hkh, if_pos hrh] at heq
        cases heq
    have hkr : k = r.height := by
      refine UInt32.le_antisymm (UInt32.not_lt.mp fun hlt => ?_) (UInt32.not_lt.mp fun hlt => ?_)
      · exact UInt32.lt_irrefl _ ((hboth k).mpr hlt)
      · exact UInt32.lt_irrefl _ ((hboth r.height).mp hlt)
    rw [hk, hkr]
  · refine hf.goesBy.congr fun x hx => ?_
    obtain ⟨r, hr⟩ := contains_iff.mp hx
    rw [height?, hr, hsame x r hr]
    rfl

end Filing

/-- **Eviction goes by the heights at which hashes were filed**, after every history of an index. It
goes by the heights of the records exactly as long as no record has taken the place of one that
stood elsewhere. -/
theorem eviction_goes_by_filed_height (edits : List Edit) :
    (Filing.after edits).index.GoesBy (Filing.after edits).filedAt ∧
      ((Filing.after edits).index.GoesBy (Filing.after edits).index.height? ↔
        ∀ x r, (Filing.after edits).index.record? x = some r →
          (Filing.after edits).filedAt x = some r.height) :=
  ⟨(Filing.sound_after edits).goesBy, (Filing.sound_after edits).goesBy_height?_iff⟩

/-! ### A record that takes the place of another one -/

/-- A record at the height 5, and another one of its hash at the height 1. -/
def overwriting : List Edit := [.add { height := 5 }, .add { height := 1 }]

/-- The second record is the one that is indexed, but its hash lies in the bucket of the first one:
the lowest height is 5, and an eviction below 3 takes nothing away. -/
theorem overwritten_record_not_evicted :
    (Filing.after overwriting).index.height? Hash.zero = some 1 ∧
      (Filing.after overwriting).index.lowest? = some 5 ∧
      ((Filing.after overwriting).index.pruneBelow 3).2 = 0 ∧
      ¬(Filing.after overwriting).index.GoesBy (Filing.after overwriting).index.height? := by
  have hheight : (Filing.after overwriting).index.height? Hash.zero = some 1 := by cbv
  have hkept : ((Filing.after overwriting).index.pruneBelow 3).1.contains Hash.zero = true := by cbv
  refine ⟨hheight, by cbv, by cbv, fun hgoes => ?_⟩
  have hnone : ((Filing.after overwriting).index.pruneBelow 3).1.record? Hash.zero = none := by
    rw [hgoes.evicted, hheight]
    rfl
  simp [contains, hnone] at hkept

end HeaderChain.Index
