import Mathlib.Data.List.Induction
import Mathlib.Data.List.Nodup
import HeaderChain.Proofs.Buckets

/-!
# The buckets partition the index

The records and the buckets change by different rules. A record that takes the place of another one
leaves the buckets alone, an eviction drops whole buckets, and a hash that comes back after that is
filed anew. Nothing is lost or doubled on the way: each hash that is indexed lies in one bucket, and
there once.

* `Index.edited` — an index after some changes, made in turn;
* `Index.NewAt`, `Index.FiledAt` — where in a history a hash was new, and the height it was filed at
  the last time. They are told by the changes alone; `Index.filedAt_iff` says that the heights that
  `Index.Filing` carries along are these;
* `Index.Filing.Sound.nodup_step`, `Index.Filing.nodup_after` — no change puts a hash into a bucket
  twice;
* `Index.Partitioned` — the buckets partition the index;
* `Index.pruneBelow_pruneBelow`, `Index.sameRecords_edited` — evictions with no addition between
  them come to one eviction, the one that goes furthest. This holds of every index;
* `Index.Tidy` — evictions are accounted for and leave nothing behind;
* `Index.buckets_partition` — both hold after every history.
-/

namespace HeaderChain.Index

variable {i : Index} {r : BlockRecord} {x : Hash} {g h k : Height} {edits : List Edit} {e : Edit}
  {n : Nat}

/-! ### Where a hash was filed -/

/-- An index after some changes, made in turn. -/
def edited (i : Index) (edits : List Edit) : Index := edits.foldl Edit.apply i

theorem edited_nil : i.edited [] = i := rfl

theorem edited_cons : i.edited (e :: edits) = (e.apply i).edited edits := rfl

/-- **A hash is new** at a position of a history: what is done there is to add a record, under a
hash that is unknown until then. -/
structure NewAt (edits : List Edit) (n : Nat) (r : BlockRecord) : Prop where
  adds : edits[n]? = some (.add r)
  unknown : (empty.edited (edits.take n)).contains r.hash = false

/-- **The height a hash was filed at** is that of the record with which the hash was new for the
last time. -/
def FiledAt (edits : List Edit) (x : Hash) (k : Height) : Prop :=
  ∃ n r, NewAt edits n r ∧ r.hash = x ∧ r.height = k ∧
    ∀ m r', NewAt edits m r' → r'.hash = x → m ≤ n

theorem NewAt.lt_length (hnew : NewAt edits n r) : n < edits.length :=
  (List.getElem?_eq_some_iff.mp hnew.adds).1

/-- One change more makes at most one hash new. -/
theorem newAt_concat : NewAt (edits ++ [e]) n r ↔ NewAt edits n r ∨
    n = edits.length ∧ e = .add r ∧ (empty.edited edits).contains r.hash = false := by
  constructor
  · rintro ⟨hadds, hunknown⟩
    -- before the end all is as it was, at the end stands the new change, and behind it nothing
    rcases Nat.lt_trichotomy n edits.length with hlt | rfl | hgt
    · rw [List.getElem?_append_left hlt] at hadds
      rw [List.take_append_of_le_length hlt.le] at hunknown
      exact .inl ⟨hadds, hunknown⟩
    · rw [List.getElem?_concat_length] at hadds
      rw [List.take_left] at hunknown
      exact .inr ⟨rfl, Option.some.inj hadds, hunknown⟩
    · have hlt : n < (edits ++ [e]).length := (List.getElem?_eq_some_iff.mp hadds).1
      rw [List.length_append, List.length_singleton] at hlt
      omega
  · rintro (hnew | ⟨rfl, rfl, hunknown⟩)
    · refine ⟨?_, ?_⟩
      · rw [List.getElem?_append_left hnew.lt_length]
        exact hnew.adds
      · rw [List.take_append_of_le_length hnew.lt_length.le]
        exact hnew.unknown
    · refine ⟨List.getElem?_concat_length, ?_⟩
      rw [List.take_left]
      exact hunknown

/-- A hash that is new now is filed now. -/
theorem filedAt_concat_add (hnew : (empty.edited edits).contains r.hash = false) :
    FiledAt (edits ++ [.add r]) r.hash k ↔ r.height = k := by
  have hlast : NewAt (edits ++ [.add r]) edits.length r := newAt_concat.mpr (.inr ⟨rfl, rfl, hnew⟩)
  constructor
  · rintro ⟨n, r', hr', -, rfl, hgreatest⟩
    rcases newAt_concat.mp hr' with hr' | ⟨-, heq, -⟩
    · -- no earlier time is the last one
      exact absurd (hgreatest _ _ hlast rfl) (Nat.not_le.mpr hr'.lt_length)
    · cases heq
      rfl
  · rintro rfl
    refine ⟨_, r, hlast, rfl, rfl, fun m r' hr' _ => ?_⟩
    rcases newAt_concat.mp hr' with hr' | ⟨rfl, -⟩
    · exact hr'.lt_length.le
    · exact Nat.le_refl _

/-- A change that does not make a hash new leaves it where it was filed. -/
theorem filedAt_concat_of_not_new
    (hnot : ∀ r, e = .add r → r.hash = x → (empty.edited edits).contains x = true) :
    FiledAt (edits ++ [e]) x k ↔ FiledAt edits x k := by
  -- the hash was new at the same places, so the last of them is the same
  have hnew : ∀ n r, r.hash = x → (NewAt (edits ++ [e]) n r ↔ NewAt edits n r) := by
    rintro n r rfl
    refine newAt_concat.trans (or_iff_left ?_)
    rintro ⟨-, he, hunknown⟩
    rw [hnot r he rfl] at hunknown
    cases hunknown
  constructor
  · rintro ⟨n, r, hr, hx, hk, hgreatest⟩
    exact ⟨n, r, (hnew n r hx).mp hr, hx, hk, fun m r' hr' hx' =>
      hgreatest m r' ((hnew m r' hx').mpr hr') hx'⟩
  · rintro ⟨n, r, hr, hx, hk, hgreatest⟩
    exact ⟨n, r, (hnew n r hx).mpr hr, hx, hk, fun m r' hr' hx' =>
      hgreatest m r' ((hnew m r' hx').mp hr') hx'⟩

namespace Filing

variable {f : Filing}

theorem after_concat : after (edits ++ [e]) = (after edits).step e :=
  List.foldl_concat step {} e edits

/-- The history does not bear on the index. -/
theorem index_after (edits : List Edit) : (after edits).index = empty.edited edits :=
  (List.foldl_hom Filing.index fun _ _ => rfl).symm

end Filing

/-- **The heights that are carried along** are those at which the hashes were filed. -/
theorem filedAt_iff : FiledAt edits x k ↔ (Filing.after edits).filedAt x = some k := by
  -- the last time a hash was new is extended at the end of the edits
  induction edits using List.reverseRecOn with
  | nil =>
    refine iff_of_false ?_ nofun
    rintro ⟨n, r, hnew, -⟩
    exact absurd hnew.lt_length (Nat.not_lt_zero n)
  | append_singleton edits e ih =>
    rw [Filing.after_concat]
    cases e with
    | add r =>
      show _ ↔ (if (Filing.after edits).index.contains r.hash = true then _ else _ : _ → _) x = _
      rw [Filing.index_after]
      cases hknown : (empty.edited edits).contains r.hash with
      | true =>
        -- the record takes the place of another one
        rw [if_pos rfl, ← ih]
        refine filedAt_concat_of_not_new fun r' heq hx => ?_
        cases heq
        exact hx ▸ hknown
      | false =>
        rw [if_neg Bool.false_ne_true, Function.update_apply]
        by_cases hx : x = r.hash
        · subst hx
          rw [if_pos rfl, Option.some_inj]
          exact filedAt_concat_add hknown
        · rw [if_neg hx, ← ih]
          refine filedAt_concat_of_not_new fun r' heq hx' => ?_
          cases heq
          exact absurd hx'.symm hx
    | setHeight | dropHeightsFrom | pruneBelow =>
      refine (filedAt_concat_of_not_new fun r heq => ?_).trans ih
      cases heq

/-! ### The partition -/

/-- **The buckets partition the index** by the heights at which the hashes were filed. -/
structure Partitioned (i : Index) (filed : Hash → Height → Prop) : Prop where
  /-- A hash that is indexed was filed at one height, occurs once in the bucket of this height, and
  in no other bucket. -/
  once : ∀ x, i.contains x = true →
    ∃ k, (∀ l, filed x l ↔ l = k) ∧ ∀ l, (i.bucket l).count x = if l = k then 1 else 0
  /-- No bucket is empty. -/
  occupied : ∀ (k : Height) (hashes : List Hash), i.buckets[k]? = some hashes → hashes ≠ []
  /-- No bucket holds a hash that has no record. -/
  known : ∀ (k : Height) (hashes : List Hash), i.buckets[k]? = some hashes →
    ∀ x ∈ hashes, i.contains x = true
  /-- All buckets together list the hashes that are indexed, each of them once. -/
  together : (i.buckets.toList.flatMap (·.2)).Perm i.records.keys

theorem bucket_of_mem_toList {p : Height × List Hash} (hp : p ∈ i.buckets.toList) :
    i.bucket p.1 = p.2 := by
  rw [bucket, Std.ExtTreeMap.mem_toList_iff_getElem?_eq_some.mp hp, Option.getD_some]

theorem mem_buckets_toList : x ∈ i.buckets.toList.flatMap (·.2) ↔ ∃ k, x ∈ i.bucket k := by
  rw [List.mem_flatMap]
  constructor
  · rintro ⟨p, hp, hx⟩
    exact ⟨p.1, bucket_of_mem_toList hp ▸ hx⟩
  · rintro ⟨k, hx⟩
    cases hhashes : i.buckets[k]? with
    | none => simp [bucket, hhashes] at hx
    | some hashes =>
      refine ⟨(k, hashes), Std.ExtTreeMap.mem_toList_iff_getElem?_eq_some.mpr hhashes, ?_⟩
      simpa [bucket, hhashes] using hx

namespace Filing

variable {f : Filing}

/-- **No change puts a hash into a bucket twice.** -/
theorem Sound.nodup_step (hf : f.Sound) (hnodup : ∀ k, (f.index.bucket k).Nodup) (e : Edit) :
    ∀ k, ((f.step e).index.bucket k).Nodup := by
  intro k
  -- only an addition puts a hash into a bucket; the other edits take away or do not touch any
  cases e with
  | add r =>
    show ((f.index.add r).bucket k).Nodup
    cases hknown : f.index.contains r.hash with
    | true =>
      rw [bucket_add_of_contains hknown]
      exact hnodup k
    | false =>
      rw [bucket, getElem?_buckets_add (contains_eq_false_iff.mp hknown)]
      split_ifs with hk
      · -- a hash that is unknown lies in no bucket so far
        refine List.nodup_cons.mpr ⟨fun hmem => ?_, hnodup k⟩
        rw [((hf.mem_bucket k r.hash).mp hmem).1] at hknown
        cases hknown
      · exact hnodup k
  | setHeight h x => exact hnodup k
  | dropHeightsFrom h =>
    show ((f.index.dropHeightsFrom h).bucket k).Nodup
    rw [bucket, buckets_dropHeightsFrom]
    exact hnodup k
  | pruneBelow h =>
    show ((f.index.pruneBelow h).1.bucket k).Nodup
    rw [bucket_pruneBelow]
    split_ifs
    · exact hnodup k
    · exact List.nodup_nil

/-- **After every history** no hash lies in a bucket twice. -/
theorem nodup_after (edits : List Edit) (k : Height) : ((after edits).index.bucket k).Nodup := by
  induction edits using List.reverseRecOn generalizing k with
  | nil => simp [after, bucket, empty]
  | append_singleton edits e ih =>
    rw [after_concat]
    exact (sound_after edits).nodup_step ih e k

/-- No hash lies in two buckets, and none lies in one of them twice. -/
theorem Sound.nodup_buckets (hf : f.Sound) (hnodup : ∀ k, (f.index.bucket k).Nodup) :
    (f.index.buckets.toList.flatMap (·.2)).Nodup := by
  refine List.nodup_flatMap.mpr ⟨fun p hp => bucket_of_mem_toList hp ▸ hnodup p.1, ?_⟩
  refine Std.ExtTreeMap.distinct_keys_toList.imp_of_mem fun {p q} hp hq hne x hxp hxq => ?_
  -- a hash in both buckets was filed at both heights
  have hxp' : x ∈ f.index.bucket p.1 := bucket_of_mem_toList hp ▸ hxp
  have hxq' : x ∈ f.index.bucket q.1 := bucket_of_mem_toList hq ▸ hxq
  rw [hf.mem_bucket] at hxp' hxq'
  have hkey : p.1 = q.1 := Option.some.inj (hxp'.2.symm.trans hxq'.2)
  exact hne (hkey ▸ Std.ReflCmp.compare_self)

/-- **All buckets together** list the hashes that are indexed. -/
theorem Sound.perm_keys (hf : f.Sound) (hnodup : ∀ k, (f.index.bucket k).Nodup) :
    (f.index.buckets.toList.flatMap (·.2)).Perm f.index.records.keys := by
  refine (List.perm_ext_iff_of_nodup (hf.nodup_buckets hnodup) Std.ExtTreeMap.nodup_keys).mpr
    fun x => ?_
  rw [mem_buckets_toList, Std.ExtTreeMap.mem_keys, ← contains_iff_mem]
  constructor
  · rintro ⟨k, hx⟩
    exact ((hf.mem_bucket k x).mp hx).1
  · intro hx
    obtain ⟨k, hk⟩ := hf.filed x hx
    exact ⟨k, (hf.mem_bucket k x).mpr ⟨hx, hk⟩⟩

theorem Sound.partitioned (hf : f.Sound) (hnodup : ∀ k, (f.index.bucket k).Nodup) :
    f.index.Partitioned fun x k => f.filedAt x = some k where
  once x hx := by
    obtain ⟨k, hk⟩ := hf.filed x hx
    have hfiled : ∀ l, f.filedAt x = some l ↔ l = k := by
      intro l
      rw [hk, Option.some_inj]
      exact eq_comm
    refine ⟨k, hfiled, fun l => ?_⟩
    -- in a bucket without repetition a hash counts once or not at all
    simp only [(hnodup l).count, hf.mem_bucket, hx, true_and, hfiled]
  occupied k hashes hhashes hnil := hf.occupied k (hnil ▸ hhashes)
  known k hashes hhashes x hx := by
    refine ((hf.mem_bucket k x).mp ?_).1
    rwa [bucket, hhashes]
  together := hf.perm_keys hnodup

end Filing

/-! ### Evictions -/

/-- A height lies below the further one of two exactly if it lies below one of them. -/
theorem height_lt_max_iff : k < max g h ↔ k < g ∨ k < h := by
  have hmax : max g h = if g ≤ h then h else g := rfl
  rw [hmax]
  split_ifs with hle
  · exact (or_iff_right_of_imp fun hlt => UInt32.lt_of_lt_of_le hlt hle).symm
  · refine (or_iff_left_of_imp fun hlt => UInt32.lt_trans hlt ?_).symm
    exact UInt32.not_le.mp hle

/-- **One eviction after another** comes to the one that goes further. -/
theorem pruneBelow_pruneBelow (i : Index) (g h : Height) :
    ((i.pruneBelow g).1.pruneBelow h).1 = (i.pruneBelow (max g h)).1 := by
  have hleft : ∀ k, max g h ≤ k ↔ g ≤ k ∧ h ≤ k := by
    intro k
    rw [← UInt32.not_lt, height_lt_max_iff, not_or, UInt32.not_lt, UInt32.not_lt]
  refine eq_of_lookups (fun x => ?_) (fun k => rfl) fun k => ?_
  · have hboth : x ∈ i.hashesBelow (max g h) ↔
        x ∈ (i.pruneBelow g).1.hashesBelow h ∨ x ∈ i.hashesBelow g := by
      simp only [mem_hashesBelow, bucket_pruneBelow, height_lt_max_iff]
      constructor
      · -- what lies below the further height has gone at once, or is left for the second time
        rintro ⟨k, hk, hx⟩
        by_cases hg : k < g
        · exact .inr ⟨k, hg, hx⟩
        · refine .inl ⟨k, hk.resolve_left hg, ?_⟩
          rwa [if_pos (UInt32.not_lt.mp hg)]
      · rintro (⟨k, hk, hx⟩ | ⟨k, hk, hx⟩)
        · split_ifs at hx
          · exact ⟨k, .inr hk, hx⟩
          · cases hx
        · exact ⟨k, .inl hk, hx⟩
    simp only [record?_pruneBelow_eq_ite, hboth]
    by_cases hh : x ∈ (i.pruneBelow g).1.hashesBelow h <;> simp [hh]
  · simp only [getElem?_buckets_pruneBelow, hleft]
    by_cases hh : h ≤ k <;> simp [hh]

/-- The height below which a run of changes evicts, the highest one if it does so more than once;
0 if it does not. -/
def furthest : List Edit → Height
  | [] => 0
  | .pruneBelow h :: edits => max h (furthest edits)
  | _ :: edits => furthest edits

/-- **Changes that add nothing** come to one eviction, as far as records and buckets go. -/
theorem sameRecords_edited (hadds : ∀ r, .add r ∉ edits) :
    (i.edited edits).SameRecords (i.pruneBelow (furthest edits)).1 := by
  induction edits generalizing i with
  | nil =>
    rw [edited_nil, furthest, pruneBelow_zero]
    exact .refl i
  | cons e edits ih =>
    have hrest : ∀ r, .add r ∉ edits := fun r hr => hadds r (List.mem_cons_of_mem e hr)
    rw [edited_cons]
    -- only evictions matter to the records here, and of those the one that goes furthest
    cases e with
    | add r => exact absurd List.mem_cons_self (hadds r)
    | setHeight h x =>
      have hsame : (i.setHeight h x).SameRecords i := ⟨rfl, rfl⟩
      exact (ih hrest).trans (hsame.pruneBelow _)
    | dropHeightsFrom h =>
      exact (ih hrest).trans ((i.sameRecords_dropHeightsFrom h).pruneBelow _)
    | pruneBelow h =>
      rw [furthest, ← pruneBelow_pruneBelow]
      exact ih hrest

/-- **A tidy index**: evictions are accounted for and leave nothing behind. -/
structure Tidy (i : Index) : Prop where
  /-- There is a lowest height as long as there are records. -/
  lowest_none : i.lowest? = none ↔ i.isEmpty = true
  /-- The number that an eviction returns is that by which the index is smaller then. -/
  counted : ∀ h, (i.pruneBelow h).1.size + (i.pruneBelow h).2 = i.size
  /-- A hash whose record is evicted is gone from all buckets. -/
  gone : ∀ h x, i.contains x = true → (i.pruneBelow h).1.contains x = false →
    ∀ k, x ∉ (i.pruneBelow h).1.bucket k
  /-- Of two evictions the one that goes further would have been enough. -/
  twice : ∀ g h, ((i.pruneBelow g).1.pruneBelow h).1 = (i.pruneBelow (max g h)).1 ∧
    (i.pruneBelow g).2 + ((i.pruneBelow g).1.pruneBelow h).2 = (i.pruneBelow (max g h)).2
  /-- So it is whatever is done between them, as long as nothing is added. An eviction in between
  may be the one that goes furthest. -/
  between : ∀ g h edits, (∀ r, .add r ∉ edits) →
    (((i.pruneBelow g).1.edited edits).pruneBelow h).1.SameRecords
      (i.pruneBelow (max g (max (furthest edits) h))).1

theorem Filing.Sound.tidy {f : Filing} (hf : f.Sound) : f.index.Tidy where
  lowest_none := hf.lowest?_eq_none
  counted := f.index.size_pruneBelow
  gone h x _ hgone k hx := by
    have hmem := ((hf.pruneBelow h).mem_bucket k x).mp hx
    rw [show (f.index.pruneBelow h).1.contains x = true from hmem.1] at hgone
    cases hgone
  twice g h := by
    have hboth := f.index.pruneBelow_pruneBelow g h
    have hfirst := f.index.size_pruneBelow g
    have hsecond := (f.index.pruneBelow g).1.size_pruneBelow h
    -- the counts of both evictions add up to that of one that goes as far
    have hmax := f.index.size_pruneBelow (max g h)
    rw [hboth] at hsecond
    exact ⟨hboth, by omega⟩
  between g h edits hadds := by
    have hsame := (sameRecords_edited (i := (f.index.pruneBelow g).1) hadds).pruneBelow h
    rwa [pruneBelow_pruneBelow, pruneBelow_pruneBelow] at hsame

/-- **The buckets partition the index** after every history: each hash that is indexed lies in one
bucket, once, and that is the bucket of the height at which it was filed. So the buckets show when
the index is empty, evictions are counted and leave nothing behind, and of several evictions in a
row only the one that goes furthest matters. -/
theorem buckets_partition (edits : List Edit) :
    (empty.edited edits).Partitioned (FiledAt edits) ∧ (empty.edited edits).Tidy := by
  have hsound : (Filing.after edits).Sound := Filing.sound_after edits
  have hpartitioned := hsound.partitioned (Filing.nodup_after edits)
  have htidy := hsound.tidy
  rw [Filing.index_after] at hpartitioned htidy
  simp only [← filedAt_iff] at hpartitioned
  exact ⟨hpartitioned, htidy⟩

/-- One hash, with records at four heights: the first one is new, the second one takes its place,
the third one is new again after an eviction, and the fourth one takes its place. -/
def refiling : List Edit :=
  [.add { height := 5 }, .add { height := 1 }, .pruneBelow 6, .add { height := 2 },
    .add { height := 7 }]

/-- The record that is indexed in the end stands at the height 7, but its hash was filed at the
height 2 and lies in the bucket of this height alone. -/
theorem buckets_partition_refiled :
    (empty.edited refiling).height? Hash.zero = some 7 ∧
      (∀ k, FiledAt refiling Hash.zero k ↔ k = 2) ∧
      ∀ k, ((empty.edited refiling).bucket k).count Hash.zero = if k = 2 then 1 else 0 := by
  have hindexed : (empty.edited refiling).contains Hash.zero = true := by cbv
  have hbucket : ((empty.edited refiling).bucket 2).count Hash.zero = 1 := by cbv
  obtain ⟨k, hfiled, hcount⟩ := (buckets_partition refiling).1.once Hash.zero hindexed
  have hk : 2 = k := by
    by_contra hne
    rw [hcount, if_neg hne] at hbucket
    cases hbucket
  subst hk
  exact ⟨by cbv, hfiled, hcount⟩

end HeaderChain.Index
