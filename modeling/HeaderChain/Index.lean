import HeaderChain.Block
import HeaderChain.Error

/-!
# The index of block records

All known records, canonical or not, in three maps:

* `records` — every record under its hash;
* `canonical` — the hash of the canonical block at each height, which changes with the peak;
* `buckets` — the hashes first indexed at each height, so that old records are found without a scan.

Only `Index.add` and `Index.pruneBelow` touch the records and the buckets, and only
`Index.setHeight` and `Index.dropHeightsFrom` touch the canonical map.
-/

namespace HeaderChain

/-- The records known to a chain. -/
structure Index where
  records : Std.ExtTreeMap Hash BlockRecord := ∅
  canonical : Std.ExtTreeMap Height Hash := ∅
  buckets : Std.ExtTreeMap Height (List Hash) := ∅

namespace Index

/-- An index that knows of nothing. -/
def empty : Index := {}

/-! ### Looking up -/

/-- The record under a hash, if it is known. -/
def record? (i : Index) (hash : Hash) : Option BlockRecord := i.records[hash]?

/-- The record under a hash. -/
def record (i : Index) (hash : Hash) : Except ChainError BlockRecord :=
  match i.record? hash with
  | some r => .ok r
  | none => .error (.blockNotFound hash)

/-- Whether a record is known under a hash. -/
def contains (i : Index) (hash : Hash) : Bool := (i.record? hash).isSome

/-- The hash of the canonical block at a height, if there is one. -/
def hashAt? (i : Index) (height : Height) : Option Hash := i.canonical[height]?

/-- The hash of the canonical block at a height. -/
def hashAt (i : Index) (height : Height) : Except ChainError Hash :=
  match i.hashAt? height with
  | some hash => .ok hash
  | none => .error (.heightNotFound height)

/-- Whether a canonical block is known at a height. -/
def containsHeight (i : Index) (height : Height) : Bool := (i.hashAt? height).isSome

/-- The number of records. -/
def size (i : Index) : Nat := i.records.size

/-- Whether no record is known. -/
def isEmpty (i : Index) : Bool := i.records.isEmpty

/-- The number of canonical heights. -/
def canonicalSize (i : Index) : Nat := i.canonical.size

/-- The lowest height that has a record. -/
def lowest? (i : Index) : Option Height := i.buckets.minKey?

/-! ### Changing -/

/-- Indexes a record, in place of one under the same hash. A hash that is known already stays in the
bucket it was put into first. -/
def add (i : Index) (r : BlockRecord) : Index where
  records := i.records.insert r.hash r
  canonical := i.canonical
  buckets :=
    if i.contains r.hash then i.buckets
    else i.buckets.insert r.height (r.hash :: (i.buckets[r.height]?).getD [])

/-- Makes a hash the canonical one at a height. -/
def setHeight (i : Index) (height : Height) (hash : Hash) : Index :=
  { i with canonical := i.canonical.insert height hash }

/-- Leaves no canonical block at or above a height. Nothing is looked through if there is none. -/
def dropHeightsFrom (i : Index) (height : Height) : Index :=
  if i.canonical.maxKey?.all (· < height) then i
  else { i with canonical := i.canonical.filter fun h _ => h < height }

/-- **The canonical map after a drop** holds what it held below the height. -/
theorem canonical_dropHeightsFrom (i : Index) (height : Height) :
    (i.dropHeightsFrom height).canonical = i.canonical.filter fun h _ => h < height := by
  unfold dropHeightsFrom
  split
  next top =>
    -- no height is above the highest one, which lies below
    refine (Std.ExtTreeMap.filter_eq_self_iff.mpr fun h hmem => ?_).symm
    cases hmax : i.canonical.maxKey? with
    | none => simp [Std.ExtTreeMap.maxKey?_eq_none_iff.mp hmax] at hmem
    | some m =>
      have hle : h ≤ m :=
        Std.isLE_compare.mp
          ((Std.ExtTreeMap.maxKey?_eq_some_iff_mem_and_forall.mp hmax).2 h hmem)
      have hlt : m < height := by simpa [hmax] using top
      simpa using UInt32.lt_of_le_of_lt hle hlt
  next => rfl

/-- The number of canonical blocks at or above a height. -/
def countHeightsFrom (i : Index) (height : Height) : Nat :=
  (i.canonical.filter fun h _ => height ≤ h).size

/-- The hashes in the buckets below a height. -/
def hashesBelow (i : Index) (height : Height) : List Hash :=
  (i.buckets.filter fun h _ => h < height).toList.flatMap (·.2)

/-- Removes the record under a hash, and counts it if there was one. -/
def evictHash (state : Std.ExtTreeMap Hash BlockRecord × Nat) (hash : Hash) :
    Std.ExtTreeMap Hash BlockRecord × Nat :=
  if state.1.contains hash then (state.1.erase hash, state.2 + 1) else state

/-- Evicts the records in the buckets below a height, canonical or not, and counts them. The
canonical map stays as it is. -/
def pruneBelow (i : Index) (height : Height) : Index × Nat :=
  let (records, count) := (i.hashesBelow height).foldl evictHash (i.records, 0)
  ({ i with records, buckets := i.buckets.filter fun h _ => height ≤ h }, count)

end Index

end HeaderChain
