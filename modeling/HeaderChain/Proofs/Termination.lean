import HeaderChain.Proofs.ForkPoint

/-!
# Walks that end

Nobody has to check heights for the two walks of the fork choice to end. A block above height zero
is only indexed while its parent is, so of a block and its parent the parent was indexed first; and
an eviction does not change which of them that was, as long as the blocks of one hash have one
parent. What falls along every parent link is therefore the place in the order in which hashes were
first indexed. Nothing in the index tells of it.

* `Index.DownWalk`, `Index.BackWalk` — the two walks without a limit of steps, with all records that
  they come to; the limited ones are these as soon as the limit is no lower than the number of their
  steps (`Index.DownWalk.walkDown_eq`, `Index.BackWalk.walkBack_eq`);
* `Index.Falling` — a rank falls along the parents. Then each walk ends, and comes to no block twice
  (`Index.Falling.exists_downWalk`, `Index.Falling.exists_backWalk`, `Index.Falling.nodup`);
* `Chain.Fed` — a run on which blocks are offered to a chain that knows of nothing;
  `Chain.FirstIndexed` — the order of first indexing, which every offer extends;
* `Chain.Fed.both_walks_end` — so for every block that is offered next both walks end.
-/

namespace HeaderChain

/-- **A record stands where a block stands**: it has its hash, its parent and its height. Of the
weight and all else nothing is said. -/
structure BlockRecord.StandsAt (r : BlockRecord) (b : HeaderBlock) : Prop where
  hash : r.hash = b.hash
  parent : r.parent = b.parent
  height : r.height = b.height

/-- **Collaborators of whom little is asked**: the fork finder is the one that comes with the chain,
and a builder tells where the block stands. Whatever the validator accepts is accepted. -/
structure Consensus.Plain (k : Consensus) : Prop where
  findFork : k.findFork = Index.forkPoint
  standsAt : ∀ {constants i iters b r}, k.build constants i iters b = .ok r → r.StandsAt b

namespace Index

variable {i : Index} {a b p r : BlockRecord} {as bs l visited : List BlockRecord}
  {floor : Height} {failure : Option ChainError} {n : Nat}
  {result : Except ChainError (Option Height)} {rank : Hash → Nat}

/-! ### Walks without a limit -/

/-- One step along the parents, from above height zero. -/
def Step (i : Index) (r p : BlockRecord) : Prop :=
  r.height ≠ 0 ∧ i.record? r.parent = some p

/-- **A walk down**, with the records it comes to and how it fails, if it does. -/
inductive DownWalk (i : Index) (floor : Height) :
    BlockRecord → List BlockRecord → Option ChainError → Prop
  | stop {r : BlockRecord} (h : r.height ≤ floor) : DownWalk i floor r [r] none
  | lost {r : BlockRecord} (h : floor < r.height) (hp : i.record? r.parent = none) :
    DownWalk i floor r [r] (some (.blockNotFound r.parent))
  | step {r p : BlockRecord} {visited : List BlockRecord} {failure : Option ChainError}
    (h : floor < r.height) (hp : i.record? r.parent = some p)
    (hrest : DownWalk i floor p visited failure) : DownWalk i floor r (r :: visited) failure

/-- **A walk back from two records**, with the records it comes to on either side, the number of
its steps and its result. -/
inductive BackWalk (i : Index) : BlockRecord → BlockRecord → List BlockRecord → List BlockRecord →
    Nat → Except ChainError (Option Height) → Prop
  | meets {a b : BlockRecord} (h : Met a b) : BackWalk i a b [a] [b] 0 (.ok (some a.height))
  | parts {a b : BlockRecord} (h : ¬Met a b) (hzero : a.height = 0 ∧ b.height = 0) :
    BackWalk i a b [a] [b] 0 (.ok none)
  | lost {a b : BlockRecord} {x : Hash} (h : ¬Met a b) (hzero : ¬(a.height = 0 ∧ b.height = 0))
    (hstep : stepBack i.record? a b = .error (.blockNotFound x)) :
    BackWalk i a b [a] [b] 0 (.error (.blockNotFound x))
  | first {a b p : BlockRecord} {as bs : List BlockRecord} {n : Nat}
    {result : Except ChainError (Option Height)} (h : b.height < a.height)
    (hp : i.record? a.parent = some p) (hrest : BackWalk i p b as bs n result) :
    BackWalk i a b (a :: as) bs (n + 1) result
  | second {a b q : BlockRecord} {as bs : List BlockRecord} {n : Nat}
    {result : Except ChainError (Option Height)} (h : a.height < b.height)
    (hq : i.record? b.parent = some q) (hrest : BackWalk i a q as bs n result) :
    BackWalk i a b as (b :: bs) (n + 1) result
  | both {a b p q : BlockRecord} {as bs : List BlockRecord} {n : Nat}
    {result : Except ChainError (Option Height)} (h : ¬Met a b) (heq : a.height = b.height)
    (hpos : a.height ≠ 0) (hp : i.record? a.parent = some p) (hq : i.record? b.parent = some q)
    (hrest : BackWalk i p q as bs n result) :
    BackWalk i a b (a :: as) (b :: bs) (n + 1) result

/-- **As many steps as the walk comes to records are enough**, and more of them change nothing. -/
theorem DownWalk.walkDown_eq (h : i.DownWalk floor r visited failure) {steps : Nat}
    (hsteps : visited.length ≤ steps) :
    i.walkDown floor steps r = failure.elim (.ok visited) .error := by
  -- one step of the limit for each record visited
  induction h generalizing steps with
  | stop hlow =>
    unfold walkDown
    exact if_pos hlow
  | @lost r hhigh hp =>
    obtain ⟨steps, rfl⟩ := Nat.exists_eq_add_of_le' hsteps
    have hmissing : i.record r.parent = .error (.blockNotFound r.parent) := by simp [record, hp]
    unfold walkDown
    simp [UInt32.not_le.mpr hhigh, hmissing, bind, Except.bind]
  | @step r p visited failure hhigh hp hrest ih =>
    rw [List.length_cons] at hsteps
    obtain ⟨steps, rfl⟩ := Nat.exists_eq_add_of_le' (Nat.le_trans (Nat.le_add_left 1 _) hsteps)
    have hwalk : i.walkDown floor steps p = failure.elim (.ok visited) .error := ih (by omega)
    unfold walkDown
    cases failure <;>
      simp [UInt32.not_le.mpr hhigh, record_eq_ok.mpr hp, hwalk, bind, pure, Except.bind,
        Except.pure]

/-- The records that a walk back comes to put aside, it is a search for a fork point. -/
theorem BackWalk.forkSearch (h : i.BackWalk a b as bs n result) :
    ForkSearch i.record? a b n result := by
  induction h with
  | meets hmet => exact .meets hmet
  | parts hmet hzero => exact .parts hmet hzero
  | lost hmet hzero hstep => exact .lost hmet hzero hstep
  -- blocks at different heights have not met, and one of them has a parent
  | first hlt hp _ ih =>
    exact .step (fun h => UInt32.ne_of_lt hlt h.1.symm) (fun h => height_ne_zero_of_lt hlt h.1)
      (stepBack_first hlt hp) ih
  | second hlt hq _ ih =>
    exact .step (fun h => UInt32.ne_of_lt hlt h.1) (fun h => height_ne_zero_of_lt hlt h.2)
      (stepBack_second hlt hq) ih
  | both hmet heq hpos hp hq _ ih =>
    exact .step hmet (fun h => hpos h.1) (stepBack_both heq hp hq) ih

/-- **As many steps as the walk takes, and one to fail, are enough.** -/
theorem BackWalk.walkBack_eq (h : i.BackWalk a b as bs n result) {steps : Nat}
    (hsteps : n < steps) : walkBack i.record? steps a b = result :=
  h.forkSearch.walkBack_eq hsteps

/-! ### The records of a walk -/

theorem DownWalk.head?_eq (h : i.DownWalk floor r visited failure) : visited.head? = some r := by
  cases h <;> rfl

theorem BackWalk.head?_eq (h : i.BackWalk a b as bs n result) :
    as.head? = some a ∧ bs.head? = some b := by
  induction h with
  | meets | parts | lost => exact ⟨rfl, rfl⟩
  | first _ _ _ ih => exact ⟨rfl, ih.2⟩
  | second _ _ _ ih => exact ⟨ih.1, rfl⟩
  | both => exact ⟨rfl, rfl⟩

theorem isChain_cons_of_head (h : l.head? = some p) (hstep : i.Step r p) (hl : l.IsChain i.Step) :
    (r :: l).IsChain i.Step := by
  refine List.isChain_cons.mpr ⟨fun s hs => ?_, hl⟩
  rw [h] at hs
  exact Option.some.inj hs ▸ hstep

/-- The records that a walk down comes to are one above the other. -/
theorem DownWalk.isChain (h : i.DownWalk floor r visited failure) : visited.IsChain i.Step := by
  induction h with
  | stop | lost => exact .singleton _
  | step hhigh hp hrest ih =>
    exact isChain_cons_of_head hrest.head?_eq ⟨height_ne_zero_of_lt hhigh, hp⟩ ih

/-- So are those on either side of a walk back. -/
theorem BackWalk.isChain (h : i.BackWalk a b as bs n result) :
    as.IsChain i.Step ∧ bs.IsChain i.Step := by
  induction h with
  | meets | parts | lost => exact ⟨.singleton _, .singleton _⟩
  | first hlt hp hrest ih =>
    have hstep : i.Step _ _ := ⟨height_ne_zero_of_lt hlt, hp⟩
    exact ⟨isChain_cons_of_head hrest.head?_eq.1 hstep ih.1, ih.2⟩
  | second hlt hq hrest ih =>
    have hstep : i.Step _ _ := ⟨height_ne_zero_of_lt hlt, hq⟩
    exact ⟨ih.1, isChain_cons_of_head hrest.head?_eq.2 hstep ih.2⟩
  | both _ heq hpos hp hq hrest ih =>
    exact ⟨isChain_cons_of_head hrest.head?_eq.1 ⟨hpos, hp⟩ ih.1,
      isChain_cons_of_head hrest.head?_eq.2 ⟨heq ▸ hpos, hq⟩ ih.2⟩

/-- Every step of a walk back comes to a further record on one of the two sides. -/
theorem BackWalk.add_two_le (h : i.BackWalk a b as bs n result) :
    n + 2 ≤ as.length + bs.length := by
  induction h with
  | meets | parts | lost => simp
  | first _ _ _ ih | second _ _ _ ih | both _ _ _ _ _ _ ih =>
    simp only [List.length_cons]
    omega

/-! ### A rank that falls along the parents -/

/-- **The rank falls** from a record to its parent, if it needs one. -/
def Falls (rank : Hash → Nat) (r : BlockRecord) : Prop :=
  r.height ≠ 0 → rank r.parent < rank r.hash

/-- One record is of higher rank than another one. -/
def Outranks (rank : Hash → Nat) (r s : BlockRecord) : Prop := rank s.hash < rank r.hash

/-- Ranks are compared one after the other. -/
instance : Trans (Outranks rank) (Outranks rank) (Outranks rank) :=
  ⟨fun h h' => Nat.lt_trans h' h⟩

/-- **The rank falls along all parents** in the index, where every record lies under its hash. -/
abbrev Falling (i : Index) (rank : Hash → Nat) : Prop := i.All (Falls rank)

/-- A step goes to a record of lower rank, from where on the rank falls as well. -/
theorem Falling.step (hi : i.Falling rank) (hr : Falls rank r) (h : i.Step r p) :
    Falls rank p ∧ rank p.hash < rank r.hash := by
  obtain ⟨hhash, hp⟩ := hi _ _ h.2
  exact ⟨hp, hhash ▸ hr h.1⟩

/-- **Every walk down ends.** -/
theorem Falling.exists_downWalk (hi : i.Falling rank) (hr : Falls rank r) (floor : Height) :
    ∃ visited failure, i.DownWalk floor r visited failure := by
  -- on the rank, since the heights may rise on the way
  induction hrank : rank r.hash using Nat.strong_induction_on generalizing r with
  | _ m ih =>
    by_cases hlow : r.height ≤ floor
    · exact ⟨_, _, .stop hlow⟩
    have hhigh := UInt32.not_le.mp hlow
    cases hp : i.record? r.parent with
    | none => exact ⟨_, _, .lost hhigh hp⟩
    | some p =>
      obtain ⟨hfalls, hlt⟩ := hi.step hr ⟨height_ne_zero_of_lt hhigh, hp⟩
      obtain ⟨visited, failure, hrest⟩ := ih _ (hrank ▸ hlt) hfalls rfl
      exact ⟨_, _, .step hhigh hp hrest⟩

/-- **Every walk back ends.** Each step lowers the rank on one side and does not raise it on the
other. -/
theorem Falling.exists_backWalk (hi : i.Falling rank) (ha : Falls rank a) (hb : Falls rank b) :
    ∃ as bs n result, i.BackWalk a b as bs n result := by
  -- each step lowers the rank of one side at least
  induction hrank : rank a.hash + rank b.hash using Nat.strong_induction_on generalizing a b with
  | _ m ih =>
    -- the walk ends where the blocks have met, where both are at zero, or for want of a parent
    by_cases hmet : Met a b
    · exact ⟨_, _, _, _, .meets hmet⟩
    by_cases hzero : a.height = 0 ∧ b.height = 0
    · exact ⟨_, _, _, _, .parts hmet hzero⟩
    cases hstep : stepBack i.record? a b with
    | error e =>
      obtain ⟨x, rfl⟩ := blockNotFound_of_stepBack hstep
      exact ⟨_, _, _, _, .lost hmet hzero hstep⟩
    | ok places =>
      obtain ⟨p, q⟩ := places
      obtain ⟨hlt, hp, rfl⟩ | ⟨hlt, rfl, hq⟩ | ⟨heq, hp, hq⟩ := stepBack_cases hstep
      · obtain ⟨hfalls, hrank'⟩ := hi.step ha ⟨height_ne_zero_of_lt hlt, hp⟩
        obtain ⟨as, bs, n, result, hrest⟩ := ih _ (by omega) hfalls hb rfl
        exact ⟨_, _, _, _, .first hlt hp hrest⟩
      · obtain ⟨hfalls, hrank'⟩ := hi.step hb ⟨height_ne_zero_of_lt hlt, hq⟩
        obtain ⟨as, bs, n, result, hrest⟩ := ih _ (by omega) ha hfalls rfl
        exact ⟨_, _, _, _, .second hlt hq hrest⟩
      · have hpos : a.height ≠ 0 := fun ha => hzero ⟨ha, heq ▸ ha⟩
        obtain ⟨hfallsp, hrankp⟩ := hi.step ha ⟨hpos, hp⟩
        obtain ⟨hfallsq, hrankq⟩ := hi.step hb ⟨heq ▸ hpos, hq⟩
        obtain ⟨as, bs, n, result, hrest⟩ := ih _ (by omega) hfallsp hfallsq rfl
        exact ⟨_, _, _, _, .both hmet heq hpos hp hq hrest⟩

/-- **The rank falls all along a walk.** -/
theorem Falling.pairwise (hi : i.Falling rank) (hr : Falls rank r)
    (hl : (r :: l).IsChain i.Step) :
    (r :: l).Pairwise (Outranks rank) := by
  -- it is enough that it falls from each record to the next one
  refine List.isChain_iff_pairwise.mp ?_
  induction l generalizing r with
  | nil => exact .singleton r
  | cons p l ih =>
    obtain ⟨hstep, hl⟩ := List.isChain_cons_cons.mp hl
    obtain ⟨hp, hlt⟩ := hi.step hr hstep
    exact List.isChain_cons_cons.mpr ⟨hlt, ih hp hl⟩

/-- **No walk comes to a block twice.** -/
theorem Falling.nodup (hi : i.Falling rank) (hr : Falls rank r)
    (hl : (r :: l).IsChain i.Step) : ((r :: l).map (·.hash)).Nodup := by
  refine List.pairwise_map.mpr ((hi.pairwise hr hl).imp fun hlt heq => ?_)
  exact Nat.ne_of_gt hlt (congrArg rank heq)

/-- All that a walk comes to after its first record is indexed. -/
theorem Falling.contains (hi : i.Falling rank) (hl : (r :: l).IsChain i.Step) :
    ∀ s ∈ l, i.record? s.hash = some s := by
  induction l generalizing r with
  | nil => exact List.forall_mem_nil _
  | cons p l ih =>
    obtain ⟨hstep, hl⟩ := List.isChain_cons_cons.mp hl
    refine List.forall_mem_cons.mpr ⟨?_, ih hl⟩
    rw [(hi _ _ hstep.2).1]
    exact hstep.2

/-- There are no more different hashes under which records lie than records. -/
theorem length_hashes_le_size {hashes : List Hash} (hnodup : hashes.Nodup)
    (h : ∀ x ∈ hashes, i.contains x = true) : hashes.length ≤ i.size := by
  have hkeys : hashes ⊆ i.records.keys := by
    intro x hx
    rw [Std.ExtTreeMap.mem_keys, ← Index.contains_iff_mem]
    exact h x hx
  calc hashes.length ≤ i.records.keys.length := (List.subperm_of_subset hnodup hkeys).length_le
    _ = i.size := Std.ExtTreeMap.length_keys

/-! ### Both walks -/

/-- **Both walks of the fork choice end** for a candidate, with the limits that are set to them: the
one back from it and any record that is indexed, in less than twice as many steps as the bound, and
the one down from it to any height, which comes to no more records than the bound. On neither side
is a block come to twice. -/
structure WalksEnd (i : Index) (r : BlockRecord) (bound : Nat) : Prop where
  back : ∀ x p, i.record? x = some p → ∃ as bs n result, i.BackWalk r p as bs n result ∧
    (as.map (·.hash)).Nodup ∧ (bs.map (·.hash)).Nodup ∧ n < 2 * bound ∧
    i.forkPoint r p = result
  down : ∀ floor, ∃ visited failure, i.DownWalk floor r visited failure ∧
    (visited.map (·.hash)).Nodup ∧ visited.length ≤ bound ∧
    i.pathDown floor r = failure.elim (.ok visited) .error

/-- The records of a walk are one more than the indexed ones at most. -/
theorem Falling.length_le_size (hi : i.Falling rank) (hr : Falls rank r)
    (hl : (r :: l).IsChain i.Step) : l.length ≤ i.size := by
  have hnodup := (List.nodup_cons.mp (hi.nodup hr hl)).2
  rw [← List.length_map (f := (·.hash))]
  refine length_hashes_le_size hnodup fun x hx => ?_
  obtain ⟨s, hs, rfl⟩ := List.mem_map.mp hx
  exact contains_iff.mpr ⟨s, hi.contains hl s hs⟩

variable {hashes : List Hash}

/-- They are no more than there are hashes, if all that is indexed lies under one of these. -/
theorem Falling.length_le_card (hi : i.Falling rank) (hr : Falls rank r)
    (hl : (r :: l).IsChain i.Step) (hmem : r.hash ∈ hashes)
    (hknown : ∀ x, i.contains x = true → x ∈ hashes) :
    (r :: l).length ≤ hashes.toFinset.card := by
  have hsub : ((r :: l).map (·.hash)).toFinset ⊆ hashes.toFinset := by
    intro x hx
    obtain ⟨s, hs, rfl⟩ := List.mem_map.mp (List.mem_toFinset.mp hx)
    rw [List.mem_toFinset]
    rcases List.mem_cons.mp hs with rfl | hs
    · exact hmem
    · exact hknown _ (contains_iff.mpr ⟨s, hi.contains hl s hs⟩)
  calc (r :: l).length = ((r :: l).map (·.hash)).toFinset.card := by
        rw [List.toFinset_card_of_nodup (hi.nodup hr hl), List.length_map]
    _ ≤ hashes.toFinset.card := Finset.card_le_card hsub

/-- **Where a rank falls along the parents both walks end**, in as many steps as there are hashes,
on either side. The limits that the walks have are far enough. -/
theorem Falling.walksEnd (hi : i.Falling rank) (hr : Falls rank r) (hmem : r.hash ∈ hashes)
    (hknown : ∀ x, i.contains x = true → x ∈ hashes) :
    i.WalksEnd r hashes.toFinset.card where
  back x p hp := by
    obtain ⟨hhash, hfalls⟩ := hi x p hp
    have hmem' : p.hash ∈ hashes := hhash ▸ hknown x (contains_iff.mpr ⟨p, hp⟩)
    obtain ⟨as, bs, n, result, hwalk⟩ := hi.exists_backWalk hr hfalls
    obtain ⟨as, rfl⟩ := List.head?_eq_some_iff.mp hwalk.head?_eq.1
    obtain ⟨bs, rfl⟩ := List.head?_eq_some_iff.mp hwalk.head?_eq.2
    -- both sides go down parent links, along which the rank falls: no hash comes twice
    obtain ⟨has, hbs⟩ := hwalk.isChain
    have hsteps := hwalk.add_two_le
    refine ⟨_, _, n, result, hwalk, hi.nodup hr has, hi.nodup hfalls hbs, ?_, ?_⟩
    · -- the hashes bound each side
      have hleft := hi.length_le_card hr has hmem hknown
      have hright := hi.length_le_card hfalls hbs hmem' hknown
      omega
    · -- the records bound it as well, which is what the limit is about
      have hleft := hi.length_le_size hr has
      have hright := hi.length_le_size hfalls hbs
      simp only [List.length_cons] at hsteps
      have hsquare : 2 * i.size < (i.size + 1) * (i.size + 1) := by nlinarith
      refine hwalk.walkBack_eq ?_
      unfold walkSteps
      omega
  down floor := by
    obtain ⟨visited, failure, hwalk⟩ := hi.exists_downWalk hr floor
    obtain ⟨l, rfl⟩ := List.head?_eq_some_iff.mp hwalk.head?_eq
    -- the walk down is one of the two sides alone
    have hl := hwalk.isChain
    refine ⟨_, failure, hwalk, hi.nodup hr hl, hi.length_le_card hr hl hmem hknown, ?_⟩
    have hlength := hi.length_le_size hr hl
    refine hwalk.walkDown_eq ?_
    rw [List.length_cons]
    unfold pathSteps
    omega

end Index

/-! ### Runs -/

/-- **Blocks that are told apart by their hashes** as far as the place goes where they stand: those
of one hash have one parent and one height. -/
def Consistent (blocks : List HeaderBlock) : Prop :=
  ∀ a ∈ blocks, ∀ b ∈ blocks, a.hash = b.hash → a.parent = b.parent ∧ a.height = b.height

/-- Whether finitely many blocks are consistent can be found out. -/
instance {blocks : List HeaderBlock} : Decidable (Consistent blocks) :=
  inferInstanceAs (Decidable (∀ a ∈ blocks, ∀ b ∈ blocks, _ → _))

theorem Consistent.mono {blocks blocks' : List HeaderBlock} (h : Consistent blocks)
    (hsub : blocks' ⊆ blocks) : Consistent blocks' :=
  fun a ha b hb => h a (hsub ha) b (hsub hb)

/-- The number of different blocks among some. -/
def distinct (blocks : List HeaderBlock) : Nat := (blocks.map (·.hash)).toFinset.card

namespace Chain

open Procedure

variable {k : Consensus} {c m : Chain} {d : Disk} {cs : List Call} {b : HeaderBlock}
  {r : BlockRecord} {i : Index} {s : Session Chain} {blocks : List HeaderBlock}
  {order : List Hash}

/-- **A run on which blocks are offered** to a chain that has nothing in memory yet, the latest
first. The collaborators may be others each time, and any call to the store may fail. -/
inductive Fed : List HeaderBlock → Session Chain → Prop
  | fresh {config : Config} {disk : Disk} {journal : List Entry} :
    Fed [] ⟨fresh config, disk, journal⟩
  | offered {blocks : List HeaderBlock} {s : Session Chain} {k : Consensus} (hs : Fed blocks s)
    (hk : k.Plain) (b : HeaderBlock) : Fed (b :: blocks) ((offer k b).after s)

/-- **The order in which hashes were first indexed**, evicted ones included, on a run with these
blocks. A block that needs its parent comes after it. -/
structure FirstIndexed (blocks : List HeaderBlock) (order : List Hash) (i : Index) : Prop where
  nodup : order.Nodup
  offered : ∀ x ∈ order, x ∈ blocks.map (·.hash)
  parent : ∀ b ∈ blocks, b.hash ∈ order → b.height ≠ 0 →
    order.idxOf b.parent < order.idxOf b.hash
  record : i.All fun r => r.hash ∈ order ∧ ∃ b ∈ blocks, r.StandsAt b

theorem firstIndexed_nil : FirstIndexed [] [] .empty where
  nodup := .nil
  offered := List.forall_mem_nil _
  parent := List.forall_mem_nil _
  record := (Index.lasts_all _).empty

/-- The place in the order falls from a record that stands where an ordered block stands. -/
theorem FirstIndexed.falls (h : FirstIndexed blocks order i) (hb : b ∈ blocks)
    (hmem : b.hash ∈ order) (hr : r.StandsAt b) : Index.Falls order.idxOf r := by
  intro hheight
  rw [hr.hash, hr.parent]
  exact h.parent b hb hmem (hr.height ▸ hheight)

theorem FirstIndexed.falling (h : FirstIndexed blocks order i) : i.Falling order.idxOf := by
  intro x r hr
  obtain ⟨hhash, hmem, b, hb, hstands⟩ := h.record x r hr
  exact ⟨hhash, h.falls hb (hstands.hash ▸ hmem) hstands⟩

/-- One more block leaves the order of those that are in it: the parent of one that is offered again
is the one it had before. -/
theorem FirstIndexed.cons (h : FirstIndexed blocks order i) (hcons : Consistent (b :: blocks)) :
    FirstIndexed (b :: blocks) order i where
  nodup := h.nodup
  offered x hx := List.mem_cons_of_mem _ (h.offered x hx)
  parent := by
    refine List.forall_mem_cons.mpr ⟨fun hmem hheight => ?_, h.parent⟩
    -- if it is in the order it was offered before, under the same parent
    obtain ⟨a, ha, hhash⟩ := List.mem_map.mp (h.offered _ hmem)
    obtain ⟨hparent, hsame⟩ :=
      hcons a (List.mem_cons_of_mem _ ha) b List.mem_cons_self hhash
    rw [← hparent, ← hhash]
    exact h.parent a ha (hhash ▸ hmem) (hsame ▸ hheight)
  record x r hr := by
    obtain ⟨hhash, hmem, a, ha, hstands⟩ := h.record x r hr
    exact ⟨hhash, hmem, a, List.mem_cons_of_mem _ ha, hstands⟩

/-- **A block that was never indexed comes last**, after its parent, which is indexed. -/
theorem FirstIndexed.append (h : FirstIndexed blocks order i) (hcons : Consistent (b :: blocks))
    (hparent : b.height ≠ 0 → ∃ p, i.record? b.parent = some p) (hnew : b.hash ∉ order) :
    FirstIndexed (b :: blocks) (order ++ [b.hash]) i where
  nodup := by
    refine List.nodup_append.mpr ⟨h.nodup, List.nodup_singleton _, fun x hx y hy heq => ?_⟩
    rw [List.mem_singleton.mp hy] at heq
    exact hnew (heq ▸ hx)
  offered := by
    refine List.forall_mem_append.mpr ⟨(h.cons hcons).offered, ?_⟩
    exact List.forall_mem_singleton.mpr List.mem_cons_self
  parent a ha hmem hheight := by
    rcases List.mem_append.mp hmem with hold | hlast
    · -- a block that was in the order stays where it was, and so does its parent
      have hlt := (h.cons hcons).parent a ha hold hheight
      have hbefore : a.parent ∈ order :=
        List.idxOf_lt_length_iff.mp (Nat.lt_trans hlt (List.idxOf_lt_length_iff.mpr hold))
      rwa [List.idxOf_append_of_mem hold, List.idxOf_append_of_mem hbefore]
    · -- the last one is the new one, whose parent was in the order before
      obtain ⟨hsame, hheight'⟩ := hcons a ha b List.mem_cons_self (List.mem_singleton.mp hlast)
      obtain ⟨p, hp⟩ := hparent (hheight' ▸ hheight)
      obtain ⟨hhash, hbefore, -⟩ := h.record _ _ hp
      rw [hhash] at hbefore
      rw [List.mem_singleton.mp hlast, hsame, List.idxOf_append_of_mem hbefore,
        List.idxOf_append_of_notMem hnew]
      exact Nat.lt_add_right _ (List.idxOf_lt_length_iff.mpr hbefore)
  record x r hr := by
    obtain ⟨hhash, hmem, hstands⟩ := (h.cons hcons).record x r hr
    exact ⟨hhash, List.mem_append_left _ hmem, hstands⟩

/-- **A valid block has its place in the order**, or gets one. -/
theorem FirstIndexed.validated (h : FirstIndexed blocks order c.index)
    (hcons : Consistent (b :: blocks)) (hr : Validated k b c r) :
    ∃ order', FirstIndexed (b :: blocks) order' c.index ∧ b.hash ∈ order' := by
  by_cases hb : b.hash ∈ order
  · exact ⟨order, h.cons hcons, hb⟩
  · exact ⟨_, h.append hcons hr.exists_parent hb, List.mem_append_right _ List.mem_cons_self⟩

/-- **Every offer keeps the order**, whatever becomes of the block. -/
theorem FirstIndexed.offer (h : FirstIndexed blocks order c.index)
    (hcons : Consistent (b :: blocks)) (hk : k.Plain) {a : Except ChainError Outcome}
    (hoffered : Offered k b c d a m cs) :
    ∃ order', FirstIndexed (b :: blocks) order' m.index := by
  -- a record comes in of a valid block only, and the block is given its place before that
  by_cases hvalid : ∃ r, Validated k b c r
  · obtain ⟨r, hr⟩ := hvalid
    obtain ⟨order', h', hmem⟩ := h.validated hcons hr
    refine ⟨order', h'.nodup, h'.offered, h'.parent, ?_⟩
    refine lasts_offered (Index.lasts_all _) h'.record (fun r' hr' => ?_) hoffered
    obtain ⟨-, p, iters, -, -, hbuild⟩ := hr'
    have hstands := hk.standsAt hbuild
    exact ⟨hstands.hash ▸ hmem, b, List.mem_cons_self, hstands⟩
  · have h' := h.cons hcons
    refine ⟨order, h'.nodup, h'.offered, h'.parent, ?_⟩
    exact lasts_offered (Index.lasts_all _) h'.record (fun r hr => absurd ⟨r, hr⟩ hvalid) hoffered

/-- **There is such an order at all times.** -/
theorem Fed.exists_firstIndexed (h : Fed blocks s) (hcons : Consistent blocks) :
    ∃ order, FirstIndexed blocks order s.memory.index := by
  induction h with
  | fresh => exact ⟨[], firstIndexed_nil⟩
  | @offered blocks s k hs hk b ih =>
    obtain ⟨order, horder⟩ := ih (hcons.mono (List.subset_cons_self b blocks))
    obtain ⟨a, m, cs, hgives, hoffered⟩ := offer_cases k b s
    rw [hgives.memory]
    exact horder.offer hcons hk hoffered

/-- **Both walks end.** On a run on which blocks were offered to a fresh chain, whatever became of
them, evicted and offered again included, both walks end for every valid block that is offered next.
Nothing is asked of the validators, and of heights no more than that they belong to the hashes. -/
theorem Fed.both_walks_end (h : Fed blocks s) (hcons : Consistent (b :: blocks)) (hk : k.Plain)
    (hr : Validated k b s.memory r) :
    s.memory.index.WalksEnd r (distinct (b :: blocks)) := by
  obtain ⟨order, horder⟩ := h.exists_firstIndexed (hcons.mono (List.subset_cons_self b blocks))
  obtain ⟨order', horder', hmem⟩ := horder.validated hcons hr
  have hstands : r.StandsAt b := by
    obtain ⟨-, p, iters, -, -, hbuild⟩ := hr
    exact hk.standsAt hbuild
  refine horder'.falling.walksEnd (horder'.falls List.mem_cons_self hmem hstands) ?_ ?_
  · exact hstands.hash ▸ List.mem_cons_self
  · intro x hx
    obtain ⟨p, hp⟩ := Index.contains_iff.mp hx
    obtain ⟨hhash, hbefore, -⟩ := horder'.record x p hp
    exact horder'.offered x (hhash ▸ hbefore)

end Chain

/-! ### A walk that goes up -/

namespace Sample

/-- A child of the first block, seven heights above it. -/
def hill : HeaderBlock := block 3 7 root.hash 10 none

/-- A child of that one, four heights below it. -/
def hollow : HeaderBlock := block 4 3 hill.hash 20 none

/-- Another child of the first block. -/
def tower : HeaderBlock := block 5 9 root.hash 30 none

/-- Blocks that go up and down from one first block. -/
def climbing : List HeaderBlock := [root, hill, hollow, tower]

theorem plain_climbing : (Consensus.only climbing).Plain where
  findFork := rfl
  standsAt h := by
    cases h
    exact ⟨rfl, rfl, rfl⟩

/-- A chain that was offered the first block, and again after it was evicted. -/
def climbed : Session Chain :=
  Chain.offerAll (.only climbing) [root, hill, hollow, root]
    ⟨Chain.fresh { blockRetention := 1 }, {}, []⟩

theorem fed_climbed : Chain.Fed [root, hollow, hill, root] climbed :=
  (((Chain.Fed.fresh.offered plain_climbing root).offered plain_climbing hill).offered
    plain_climbing hollow).offered plain_climbing root

end Sample

set_option maxRecDepth 4000 in
/-- From the peak one step leads up to its parent and the next one down to the first block, where
the walk meets the one from the candidate. -/
theorem Chain.both_walks_end_climbed :
    Sample.climbed.memory.peak? = some Sample.hollow ∧
      Sample.climbed.memory.index.WalksEnd (Sample.record Sample.tower)
        (distinct [Sample.tower, Sample.root, Sample.hollow, Sample.hill, Sample.root]) ∧
      Sample.climbed.memory.index.forkPoint (Sample.record Sample.tower)
        (Sample.record Sample.hollow) = .ok (some 0) := by
  -- one evaluation for all that is read off the sample
  have hfacts : (Sample.climbed.memory.peak?,
      Sample.climbed.memory.index.contains Sample.tower.hash,
      Sample.climbed.memory.parameters? (.only Sample.climbing) Sample.tower,
      Sample.climbed.memory.index.forkPoint (Sample.record Sample.tower)
        (Sample.record Sample.hollow)) =
      (some Sample.hollow, false, .ok (some ({} : Config).constants.startingParameters),
        .ok (some 0)) := by cbv
  simp only [Prod.mk.injEq] at hfacts
  obtain ⟨hpeak, hnew, hparameters, hfork⟩ := hfacts
  have hverdict : Sample.climbed.memory.verdict (.only Sample.climbing) Sample.tower
      ({} : Config).constants.startingParameters = .ok Sample.requiredIters := by
    simp [verdict, Consensus.only, Sample.climbing]
  have hr : Validated (.only Sample.climbing) Sample.tower Sample.climbed.memory
      (Sample.record Sample.tower) :=
    ⟨hnew, _, _, hparameters, hverdict, rfl⟩
  refine ⟨hpeak, ?_, hfork⟩
  exact Sample.fed_climbed.both_walks_end (by decide +kernel) Sample.plain_climbing hr

end HeaderChain
