import Mathlib.Data.List.Chain
import HeaderChain.Consensus
import HeaderChain.Proofs.Index

/-!
# Block trees

What everybody who talks to a chain is taken to agree on: which blocks there are, and which records
a weight proof attests to.

* `Blocks` — blocks that are told apart by their hashes, and no more than that;
* `BlockTree` — such blocks, each standing one above its parent, and the records of weight proofs,
  which are runs of such blocks that end at the heaviest of them. Where the weights along a proof do
  not matter, `BlockTree.Runs` asks for the run only;
* `BlockRecord.Copies` — what of a block its record repeats;
* `BlockTree.Descent` — blocks one below the other, the highest first. There is one way down from a
  block (`Descent.isPrefix`), and on it the heights fall by one each time (`Descent.pairwise_lt`,
  `Descent.exists_height`);
* `Consensus.Obeys`, `Verifier.Obeys` — collaborators that only accept what is in the tree,
  `Verifier.Follows` — a verifier held to any other relation of proofs and records, and
  `Verifier.Answers` — one that takes every proof over the tree;
* `Index.Within`, `Index.Spine` — an index all of whose records are of the tree, and one whose
  canonical map is exactly a list of blocks.
-/

namespace HeaderChain

/-- **A record repeats its block**: where it stands, how heavy it is, and when it was made. -/
structure BlockRecord.Copies (r : BlockRecord) (b : HeaderBlock) : Prop where
  hash : r.hash = b.hash
  parent : r.parent = b.parent
  height : r.height = b.height
  weight : r.weight = b.weight
  timestamp : r.timestamp = b.timestamp

namespace BlockRecord

variable {rs : List BlockRecord} {blocks : List HeaderBlock}

/-- A record that is a copy has its block. -/
theorem exists_block (h : List.Forall₂ Copies rs blocks) {r : BlockRecord} (hr : r ∈ rs) :
    ∃ b ∈ blocks, r.Copies b := by
  induction h with
  | nil => simp at hr
  | cons hcopies _ ih =>
    rcases List.mem_cons.mp hr with rfl | hr
    · exact ⟨_, List.mem_cons_self, hcopies⟩
    · obtain ⟨b, hb, hrb⟩ := ih hr
      exact ⟨b, List.mem_cons_of_mem _ hb, hrb⟩

/-- A block has its record among the copies. -/
theorem exists_record (h : List.Forall₂ Copies rs blocks) {b : HeaderBlock} (hb : b ∈ blocks) :
    ∃ r ∈ rs, r.Copies b := by
  induction h with
  | nil => simp at hb
  | cons hcopies _ ih =>
    rcases List.mem_cons.mp hb with rfl | hb
    · exact ⟨_, List.mem_cons_self, hcopies⟩
    · obtain ⟨r, hr, hrb⟩ := ih hb
      exact ⟨r, List.mem_cons_of_mem _ hr, hrb⟩

/-- No two records stand at one height if no two of their blocks do. -/
theorem pairwise_height (h : List.Forall₂ Copies rs blocks)
    (hblocks : blocks.Pairwise fun b a => b.height ≠ a.height) :
    rs.Pairwise fun r s => r.height ≠ s.height := by
  induction h with
  | nil => exact .nil
  | @cons r b rs blocks hrb hcopies ih =>
    obtain ⟨hb, hblocks⟩ := List.pairwise_cons.mp hblocks
    refine List.pairwise_cons.mpr ⟨fun s hs => ?_, ih hblocks⟩
    obtain ⟨a, ha, hsa⟩ := exists_block hcopies hs
    rw [hrb.height, hsa.height]
    exact hb a ha

end BlockRecord

/-- **Records are those of a run of blocks**, the lowest first, each the parent of the next, and the
run ends at the tip of the proof. -/
structure WeightProof.Links (w : WeightProof) (rs : List BlockRecord)
    (blocks : List HeaderBlock) : Prop where
  copies : List.Forall₂ BlockRecord.Copies rs blocks
  linked : blocks.IsChain fun a b => b.parent = a.hash
  last : blocks.getLast? = w.tip?

/-- **Records are those of a run of blocks**, and the tip is the heaviest of them. -/
structure WeightProof.Covers (w : WeightProof) (rs : List BlockRecord)
    (blocks : List HeaderBlock) : Prop extends w.Links rs blocks where
  heaviest : ∀ tip, w.tip? = some tip → ∀ b ∈ blocks, b.weight ≤ tip.weight

/-- **Blocks that are told apart by their hashes.** -/
structure Blocks where
  /-- The block is one of them. -/
  has : HeaderBlock → Prop
  eq_of_hash : ∀ {a b}, has a → has b → a.hash = b.hash → a = b

/-- **A consistent tree of blocks**: a hash determines its block, and a block stands one above its
parent, which a count that wraps never does. A block at height zero therefore is a root. -/
structure BlockTree extends Blocks where
  /-- The records a weight proof may attest to. -/
  attests : WeightProof → List BlockRecord → Prop
  height_of_parent : ∀ {a b}, has a → has b → b.parent = a.hash →
    b.height.toNat = a.height.toNat + 1
  covers_of_attests : ∀ {w rs}, attests w rs → ∃ blocks, (∀ b ∈ blocks, has b) ∧ w.Covers rs blocks

/-- Collaborators that accept no block outside the tree, build records that copy their blocks, and
find forks by walking back. -/
structure Consensus.Obeys (k : Consensus) (tree : BlockTree) : Prop where
  has_of_validate : ∀ {constants i b p iters},
    k.validate constants i b p = .ok (some iters) → tree.has b
  copies_of_build : ∀ {constants i iters b r}, tree.has b →
    k.build constants i iters b = .ok r → r.Copies b
  findFork : k.findFork = Index.forkPoint

/-- A verifier that answers with no other records than a proof may come with. -/
def Verifier.Follows (v : Verifier) (attests : WeightProof → List BlockRecord → Prop) : Prop :=
  ∀ {w skip rs}, v w skip = .ok rs → attests w rs

/-- A verifier that accepts a proof with no other records than those it attests to. -/
def Verifier.Obeys (v : Verifier) (tree : BlockTree) : Prop :=
  ∀ {w skip rs}, v w skip = .ok rs → tree.attests w rs

/-- A verifier that takes every proof which attests to records, and answers these. -/
def Verifier.Answers (v : Verifier) (tree : BlockTree) : Prop :=
  ∀ {w rs}, tree.attests w rs → ∀ skip, v w skip = .ok rs

namespace BlockTree

variable (tree : BlockTree)

/-- The record is that of a block of the tree. -/
def Records (r : BlockRecord) : Prop := ∃ b, tree.has b ∧ r.Copies b

/-- **The records are those of a run of blocks of the tree** which ends at the tip of the proof. The
tip need not be the heaviest of them. -/
def Runs (w : WeightProof) (rs : List BlockRecord) : Prop :=
  ∃ blocks, (∀ b ∈ blocks, tree.has b) ∧ w.Links rs blocks

/-- What a proof attests to is a run. -/
theorem runs_of_attests {w : WeightProof} {rs : List BlockRecord} (h : tree.attests w rs) :
    tree.Runs w rs := by
  obtain ⟨blocks, hblocks, hcovers⟩ := tree.covers_of_attests h
  exact ⟨blocks, hblocks, hcovers.toLinks⟩

/-- **A descent**: a block, its parent, and so on down to another block of the tree, the highest
first. -/
inductive Descent (tree : BlockTree) : List HeaderBlock → HeaderBlock → HeaderBlock → Prop
  | self {x : HeaderBlock} (hx : tree.has x) : Descent tree [x] x x
  | step {x p m : HeaderBlock} {l : List HeaderBlock} (hx : tree.has x) (hlink : x.parent = p.hash)
    (h : Descent tree l p m) : Descent tree (x :: l) x m

variable {tree}

namespace Descent

variable {x y m q : HeaderBlock} {l l' : List HeaderBlock}

theorem head_mem (h : tree.Descent l x m) : x ∈ l := by
  cases h <;> simp

theorem last_mem (h : tree.Descent l x m) : m ∈ l := by
  induction h with
  | self => simp
  | step _ _ _ ih => exact List.mem_cons_of_mem _ ih

/-- All of a descent are blocks of the tree. -/
theorem has_of_mem (h : tree.Descent l x m) (hy : y ∈ l) : tree.has y := by
  induction h with
  | self hx =>
    obtain rfl := List.mem_singleton.mp hy
    exact hx
  | step hx _ _ ih =>
    rcases List.mem_cons.mp hy with rfl | hy
    · exact hx
    · exact ih hy

/-- A block stands one above the block below it. -/
theorem height_step (hx : tree.has x) (hlink : x.parent = y.hash) (h : tree.Descent l y m) :
    x.height.toNat = y.height.toNat + 1 :=
  tree.height_of_parent (h.has_of_mem h.head_mem) hx hlink

/-- The first block is the highest. -/
theorem height_le (h : tree.Descent l x m) (hy : y ∈ l) : y.height ≤ x.height := by
  induction h with
  | self =>
    obtain rfl := List.mem_singleton.mp hy
    exact UInt32.le_refl _
  | step hx hlink h ih =>
    have hstep := height_step hx hlink h
    rcases List.mem_cons.mp hy with rfl | hy
    · exact UInt32.le_refl _
    · have hle := UInt32.le_iff_toNat_le.mp (ih hy)
      exact UInt32.le_iff_toNat_le.mpr (by omega)

/-- The last block is the lowest. -/
theorem le_height (h : tree.Descent l x m) (hy : y ∈ l) : m.height ≤ y.height := by
  induction h generalizing y with
  | self =>
    obtain rfl := List.mem_singleton.mp hy
    exact UInt32.le_refl _
  | step hx hlink h ih =>
    have hstep := height_step hx hlink h
    rcases List.mem_cons.mp hy with rfl | hy
    · have hle := UInt32.le_iff_toNat_le.mp (ih h.head_mem)
      exact UInt32.le_iff_toNat_le.mpr (by omega)
    · exact ih hy

/-- On the way down the heights fall. -/
theorem pairwise_lt (h : tree.Descent l x m) : l.Pairwise fun b a => a.height < b.height := by
  induction h with
  | self => simp
  | step hx hlink h ih =>
    refine List.pairwise_cons.mpr ⟨fun a ha => ?_, ih⟩
    have hstep := height_step hx hlink h
    have hle := UInt32.le_iff_toNat_le.mp (h.height_le ha)
    exact UInt32.lt_iff_toNat_lt.mpr (by omega)

/-- Blocks of a descent at one height are the same block. -/
theorem eq_of_height (h : tree.Descent l x m) {y z : HeaderBlock} (hy : y ∈ l) (hz : z ∈ l)
    (hheight : y.height = z.height) : y = z := by
  have hpair : l.Pairwise fun y z => y.height = z.height → y = z :=
    h.pairwise_lt.imp fun hlt heq => absurd hlt (by simp [heq])
  have : Std.Symm fun y z : HeaderBlock => y.height = z.height → y = z :=
    ⟨fun _ _ hyz heq => (hyz heq.symm).symm⟩
  exact List.Pairwise.forall_of_forall (fun _ _ _ => rfl) hpair hy hz hheight

/-- A descent leaves out no height between those of its ends. -/
theorem exists_height (h : tree.Descent l x m) {k : Height} (hlow : m.height ≤ k)
    (hhigh : k ≤ x.height) : ∃ y ∈ l, y.height = k := by
  induction h with
  | self => exact ⟨_, by simp, UInt32.le_antisymm hlow hhigh⟩
  | @step x p m l hx hlink h ih =>
    have hstep := height_step hx hlink h
    by_cases hk : k = x.height
    · exact ⟨x, by simp, hk.symm⟩
    · -- below the first block there is no gap
      have hle : k ≤ p.height := by
        rw [UInt32.le_iff_toNat_le] at hhigh ⊢
        have : k.toNat ≠ x.height.toNat := fun heq => hk (UInt32.toNat_inj.mp heq)
        omega
      obtain ⟨y, hy, hyk⟩ := ih hlow hle
      exact ⟨y, List.mem_cons_of_mem x hy, hyk⟩

/-- The block above another one on a descent has it as its parent. -/
theorem parent_of_mem (h : tree.Descent l x m) (hy : y ∈ l) (hlow : m.height < y.height) :
    ∃ z ∈ l, y.parent = z.hash := by
  induction h with
  | self =>
    obtain rfl := List.mem_singleton.mp hy
    exact absurd hlow (UInt32.lt_irrefl _)
  | @step x p m l hx hlink h ih =>
    rcases List.mem_cons.mp hy with rfl | hy
    · exact ⟨p, List.mem_cons_of_mem _ h.head_mem, hlink⟩
    · obtain ⟨z, hz, hyz⟩ := ih hy hlow
      exact ⟨z, List.mem_cons_of_mem _ hz, hyz⟩

/-- One descent below another. -/
theorem append (h : tree.Descent l x q) (hlink : q.parent = y.hash) (h' : tree.Descent l' y m) :
    tree.Descent (l ++ l') x m := by
  induction h with
  | self hx => exact .step hx hlink h'
  | step hx hxp _ ih => exact .step hx hxp (ih hlink)

/-- Of two descents from one block, the one that ends higher is the start of the other. -/
theorem isPrefix (h : tree.Descent l x m) (h' : tree.Descent l' x q)
    (hheight : q.height ≤ m.height) : l <+: l' := by
  induction h generalizing l' with
  | @self x hx => cases h' <;> simp
  | @step x p m l hx hlink h ih =>
    cases h' with
    | self =>
      -- the other descent would end higher
      have hstep := height_step hx hlink h
      have hle := UInt32.le_iff_toNat_le.mp (h.height_le h.last_mem)
      exact absurd (UInt32.le_iff_toNat_le.mp hheight) (by omega)
    | @step _ p' _ l' _ hlink' h' =>
      -- a hash determines its block, so both go on from the same parent
      have hp : p' = p := tree.eq_of_hash (h'.has_of_mem h'.head_mem) (h.has_of_mem h.head_mem)
        (hlink'.symm.trans hlink)
      exact List.cons_prefix_cons.mpr ⟨rfl, ih (hp ▸ h') hheight⟩

/-- The rest of a descent is one from where its start has ended. -/
theorem rest (h : tree.Descent l x m) (h' : tree.Descent (l ++ l') x q) :
    tree.Descent (m :: l') m q := by
  induction h with
  | self => exact h'
  | @step x p m l hx hlink h ih =>
    rw [List.cons_append] at h'
    generalize htail : l ++ l' = tail at h'
    cases h' with
    | self => exact absurd htail (by cases h <;> simp)
    | @step _ p' _ _ _ hlink' h' =>
      have hp : p' = p := tree.eq_of_hash (h'.has_of_mem h'.head_mem) (h.has_of_mem h.head_mem)
        (hlink'.symm.trans hlink)
      exact ih (htail ▸ hp ▸ h')

/-- A descent is what lies above its last block, and that block. -/
theorem exists_above (h : tree.Descent l x m) :
    ∃ above, l = above ++ [m] ∧ ∀ y ∈ above, m.height < y.height := by
  obtain ⟨above, rfl⟩ : ∃ above, l = above ++ [m] := by
    induction h with
    | self => exact ⟨[], rfl⟩
    | @step x p m l hx hlink h ih =>
      obtain ⟨above, rfl⟩ := ih
      exact ⟨x :: above, rfl⟩
  exact ⟨above, rfl, fun y hy => (List.pairwise_append.mp h.pairwise_lt).2.2 y hy m (by simp)⟩

/-- A descent between neighbouring heights is a single step. -/
theorem parent_of_height (h : tree.Descent l x m)
    (hheight : x.height.toNat = m.height.toNat + 1) : x.parent = m.hash := by
  cases h with
  | self => omega
  | @step _ p _ l hx hlink h =>
    have hstep := height_step hx hlink h
    have heq : p.height = m.height := UInt32.toNat_inj.mp (by omega)
    rw [hlink, h.eq_of_height h.head_mem h.last_mem heq]

end Descent

end BlockTree

/-- A verifier that obeys the tree answers with runs of its blocks. -/
theorem Verifier.Obeys.follows_runs {v : Verifier} {tree : BlockTree} (hv : v.Obeys tree) :
    v.Follows tree.Runs :=
  fun h => tree.runs_of_attests (hv h)

/-! ### Indices over a tree -/

namespace Index

variable {tree : BlockTree} {i : Index} {r : BlockRecord}

/-- Every record is that of the block of its hash. -/
def Within (i : Index) (tree : BlockTree) : Prop :=
  ∀ x r, i.record? x = some r → r.hash = x ∧ tree.Records r

/-- **The canonical map is exactly this list of blocks.** -/
def Spine (i : Index) (blocks : List HeaderBlock) : Prop :=
  ∀ h x, i.hashAt? h = some x ↔ ∃ b ∈ blocks, b.height = h ∧ b.hash = x

theorem within_empty : empty.Within tree := by
  intro x r h
  simp at h

/-- A record of the tree may be added. -/
theorem Within.add (hi : i.Within tree) (hr : tree.Records r) : (i.add r).Within tree := by
  intro x r' h
  rw [record?_add] at h
  split at h
  next hx => exact Option.some.inj h ▸ ⟨hx, hr⟩
  next => exact hi x r' h

theorem within_congr {i j : Index} (h : i.record? = j.record?) (hi : i.Within tree) :
    j.Within tree := by
  intro x r hr
  rw [← h] at hr
  exact hi x r hr

/-- Eviction only takes records away. -/
theorem record?_of_pruneBelow {h : Height} {x : Hash}
    (hr : (i.pruneBelow h).1.record? x = some r) : i.record? x = some r := by
  rw [record?_pruneBelow_eq_ite] at hr
  split at hr
  next => simp at hr
  next => exact hr

/-- An eviction adds nothing. -/
theorem Within.pruneBelow (hi : i.Within tree) (h : Height) : (i.pruneBelow h).1.Within tree :=
  fun x r hr => hi x r (record?_of_pruneBelow hr)

/-- A record of the tree that takes the place of another one stands where that stood. -/
theorem Within.filed_add (hi : i.Within tree) (hf : i.Filed) (hr : tree.Records r) :
    (i.add r).Filed := by
  refine hf.add fun old hold => ?_
  -- two records under one hash are of one block
  obtain ⟨hhash, a, ha, hca⟩ := hi _ _ hold
  obtain ⟨b, hb, hcb⟩ := hr
  have heq : a = b := tree.eq_of_hash ha hb (by rw [← hca.hash, hhash, hcb.hash])
  rw [hca.height, hcb.height, heq]

theorem spine_empty : empty.Spine [] := by
  intro h x
  simp

theorem spine_congr {i j : Index} {l : List HeaderBlock} (h : i.canonical = j.canonical)
    (hi : i.Spine l) : j.Spine l := by
  intro k x
  rw [hashAt?, ← h]
  exact hi k x

/-- Two indices with one spine have one canonical map. -/
theorem Spine.canonical_eq {i j : Index} {l : List HeaderBlock} (hi : i.Spine l) (hj : j.Spine l) :
    i.canonical = j.canonical :=
  canonical_ext fun k x => (hi k x).trans (hj k x).symm

end Index

end HeaderChain
