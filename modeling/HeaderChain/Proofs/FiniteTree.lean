import Mathlib
import HeaderChain.Proofs.BlockTree
import HeaderChain.Sample

/-!
# Trees of finitely many blocks

* `Consensus.only`, `Verifier.only` — collaborators that accept some blocks, and proofs whose recent
  blocks are a run of them, and nothing else;
* `BlockTree.ofList` — the tree of these blocks and proofs. The collaborators obey it
  (`Consensus.only_obeys`, `Verifier.only_obeys`), and take every proof over it
  (`Verifier.only_answers`).
-/

namespace HeaderChain

/-- The record of a sample block copies it. -/
theorem Sample.record_copies (b : HeaderBlock) : (Sample.record b).Copies b :=
  ⟨rfl, rfl, rfl, rfl, rfl⟩

/-- Collaborators that accept these blocks only. -/
def Consensus.only (blocks : List HeaderBlock) : Consensus where
  adjust constants _ _ _ := .ok constants.startingParameters
  validate _ _ b _ := .ok (if b ∈ blocks then some Sample.requiredIters else none)
  build _ _ _ b := .ok (Sample.record b)

/-- A verifier that takes a proof to attest to its recent blocks if these are a run of the blocks,
the heaviest last. -/
def Verifier.only (blocks : List HeaderBlock) : Verifier := fun w _ =>
  if (∀ b ∈ w.recent, b ∈ blocks) ∧ w.recent.IsChain (fun a b => b.parent = a.hash) ∧
      ∀ tip ∈ w.tip?, ∀ b ∈ w.recent, b.weight ≤ tip.weight then
    .ok (w.recent.map Sample.record)
  else .error "not a run of the blocks"

theorem Verifier.covers_of_only {blocks : List HeaderBlock} {w : WeightProof} {skip : Bool}
    {rs : List BlockRecord} (h : Verifier.only blocks w skip = .ok rs) :
    ∃ run, (∀ b ∈ run, b ∈ blocks) ∧ w.Covers rs run := by
  unfold Verifier.only at h
  split at h
  next hrun =>
    obtain ⟨hmem, hlinked, hheaviest⟩ := hrun
    cases h
    refine ⟨w.recent, hmem, ⟨?_, hlinked, rfl⟩, hheaviest⟩
    exact List.forall₂_map_left_iff.mpr (List.forall₂_same.mpr fun b _ => Sample.record_copies b)
  next => cases h

/-- The tree of some blocks that are told apart by their hashes and stand one above their parents,
and of the proofs over them. -/
def BlockTree.ofList (blocks : List HeaderBlock)
    (hhash : ∀ a ∈ blocks, ∀ b ∈ blocks, a.hash = b.hash → a = b)
    (hheight : ∀ a ∈ blocks, ∀ b ∈ blocks, b.parent = a.hash →
      b.height.toNat = a.height.toNat + 1) : BlockTree where
  has b := b ∈ blocks
  attests w rs := ∀ skip, Verifier.only blocks w skip = .ok rs
  eq_of_hash ha hb := hhash _ ha _ hb
  height_of_parent ha hb := hheight _ ha _ hb
  covers_of_attests h := Verifier.covers_of_only (h true)

section Obeys

variable {blocks : List HeaderBlock}
  {hhash : ∀ a ∈ blocks, ∀ b ∈ blocks, a.hash = b.hash → a = b}
  {hheight : ∀ a ∈ blocks, ∀ b ∈ blocks, b.parent = a.hash → b.height.toNat = a.height.toNat + 1}

theorem Consensus.only_obeys :
    (Consensus.only blocks).Obeys (BlockTree.ofList blocks hhash hheight) where
  has_of_validate {constants i b p iters} h := by
    change b ∈ blocks
    by_contra hb
    simp [Consensus.only, hb] at h
  copies_of_build {constants i iters b r} _ h := by
    cases h
    exact Sample.record_copies b
  findFork := rfl

theorem Verifier.only_obeys :
    (Verifier.only blocks).Obeys (BlockTree.ofList blocks hhash hheight) :=
  fun h _ => h

theorem Verifier.only_answers :
    (Verifier.only blocks).Answers (BlockTree.ofList blocks hhash hheight) :=
  fun h => h

end Obeys

namespace Sample

/-- A first block. -/
def root : HeaderBlock := next 0 10 none

/-- A child of the first block. -/
def child : HeaderBlock := next 0 10 (some root)

/-- A child of that child. -/
def grandchild : HeaderBlock := next 0 10 (some child)

/-- A heavier child of the first block. -/
def rival : HeaderBlock := next 1 20 (some root)

/-- Two branches from one first block. -/
def forked : List HeaderBlock := [root, child, rival]

/-- The tree of the two branches. -/
def forkedTree : BlockTree := .ofList forked (by decide +kernel) (by decide +kernel)

end Sample

end HeaderChain
