import HeaderChain.Fork

/-!
# Collaborators

The chain knows no rule of consensus. It asks others: a `Consensus` about single blocks and a
`Verifier` about weight proofs. Whatever they know beside what they are asked, they answer by
functions of it, and a chain may be given other collaborators with each operation.
-/

namespace HeaderChain

/-- What a block has to be made with. -/
structure Parameters where
  subSlotIters : UInt64
  difficulty : UInt64
deriving DecidableEq

/-- The parameters in force for the first block. -/
def Constants.startingParameters (c : Constants) : Parameters :=
  ⟨c.subSlotItersStarting, c.difficultyStarting⟩

/-- Those who know the rules for single blocks. -/
structure Consensus where
  /-- The parameters for a child of `parent`, given whether it opens a sub slot. -/
  adjust : Constants → (firstInSubSlot : Bool) → (parent : BlockRecord) → Index →
    Except ChainError Parameters
  /-- The iterations that the block's proof of space asks for, if it has a valid one. -/
  validate : Constants → Index → HeaderBlock → Parameters → Except ValidationError (Option UInt64)
  /-- The record of a valid block. -/
  build : Constants → Index → (requiredIters : UInt64) → HeaderBlock → Except ChainError BlockRecord
  /-- The height where two chains part. -/
  findFork : ForkFinder := Index.forkPoint

/-- One who knows the rules for weight proofs: the records a proof attests to, or why it is
rejected. -/
abbrev Verifier := WeightProof → (skipSegments : Bool) → Except String (List BlockRecord)

end HeaderChain
