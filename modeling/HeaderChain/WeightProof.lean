import HeaderChain.Block

/-!
# Weight proofs

A weight proof attests to the accumulated weight of a chain without its full history. Older history
is summed up per sub epoch and sampled in segments, which only a verifier reads; the most recent
blocks come along in full, and the last of them is the tip the proof speaks for.
-/

namespace HeaderChain

/-- The summary of one sub epoch. -/
structure SubEpoch where
  /-- Reward chain hash at the end of the sub epoch. -/
  rewardChain : Hash := Hash.zero
  /-- Blocks in the sub epoch beyond the expected number. -/
  blocksOverflow : UInt8 := 0
  /-- Iterations of a sub slot from here on, if they change. -/
  newSubSlotIters : Option UInt64 := none
  /-- Difficulty from here on, if it changes. -/
  newDifficulty : Option UInt64 := none
deriving DecidableEq

/-- **A weight proof**: the summaries of its sub epochs, the sampled segments, and the recent blocks
in full. -/
structure WeightProof where
  /-- Every sub epoch up to the recent chain. -/
  subEpochs : List SubEpoch := []
  /-- Sampled segments, of which only a verifier knows the form. -/
  segments : List Bytes := []
  /-- The last blocks of the chain, the lowest first. -/
  recent : List HeaderBlock := []
deriving DecidableEq

namespace WeightProof

/-- The block the proof ends at. -/
def tip? (w : WeightProof) : Option HeaderBlock := w.recent.getLast?

/-- The weight the proof attests to. -/
def tipWeight? (w : WeightProof) : Option Weight := w.tip?.map (·.weight)

end WeightProof

end HeaderChain
