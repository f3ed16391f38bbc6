import HeaderChain.Hash

/-!
# Configuration

* `Constants` — the parameters of consensus that validation starts from;
* `Config` — those, and how much of the past is kept in memory;
* `Config.window?`, `Config.floor?` — the retention rule.

Records are kept for the heights from the floor up. The floor lies a fixed window below the peak,
and the window is never shorter than one epoch and one sub epoch, which is as far back as a
difficulty adjustment reads.
-/

namespace HeaderChain

/-- The parameters of consensus. -/
structure Constants where
  /-- Iterations of a sub slot in the first epoch. -/
  subSlotItersStarting : UInt64 := 134217728
  /-- Difficulty in the first epoch. -/
  difficultyStarting : UInt64 := 7
  subEpochBlocks : UInt32 := 384
  epochBlocks : UInt32 := 4608
  /-- Blocks a weight proof carries in full. -/
  weightProofRecentBlocks : UInt32 := 1000
  /-- Challenge of the first block. -/
  genesisChallenge : Hash := Hash.zero
deriving DecidableEq

/-- The number of heights below the peak whose records are kept if nothing else is asked for. -/
def defaultRetention : UInt32 := 1000

/-- **The configuration of a chain**: the parameters of consensus, and what is kept and checked. -/
structure Config where
  constants : Constants := {}
  /-- Heights below the peak whose records are kept; zero keeps every record. -/
  blockRetention : UInt32 := defaultRetention
  /-- Whether the sampled segments of a weight proof are taken on trust. -/
  skipSegments : Bool := true
deriving DecidableEq

namespace Constants

/-- The heights a difficulty adjustment may read: one epoch and one sub epoch, or all there are if
these together are more than a height can count. -/
def adjustmentWindow (c : Constants) : UInt32 :=
  UInt32.ofNat (min (c.epochBlocks.toNat + c.subEpochBlocks.toNat) (UInt32.size - 1))

end Constants

namespace Config

/-- The number of heights below the peak whose records are kept, if any are dropped at all. -/
def window? (c : Config) : Option UInt32 :=
  if c.blockRetention = 0 then none
  else some (max c.blockRetention c.constants.adjustmentWindow)

/-- The height below which no record is kept beneath a peak at this height. -/
def floor? (c : Config) (peak : Height) : Option Height :=
  match c.window? with
  | none => none
  | some window => if window < peak then some (peak - window) else none

end Config

end HeaderChain
