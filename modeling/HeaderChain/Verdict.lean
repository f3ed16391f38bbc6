import HeaderChain.Block

/-!
# Verdicts on offered blocks

* `Rejection` — the rule of consensus that a block breaks, with its stable number and its name;
* `ValidationError` — a rejection with a validator's detail;
* `Outcome` — what became of a block that was offered to the chain.
-/

namespace HeaderChain

/-- **The rule of consensus that a block breaks.** -/
inductive Rejection
  | prevBlockHash | proofOfSpace | height | weight | totalIters | timestampPast | timestampFuture
  | prevChallengeSlot | signagePoint | vdf | subSlotIters | difficulty | deficit | foliage
  | transactionsFilter | rewardChain | missingSubSlot | unknown
deriving DecidableEq

namespace Rejection

/-- Every rejection, in the order of the numbers but for the last. -/
def all : List Rejection :=
  [prevBlockHash, proofOfSpace, height, weight, totalIters, timestampPast, timestampFuture,
    prevChallengeSlot, signagePoint, vdf, subSlotIters, difficulty, deficit, foliage,
    transactionsFilter, rewardChain, missingSubSlot, unknown]

/-- The stable number of a rejection. -/
def number : Rejection → UInt16
  | prevBlockHash => 6
  | proofOfSpace => 9
  | height => 10
  | weight => 11
  | totalIters => 12
  | timestampPast => 13
  | timestampFuture => 14
  | prevChallengeSlot => 15
  | signagePoint => 16
  | vdf => 17
  | subSlotIters => 18
  | difficulty => 19
  | deficit => 20
  | foliage => 21
  | transactionsFilter => 22
  | rewardChain => 23
  | missingSubSlot => 24
  | unknown => 1

/-- The name under which a rejection is stored. -/
def name : Rejection → String
  | prevBlockHash => "InvalidPrevBlockHash"
  | proofOfSpace => "InvalidPospace"
  | height => "InvalidHeight"
  | weight => "InvalidWeight"
  | totalIters => "InvalidTotalIters"
  | timestampPast => "TimestampTooFarInPast"
  | timestampFuture => "TimestampTooFarInFuture"
  | prevChallengeSlot => "InvalidPrevChallengeSlotHash"
  | signagePoint => "InvalidSpIndex"
  | vdf => "InvalidVdf"
  | subSlotIters => "InvalidNewSubSlotIters"
  | difficulty => "InvalidNewDifficulty"
  | deficit => "InvalidDeficit"
  | foliage => "InvalidFoliage"
  | transactionsFilter => "InvalidTransactionsFilterHash"
  | rewardChain => "InvalidRewardChainHash"
  | missingSubSlot => "ShouldHaveFinishedSubSlot"
  | unknown => "Unknown"

/-- What a person is told of a rejection. -/
def message : Rejection → String
  | prevBlockHash => "invalid prev block hash"
  | proofOfSpace => "invalid proof of space"
  | height => "invalid height"
  | weight => "invalid weight"
  | totalIters => "invalid total iters"
  | timestampPast => "timestamp too far in past"
  | timestampFuture => "timestamp too far in future"
  | prevChallengeSlot => "invalid prev challenge slot hash"
  | signagePoint => "invalid signage point index"
  | vdf => "invalid VDF"
  | subSlotIters => "invalid new sub slot iters"
  | difficulty => "invalid new difficulty"
  | deficit => "invalid deficit"
  | foliage => "invalid foliage"
  | transactionsFilter => "invalid transactions filter hash"
  | rewardChain => "invalid reward chain hash"
  | missingSubSlot => "should have finished sub slot"
  | unknown => "unknown"

/-- The rejection of a name. -/
def ofName? (s : String) : Option Rejection := all.find? fun r => r.name == s

/-- Rejections are ordered by their numbers. -/
instance : Ord Rejection := ⟨fun a b => compare a.number b.number⟩

end Rejection

/-- Why a validator refused a block, with what it has to say about it. -/
structure ValidationError where
  code : Rejection
  detail : Option String := none
deriving DecidableEq

/-- What is told to a person; the detail is not part of it. -/
def ValidationError.message (e : ValidationError) : String :=
  "header validation failed: " ++ e.code.message

/-- **What became of a block** that was offered to the chain. -/
inductive Outcome
  | newPeak
  /-- It is valid and kept, but does not outweigh the peak. -/
  | orphan
  | known
  | invalid (code : Rejection)
  /-- It cannot be judged, for its parent is missing. -/
  | disconnected (code : Rejection)
deriving DecidableEq

namespace Outcome

/-- The rejection a refused block was refused with. -/
def rejection? : Outcome → Option Rejection
  | invalid code | disconnected code => some code
  | newPeak | orphan | known => none

/-- Whether the block became the peak. -/
def isNewPeak (o : Outcome) : Bool := o == newPeak

/-- The short name of an outcome, the same for all rejections. -/
def label : Outcome → String
  | newPeak => "new_peak"
  | orphan => "added_as_orphan"
  | known => "already_have_block"
  | invalid _ => "invalid_block"
  | disconnected _ => "disconnected_block"

/-- What a person is told of an outcome. -/
def message : Outcome → String
  | newPeak => "new peak"
  | orphan => "added as orphan"
  | known => "already have block"
  | invalid code => "invalid block: " ++ code.message
  | disconnected code => "disconnected block: " ++ code.message

end Outcome

end HeaderChain
