import HeaderChain.Chain.Basic

/-!
# Offering a block

`Chain.offer` takes a single header block. Expected answers, a rejection and an unknown parent among
them, are outcomes; only a failure of storage or of a look-up is a failure.

The block goes through four hands: the parameters it has to be made with are found
(`Chain.expected`), it is validated (`Chain.examine`), its record is built, and the record is placed
(`Chain.place`): it becomes the peak, or is kept as an orphan. A valid block whose place cannot be
found out is kept as well, so that its children find their parent.
-/

namespace HeaderChain.Chain

open Procedure

/-- The parameters the block has to be made with, unless its parent is unknown. -/
def expected (consensus : Consensus) (block : HeaderBlock) : Operation (Option Parameters) := do
  let c ← memory
  if block.height = 0 then
    return some c.config.constants.startingParameters
  else
    match c.index.record? block.parent with
    | none => return none
    | some parent =>
      let first := block.firstInSubSlot
      let answer := consensus.adjust c.config.constants first parent c.index
      return some (← expect (← ask (.adjust first parent) answer))

/-- The iterations the block's proof of space asks for, or why the block is refused. -/
def examine (consensus : Consensus) (block : HeaderBlock) (parameters : Parameters) :
    Operation (Except Rejection UInt64) := do
  let c ← memory
  let question := .validate c.index block parameters.difficulty parameters.subSlotIters
  match ← ask question (consensus.validate c.config.constants c.index block parameters) with
  | .ok (some requiredIters) => return .ok requiredIters
  | .ok none =>
    log (.noProofOfSpace block.sighting)
    return .error .proofOfSpace
  | .error cause =>
    log (.validationFailed block.sighting cause)
    return .error cause.code

/-- How a record stands to the peak. -/
def standing (consensus : Consensus) (record : BlockRecord) : Operation Choice := do
  let c ← memory
  let peak ← expect c.peakRecord
  choose consensus.findFork c.index record peak

/-- Finds the record of a valid block its place. -/
def place (consensus : Consensus) (record : BlockRecord) (block : HeaderBlock) :
    Operation Outcome := do
  match ← (standing consensus record).attempt with
  | .error cause =>
    -- the block is valid all the same
    log (.forkUnresolved record.sighting cause)
    setIndex ((← memory).index.add record)
    throw cause
  | .ok choice =>
    match choice.changedFrom? record.height with
    | none =>
      let c ← memory
      log (.orphaned record.sighting record.weight c.peakHeight)
      setIndex (c.index.add record)
      return .orphan
    | some changedFrom =>
      adopt record block changedFrom
      return .newPeak

/-- What becomes of a block. -/
def consider (consensus : Consensus) (block : HeaderBlock) : Operation Outcome := do
  let c ← memory
  if c.index.contains block.hash then
    log (.known block.sighting)
    return .known
  match ← expected consensus block with
  | none =>
    log (.parentUnknown block.sighting block.parent)
    return .disconnected .prevBlockHash
  | some parameters =>
    match ← examine consensus block parameters with
    | .error code => return .invalid code
    | .ok requiredIters =>
      let answer := consensus.build c.config.constants c.index requiredIters block
      let record ← expect (← ask (.build block requiredIters) answer)
      place consensus record block

/-- **Offers a block to the chain.** -/
def offer (consensus : Consensus) (block : HeaderBlock) : Operation Outcome := do
  let outcome ← consider consensus block
  measure (.received outcome.label 1)
  return outcome

end HeaderChain.Chain
