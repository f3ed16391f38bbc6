import HeaderChain.Consensus
import HeaderChain.Slots

/-!
# The chain

A `Chain` tracks the heaviest chain of header blocks that a light client knows of. In memory it has
the two durable slots (`Slots`) and the index of all records; only the slots are stored.

This module holds what its operations share: how a record is made the peak (`Chain.adopt`), and how
old records are evicted after that (`Chain.evict`). Every operation does all that can fail, the call
to the store included, before it touches the index.
-/

namespace HeaderChain

/-- A chain of header blocks, as it is held in memory. -/
structure Chain where
  config : Config := {}
  slots : Slots := {}
  index : Index := {}

namespace Chain

open Procedure

/-- An operation on a chain, which may fail and leave behind what it has done so far. -/
abbrev Operation := Procedure Chain ChainError

/-- A chain with nothing in memory. -/
def fresh (config : Config) : Chain := { config }

/-- The block that the canonical chain ends at. -/
def peak? (c : Chain) : Option HeaderBlock := c.slots.peak

/-- The height of the peak, or zero if there is none. -/
def peakHeight (c : Chain) : Height := (c.peak?.map (·.height)).getD 0

/-- The record of the peak, if there is a peak. -/
def peakRecord (c : Chain) : Except ChainError (Option BlockRecord) :=
  match c.peak? with
  | none => .ok none
  | some peak => (c.index.record peak.hash).map some

/-- The latest timestamp among the blocks that have been canonical. -/
def latestTimestamp (c : Chain) : UInt64 := c.slots.latestTimestamp

/-- The weight proof the chain was last seeded from. -/
def syncedProof? (c : Chain) : Option WeightProof := c.slots.proof

/-- An operation on the durable slots. -/
def onSlots {α : Type} (x : Slots.Operation α) : Operation α :=
  x.on (·.slots) (fun slots c => { c with slots }) .store

/-- Puts another index in place. -/
def setIndex (index : Index) : Operation Unit := do
  remember { ← memory with index }

/-- The later of a timestamp and those of some records. -/
def latest (start : UInt64) (records : List BlockRecord) : UInt64 :=
  (records.filterMap (·.timestamp)).foldl max start

/-- Evicts the records that lie below the floor for a peak at this height. -/
def evict (peakHeight : Height) : Operation Unit := do
  let c ← memory
  match c.config.floor? peakHeight with
  | none => return
  | some floor =>
    let (index, count) := c.index.pruneBelow floor
    setIndex index
    if 0 < count then
      log (.evicted floor count)
      measure (.evicted count)

/-- The canonical map after a path has taken the place of what was at its heights and above. -/
def replaceFrom (i : Index) (changedFrom : Height) (path : List BlockRecord) : Index :=
  path.foldl (fun i r => i.setHeight r.height r.hash) (i.dropHeightsFrom changedFrom)

/-- Tells of a new peak: a reorganisation if canonical heights of the old one were discarded. -/
def announce (record : BlockRecord) (old : Option HeaderBlock) (changedFrom : Height)
    (latestTimestamp : UInt64) : Operation Unit := do
  let advance := log (.extended record.sighting record.weight latestTimestamp)
  match old with
  | none => advance
  | some old =>
    if changedFrom ≤ old.height then
      let depth := old.height + 1 - changedFrom
      let forkHeight := if changedFrom = 0 then none else some (changedFrom - 1)
      log (.reorganised record.sighting record.weight old.sighting forkHeight depth)
      measure (.reorganised 1)
      measure (.depth depth)
    else
      advance

/-- **Makes a record the peak**, and its ancestors canonical from the height `changedFrom` up. -/
def adopt (record : BlockRecord) (block : HeaderBlock) (changedFrom : Height) : Operation Unit := do
  let c ← memory
  -- all that can fail comes first: the walk down, then the call to the store
  let path ← expect (c.index.pathDown changedFrom record)
  let latestTimestamp := latest c.latestTimestamp path
  onSlots (Slots.setPeak block (some latestTimestamp))
  -- from here on nothing fails
  setIndex (replaceFrom (c.index.add record) changedFrom path)
  evict record.height
  measure (.peakAt record.height)
  announce record c.peak? changedFrom latestTimestamp

end Chain

end HeaderChain
