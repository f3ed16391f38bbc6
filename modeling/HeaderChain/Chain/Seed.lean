import HeaderChain.Chain.Basic

/-!
# Seeding from a weight proof

* `Chain.offerProof` — takes a weight proof that outweighs the peak: its records become the
  canonical chain in place of what was there, and its tip becomes the peak.
* `Chain.load` — opens a chain on what an earlier run has stored. The stored proof is verified anew
  and seeds the index; then the stored peak is adopted again if the index knows it and it outweighs
  the tip.
* `Chain.reset` — forgets everything, so that any proof is taken after it.
-/

namespace HeaderChain.Chain

open Procedure

/-- The records a weight proof attests to. -/
def verify (verifier : Verifier) (proof : WeightProof) : Operation (List BlockRecord) := do
  let skip := (← memory).config.skipSegments
  match ← ask (.verify proof skip) (verifier proof skip) with
  | .ok records => return records
  | .error reason =>
    log (.proofRejected (proof.tip?.map (·.height)) (.proofRejected reason))
    throw (.proofRejected reason)

/-- The tip of a weight proof; without recent blocks it has none. -/
def tipOf (proof : WeightProof) : Except ChainError HeaderBlock :=
  match proof.tip? with
  | some tip => .ok tip
  | none => .error .emptyProof

/-- The index after the records of a proof have taken the place of the canonical chain, the later of
two records at one height. -/
def reseed (i : Index) (records : List BlockRecord) : Index :=
  records.foldl (fun i r => (i.setHeight r.height r.hash).add r) (i.dropHeightsFrom 0)

/-- **Seeds the chain from a weight proof**: its records become the canonical chain, and its tip the
peak. A proof whose records leave out its tip is refused, and nothing is changed. The proof is
stored before the tip, if it is to be stored. -/
def seed (proof : WeightProof) (records : List BlockRecord) (persist : Bool) : Operation Unit := do
  let tip ← expect (tipOf proof)
  if !records.any (·.hash == tip.hash) then
    log (.tipMissing tip.sighting)
    throw (.tipMissing tip.hash)
  let latestTimestamp := latest (← memory).latestTimestamp records
  if persist then
    onSlots (Slots.setProof proof)
  onSlots (Slots.setPeak tip (some latestTimestamp))
  -- from here on nothing fails
  setIndex (reseed (← memory).index records)
  evict tip.height
  measure (.peakAt tip.height)
  measure (.proofsAdopted 1)
  log (.proofAdopted tip.sighting tip.weight records.length latestTimestamp)

/-- **Offers a weight proof to the chain.** Without records, the verifier is asked for them. Whether
the proof was taken: it is not, and nothing is asked or changed, if it does not outweigh the
peak. -/
def offerProof (verifier : Verifier) (proof : WeightProof) (records : Option (List BlockRecord)) :
    Operation Bool := do
  let tip ← expect (tipOf proof)
  match (← memory).peak?.filter fun peak => !isBetter tip.weight peak.weight with
  | some peak =>
    log (.proofTooLight tip.weight peak.weight)
    return false
  | none =>
    let records ←
      match records with
      | some records => pure records
      | none => verify verifier proof
    seed proof records true
    return true

/-- Adopts the stored peak again after the index was seeded. -/
def readopt (consensus : Consensus) (peak : HeaderBlock) : Operation Unit := do
  let c ← memory
  if c.peak?.any (·.hash == peak.hash) then
    return
  match c.index.record? peak.hash with
  | none => log (.storedPeakUnknown peak.sighting)
  | some record =>
    let choice ← choose consensus.findFork c.index record (← expect c.peakRecord)
    match choice.changedFrom? record.height with
    | some changedFrom => adopt record peak changedFrom
    | none => log (.storedPeakTooLight peak.sighting)

/-- **Opens a chain** that has nothing in memory yet. -/
def load (verifier : Verifier) (consensus : Consensus) : Operation Unit := do
  Measurement.opening.forM measure
  -- both slots are read before anything is adopted, since adopting writes to one of them
  let proof ← onSlots Slots.getProof
  let storedPeak ← onSlots Slots.loadPeak
  match proof with
  | none => pure ()
  | some proof => seed proof (← verify verifier proof) false
  match storedPeak with
  | none => pure ()
  | some peak => readopt consensus peak
  let c ← memory
  log (.opened c.peakHeight c.index.size)

/-- **Forgets everything**, in memory and in the store. -/
def reset : Operation Unit := do
  onSlots Slots.clearProof
  onSlots Slots.clearPeak
  setIndex .empty
  measure (.peakAt 0)
  log .wasReset

end HeaderChain.Chain
