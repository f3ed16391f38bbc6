import HeaderChain.Procedure

/-!
# The two durable slots

The peak and the synced weight proof are all that outlives a run. Each is stored under a key of its
own and held in memory as well, together with the latest timestamp known.

A change goes to the store first and only then to memory, so memory never runs ahead of what is
stored; and a new peak overwrites the old one in a single call, so that there is no time without
one.
-/

namespace HeaderChain

/-- The key of the peak. -/
def peakKey : String := "PEAK_BLOCK"

/-- The key of the synced weight proof. -/
def proofKey : String := "SYNCED_WEIGHT_PROOF"

/-- The two slots as they are held in memory. -/
structure Slots where
  peak : Option HeaderBlock := none
  proof : Option WeightProof := none
  /-- The latest timestamp of a transaction block that was told of; zero if there is none. -/
  latestTimestamp : UInt64 := 0
deriving DecidableEq

namespace Slots

open Procedure

/-- An operation on the slots, which fails if the store does or holds what it cannot read. -/
abbrev Operation := Procedure Slots StoreError

/-- The stored peak, which is not taken into memory. -/
def loadPeak : Operation (Option HeaderBlock) :=
  (fetchValue HeaderBlock peakKey).logFailure .peakNotLoaded

/-- The peak, taken into memory if it is not there. -/
def getPeak : Operation (Option HeaderBlock) := do
  let slots ← memory
  match slots.peak with
  | some peak => return some peak
  | none =>
    let peak ← loadPeak
    remember { slots with peak }
    return peak

/-- Stores a new peak. The latest timestamp becomes the one given, or else that of the block, or
else it stays as it is. -/
def setPeak (block : HeaderBlock) (timestamp : Option UInt64) : Operation Unit := do
  (storeValue peakKey block).logFailure (.peakNotStored block.sighting)
  let slots ← memory
  let latestTimestamp := (timestamp.or block.timestamp).getD slots.latestTimestamp
  log (.peakStored block.sighting latestTimestamp)
  remember { slots with peak := some block, latestTimestamp }

/-- Removes the peak and forgets the latest timestamp. -/
def clearPeak : Operation Unit := do
  (removeValue peakKey).logFailure .peakNotRemoved
  let slots ← memory
  remember { slots with peak := none, latestTimestamp := 0 }

/-- The synced proof, taken into memory if it is not there. -/
def getProof : Operation (Option WeightProof) := do
  let slots ← memory
  match slots.proof with
  | some proof => return some proof
  | none =>
    let proof ← (fetchValue WeightProof proofKey).logFailure .proofNotLoaded
    remember { slots with proof }
    return proof

/-- Stores a weight proof, and then holds it in memory. -/
def setProof (proof : WeightProof) : Operation Unit := do
  (storeValue proofKey proof).logFailure .proofNotStored
  let slots ← memory
  remember { slots with proof := some proof }

/-- Removes the synced proof. -/
def clearProof : Operation Unit := do
  (removeValue proofKey).logFailure .proofNotRemoved
  let slots ← memory
  remember { slots with proof := none }

end Slots

end HeaderChain
