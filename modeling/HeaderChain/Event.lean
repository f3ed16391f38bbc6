import HeaderChain.Block
import HeaderChain.Error
import HeaderChain.Verdict

/-!
# Log events

What the chain and its storage tell an operator, one constructor for each kind of event.
`Event.level`, `Event.target`, `Event.message` and `Event.fields` are its form in a log; all fields
are shown as text, and a field whose value is absent is left out.
-/

namespace HeaderChain

/-- How much an event matters. -/
inductive Level
  | debug | info | warn | error
deriving DecidableEq

/-- The name of a level in a log. -/
def Level.name : Level → String
  | debug => "DEBUG"
  | info => "INFO"
  | warn => "WARN"
  | error => "ERROR"

/-- The header fields an event tells of a block. -/
structure Sighting where
  height : Height
  hash : Hash
deriving DecidableEq

/-- What is told of a block. -/
def HeaderBlock.sighting (b : HeaderBlock) : Sighting := ⟨b.height, b.hash⟩

/-- What is told of the block of a record. -/
def BlockRecord.sighting (r : BlockRecord) : Sighting := ⟨r.height, r.hash⟩

/-- **What the chain and its storage tell of**, one constructor for each kind of event, with what is
said about it. -/
inductive Event
  | opened (peakHeight : Height) (records : Nat)
  | known (block : Sighting)
  | parentUnknown (block : Sighting) (parent : Hash)
  | noProofOfSpace (block : Sighting)
  | validationFailed (block : Sighting) (cause : ValidationError)
  /-- A valid block could not be compared with the peak. -/
  | forkUnresolved (block : Sighting) (cause : ChainError)
  | orphaned (block : Sighting) (weight : Weight) (peakHeight : Height)
  /-- The peak moved to another branch. -/
  | reorganised (block : Sighting) (weight : Weight) (old : Sighting) (forkHeight : Option Height)
      (depth : UInt32)
  | extended (block : Sighting) (weight : Weight) (latestTimestamp : UInt64)
  /-- Records below the floor were evicted. -/
  | evicted (floor : Height) (count : Nat)
  | proofTooLight (tip peak : Weight)
  | proofRejected (tipHeight : Option Height) (cause : ChainError)
  | tipMissing (tip : Sighting)
  | proofAdopted (tip : Sighting) (weight : Weight) (records : Nat) (latestTimestamp : UInt64)
  /-- The stored peak is none of the blocks the stored proof attests to. -/
  | storedPeakUnknown (peak : Sighting)
  /-- The stored peak is no better than the tip of the stored proof. -/
  | storedPeakTooLight (peak : Sighting)
  | wasReset
  /-- The bytes under a key are not the written form of what they should be. -/
  | undecodable (key : String)
  | peakStored (peak : Sighting) (latestTimestamp : UInt64)
  | peakNotLoaded (cause : StoreError)
  | peakNotStored (peak : Sighting) (cause : StoreError)
  | peakNotRemoved (cause : StoreError)
  | proofNotLoaded (cause : StoreError)
  | proofNotStored (cause : StoreError)
  | proofNotRemoved (cause : StoreError)
deriving DecidableEq

namespace Event

/-- Whether an event is told by the storage below the chain. -/
def isStorage : Event → Bool
  | undecodable .. | peakStored .. | peakNotLoaded .. | peakNotStored .. | peakNotRemoved ..
  | proofNotLoaded .. | proofNotStored .. | proofNotRemoved .. => true
  | _ => false

/-- The part of the program an event comes from. -/
def target (e : Event) : String := if e.isStorage then "wallet_storage" else "wallet_blockchain"

/-- How much an event matters. -/
def level : Event → Level
  | known .. | parentUnknown .. | orphaned .. | evicted .. | proofTooLight .. | peakStored .. =>
    .debug
  | opened .. | extended .. | proofAdopted .. => .info
  | noProofOfSpace .. | validationFailed .. | forkUnresolved .. | reorganised .. | proofRejected ..
  | tipMissing .. | storedPeakUnknown .. | storedPeakTooLight .. | wasReset => .warn
  | undecodable .. | peakNotLoaded .. | peakNotStored .. | peakNotRemoved .. | proofNotLoaded ..
  | proofNotStored .. | proofNotRemoved .. => .error

/-- What an event says, whatever comes with it. -/
def message : Event → String
  | opened .. => "Initialized wallet blockchain"
  | known .. => "Already have block"
  | parentUnknown .. => "Block parent is unknown"
  | noProofOfSpace .. => "Block has no valid proof of space"
  | validationFailed .. => "Block failed validation"
  | forkUnresolved .. => "Failed to resolve fork, indexing block as orphan"
  | orphaned .. => "Added block as orphan"
  | reorganised .. => "Reorged to heavier chain"
  | extended .. => "New peak"
  | evicted .. => "Evicted old block records"
  | proofTooLight .. => "Ignoring weight proof that does not outweigh the peak"
  | proofRejected .. => "Weight proof failed verification"
  | tipMissing .. => "Weight proof records do not include its tip"
  | proofAdopted .. => "Adopted weight proof"
  | storedPeakUnknown .. => "Persisted peak has no block record, not restoring it"
  | storedPeakTooLight .. => "Persisted peak does not outweigh the weight proof, not restoring it"
  | wasReset => "Reset wallet blockchain"
  | undecodable .. => "Failed to decode stored object"
  | peakStored .. => "Stored peak block"
  | peakNotLoaded .. => "Failed to load peak block"
  | peakNotStored .. => "Failed to store peak block"
  | peakNotRemoved .. => "Failed to remove peak block"
  | proofNotLoaded .. => "Failed to load weight proof"
  | proofNotStored .. => "Failed to store weight proof"
  | proofNotRemoved .. => "Failed to remove weight proof"

/-- The two fields that name a block. -/
def blockFields (s : Sighting) : List (String × String) :=
  [("height", toString s.height.toNat), ("header_hash", s.hash.text)]

/-- The named values that come with the event. -/
def fields : Event → List (String × String)
  | opened peakHeight records =>
    [("peak_height", toString peakHeight.toNat), ("records", toString records)]
  | known block | noProofOfSpace block | tipMissing block | storedPeakUnknown block
  | storedPeakTooLight block => blockFields block
  | parentUnknown block parent => blockFields block ++ [("prev_header_hash", parent.text)]
  | validationFailed block cause => blockFields block ++ [("err", cause.message)]
  | forkUnresolved block cause => blockFields block ++ [("err", cause.message)]
  | orphaned block weight peakHeight =>
    blockFields block ++
      [("weight", toString weight.toNat), ("peak_height", toString peakHeight.toNat)]
  | reorganised block weight old forkHeight depth =>
    blockFields block ++ [("weight", toString weight.toNat),
      ("old_height", toString old.height.toNat), ("old_hash", old.hash.text)] ++
      (forkHeight.toList.map fun h => ("fork_height", toString h.toNat)) ++
      [("depth", toString depth.toNat)]
  | extended block weight latest =>
    blockFields block ++
      [("weight", toString weight.toNat), ("latest_timestamp", toString latest.toNat)]
  | evicted floor count => [("floor", toString floor.toNat), ("evicted", toString count)]
  | proofTooLight tip peak =>
    [("tip_weight", toString tip.toNat), ("peak_weight", toString peak.toNat)]
  | proofRejected tipHeight cause =>
    (tipHeight.toList.map fun h => ("tip_height", toString h.toNat)) ++ [("err", cause.message)]
  | proofAdopted tip weight records latest =>
    blockFields tip ++ [("weight", toString weight.toNat), ("records", toString records),
      ("latest_timestamp", toString latest.toNat)]
  | wasReset => []
  | undecodable key => [("key", key), ("err", StoreError.malformed.message)]
  | peakStored peak latest => blockFields peak ++ [("latest_timestamp", toString latest.toNat)]
  | peakNotStored peak cause => blockFields peak ++ [("err", cause.message)]
  | peakNotLoaded cause | peakNotRemoved cause | proofNotLoaded cause | proofNotStored cause
  | proofNotRemoved cause => [("err", cause.message)]

end Event

end HeaderChain
