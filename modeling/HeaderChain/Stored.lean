import HeaderChain.Config
import HeaderChain.Schema
import HeaderChain.Verdict
import HeaderChain.WeightProof
import HeaderChain.Json.Reader
import HeaderChain.Json.Writer

/-!
# The stored form of values

A value that is stored is written as compact JSON text. `Stored` says what a type's values look like
as data, and where in them the hashes are; `Stored.encode` and `Stored.decode?` go on to the bytes.

Writing gives every part its name and keeps the order of the schema, with null for an absent option.
Reading is more liberal: see `Schema`. Only the two configuration types refuse names they do not
know, and only `Config` has defaults for its parts; these two are read from TOML text as well, hence
their readers ask what becomes of surplus list items.
-/

namespace HeaderChain

/-- A type whose values are stored. -/
class Stored (α : Type) where
  /-- What a stored value looks like. -/
  shape : Shape
  toDatum : α → Datum
  ofDatum? : Datum → Option α

namespace Stored

/-- The written form of a value. -/
def encode [Stored α] (a : α) : Bytes := Json.write (toDatum a)

/-- The value of a written form. -/
def decode? [Stored α] (b : Bytes) : Option α := (Json.read (shape α) b).bind ofDatum?

end Stored

/-! ### Blocks -/

namespace SubSlotEnd

/-- The parts of the end of a sub slot, in the order in which they are written. -/
def schema : Schema where
  parts := [("challenge_hash", .hash), ("new_sub_slot_iters", .anything),
    ("new_difficulty", .anything)]

/-- What the end of a sub slot looks like as a datum. -/
def toDatum (x : SubSlotEnd) : Datum :=
  schema.toMap [.ofHash x.challenge, .ofOption .ofUInt64 x.newSubSlotIters,
    .ofOption .ofUInt64 x.newDifficulty]

/-- Reads the end of a sub slot. -/
def ofDatum? (d : Datum) : Option SubSlotEnd :=
  match schema.parts? .refused d with
  | some [challenge, iters, difficulty] => do
    return {
      challenge := ← Part.required (Datum.hash? .refused) challenge
      newSubSlotIters := ← Part.optional Datum.uint64? iters
      newDifficulty := ← Part.optional Datum.uint64? difficulty }
  | _ => none

/-- The ends of sub slots are stored within blocks. -/
instance : Stored SubSlotEnd := ⟨schema.shape, toDatum, ofDatum?⟩

end SubSlotEnd

namespace TransactionFoliage

/-- The parts of what a transaction block adds, in the order in which they are written. -/
def schema : Schema where
  parts := [("prev_transaction_block_hash", .hash), ("timestamp", .anything),
    ("filter_hash", .hash)]

/-- What what a transaction block adds looks like as a datum. -/
def toDatum (x : TransactionFoliage) : Datum :=
  schema.toMap [.ofHash x.previous, .ofUInt64 x.timestamp, .ofHash x.filter]

/-- Reads what a transaction block adds. -/
def ofDatum? (d : Datum) : Option TransactionFoliage :=
  match schema.parts? .refused d with
  | some [previous, timestamp, filter] => do
    return {
      previous := ← Part.required (Datum.hash? .refused) previous
      timestamp := ← Part.required Datum.uint64? timestamp
      filter := ← Part.required (Datum.hash? .refused) filter }
  | _ => none

/-- What a transaction block adds is stored within the block. -/
instance : Stored TransactionFoliage := ⟨schema.shape, toDatum, ofDatum?⟩

end TransactionFoliage

namespace HeaderBlock

/-- The parts of a block, in the order in which they are written. -/
def schema : Schema where
  parts := [("header_hash", .hash), ("prev_header_hash", .hash), ("height", .anything),
    ("weight", .anything), ("total_iters", .anything), ("signage_point_index", .anything),
    ("finished_sub_slots", .listOf SubSlotEnd.schema.shape),
    ("foliage_transaction_block", TransactionFoliage.schema.shape), ("proof_of_space", .anything)]

/-- What a block looks like as a datum. -/
def toDatum (b : HeaderBlock) : Datum :=
  schema.toMap [.ofHash b.hash, .ofHash b.parent, .ofUInt32 b.height, .ofWeight b.weight,
    .ofWeight b.totalIters, .ofUInt8 b.signagePoint,
    .list (b.finishedSubSlots.map SubSlotEnd.toDatum),
    .ofOption TransactionFoliage.toDatum b.foliage, .ofBytes b.proofOfSpace]

/-- Reads a block. -/
def ofDatum? (d : Datum) : Option HeaderBlock :=
  match schema.parts? .refused d with
  | some [hash, parent, height, weight, iters, point, subSlots, foliage, proof] => do
    return {
      hash := ← Part.required (Datum.hash? .refused) hash
      parent := ← Part.required (Datum.hash? .refused) parent
      height := ← Part.required Datum.uint32? height
      weight := ← Part.required Datum.weight? weight
      totalIters := ← Part.required Datum.weight? iters
      signagePoint := ← Part.required Datum.byte? point
      finishedSubSlots := ← Part.required (Datum.listOf? SubSlotEnd.ofDatum?) subSlots
      foliage := ← Part.optional TransactionFoliage.ofDatum? foliage
      proofOfSpace := ← Part.required Datum.bytes? proof }
  | _ => none

/-- Blocks are stored: one of them is the peak. -/
instance : Stored HeaderBlock := ⟨schema.shape, toDatum, ofDatum?⟩

end HeaderBlock

namespace BlockRecord

/-- The parts of a record, in the order in which they are written. -/
def schema : Schema where
  parts := [("header_hash", .hash), ("prev_hash", .hash), ("height", .anything),
    ("weight", .anything), ("total_iters", .anything), ("signage_point_index", .anything),
    ("required_iters", .anything), ("sub_slot_iters", .anything), ("deficit", .anything),
    ("overflow", .anything), ("first_in_sub_slot", .anything), ("timestamp", .anything),
    ("prev_transaction_block_hash", .hash)]

/-- What a record looks like as a datum. -/
def toDatum (r : BlockRecord) : Datum :=
  schema.toMap [.ofHash r.hash, .ofHash r.parent, .ofUInt32 r.height, .ofWeight r.weight,
    .ofWeight r.totalIters, .ofUInt8 r.signagePoint, .ofUInt64 r.requiredIters,
    .ofUInt64 r.subSlotIters, .ofUInt8 r.deficit, .flag r.overflow, .flag r.firstInSubSlot,
    .ofOption .ofUInt64 r.timestamp, .ofOption .ofHash r.previousTransaction]

/-- Reads a record. -/
def ofDatum? (d : Datum) : Option BlockRecord :=
  match schema.parts? .refused d with
  | some [hash, parent, height, weight, iters, point, required, slotIters, deficit, overflow, first,
      timestamp, previous] => do
    return {
      hash := ← Part.required (Datum.hash? .refused) hash
      parent := ← Part.required (Datum.hash? .refused) parent
      height := ← Part.required Datum.uint32? height
      weight := ← Part.required Datum.weight? weight
      totalIters := ← Part.required Datum.weight? iters
      signagePoint := ← Part.required Datum.byte? point
      requiredIters := ← Part.required Datum.uint64? required
      subSlotIters := ← Part.required Datum.uint64? slotIters
      deficit := ← Part.required Datum.byte? deficit
      overflow := ← Part.required Datum.flag? overflow
      firstInSubSlot := ← Part.required Datum.flag? first
      timestamp := ← Part.optional Datum.uint64? timestamp
      previousTransaction := ← Part.optional (Datum.hash? .refused) previous }
  | _ => none

/-- Records have a stored form as well. -/
instance : Stored BlockRecord := ⟨schema.shape, toDatum, ofDatum?⟩

end BlockRecord

/-! ### Weight proofs -/

namespace SubEpoch

/-- The parts of the summary of a sub epoch, in the order in which they are written. -/
def schema : Schema where
  parts := [("reward_chain_hash", .hash), ("num_blocks_overflow", .anything),
    ("new_sub_slot_iters", .anything), ("new_difficulty", .anything)]

/-- What the summary of a sub epoch looks like as a datum. -/
def toDatum (x : SubEpoch) : Datum :=
  schema.toMap [.ofHash x.rewardChain, .ofUInt8 x.blocksOverflow,
    .ofOption .ofUInt64 x.newSubSlotIters, .ofOption .ofUInt64 x.newDifficulty]

/-- Reads the summary of a sub epoch. -/
def ofDatum? (d : Datum) : Option SubEpoch :=
  match schema.parts? .refused d with
  | some [rewardChain, overflow, iters, difficulty] => do
    return {
      rewardChain := ← Part.required (Datum.hash? .refused) rewardChain
      blocksOverflow := ← Part.required Datum.byte? overflow
      newSubSlotIters := ← Part.optional Datum.uint64? iters
      newDifficulty := ← Part.optional Datum.uint64? difficulty }
  | _ => none

/-- Summaries are stored within weight proofs. -/
instance : Stored SubEpoch := ⟨schema.shape, toDatum, ofDatum?⟩

end SubEpoch

namespace WeightProof

/-- The parts of a weight proof, in the order in which they are written. -/
def schema : Schema where
  parts := [("sub_epochs", .listOf SubEpoch.schema.shape), ("sub_epoch_segments", .anything),
    ("recent_chain_data", .listOf HeaderBlock.schema.shape)]

/-- What a weight proof looks like as a datum. -/
def toDatum (w : WeightProof) : Datum :=
  schema.toMap [.list (w.subEpochs.map SubEpoch.toDatum), .list (w.segments.map .ofBytes),
    .list (w.recent.map HeaderBlock.toDatum)]

/-- Reads a weight proof. -/
def ofDatum? (d : Datum) : Option WeightProof :=
  match schema.parts? .refused d with
  | some [subEpochs, segments, recent] => do
    return {
      subEpochs := ← Part.required (Datum.listOf? SubEpoch.ofDatum?) subEpochs
      segments := ← Part.required (Datum.listOf? Datum.bytes?) segments
      recent := ← Part.required (Datum.listOf? HeaderBlock.ofDatum?) recent }
  | _ => none

/-- Weight proofs are stored: one of them is the synced one. -/
instance : Stored WeightProof := ⟨schema.shape, toDatum, ofDatum?⟩

end WeightProof

/-! ### Rejections -/

namespace Rejection

/-- A rejection is written as its name. -/
def toDatum (r : Rejection) : Datum := .text (Bytes.ofString r.name)

/-- The rejection of a stored name. -/
def ofBytes? (b : Bytes) : Option Rejection := b.text?.bind ofName?

/-- Reads the name, alone or as the only name of a map to null. -/
def ofDatum? : Datum → Option Rejection
  | .text name => ofBytes? name
  | .map [(name, .null)] => ofBytes? name
  | _ => none

/-- Rejections have a stored form, which is their name. -/
instance : Stored Rejection := ⟨.anything, toDatum, ofDatum?⟩

end Rejection

/-! ### Configuration -/

namespace Constants

/-- The parts of the constants, in the order in which they are written. No other names are known. -/
def schema : Schema where
  parts := [("sub_slot_iters_starting", .anything), ("difficulty_starting", .anything),
    ("sub_epoch_blocks", .anything), ("epoch_blocks", .anything),
    ("weight_proof_recent_blocks", .anything), ("genesis_challenge", .hash)]
  strict := true

/-- What the constants look like as a datum. -/
def toDatum (c : Constants) : Datum :=
  schema.toMap [.ofUInt64 c.subSlotItersStarting, .ofUInt64 c.difficultyStarting,
    .ofUInt32 c.subEpochBlocks, .ofUInt32 c.epochBlocks, .ofUInt32 c.weightProofRecentBlocks,
    .ofHash c.genesisChallenge]

/-- Reads the constants, all of which have to be there. -/
def ofDatum? (surplus : Surplus) (d : Datum) : Option Constants :=
  match schema.parts? surplus d with
  | some [iters, difficulty, subEpoch, epoch, recent, genesis] => do
    return {
      subSlotItersStarting := ← Part.required Datum.uint64? iters
      difficultyStarting := ← Part.required Datum.uint64? difficulty
      subEpochBlocks := ← Part.required Datum.uint32? subEpoch
      epochBlocks := ← Part.required Datum.uint32? epoch
      weightProofRecentBlocks := ← Part.required Datum.uint32? recent
      genesisChallenge := ← Part.required (Datum.hash? surplus) genesis }
  | _ => none

/-- Constants have a stored form. -/
instance : Stored Constants := ⟨schema.shape, toDatum, ofDatum? .refused⟩

end Constants

namespace Config

/-- The parts of a configuration, each with a default. No other names are known. -/
def schema : Schema where
  parts := [("constants", Constants.schema.shape), ("block_retention", .anything),
    ("skip_weight_proof_segments", .anything)]
  strict := true
  defaults := true

/-- What a configuration looks like as a datum. -/
def toDatum (c : Config) : Datum :=
  schema.toMap [c.constants.toDatum, .ofUInt32 c.blockRetention, .flag c.skipSegments]

/-- Reads a configuration. A part that is absent has its default. -/
def ofDatum? (surplus : Surplus) (d : Datum) : Option Config :=
  match schema.parts? surplus d with
  | some [constants, retention, skip] => do
    return {
      constants := ← Part.orElse {} (Constants.ofDatum? surplus) constants
      blockRetention := ← Part.orElse defaultRetention Datum.uint32? retention
      skipSegments := ← Part.orElse true Datum.flag? skip }
  | _ => none

/-- Configurations have a stored form. -/
instance : Stored Config := ⟨schema.shape, toDatum, ofDatum? .refused⟩

end Config

end HeaderChain
