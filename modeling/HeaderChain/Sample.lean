import HeaderChain.Chain.Offer
import HeaderChain.Chain.Seed

/-!
# Sample chains

Made-up blocks to try a chain on. Hashes name a branch and a height (`Sample.blockHash`), each block
of a branch is heavier than its parent by the same step, and the blocks at even heights are
transaction blocks, twenty seconds a height apart (`Sample.branch`).

With them go collaborators that follow a script (`Sample.Script`); the one with nothing in it
accepts every block.
-/

namespace HeaderChain.Sample

/-- The timestamp of a first block. -/
def genesisTimestamp : UInt64 := 1700000000

/-- The iterations asked for by the proof of space of every sample block. -/
def requiredIters : UInt64 := 1024

/-- The bytes of a height, the highest first. -/
def heightBytes (h : Height) : Bytes :=
  [(h >>> 24).toUInt8, (h >>> 16).toUInt8, (h >>> 8).toUInt8, h.toUInt8]

/-- The hash of the block at a height of a branch: the number after the branch, zeros, the
height. -/
def blockHash (branch : UInt8) (height : Height) : Hash :=
  ⟨((branch + 1) :: (List.replicate 27 0 ++ heightBytes height)).toArray, rfl⟩

/-- A block. It is a transaction block if it has a timestamp. -/
def block (branch : UInt8) (height : Height) (parent : Hash) (weight : Weight)
    (timestamp : Option UInt64) : HeaderBlock where
  hash := blockHash branch height
  parent := parent
  height := height
  weight := weight
  totalIters := BitVec.ofNat 128 (height.toNat * requiredIters.toNat)
  foliage := timestamp.map fun t => { timestamp := t }

/-- The next block of a branch: a child of its parent that is heavier by a step, or a first
block. -/
def next (branch : UInt8) (step : Weight) (parent : Option HeaderBlock) : HeaderBlock :=
  let height : Height := match parent with
    | some p => p.height + 1
    | none => 0
  let timestamp :=
    if height % 2 = 0 then some (genesisTimestamp + height.toUInt64 * 20) else none
  match parent with
  | some p => block branch height p.hash (p.weight + step) timestamp
  | none => block branch height Hash.zero 0 timestamp

/-- So many blocks in a row on a branch, from a parent on or from a first block on. -/
def branch (number : UInt8) (step : Weight) : Option HeaderBlock → Nat → List HeaderBlock
  | _, 0 => []
  | parent, length + 1 =>
    let b := next number step parent
    b :: branch number step (some b) length

/-- What a record says of a block, if nothing is altered. -/
def record (b : HeaderBlock) : BlockRecord where
  hash := b.hash
  parent := b.parent
  height := b.height
  weight := b.weight
  totalIters := b.totalIters
  signagePoint := b.signagePoint
  requiredIters := requiredIters
  firstInSubSlot := b.firstInSubSlot
  timestamp := b.timestamp
  previousTransaction := b.foliage.map (·.previous)

/-- A verifier that takes every proof to attest to its recent blocks. -/
def verifier : Verifier := fun proof _ => .ok (proof.recent.map record)

/-! ### Scripts -/

/-- What a script says about a fork point. -/
inductive ForkLine
  | found (height : Option Height)
  | fails
deriving DecidableEq

/-- What collaborators are to answer, block by block; of two lines about one block the later one
counts. About all other blocks they say that they are valid. -/
structure Script where
  /-- Blocks that break a rule. -/
  rejected : List (Hash × ValidationError) := []
  /-- Blocks without a proof of space. -/
  withoutProof : List Hash := []
  /-- Parameters for the children of a block. -/
  adjusted : List (Hash × Parameters) := []
  /-- Blocks for whose children no parameters are found. -/
  notAdjusted : List Hash := []
  /-- Blocks whose record is not built. -/
  notBuilt : List Hash := []
  /-- Changes to the record of a block. -/
  altered : List (Hash × (BlockRecord → BlockRecord)) := []
  /-- Fork points of candidates. -/
  forks : List (Hash × ForkLine) := []

namespace Script

/-- The last line about a block. -/
def line? {α : Type} (lines : List (Hash × α)) (hash : Hash) : Option α :=
  (lines.reverse.find? (·.1 == hash)).map (·.2)

/-- The parameters for a child of a record. -/
def adjust (s : Script) (constants : Constants) (parent : BlockRecord) :
    Except ChainError Parameters :=
  if s.notAdjusted.contains parent.hash then .error (.heightNotFound parent.height)
  else .ok ((line? s.adjusted parent.hash).getD constants.startingParameters)

/-- Whether a block is valid. -/
def validate (s : Script) (block : HeaderBlock) : Except ValidationError (Option UInt64) :=
  match line? s.rejected block.hash with
  | some cause => .error cause
  | none => .ok (if s.withoutProof.contains block.hash then none else some requiredIters)

/-- The record of a block. -/
def build (s : Script) (constants : Constants) (requiredIters : UInt64) (block : HeaderBlock) :
    Except ChainError BlockRecord :=
  if s.notBuilt.contains block.hash then .error (.blockNotFound block.hash)
  else
    let record :=
      { record block with requiredIters, subSlotIters := constants.subSlotItersStarting }
    .ok (((line? s.altered block.hash).getD id) record)

/-- The fork point of a candidate and the peak. -/
def findFork (s : Script) : ForkFinder := fun i candidate peak =>
  match line? s.forks candidate.hash with
  | some (.found height) => .ok height
  | some .fails => .error (.blockNotFound candidate.hash)
  | none => i.forkPoint candidate peak

/-- Collaborators that follow the script. -/
def consensus (s : Script) : Consensus where
  adjust constants _ parent _ := s.adjust constants parent
  validate _ _ block _ := s.validate block
  build constants _ requiredIters block := s.build constants requiredIters block
  findFork := s.findFork

end Script

/-- Collaborators that accept every block. -/
def accepting : Consensus := Script.consensus {}

end HeaderChain.Sample
