import HeaderChain.Hash

/-!
# Header blocks

What a light client is offered about a block: where it stands (its hash, its parent's hash, its
height), how heavy the chain that ends in it is, and the parts from which consensus is checked.

* `SubSlotEnd` — the end of a sub slot that was finished since the parent;
* `TransactionFoliage` — the part only a transaction block has, with its timestamp;
* `HeaderBlock`.
-/

namespace HeaderChain

/-- The end of a finished sub slot. At the end of an epoch it announces new parameters. -/
structure SubSlotEnd where
  /-- Challenge of the finished sub slot. -/
  challenge : Hash := Hash.zero
  /-- Iterations of a sub slot from here on, if they change. -/
  newSubSlotIters : Option UInt64 := none
  /-- Difficulty from here on, if it changes. -/
  newDifficulty : Option UInt64 := none
deriving DecidableEq

/-- The part of a header that a transaction block adds. -/
structure TransactionFoliage where
  /-- The transaction block before this one. -/
  previous : Hash := Hash.zero
  /-- Seconds since the epoch. -/
  timestamp : UInt64 := 0
  /-- Hash of the filter over the block's transactions. -/
  filter : Hash := Hash.zero
deriving DecidableEq

/-- **A header block**, as far as a chain looks at it: its place among the blocks, the weight of the
chain that ends at it, and what difficulty adjustments and weight proofs read. -/
structure HeaderBlock where
  hash : Hash := Hash.zero
  parent : Hash := Hash.zero
  height : Height := 0
  /-- Accumulated difficulty of the chain that ends here. -/
  weight : Weight := 0
  /-- Iterations since the first block. -/
  totalIters : Weight := 0
  signagePoint : UInt8 := 0
  /-- Sub slots finished since the parent, the earliest first. -/
  finishedSubSlots : List SubSlotEnd := []
  foliage : Option TransactionFoliage := none
  proofOfSpace : Bytes := []
deriving DecidableEq

namespace HeaderBlock

/-- A block with a timestamp is a transaction block. -/
def isTransactionBlock (b : HeaderBlock) : Bool := b.foliage.isSome

/-- The timestamp of a transaction block. -/
def timestamp (b : HeaderBlock) : Option UInt64 := b.foliage.map (·.timestamp)

/-- Whether the block opens a sub slot: one was finished since its parent. -/
def firstInSubSlot (b : HeaderBlock) : Bool := !b.finishedSubSlots.isEmpty

end HeaderBlock

/-- What is kept in memory of a validated block: its place in the block tree, its weight, and the
numbers later difficulty adjustments read. -/
structure BlockRecord where
  hash : Hash := Hash.zero
  parent : Hash := Hash.zero
  height : Height := 0
  weight : Weight := 0
  totalIters : Weight := 0
  signagePoint : UInt8 := 0
  /-- Iterations the block's proof of space asked for. -/
  requiredIters : UInt64 := 0
  subSlotIters : UInt64 := 0
  deficit : UInt8 := 0
  overflow : Bool := false
  firstInSubSlot : Bool := false
  /-- Set for transaction blocks only. -/
  timestamp : Option UInt64 := none
  /-- The transaction block before this one, for transaction blocks only. -/
  previousTransaction : Option Hash := none
deriving DecidableEq

namespace BlockRecord

/-- A record with a timestamp is that of a transaction block. -/
def isTransactionBlock (r : BlockRecord) : Bool := r.timestamp.isSome

end BlockRecord

end HeaderChain
