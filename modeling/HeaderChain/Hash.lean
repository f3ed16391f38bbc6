import Std.Data.ExtTreeMap
import HeaderChain.Bytes

/-!
# Hashes

A hash is a string of thirty-two bytes. It names a header block, and it is never computed here: two
blocks are the same block exactly when their hashes are equal.

Hashes are ordered byte by byte (the instance of `Vector`), and shown as `0x` and sixty-four
lower-case digits (`Hash.text`).
-/

namespace HeaderChain

/-- The height of a block: its distance from the first block of its chain. Counting past the last
height starts again at zero. -/
abbrev Height := UInt32

/-- The accumulated difficulty of a chain, or a count of iterations along it: a word of 128 bits
whose arithmetic wraps. -/
abbrev Weight := BitVec 128

/-- The number of weights there are. -/
def Weight.size : Nat := Nat.pow 2 128

/-- The hash of a block header. -/
abbrev Hash := Vector UInt8 32

namespace Hash

/-- The hash of which every byte is zero: the parent of a first block. -/
def zero : Hash := Vector.replicate 32 0

/-- The bytes of a hash, the first one first. -/
def toBytes (h : Hash) : Bytes := h.toArray.toList

/-- The hash of thirty-two bytes. -/
def ofBytes? (b : Bytes) : Option Hash :=
  if h : b.length = 32 then some ⟨b.toArray, by simpa using h⟩ else none

/-- The full form of a hash. -/
def text (h : Hash) : String := (Hex.marked h.toBytes).ascii

@[simp] theorem ofBytes?_toBytes (h : Hash) : ofBytes? h.toBytes = some h := by
  simp [ofBytes?, toBytes]

end Hash

end HeaderChain
