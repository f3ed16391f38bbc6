import HeaderChain.Procedure

/-!
# Fork choice

Where two chains part, and whether a block supersedes the peak.

* `forkPoint` — the height of the highest block that is an ancestor of both of two records, or one
  of them. It steps back the higher of the two along its parents, and both of them when they stand
  at the same height, until they stand at the same block or both at height zero.
* `Index.pathDown` — a record and its ancestors down to a given height.
* `Choice` — how a candidate stands to the peak. The heavier chain wins, and of two chains of the
  same weight the one that was there first.

Nothing says that parents have lower heights, or that a walk along them ends. Both walks are given
more steps than they can take without coming twice to the same place (`walkSteps`, `pathSteps`), so
running out of steps means that the parents run in a circle.
-/

namespace HeaderChain

/-! ### Walking back -/

/-- The record of the parent of a block, if it is known. -/
def parentOf (record? : Hash → Option BlockRecord) (r : BlockRecord) :
    Except ChainError BlockRecord :=
  match record? r.parent with
  | some parent => .ok parent
  | none => .error (.blockNotFound r.parent)

/-- One step back from two different places, not both at height zero. -/
def stepBack (record? : Hash → Option BlockRecord) (a b : BlockRecord) :
    Except ChainError (BlockRecord × BlockRecord) :=
  if b.height < a.height then do
    return (← parentOf record? a, b)
  else if a.height < b.height then do
    return (a, ← parentOf record? b)
  else do
    -- two blocks at one height: both step back
    return (← parentOf record? a, ← parentOf record? b)

/-- Steps back from two records until they meet, in so many steps at most. -/
def walkBack (record? : Hash → Option BlockRecord) :
    Nat → BlockRecord → BlockRecord → Except ChainError (Option Height)
  | steps, a, b =>
    if a.height = b.height ∧ a.hash = b.hash then .ok (some a.height)
    else if a.height = 0 ∧ b.height = 0 then .ok none
    else
      match steps with
      | 0 => .error .endlessAncestry
      | steps + 1 => do
        let (a, b) ← stepBack record? a b
        walkBack record? steps a b

/-- Steps enough for a walk back through so many records: each step lowers the sum of the heights,
or else no two steps stand at the same pair of places. -/
def walkSteps (known : Nat) (a b : BlockRecord) : Nat :=
  a.height.toNat + b.height.toNat + (known + 1) * (known + 1)

/-- **The fork point** of two records: the height of their highest common ancestor or self, if they
have one. Fails if an ancestor above it is not among the `known` records that `record?` finds. -/
def forkPoint (record? : Hash → Option BlockRecord) (known : Nat) (a b : BlockRecord) :
    Except ChainError (Option Height) :=
  walkBack record? (walkSteps known a b) a b

namespace Index

/-- The fork point of two records in what is known. -/
def forkPoint (i : Index) (a b : BlockRecord) : Except ChainError (Option Height) :=
  HeaderChain.forkPoint i.record? i.size a b

/-- A record and its ancestors down to a height, in so many steps at most. -/
def walkDown (i : Index) (floor : Height) : Nat → BlockRecord → Except ChainError (List BlockRecord)
  | steps, r =>
    if r.height ≤ floor then .ok [r]
    else
      match steps with
      | 0 => .error .endlessAncestry
      | steps + 1 => do
        let parent ← i.record r.parent
        return r :: (← i.walkDown floor steps parent)

/-- Steps enough for a walk down from a record: each step lowers the height, or else no two steps
stand at the same record. -/
def pathSteps (i : Index) (r : BlockRecord) : Nat := r.height.toNat + i.size + 1

/-- **The path** from a record down to the first of its ancestors at or below a height, the record
itself first. -/
def pathDown (i : Index) (floor : Height) (r : BlockRecord) :
    Except ChainError (List BlockRecord) :=
  i.walkDown floor (i.pathSteps r) r

end Index

/-! ### The choice -/

/-- **How a candidate stands to the peak.** -/
inductive Choice
  /-- There is no peak, and the candidate becomes it. -/
  | firstPeak
  /-- The candidate is a heavier child of the peak, which stands at this height. -/
  | extend (forkHeight : Height)
  /-- The candidate is heavier and on another branch, which parts from the peak's at this height, if
  ever. -/
  | reorganise (forkHeight : Option Height)
  | orphan
deriving DecidableEq

/-- The lowest height whose canonical block changes if a candidate at `height` becomes the peak,
unless it does not. -/
def Choice.changedFrom? (height : Height) : Choice → Option Height
  | firstPeak => some height
  | extend fork | reorganise (some fork) => some (fork + 1)
  | reorganise none => some 0
  | orphan => none

/-- Whether a weight beats another one. -/
def isBetter (candidate current : Weight) : Bool := current < candidate

/-- Finds the height of the fork point of a candidate and the peak. -/
abbrev ForkFinder := Index → BlockRecord → BlockRecord → Except ChainError (Option Height)

section Choosing

variable {σ : Type}

open Procedure

/-- The height where the candidate's chain parts from the peak's. Nobody is asked about a child of
the peak. -/
def forkHeight (find : ForkFinder) (i : Index) (candidate peak : BlockRecord) :
    Procedure σ ChainError (Option Height) := do
  if candidate.parent = peak.hash then
    return some peak.height
  else
    expect (← ask (.findFork candidate peak) (find i candidate peak))

/-- **How a candidate stands to the peak.** -/
def choose (find : ForkFinder) (i : Index) (candidate : BlockRecord) (peak : Option BlockRecord) :
    Procedure σ ChainError Choice := do
  match peak with
  | none => return .firstPeak
  | some peak =>
    if !isBetter candidate.weight peak.weight then
      return .orphan
    else if candidate.parent = peak.hash then
      return .extend peak.height
    else
      return .reorganise (← forkHeight find i candidate peak)

end Choosing

end HeaderChain
