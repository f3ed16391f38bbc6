import Std.Data.ExtTreeMap
import HeaderChain.Verdict

/-!
# Metrics

The six metrics of a chain (`Metric`), the changes that its operations make to them (`Measurement`),
and what a recorder has seen of them (`Readings`). Opening a chain describes every metric and brings
it into being at zero (`Measurement.opening`).

Readings are the fold of the measurements in the order in which they were taken.
-/

namespace HeaderChain

/-- A metric of the chain. -/
inductive Metric
  | peakHeight | blocksReceived | reorganisations | reorganisationDepth | proofsAdopted
  | recordsEvicted
deriving DecidableEq

namespace Metric

/-- What sort of value a metric has. -/
inductive Kind
  | gauge
  | counter
  | histogram
deriving DecidableEq

/-- The name of a sort of values. -/
def Kind.name : Kind → String
  | gauge => "gauge"
  | counter => "counter"
  | histogram => "histogram"

/-- Every metric, in the order in which they are described. -/
def all : List Metric :=
  [peakHeight, blocksReceived, reorganisations, reorganisationDepth, proofsAdopted, recordsEvicted]

/-- What sort of value a metric has. -/
def kind : Metric → Kind
  | peakHeight => .gauge
  | blocksReceived | reorganisations | proofsAdopted | recordsEvicted => .counter
  | reorganisationDepth => .histogram

/-- The name under which a metric is published. -/
def name : Metric → String
  | peakHeight => "tern_wallet_peak_height"
  | blocksReceived => "tern_wallet_receive_block_total"
  | reorganisations => "tern_wallet_reorg_total"
  | reorganisationDepth => "tern_wallet_reorg_depth"
  | proofsAdopted => "tern_wallet_weight_proof_adopted_total"
  | recordsEvicted => "tern_wallet_evicted_records_total"

/-- The unit of a metric; all of them count something. -/
def unit (_ : Metric) : String := "count"

/-- What a metric tells. -/
def description : Metric → String
  | peakHeight => "Height of the wallet's current peak"
  | blocksReceived => "Total number of header blocks offered to the wallet blockchain"
  | reorganisations => "Total number of reorgs applied by the wallet blockchain"
  | reorganisationDepth => "Number of canonical heights discarded by a reorg"
  | proofsAdopted => "Total number of weight proofs adopted by the wallet blockchain"
  | recordsEvicted => "Total number of block records evicted below the retention window"

end Metric

/-- **What a recorder is told**, one message at a time. -/
inductive Measurement
  | described (metric : Metric)
  /-- The peak stands at this height. -/
  | peakAt (height : Height)
  /-- Blocks were received, with outcomes of this label. -/
  | received (label : String) (count : Nat)
  | reorganised (count : Nat)
  /-- A reorganisation discarded this many heights. -/
  | depth (heights : UInt32)
  | proofsAdopted (count : Nat)
  | evicted (count : Nat)
deriving DecidableEq

namespace Measurement

/-- The labels of outcomes. -/
def outcomeLabels : List String :=
  ["new_peak", "added_as_orphan", "already_have_block", "invalid_block", "disconnected_block"]

/-- What opening a chain does to the metrics. -/
def opening : List Measurement :=
  Metric.all.map described ++ [peakAt 0] ++ outcomeLabels.map (received · 0) ++
    [reorganised 0, depth 0, proofsAdopted 0, evicted 0]

end Measurement

/-- What a recorder has seen. A metric is absent until it is first measured. -/
structure Readings where
  peakHeight : Option Height := none
  /-- Blocks received, by the label of their outcome. -/
  received : Std.ExtTreeMap String Nat := ∅
  reorganisations : Option Nat := none
  /-- Depths of reorganisations, the earliest first. -/
  depths : List UInt32 := []
  proofsAdopted : Option Nat := none
  evicted : Option Nat := none
  /-- Descriptions, the earliest first. -/
  described : List Metric := []

namespace Readings

/-- Adds to a counter, which starts at zero. -/
def increase (counter : Option Nat) (count : Nat) : Option Nat := some (counter.getD 0 + count)

/-- The readings after one more measurement. -/
def record (r : Readings) : Measurement → Readings
  | .described metric => { r with described := r.described ++ [metric] }
  | .peakAt height => { r with peakHeight := some height }
  | .received label count =>
    { r with received := r.received.insert label ((r.received[label]?).getD 0 + count) }
  | .reorganised count => { r with reorganisations := increase r.reorganisations count }
  | .depth heights => { r with depths := r.depths ++ [heights] }
  | .proofsAdopted count => { r with proofsAdopted := increase r.proofsAdopted count }
  | .evicted count => { r with evicted := increase r.evicted count }

/-- The readings after measurements in turn. -/
def recordAll (r : Readings) (ms : List Measurement) : Readings := ms.foldl record r

/-! What a recorder publishes: the values of the metrics under their names. -/

/-- The gauges: the height of the peak. -/
def gauges (r : Readings) : List (String × Nat) :=
  r.peakHeight.toList.map fun h => (Metric.peakHeight.name, h.toNat)

/-- The counters; those of the blocks received have the label after their name. -/
def counters (r : Readings) : List (String × Nat) :=
  let counter (metric : Metric) (count : Option Nat) := count.toList.map fun n => (metric.name, n)
  (r.received.toList.map fun (label, n) => (Metric.blocksReceived.name ++ "/" ++ label, n)) ++
    counter .reorganisations r.reorganisations ++ counter .proofsAdopted r.proofsAdopted ++
    counter .recordsEvicted r.evicted

/-- The histograms, with all their values. -/
def histograms (r : Readings) : List (String × List Nat) :=
  if r.depths.isEmpty then []
  else [(Metric.reorganisationDepth.name, r.depths.map (·.toNat))]

end Readings

end HeaderChain
