import DStreamon.MetricReset

/-!
# `Metric_Block`: packets of several blocks at one detector

The blocks of a metric share its pair and its counter.  `_receive_msg` taken apart at its calls on
them, between which other blocks go on, and the history of the packets.
-/

namespace DStreamon

open Function (update)
open IReadBuffer

namespace MetricBlock

variable {τ F S : Type} [ICounter S F HashedBuffer] (T : Threshold τ) (ofBytes : List UInt8 → F)

/-- Whether a timed or a pending reset of the detector is due. -/
def ResetDue (w : Metrics τ S) (b : MetricBlock F) (i : ℕ) (timePacket : UInt64) : Prop :=
  (w.resetOps i).vdReset ∨ 0 < b.swapBfResetAfter ∧ b.resetWindowEnd < timePacket

instance (w : Metrics τ S) (b : MetricBlock F) (i : ℕ) (timePacket : UInt64) :
    Decidable (ResetDue w b i timePacket) := by
  unfold ResetDue
  infer_instance

/-- The first half of `detect`: whether the flow is new. -/
def look [Field F] (w : Metrics τ S) (i : ℕ) (getKey : Option HashedBuffer) : Option (Bool × F) :=
  match getKey with
  | none => some (false, 0)
  | some key => do
    let seen ← (BloomPair.checkBits i w.det (bits key)).toOption
    some (!seen, if seen then 1 else 0)

/-- The second half, with the places swapped. -/
def mark (fuel : ℕ) (w : Metrics τ S) (i : ℕ) (setKey : Option HashedBuffer) :
    Option (Metrics τ S × List ℕ) :=
  match setKey with
  | none => some (w, [])
  | some key => do
    let (det, log, _) ← (BloomPair.setBits T fuel i w.det (bits key)).toOption
    some ({ w with det }, log)

/-- The first half of `count`, and whether `counter->add` was called. -/
def addNew (b : MetricBlock F) (m : MetricMessage F) (op : MetricOp) (isFlowNew : Bool) (value : F)
    (c : S) : Option (MetricBlock F × S × F × Bool) :=
  match isFlowNew, m.getFlowkey op.vmFlowkeySet with
  | true, some key => do
    let insertValue ← (if b.indexValue = -1 then some b.insertValue
      else (m.getFlowkey b.indexValue).bind (getDouble ofBytes))
    let (c, value) ← ICounter.add c key insertValue m.timePacket
    some ({ b with insertValue }, c, value, true)
  | _, _ => some (b, c, value, false)

/-- The second half. -/
def getCount (m : MetricMessage F) (op : MetricOp) (value : F) (c : S) : Option (S × F) :=
  match m.getFlowkey op.vmFlowkeyGet with
  | none => some (c, value)
  | some key => ICounter.get c key m.timePacket

end MetricBlock

/-! ## Visits -/

/-- What a block is about to do with a packet. -/
inductive Stage where
  | resetDetector
  | look
  | mark
  | resetMonitor
  | addNew
  | getCount
deriving DecidableEq

def Stage.next : Stage → Option Stage
  | .resetDetector => some .look
  | .look => some .mark
  | .mark => some .resetMonitor
  | .resetMonitor => some .addNew
  | .addNew => some .getCount
  | .getCount => none

/-- Packet `n` in a block. -/
structure Visit (F : Type) where
  n : ℕ
  msg : MetricMessage F
  op : MetricOp
  stage : Stage
  isFlowNew : Bool
  value : F

/-- What a stage makes of the instances, the block and the packet; whether it called
`counter->add`, and the places whose pair it swapped or cleared. -/
structure StageResult (τ F S : Type) where
  metrics : Metrics τ S
  block : MetricBlock F
  isFlowNew : Bool
  value : F
  added : Bool
  changed : List ℕ

namespace MetricBlock

variable {τ F S : Type} [ICounter S F HashedBuffer] (T : Threshold τ) (ofBytes : List UInt8 → F)

/-- What is done at a stage of metric `i`; nothing where its half of the block is off. -/
def act [Field F] (fuel : ℕ) (w : Metrics τ S) (b : MetricBlock F) (i : ℕ) (v : Visit F) :
    Option (StageResult τ F S) :=
  let same : StageResult τ F S := ⟨w, b, v.isFlowNew, v.value, false, []⟩
  match v.stage with
  | .resetDetector =>
    if b.variationDetector then
      (resetDetector T w b i v.msg.timePacket).map fun (w', b') => { same with
        metrics := w'
        block := b'
        changed := if ResetDue w b i v.msg.timePacket then [i] else [] }
    else some same
  | .look =>
    if b.variationDetector then
      (look w i (v.msg.getFlowkey v.op.vdFlowkeyGet)).map fun (isFlowNew, value) =>
        { same with isFlowNew, value }
    else some { same with isFlowNew := true, value := 0 }
  | .mark =>
    if b.variationDetector then
      (mark T fuel w i (v.msg.getFlowkey v.op.vdFlowkeySet)).map fun (metrics, changed) =>
        { same with metrics, changed }
    else some same
  | .resetMonitor =>
    if b.variationMonitor then do
      let c ← w.counters i
      let (r, c) ← resetMonitor F (w.resetOps i) c
      some { same with metrics := { w with
        counters := update w.counters i (some c), resetOps := update w.resetOps i r } }
    else some same
  | .addNew =>
    if b.variationMonitor then do
      let c ← w.counters i
      let (block, c, value, added) ← addNew ofBytes b v.msg v.op v.isFlowNew v.value c
      some { same with
        metrics := { w with counters := update w.counters i (some c) }, block, value, added }
    else some same
  | .getCount =>
    if b.variationMonitor then do
      let c ← w.counters i
      let (c, value) ← getCount v.msg v.op v.value c
      some { same with metrics := { w with counters := update w.counters i (some c) }, value }
    else some same

/-- The metric of a block and the key a packet carries there, which is looked up and marked and for
which a new flow is counted. -/
def carries (b : MetricBlock F) (m : MetricMessage F) (op : MetricOp) : Option (ℕ × HashedBuffer) :=
  b.place.bind fun i => (m.getFlowkey op.vdFlowkeyGet).bind fun key =>
    if b.variationDetector ∧ b.variationMonitor ∧ m.getFlowkey op.vdFlowkeySet = some key ∧
        (m.getFlowkey op.vmFlowkeySet).isSome then some (i, key)
    else none

end MetricBlock

/-! ## Blocks taking turns -/

/-- The packets so far: what each carries, those looked up, found new, marked, and added to the
counter; and how often each pair was swapped or cleared. -/
structure History where
  next : ℕ
  carried : ℕ → Option (ℕ × HashedBuffer)
  looked : List ℕ
  new : List ℕ
  marked : List ℕ
  added : List ℕ
  changes : ℕ → ℕ

structure Shared (τ F S : Type) where
  metrics : Metrics τ S
  blocks : ℕ → MetricBlock F
  visits : ℕ → Option (Visit F)
  sent : List (ℕ × MetricMessage F)
  history : History

namespace Shared

variable {τ F S : Type} [Field F] [ICounter S F HashedBuffer]
  (T : Threshold τ) (ofBytes : List UInt8 → F)

def start (metrics : Metrics τ S) (blocks : ℕ → MetricBlock F) : Shared τ F S where
  metrics := metrics
  blocks := blocks
  visits _ := none
  sent := []
  history := ⟨0, fun _ => none, [], [], [], [], fun _ => 0⟩

inductive Op (F : Type) where
  | reset (metricId : ℕ) (resetKey : Option ℕ) (map : ℕ → HashedBuffer)
  | receive (block : ℕ) (m : MetricMessage F)
  | advance (block fuel : ℕ)

/-- A block that is not at a packet takes one.  What needs neither detector nor monitor is done at
once. -/
def receive (s : Shared τ F S) (block : ℕ) (m : MetricMessage F) : Option (Shared τ F S) :=
  let b := s.blocks block
  if (s.visits block).isSome then none
  else
    b.place.bind fun i =>
      match m.metricOps i with
      | none => some { s with sent := s.sent ++ [(block, m)] }
      | some op =>
        if b.variationDetector = false ∧ b.variationMonitor = false then
          ((m.getFlowkey op.vmFlowkeyGet).bind (MetricBlock.getDouble ofBytes)).map fun value =>
            { s with sent := s.sent ++ [(block, m.setMetrics i value)] }
        else
          let n := s.history.next
          some { s with
            visits := update s.visits block (some ⟨n, m, op, .resetDetector, true, 0⟩)
            history := { s.history with
              next := n + 1
              carried := update s.history.carried n (b.carries m op) } }

/-- The history after the stage of a visit. -/
def record (h : History) (v : Visit F) (r : StageResult τ F S) : History :=
  { h with
    looked := if v.stage = .look then v.n :: h.looked else h.looked
    new := if v.stage = .look ∧ r.isFlowNew then v.n :: h.new else h.new
    marked := if v.stage = .mark then v.n :: h.marked else h.marked
    added := if r.added then v.n :: h.added else h.added
    changes := fun j => h.changes j + r.changed.count j }

/-- A block goes on to the next stage of its packet, or sends it. -/
def turn (s : Shared τ F S) (block i : ℕ) (v : Visit F) (r : StageResult τ F S) : Shared τ F S where
  metrics := r.metrics
  blocks := update s.blocks block r.block
  visits := update s.visits block (v.stage.next.map fun stage =>
    { v with stage, isFlowNew := r.isFlowNew, value := r.value })
  sent :=
    if v.stage.next.isNone then s.sent ++ [(block, v.msg.setMetrics i r.value)] else s.sent
  history := record s.history v r

def advance (s : Shared τ F S) (block fuel : ℕ) : Option (Shared τ F S) := do
  let v ← s.visits block
  let i ← (s.blocks block).place
  let r ← MetricBlock.act T ofBytes fuel s.metrics (s.blocks block) i v
  some (s.turn block i v r)

def step (s : Shared τ F S) : Op F → Option (Shared τ F S)
  | .reset metricId resetKey map =>
    some { s with metrics := resetMetric s.metrics metricId resetKey map }
  | .receive block m => receive ofBytes s block m
  | .advance block fuel => advance T ofBytes s block fuel

/-- The block that an operation is about. -/
def Op.block? : Op F → Option ℕ
  | .reset _ _ _ => none
  | .receive block _ | .advance block _ => some block

/-- The visit that looks up a key of metric `i` next, when its block goes on. -/
def Looks (s : Shared τ F S) (i : ℕ) (x : HashedBuffer) : Op F → Prop
  | .advance block _ => ∃ v ∈ s.visits block, v.stage = .look ∧ s.history.carried v.n = some (i, x)
  | _ => False

instance (s : Shared τ F S) (i : ℕ) (x : HashedBuffer) (op : Op F) :
    Decidable (s.Looks i x op) := by
  cases op <;> unfold Looks <;> infer_instance

/-- The detector does not know the key. -/
def Absent (s : Shared τ F S) (i : ℕ) (x : HashedBuffer) : Prop :=
  BloomPair.checkBits i s.metrics.det (MetricBlock.bits x) = .ok false

instance (s : Shared τ F S) (i : ℕ) (x : HashedBuffer) : Decidable (s.Absent i x) := by
  unfold Absent
  infer_instance

/-- The first packet with the key that is looked up finds it absent. -/
def FirstNew (i : ℕ) (x : HashedBuffer) (s : Shared τ F S) (op : Op F) : Prop :=
  s.Looks i x op → (∀ n ∈ s.history.looked, s.history.carried n ≠ some (i, x)) → s.Absent i x

instance (i : ℕ) (x : HashedBuffer) (s : Shared τ F S) (op : Op F) :
    Decidable (FirstNew i x s op) := by
  unfold FirstNew
  infer_instance

/-- The key is not looked up, being absent, while another packet with it has been looked up and is
not yet marked. -/
def Separate (i : ℕ) (x : HashedBuffer) (s : Shared τ F S) (op : Op F) : Prop :=
  s.Looks i x op → s.Absent i x →
    ∀ n ∈ s.history.looked, s.history.carried n = some (i, x) → n ∈ s.history.marked

instance (i : ℕ) (x : HashedBuffer) (s : Shared τ F S) (op : Op F) :
    Decidable (Separate i x s op) := by
  unfold Separate
  infer_instance

/-- Of the packets with the key the counter was increased for exactly one. -/
def CountedOnce (i : ℕ) (x : HashedBuffer) (s : Shared τ F S) : Prop :=
  ∃! n, s.history.carried n = some (i, x) ∧ n ∈ s.history.added

end Shared

end DStreamon
