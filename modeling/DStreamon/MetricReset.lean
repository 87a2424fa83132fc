import DStreamon.MetricBlock
import DStreamon.Lib.StepRun

/-!
# `Metric_Block`: its messages, and the resets that actions ask for

An action puts its request into the mailbox of the metric, which the metric's block empties when it
next comes to the counter.  Beside the mailbox stand the requests themselves, to compare.
-/

namespace DStreamon

open Function (update)
open IReadBuffer

/-! ## Messages -/

/-- The registers of a metric's keys; negative where there is none. -/
structure MetricOp where
  vdFlowkeyGet : ℤ
  vdFlowkeySet : ℤ
  vmFlowkeyGet : ℤ
  vmFlowkeySet : ℤ

/-- What the blocks of the metrics use of a message. -/
structure MetricMessage (F : Type) where
  metricOps : ℕ → Option MetricOp
  metrics : ℕ → F
  map : ℕ → HashedBuffer
  timestampUs : UInt64

namespace MetricMessage

variable {F : Type}

def getFlowkey (m : MetricMessage F) (id : ℤ) : Option HashedBuffer :=
  if 0 ≤ id ∧ id < 16 then some (m.map id.toNat) else none

def setMetrics (m : MetricMessage F) (i : ℕ) (value : F) : MetricMessage F :=
  { m with metrics := update m.metrics i value }

/-- `round(timestamp_us()/1000000.0)` -/
def timePacket (m : MetricMessage F) : UInt64 :=
  UInt64.ofNat ((m.timestampUs.toNat + 500000) / 1000000)

end MetricMessage

/-! ## `_receive_msg` -/

namespace MetricBlock

variable {τ F S : Type} [ICounter S F HashedBuffer] (T : Threshold τ) (ofBytes : List UInt8 → F)

/-- `Get<double>`, which throws where there are not eight bytes. -/
def getDouble (key : HashedBuffer) : Option F :=
  if key.data.length < 8 then none else some (ofBytes (key.data.take 8))

/-- The pending reset of a detector, and the timed one. -/
def resetDetector (w : Metrics τ S) (b : MetricBlock F) (i : ℕ) (timePacket : UInt64) :
    Option (Metrics τ S × MetricBlock F) := do
  let w ← (if (w.resetOps i).vdReset then do
      let det ← (BloomPair.clear T i w.det).toOption
      some { w with
        det, resetOps := update w.resetOps i { w.resetOps i with vdReset := false } }
    else some w)
  if 0 < b.swapBfResetAfter ∧ b.resetWindowEnd < timePacket then do
    let det ← (BloomPair.clear T i w.det).toOption
    some ({ w with det }, { b with resetWindowEnd := timePacket + b.swapBfResetAfter })
  else some (w, b)

/-- The words of a key's digest after its flag. -/
def bits (key : HashedBuffer) : ℕ → UInt32 := fun w => (getHash key).value (w + 1)

/-- Whether the flow is new, and the detector's value. -/
def detect [Field F] (fuel : ℕ) (w : Metrics τ S) (i : ℕ) (getKey setKey : Option HashedBuffer) :
    Option (Metrics τ S × Bool × F) := do
  let (isFlowNew, value) ← (match getKey with
    | none => some (false, 0)
    | some key => do
      let seen ← (BloomPair.checkBits i w.det (bits key)).toOption
      some (!seen, if seen then 1 else 0))
  match setKey with
  | none => some (w, isFlowNew, value)
  | some key => do
    let (det, _) ← (BloomPair.setBits T fuel i w.det (bits key)).toOption
    some ({ w with det }, isFlowNew, value)

/-- The pending reset of a counter. -/
def resetMonitor (F : Type) [ICounter S F HashedBuffer] (r : ResetAction) (c : S) :
    Option (ResetAction × S) :=
  if r.vmReset then
    if r.vmResetKey.data.length = 0 then
      (ICounter.clear F HashedBuffer c).map fun c => ({ r with vmReset := false }, c)
    else
      (ICounter.reset F c r.vmResetKey).map fun (c, _) =>
        ({ r with vmReset := false, vmResetKey := ⟨[]⟩ }, c)
  else some (r, c)

/-- The counter's part of a message, after its reset. -/
def count (b : MetricBlock F) (m : MetricMessage F) (op : MetricOp) (isFlowNew : Bool) (value : F)
    (c : S) : Option (MetricBlock F × S × F) := do
  let (b, c, value) ← (match isFlowNew, m.getFlowkey op.vmFlowkeySet with
    | true, some key => do
      let insertValue ← (if b.indexValue = -1 then some b.insertValue
        else (m.getFlowkey b.indexValue).bind (getDouble ofBytes))
      let (c, value) ← ICounter.add c key insertValue m.timePacket
      some ({ b with insertValue }, c, value)
    | _, _ => some (b, c, value))
  match m.getFlowkey op.vmFlowkeyGet with
  | none => some (b, c, value)
  | some key => do
    let (c, value) ← ICounter.get c key m.timePacket
    some (b, c, value)

def monitor (w : Metrics τ S) (b : MetricBlock F) (i : ℕ) (m : MetricMessage F) (op : MetricOp)
    (isFlowNew : Bool) (value : F) : Option (Metrics τ S × MetricBlock F × F) := do
  let c ← w.counters i
  let (r, c) ← resetMonitor F (w.resetOps i) c
  let (b, c, value) ← count ofBytes b m op isFlowNew value c
  some ({ w with counters := update w.counters i (some c), resetOps := update w.resetOps i r },
    b, value)

/-- `_receive_msg`, with the message it sends on; `none` where it throws or fails an assert. -/
def receiveMsg [Field F] (fuel : ℕ) (w : Metrics τ S) (b : MetricBlock F) (m : MetricMessage F) :
    Option (Metrics τ S × MetricBlock F × MetricMessage F) := do
  let i ← b.place
  match m.metricOps i with
  | none => some (w, b, m)
  | some op =>
    if b.variationDetector = false ∧ b.variationMonitor = false then do
      let value ← (m.getFlowkey op.vmFlowkeyGet).bind (getDouble ofBytes)
      some (w, b, m.setMetrics i value)
    else do
      let (w, b, isFlowNew, value) ← (if b.variationDetector then do
          let (w, b) ← resetDetector T w b i m.timePacket
          let (w, isFlowNew, value) ← detect T fuel w i (m.getFlowkey op.vdFlowkeyGet)
            (m.getFlowkey op.vdFlowkeySet)
          some (w, b, isFlowNew, value)
        else some (w, b, true, 0))
      let (w, b, value) ← (if b.variationMonitor then monitor ofBytes w b i m op isFlowNew value
        else some (w, b, value))
      some (w, b, m.setMetrics i value)

/-- Nothing to do, a metric that is only read, or the detector and then the monitor. -/
theorem receiveMsg_cases [Field F] {fuel : ℕ} {w w' : Metrics τ S} {b b' : MetricBlock F}
    {m m' : MetricMessage F} (h : receiveMsg T ofBytes fuel w b m = some (w', b', m')) :
    ∃ i, b.place = some i ∧
      (m.metricOps i = none ∧ w' = w ∧ b' = b ∧ m' = m ∨
        ∃ op, m.metricOps i = some op ∧
          ((b.variationDetector = false ∧ b.variationMonitor = false) ∧
            (∃ value, (m.getFlowkey op.vmFlowkeyGet).bind (getDouble ofBytes) = some value ∧
              w' = w ∧ b' = b ∧ m' = m.setMetrics i value) ∨
          ¬ (b.variationDetector = false ∧ b.variationMonitor = false) ∧
            ∃ w₁ b₁ isFlowNew value value', (if b.variationDetector then do
                let (w, b) ← resetDetector T w b i m.timePacket
                let (w, isFlowNew, value) ← detect T fuel w i (m.getFlowkey op.vdFlowkeyGet)
                  (m.getFlowkey op.vdFlowkeySet)
                some (w, b, isFlowNew, value)
              else some (w, b, true, 0)) = some (w₁, b₁, isFlowNew, value) ∧
              (if b₁.variationMonitor then monitor ofBytes w₁ b₁ i m op isFlowNew value
                else some (w₁, b₁, value)) = some (w', b', value') ∧
              m' = m.setMetrics i value')) := by
  obtain ⟨i, hi, h⟩ := Option.bind_eq_some_iff.1 h
  refine ⟨i, hi, ?_⟩
  cases hop : m.metricOps i with
  | none =>
    rw [hop] at h
    cases h
    exact .inl ⟨rfl, rfl, rfl, rfl⟩
  | some op =>
    rw [hop] at h
    simp only at h
    refine .inr ⟨op, rfl, ?_⟩
    by_cases hoff : b.variationDetector = false ∧ b.variationMonitor = false
    · rw [if_pos hoff] at h
      obtain ⟨value, hvalue, h⟩ := Option.bind_eq_some_iff.1 h
      cases h
      exact .inl ⟨hoff, value, hvalue, rfl, rfl, rfl⟩
    · rw [if_neg hoff] at h
      obtain ⟨⟨w₁, b₁, isFlowNew, value⟩, hdetector, h⟩ := Option.bind_eq_some_iff.1 h
      obtain ⟨⟨w₂, b₂, value'⟩, hmonitor, h⟩ := Option.bind_eq_some_iff.1 h
      cases h
      exact .inr ⟨hoff, w₁, b₁, isFlowNew, value, value', hdetector, hmonitor, rfl⟩

end MetricBlock

/-! ## `ResetMetric` -/

/-- The function `parse_metric_reset` writes for `metric.reset(resetKey)`. -/
def resetMetric {τ S : Type} (w : Metrics τ S) (metricId : ℕ) (resetKey : Option ℕ)
    (map : ℕ → HashedBuffer) : Metrics τ S :=
  let r := { w.resetOps metricId with vdReset := true, vmReset := true }
  let r :=
    match resetKey with
    | none => r
    | some key => { r with vmResetKey := map key }
  { w with resetOps := update w.resetOps metricId r }

/-! ## The d-left counter as a map -/

structure ExactCounter where
  count : HashedBuffer → UInt32

section

variable {F : Type} [Field F] [LinearOrder F] [FloorRing F]

instance : ICounter ExactCounter F HashedBuffer where
  get s key _ := some (s, ofUInt32 (s.count key))
  add s key quantity _ :=
    let x := toUInt32 (ofUInt32 (s.count key) + quantity)
    some (⟨update s.count key x⟩, ofUInt32 x)
  clear _ := some ⟨fun _ => 0⟩
  reset s key := some (⟨update s.count key 0⟩, s.count key ≠ 0)

end

/-- A counter of either of two classes. -/
instance {S S' F K : Type} [ICounter S F K] [ICounter S' F K] : ICounter (S ⊕ S') F K where
  get
    | .inl s, key, args => (ICounter.get s key args).map (Prod.map .inl id)
    | .inr s, key, args => (ICounter.get s key args).map (Prod.map .inr id)
  add
    | .inl s, key, value, args => (ICounter.add s key value args).map (Prod.map .inl id)
    | .inr s, key, value, args => (ICounter.add s key value args).map (Prod.map .inr id)
  clear
    | .inl s => (ICounter.clear F K s).map .inl
    | .inr s => (ICounter.clear F K s).map .inr
  reset
    | .inl s, key => (ICounter.reset F s key).map (Prod.map .inl id)
    | .inr s, key => (ICounter.reset F s key).map (Prod.map .inr id)

/-! ## Requests -/

/-- What the requests ask of a map, `none` being a reset of all keys. -/
def ExactCounter.applied (reqs : List (Option HashedBuffer)) (c : ExactCounter) : ExactCounter :=
  ⟨fun k => if none ∈ reqs ∨ some k ∈ reqs then 0 else c.count k⟩

/-- Where the mailbox amounts to them.  It holds the last key, and an empty one clears the
counter. -/
def Meant (reqs : List (Option HashedBuffer)) (c : ExactCounter) : Prop :=
  match (reqs.filterMap id).getLast? with
  | none => True
  | some key =>
    if key.data = [] then none ∈ reqs ∨ ∀ k, some k ∉ reqs → c.count k = 0
    else ∀ k ≠ key, none ∈ reqs ∨ some k ∈ reqs → c.count k = 0

/-- The blocks of the metrics, and the requests made of each metric since its block last came to
the counter. -/
structure MetricSystem (τ F S : Type) where
  metrics : Metrics τ S
  blocks : ℕ → MetricBlock F
  pending : ℕ → List (Option HashedBuffer)

/-- A reset executed on the registers of some message, or a message at a block. -/
inductive MetricEvent (F : Type) where
  | reset (metricId : ℕ) (resetKey : Option ℕ) (map : ℕ → HashedBuffer)
  | packet (block fuel : ℕ) (m : MetricMessage F)

namespace MetricSystem

variable {τ F S : Type} [Field F] [ICounter S F HashedBuffer]
  (T : Threshold τ) (ofBytes : List UInt8 → F)

/-- The system before any reset. -/
def start (det : DetInstances τ) (counters : ℕ → Option S) (blocks : ℕ → MetricBlock F) :
    MetricSystem τ F S where
  metrics := { det, counters, resetOps := fun _ => ⟨false, false, ⟨[]⟩⟩ }
  blocks := blocks
  pending _ := []

/-- The metric whose counter a message comes to. -/
def monitored (s : MetricSystem τ F S) (block : ℕ) (m : MetricMessage F) : Option ℕ := do
  let i ← (s.blocks block).place
  if (s.blocks block).variationMonitor ∧ (m.metricOps i).isSome then some i else none

def step (s : MetricSystem τ F S) : MetricEvent F → Option (MetricSystem τ F S)
  | .reset metricId resetKey map => some { s with
      metrics := resetMetric s.metrics metricId resetKey map
      pending := update s.pending metricId (s.pending metricId ++ [resetKey.map map]) }
  | .packet block fuel m => do
    let (metrics, b, _) ← MetricBlock.receiveMsg T ofBytes fuel s.metrics (s.blocks block) m
    some {
      metrics
      blocks := update s.blocks block b
      pending := match s.monitored block m with
        | none => s.pending
        | some i => update s.pending i [] }

variable {S' : Type} [ICounter S' F HashedBuffer] [LinearOrder F] [FloorRing F]

/-- A message that is processed finds the map of its metric with the requests applied. -/
def Exactly (s : MetricSystem τ F (S' ⊕ ExactCounter)) : MetricEvent F → Prop
  | .reset _ _ _ => True
  | .packet block fuel m => (step T ofBytes s (.packet block fuel m)).isSome →
      ∀ i c, s.monitored block m = some i → s.metrics.counters i = some (.inr c) →
        (MetricBlock.resetMonitor F (s.metrics.resetOps i) (.inr c : S' ⊕ ExactCounter)).map
          Prod.snd = some (.inr (c.applied (s.pending i)))

/-- Where it does. -/
def Clear (s : MetricSystem τ F (S' ⊕ ExactCounter)) : MetricEvent F → Prop
  | .reset _ _ _ => True
  | .packet block fuel m => (step T ofBytes s (.packet block fuel m)).isSome →
      ∀ i c, s.monitored block m = some i → s.metrics.counters i = some (.inr c) →
        Meant (s.pending i) c

end MetricSystem

end DStreamon
