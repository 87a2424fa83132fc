import DStreamon.Bloom
import DStreamon.ICounter
import DStreamon.Moin

/-!
# `Metric_Block`: its configuration

Each metric has a place in `det_instances` for its detecting pair and one in `counter_instances`;
a pair may name the place of a slave.  `moin.py` writes the blocks' parameters and `_configure`
reads them.
-/

namespace DStreamon

open Function (update)

/-! ## Numbers in attributes -/

/-- The value of a digit. -/
def digit (base : ℕ) (c : Char) : Option ℕ :=
  let d :=
    if '0' ≤ c ∧ c ≤ '9' then c.toNat - 48
    else if 'a' ≤ c ∧ c ≤ 'f' then c.toNat - 87
    else if 'A' ≤ c ∧ c ≤ 'F' then c.toNat - 55
    else base
  if d < base then some d else none

/-- The number read on from `n`, up to the first character that is no digit. -/
def number (base : ℕ) : ℕ → List Char → ℕ
  | n, [] => n
  | n, c :: s =>
    match digit base c with
    | some d => number base (base * n + d) s
    | none => n

/-- Past the spaces and a sign, and whether it is a minus. -/
def sign (s : String) : Bool × List Char :=
  match s.toList.dropWhile fun c => c = ' ' ∨ c = '\t' ∨ c = '\n' ∨ c = '\r' with
  | '-' :: s => (true, s)
  | '+' :: s => (false, s)
  | s => (false, s)

/-- `as_int` of an attribute: what overflows is cut off at the bounds of an `int`. -/
def asInt (s : String) : ℤ :=
  let (negative, s) := sign s
  let n : ℕ :=
    match s with
    | '0' :: 'x' :: s | '0' :: 'X' :: s => number 16 0 s
    | s => number 10 0 s
  if negative then max (-2 ^ 31) (-n) else min (2 ^ 31 - 1) n

/-- `string_to_int`, which reads from a stream into a `uint32_t`. -/
def stringToInt (s : String) : UInt32 :=
  let (negative, s) := sign s
  let n := number 10 0 s
  if 2 ^ 32 ≤ n then 0xFFFFFFFF else if negative then -n.toUInt32 else n.toUInt32

/-- `x ?: y` -/
def orElse (x y : ℤ) : ℤ := if x = 0 then y else x

/-! ## Parameters -/

/-- The attributes of a `variation_detector`; one that is missing reads as the empty string. -/
structure VariationDetector where
  status : String
  size : String
  nhash : String
  slaveId : String
  resetAfter : String
deriving DecidableEq

structure VariationMonitor where
  status : String
  type : String
  size : String
  nhash : String
  timeWindow : String
  indexValue : String
  insertValue : String
deriving DecidableEq

/-- The `params` of a block: the `metric_id` of its `block_type`, and its other elements. -/
structure MetricParams where
  metricId : Option String
  variationDetector : Option VariationDetector
  variationMonitor : Option VariationMonitor
deriving DecidableEq

/-! ## `classes.Metric` -/

/-- A `metric` element with its `variation_detector` and `variation_monitor`. -/
structure Metric where
  name : String
  source : String
  vdStatus : String
  slave : String
  resetAfter : String
  vmStatus : String
  vmType : String
  window : String
  insertValue : String

namespace Metric

/-- `Metric.__str__`, with `Metric.D` as it is when the element is printed. -/
def toParams (tokens : Moin.Fields) (D : List (String × ℕ)) (m : Metric) (id : ℕ) :
    Except String MetricParams := do
  let slaveId ←
    if m.slave = "" then .ok ""
    else match D.lookup m.slave with
      | none => .error "KeyError"
      | some s => .ok (toString s)
  let (indexValue, insert) :=
    match tokens.get m.insertValue with
    | some i => (toString i, "")
    | none => ("", m.insertValue)
  .ok {
    metricId := some (toString id)
    variationDetector := some ⟨m.vdStatus, "20", "8", slaveId, m.resetAfter⟩
    variationMonitor := some ⟨m.vmStatus, m.vmType, "20", "8", m.window, indexValue, insert⟩ }

/-- The loop of `moin.py` over the metrics: each is numbered, and printed once for each core before
the next is read. -/
def compile (tokens : Moin.Fields) (coreNum : ℕ) :
    List Metric → List (String × ℕ) → Except String (List MetricParams)
  | [], _ => .ok []
  | m :: metrics, D => do
    if m.source ≠ "hw" ∧ m.vmStatus = "on" ∧ m.vmType = "" then
      .error "VM Type required, candidates are: tewma, dleft, simple."
    if (D.lookup m.name).isSome then .error "Found metrics with same name!"
    let id := D.length
    let D := D ++ [(m.name, id)]
    let blocks ←
      if m.source = "hw" then .ok []
      else (List.range coreNum).mapM fun _ => m.toParams tokens D id
    .ok (blocks ++ (← compile tokens coreNum metrics D))

end Metric

/-! ## `_configure` -/

/-- The ways `_configure` throws, fails an assert, or goes astray. -/
inductive ConfigError where
  | invalidArgument (what : String)
  | runtimeError (what : String)
  | fault (f : Fault)
  /-- `assert(InsertValue > 0)` -/
  | badInsertValue
  /-- `metric_id` read before it is set, or past the instances. -/
  | badMetricId
deriving DecidableEq

def maxMetricsNum : ℕ := 16

/-- The place of a metric among the instances. -/
def placeOf (id : ℤ) : Option ℕ := if 0 ≤ id ∧ id < maxMetricsNum then some id.toNat else none

/-- The mailbox of a metric. -/
structure ResetAction where
  vdReset : Bool
  vmReset : Bool
  vmResetKey : HashedBuffer
deriving DecidableEq

/-- What all blocks share: `det_instances`, `counter_instances` and `reset_ops`. -/
structure Metrics (τ S : Type) where
  det : DetInstances τ
  counters : ℕ → Option S
  resetOps : ℕ → ResetAction

namespace Metrics

variable {τ S : Type}

def new : Metrics τ S where
  det _ := none
  counters _ := none
  resetOps _ := ⟨false, false, ⟨[]⟩⟩

end Metrics

/-- A block; `bloom` and `counter` are the instances of its metric. -/
structure MetricBlock (F : Type) where
  metricId : Option ℤ
  variationDetector : Bool
  variationMonitor : Bool
  swapBfSize : ℤ
  swapBfNhash : ℤ
  swapBfResetAfter : UInt64
  resetWindowEnd : UInt64
  insertValue : F
  indexValue : ℤ

namespace MetricBlock

variable {τ F S : Type} [Field F] [LinearOrder F] (T : Threshold τ) (asDouble : String → F)
  (getInstance : String → ℕ → ℕ → F → Option S)

def new : MetricBlock F where
  metricId := none
  variationDetector := false
  variationMonitor := false
  swapBfSize := 16
  swapBfNhash := 4
  swapBfResetAfter := 0
  resetWindowEnd := 0
  insertValue := 1
  indexValue := -1

def place (b : MetricBlock F) : Option ℕ := b.metricId.bind placeOf

/-- Whether an attribute is given. -/
def given (val : String) : Bool := val ≠ "null" ∧ val ≠ ""

/-- The place of the slave, if one is named. -/
def slavePlace (slaveId : String) : Except ConfigError (Option ℕ) :=
  if slaveId = "" then .ok none
  else
    match placeOf (asInt slaveId) with
    | none => .error (.invalidArgument "slave_id")
    | some s => .ok (some s)

def configureDetector (w : Metrics τ S) (b : MetricBlock F) (n : VariationDetector) :
    Except ConfigError (Metrics τ S × MetricBlock F) := do
  let b := { b with
    variationDetector := if n.status = "on" then true else b.variationDetector
    swapBfSize := if given n.size then (stringToInt n.size).toInt32.toInt else b.swapBfSize
    swapBfNhash := if given n.nhash then (stringToInt n.nhash).toInt32.toInt else b.swapBfNhash
    swapBfResetAfter :=
      if n.resetAfter ≠ "" then UInt64.ofInt (asInt n.resetAfter) else b.swapBfResetAfter }
  let slave ← slavePlace n.slaveId
  match b.place with
  | none => .error .badMetricId
  | some i =>
    if w.det i = none ∧ (b.swapBfNhash < 0 ∨ b.swapBfSize < 0) then .error (.fault .badShape)
    else
      let op := .create i b.swapBfNhash.toNat b.swapBfSize.toNat slave
      match BloomPair.exec T 0 w.det op with
      | .error f => .error (.fault f)
      | .ok (det, _) => .ok ({ w with det }, b)

def configureMonitor (w : Metrics τ S) (b : MetricBlock F) (n : VariationMonitor) :
    Except ConfigError (Metrics τ S × MetricBlock F) :=
  let shash := orElse (asInt n.size) 20
  let nhash := orElse (asInt n.nhash) 8
  let timeWindow := if asDouble n.timeWindow = 0 then 60 else asDouble n.timeWindow
  let beta := 1 - 2 / (timeWindow / 6 + 1)
  let b := { b with
    variationMonitor := if n.status = "on" then true else b.variationMonitor
    indexValue := orElse (asInt n.indexValue) (-1)
    insertValue := ((orElse (asInt n.insertValue) 1 : ℤ) : F) }
  if n.status = "on" ∧ n.type = "" then
    .error (.runtimeError "[MetricBlock] VM type must be specified")
  else if ¬ 0 < b.insertValue then .error .badInsertValue
  else match b.place with
    | none => .error .badMetricId
    | some i =>
      match w.counters i, getInstance n.type nhash.toNat shash.toNat beta with
      | some _, _ => .ok (w, b)
      | none, some c => .ok ({ w with counters := update w.counters i (some c) }, b)
      | none, none => .error (.runtimeError
          "[MetricBlock] VM type wrong, candidates are: tewma, dleft, simple")

def configureType : Option String → Except ConfigError (MetricBlock F)
  | none => .ok new
  | some val =>
    if given val then .ok { new with metricId := some (asInt val) }
    else .error (.invalidArgument "metric_id")

/-- `_configure` of a new block. -/
def configure (w : Metrics τ S) (n : MetricParams) :
    Except ConfigError (Metrics τ S × MetricBlock F) := do
  let b ← configureType n.metricId
  let (w, b) ← (match n.variationDetector with
    | none => .ok (w, b)
    | some d => configureDetector T w b d)
  match n.variationMonitor with
  | none => .ok (w, b)
  | some m => configureMonitor asDouble getInstance w b m

/-- The blocks of a composition, one after another. -/
def configureAll : Metrics τ S → List MetricParams →
    Except ConfigError (Metrics τ S × List (MetricBlock F))
  | w, [] => .ok (w, [])
  | w, n :: ns => do
    let (w, b) ← configure T asDouble getInstance w n
    let (w, bs) ← configureAll w ns
    .ok (w, b :: bs)

end MetricBlock

/-! ## Masters and slaves -/

namespace MetricParams

def place (n : MetricParams) : Option ℕ := n.metricId.bind fun val => placeOf (asInt val)

/-- The slave a block names. -/
def slave (n : MetricParams) : Option ℕ :=
  n.variationDetector.bind fun d => if d.slaveId = "" then none else placeOf (asInt d.slaveId)

/-- The slave of the metric at a place: the one its first block names. -/
def slaveOf (ns : List MetricParams) (i : ℕ) : Option ℕ :=
  (ns.find? fun n => n.variationDetector.isSome ∧ n.place = some i).bind slave

/-- Which metric has which slave, as the attributes say. -/
def assignment (n : MetricParams) : Option String × Option String :=
  (n.metricId, n.variationDetector.map VariationDetector.slaveId)

end MetricParams

end DStreamon
