import DStreamon.MetricReset
import DStreamon.Substitution

/-!
# What the features of a state read

For each state of an event `moin.py` writes the operations of its `use-metric` elements, and the
list of the features that its conditions and actions name.  A message in that state passes the
blocks of the metrics, which write the metrics that have an operation, and then `FeatureBlock`,
whose features read the metrics that stand in their bodies.
-/

namespace DStreamon.Features

open Function (update)
open Substitution

/-! ## The configuration -/

/-- A `metric` element; one with the source `hw` has no block. -/
structure MetricDef where
  name : Identifier
  hw : Bool

structure FeatureDef where
  name : Identifier
  body : List Char

/-- A `use-metric` element, with the registers of its keys. -/
structure UseMetric where
  id : Identifier
  op : MetricOp

structure ConditionDef where
  expression : List Char
  action : List Char

/-- A `state` element; `postAction` is the `do` of its `post-condition-action`. -/
structure StateDef where
  id : String
  useMetrics : List UseMetric
  conditions : List ConditionDef
  postAction : Option (List Char)

structure Config where
  metrics : List MetricDef
  features : List FeatureDef
  statedefs : List Moin.Statedef
  events : List (List StateDef)

def statesTable (cfg : Config) : List Moin.StateEntry :=
  Moin.setNoState (Moin.addStates cfg.statedefs [] 0)

/-! ## `moin.py` -/

/-- `Metric.Table`, and `Metric.D`. -/
def addMetrics : List MetricDef → NameTable → Except String NameTable
  | [], table => .ok table
  | m :: metrics, table =>
    if table.any fun e => e.1 = m.name then .error "Found metrics with same name!"
    else addMetrics metrics (table ++ [(m.name, table.length)])

/-- `Feature.Table`. -/
def featureTable (features : List FeatureDef) : NameTable :=
  features.zipIdx.map fun f => (f.1.name, f.2)

/-- The table of the features, which conditions sort, and `FeatureSet`. -/
structure FeatureSets where
  table : NameTable
  featureSet : List (ℕ × Identifier)

def addCondition (s : FeatureSets) (c : ConditionDef) : FeatureSets where
  table := sortNames s.table
  featureSet := (condition s.table c.expression c.action s.featureSet).featureSet

def addPostAction (s : FeatureSets) (action : List Char) : FeatureSets :=
  { s with featureSet :=
      s.featureSet ++ (s.table.filter fun f => f.1.text <:+: action).map fun f => (f.2, f.1) }

def featureSets (table : NameTable) (s : StateDef) : FeatureSets :=
  let sets := s.conditions.foldl addCondition ⟨table, []⟩
  match s.postAction with
  | none => sets
  | some action => addPostAction sets action

/-- `MetricOp.CodeTable`. -/
def metricOps (metrics : NameTable) : List UseMetric → Except String (List (ℕ × MetricOp))
  | [] => .ok []
  | u :: us =>
    match lookup metrics u.id.text with
    | none => .error "KeyError"
    | some id => do
      let ops ← metricOps metrics us
      .ok ((id, u.op) :: ops)

/-- A `state_tuple`; where there are no features its list is `NULL`, here empty. -/
structure Row where
  id : ℤ
  metricSet : Option (List (ℕ × MetricOp))
  featureList : List (ℕ × Identifier)

/-- The state element of an event that counts under a name, the last one. -/
def lastNamed (ev : List StateDef) (name : String) : Option StateDef :=
  ev.reverse.find? fun s => s.id = name

def genRow (metrics table : NameTable) (ev : List StateDef) (e : Moin.StateEntry) :
    Except String (NameTable × Row) :=
  match lastNamed ev e.name with
  | none => .ok (table, ⟨e.id, none, []⟩)
  | some s => do
    let ops ← metricOps metrics s.useMetrics
    let sets := featureSets table s
    .ok (sets.table, ⟨e.id, some ops, sets.featureSet⟩)

def genRows (metrics : NameTable) (ev : List StateDef) :
    NameTable → List Moin.StateEntry → Except String (NameTable × List Row)
  | table, [] => .ok (table, [])
  | table, e :: rest => do
    let (table, row) ← genRow metrics table ev e
    let (table, rows) ← genRows metrics ev table rest
    .ok (table, row :: rows)

def genEvents (metrics : NameTable) (states : List Moin.StateEntry) :
    NameTable → List (List StateDef) → Except String (List (List Row))
  | _, [] => .ok []
  | table, ev :: rest => do
    let (table, rows) ← genRows metrics ev table states
    let tables ← genEvents metrics states table rest
    .ok (rows :: tables)

/-- The functions of the features, the state tables of the events, and the metrics that the blocks
of the composition have, in its order. -/
structure Output where
  functions : List (Identifier × List Char)
  stateTables : List (List Row)
  blocks : List ℕ

def generate (cfg : Config) : Except String Output := do
  let metrics ← addMetrics cfg.metrics []
  let stateTables ← genEvents metrics (statesTable cfg) (featureTable cfg.features) cfg.events
  .ok {
    functions := cfg.features.map fun f => (f.name, featureBody metrics f.body)
    stateTables
    blocks := cfg.metrics.zipIdx.filterMap fun m => if m.1.hw then none else some m.2 }

def Output.row? (out : Output) (event state : ℕ) : Option Row :=
  out.stateTables[event]?.bind fun rows => rows[state]?

/-- The body of the function of a feature. -/
def Output.function (out : Output) (name : Identifier) : Option (List Char) :=
  (out.functions.find? fun f => f.1 = name).map Prod.snd

/-! ## A message in a state -/

/-- An access to `Metrics`. -/
inductive Access where
  | write (i : ℕ)
  | read (i : ℕ)
deriving DecidableEq

/-- What comes to `EventFactory`: a new message, its arrays not initialized, or the message of an
expired timer. -/
inductive Arrival (F : Type) where
  | packet (metrics features : ℕ → F) (map : ℕ → HashedBuffer) (timestampUs : UInt64)
  | timer (m : MetricMessage F) (features : ℕ → F)

namespace Arrival

variable {F : Type}

/-- Its tags, with no metric operations. -/
def message : Arrival F → MetricMessage F
  | .packet metrics _ map timestampUs => ⟨fun _ => none, metrics, map, timestampUs⟩
  | .timer m _ => { m with metricOps := fun _ => none }

def features : Arrival F → ℕ → F
  | .packet _ features _ _ => features
  | .timer _ features => features

end Arrival

section

variable {τ F S : Type} (calculateFlowkey : (ℕ → HashedBuffer) → ℤ → Option (ℕ → HashedBuffer))

/-- The loop of `build_metric_ops`; there is room for sixteen. -/
def buildMetricOps : List (ℕ × MetricOp) → MetricMessage F → Option (MetricMessage F)
  | [], m => some m
  | (id, op) :: ops, m => do
    let map ← calculateFlowkey m.map op.vdFlowkeyGet
    let map ← calculateFlowkey map op.vdFlowkeySet
    let map ← calculateFlowkey map op.vmFlowkeySet
    let map ← calculateFlowkey map op.vmFlowkeyGet
    if id < maxMetricsNum then
      buildMetricOps ops { m with map, metricOps := update m.metricOps id (some op) }
    else none

/-- What a block writes of a message. -/
def written (b : MetricBlock F) (m : MetricMessage F) : List Access :=
  match b.place with
  | none => []
  | some i => if (m.metricOps i).isSome then [.write i] else []

/-- The blocks of the metrics, what they share, and a message with the accesses made for it. -/
structure Passage (τ F S : Type) where
  metrics : Metrics τ S
  blocks : List (MetricBlock F)
  message : MetricMessage F
  accesses : List Access

variable [Field F] [ICounter S F HashedBuffer] (T : Threshold τ) (ofBytes : List UInt8 → F)
  (eval : List Char → (ℕ → F) → F) (fuel : ℕ)

/-- A message through the blocks, one after the other. -/
def runBlocks : Metrics τ S → List (MetricBlock F) → MetricMessage F → Option (Passage τ F S)
  | w, [], m => some ⟨w, [], m, []⟩
  | w, b :: bs, m => do
    let r ← MetricBlock.receiveMsg T ofBytes fuel w b m
    let p ← runBlocks r.1 bs r.2.2
    some ⟨p.metrics, r.2.1 :: p.blocks, p.message, written b m ++ p.accesses⟩

/-- The number that begins a text, if a bracket closes it. -/
def index : ℕ → List Char → Option ℕ
  | _, [] => none
  | n, c :: text =>
    if c.isDigit then index (10 * n + (c.toNat - 48)) text else if c = ']' then some n else none

/-- The metrics that stand in a body, of which all are operands. -/
def operands (body : List Char) : List ℕ :=
  body.tails.filterMap fun text =>
    if (inputWord ++ ['[']) <+: text then index 0 (text.drop (inputWord.length + 1)) else none

/-- `_receive_msg` of `FeatureBlock`: the features, and the accesses of their functions. -/
def featureBlock (function : Identifier → Option (List Char)) (metrics : ℕ → F) :
    List (ℕ × Identifier) → (ℕ → F) → Option ((ℕ → F) × List Access)
  | [], features => some (features, [])
  | (id, name) :: list, features => do
    let body ← function name
    let r ← featureBlock function metrics list (update features id (eval body metrics))
    some (r.1, (operands body).map .read ++ r.2)

/-- A message that arrives and is in the state of a row, up to where its features are computed;
`none` where it is dropped, or a block throws. -/
def process (out : Output) (row : Row) (w : Metrics τ S) (blocks : List (MetricBlock F))
    (a : Arrival F) : Option (Passage τ F S × (ℕ → F)) := do
  let ops ← row.metricSet
  let m ← buildMetricOps calculateFlowkey ops a.message
  let p ← runBlocks T ofBytes fuel w blocks m
  let r ← featureBlock eval out.function p.message.metrics row.featureList a.features
  some ({ p with accesses := p.accesses ++ r.2 }, r.1)

end

/-! ## What it is for -/

/-- What is read has been written. -/
def Fresh (accesses : List Access) : Prop :=
  ∀ before i after, accesses = before ++ .read i :: after → .write i ∈ before

/-- The metric has a block, and a `use-metric` element of the state. -/
def Uses (cfg : Config) (s : StateDef) (i : ℕ) : Prop :=
  ∃ m, cfg.metrics[i]? = some m ∧ m.hw = false ∧ ∃ u ∈ s.useMetrics, u.id = m.name

/-- The element of a state in an event, by their places. -/
def stateDef? (cfg : Config) (event state : ℕ) : Option StateDef := do
  let ev ← cfg.events[event]?
  let e ← (statesTable cfg)[state]?
  lastNamed ev e.name

/-- The metrics that stand in the features of the state's list are ones that it uses. -/
def Declared (cfg : Config) (out : Output) (row : Row) (s : StateDef) : Prop :=
  ∀ f ∈ row.featureList, ∀ body, out.function f.2 = some body → ∀ i ∈ operands body, Uses cfg s i

end DStreamon.Features
