import DStreamon.MetricReset
import DStreamon.Moin
import Mathlib.Data.Int.Order.Basic
import Mathlib.Data.List.Dedup

/-!
# Flow keys, from `fields.py` to `EventFactory`

`moin.py` numbers the fields, the composite keys it meets, the metrics and the features.
`EventFactory` reads the numbers of fields and keys back from the XML and makes a rule for each
composite key of those of its components.

Names stand for attribute values that XML writes as they are.
-/

namespace DStreamon.Moin

/-! ## The document -/

/-- The order in which Python goes through a `set` and a `dict`, which it leaves open. -/
structure HashOrder where
  set : List String → List String
  items : List (String × ℤ) → List (String × ℤ)
  mem_set : ∀ {members a}, a ∈ set members ↔ a ∈ members
  nodup_set : ∀ members, (set members).Nodup
  mem_items : ∀ {dict name id}, (name, id) ∈ items dict ↔ dict.lookup name = some id
  nodup_items : ∀ dict, ((items dict).map Prod.fst).Nodup

/-- A `use-metric` element; an attribute not given reads as the empty string. -/
structure UseMetric where
  id : String
  vdUpdate : String
  vdGet : String
  vdSet : String
  vmUpdate : String
  vmGet : String
  vmSet : String

namespace UseMetric

/-- An `update` attribute stands for both `get` and `set`. -/
def key (update key : String) : String := if update = "" then key else update

def vdGetKey (m : UseMetric) : String := key m.vdUpdate m.vdGet

def vdSetKey (m : UseMetric) : String := key m.vdUpdate m.vdSet

def vmGetKey (m : UseMetric) : String := key m.vmUpdate m.vmGet

def vmSetKey (m : UseMetric) : String := key m.vmUpdate m.vmSet

/-- `user_fk`, before its order. -/
def userFk (m : UseMetric) : List String := [m.vdGetKey, m.vdSetKey, m.vmGetKey, m.vmSetKey]

end UseMetric

structure StateElem where
  id : String
  useMetrics : List UseMetric
  conditions : List Condition
  postAction : Option PostAction

structure EventElem where
  type : String
  cls : String
  primaryKey : String
  selector : String
  states : List StateElem

/-- What `moin.py` reads: the fields of `messages.xml`, and of the configuration the names of its
metrics and features and its states and events. -/
structure Document where
  fields : List (String × ℤ)
  metrics : List String
  features : List String
  statedefs : List Statedef
  events : List EventElem

def StateElem.state (o : HashOrder) (s : StateElem) : State where
  id := s.id
  metricKeys := s.useMetrics.flatMap fun m => o.set m.userFk
  conditions := s.conditions
  postAction := s.postAction

def EventElem.event (o : HashOrder) (ev : EventElem) : EventDef where
  type := ev.type
  cls := ev.cls
  primaryKey := ev.primaryKey
  selector := ev.selector
  states := ev.states.map (StateElem.state o)

def Document.config (o : HashOrder) (doc : Document) : Config where
  fields := doc.fields
  statedefs := doc.statedefs
  events := doc.events.map (EventElem.event o)

/-! ## Numbers -/

/-- `shared.tokens` with its `_additionals`. -/
structure Tokens where
  fields : Fields
  additionals : List String

namespace Tokens

def new (fields : List (String × ℤ)) : Tokens := ⟨.new fields, []⟩

/-- `if key not in shared.tokens: shared.tokens.add_composite(key)` -/
def require (t : Tokens) (key : String) : Tokens :=
  if (t.fields.get key).isSome then t else ⟨t.fields.add key, t.additionals ++ [key]⟩

end Tokens

/-- `Metric.D`, each metric's number; so are the names of features numbered. -/
def metricTable : List String → ℕ → List (String × ℕ) → Except String (List (String × ℕ))
  | [], _, table => .ok table
  | name :: names, count, table =>
    if (table.lookup name).isSome then .error "Found metrics with same name!"
    else metricTable names (count + 1) (table ++ [(name, count)])

/-- `Feature.Table` -/
def featureTable (names : List String) : List (String × ℕ) := names.zipIdx

/-- An element of a `metric_op` array. -/
structure UsedMetric where
  metricId : ℕ
  op : MetricOp

/-- `MetricOp.__init__` -/
def useMetric (o : HashOrder) (metrics : List (String × ℕ)) (tokens : Tokens) (m : UseMetric) :
    Except String (Tokens × UsedMetric) :=
  match metrics.lookup m.id with
  | none => .error "KeyError"
  | some id =>
    let tokens := (o.set m.userFk).foldl Tokens.require tokens
    let get key := (tokens.fields.get key).getD (-1)
    .ok (tokens, ⟨id, ⟨get m.vdGetKey, get m.vdSetKey, get m.vmGetKey, get m.vmSetKey⟩⟩)

def useMetrics (o : HashOrder) (metrics : List (String × ℕ)) :
    Tokens → List UseMetric → Except String (Tokens × List UsedMetric)
  | tokens, [] => .ok (tokens, [])
  | tokens, m :: ms => do
    let (tokens, op) ← useMetric o metrics tokens m
    let (tokens, ops) ← useMetrics o metrics tokens ms
    .ok (tokens, op :: ops)

/-- The `use-metric` elements an event has for a state; the state it lists last under the name
counts. -/
def EventElem.metricsOf (ev : EventElem) (e : StateEntry) : List UseMetric :=
  match ev.states.reverse.find? fun s => s.id = e.name with
  | none => []
  | some s => s.useMetrics

/-- The loop over the events: a primary key first, then the metrics of each state. -/
def usedMetrics (o : HashOrder) (metrics : List (String × ℕ)) (table : List StateEntry) :
    Tokens → List EventElem → Except String (Tokens × List UsedMetric)
  | tokens, [] => .ok (tokens, [])
  | tokens, ev :: evs => do
    let (tokens, ops) ← useMetrics o metrics (tokens.require ev.primaryKey)
      (table.flatMap ev.metricsOf)
    let (tokens, more) ← usedMetrics o metrics table tokens evs
    .ok (tokens, ops ++ more)

/-- What is generated: the tables, and the numbers in them and in the XML. -/
structure Generated where
  output : Output
  tokens : Tokens
  ops : List UsedMetric
  metrics : List (String × ℕ)
  features : List (String × ℕ)

/-- What `moin.py` generates from a document it accepts; one without a metric has no first block to
connect. -/
def generate (o : HashOrder) (doc : Document) : Except String Generated := do
  let metrics ← metricTable doc.metrics 0 []
  let output ← moin (doc.config o)
  let (tokens, ops) ← usedMetrics o metrics (statesTable (doc.config o)) (.new doc.fields)
    doc.events
  if doc.metrics = [] then .error "IndexError"
  else .ok ⟨output, tokens, ops, metrics, featureTable doc.features⟩

/-- `toxml` -/
def Generated.toxml (o : HashOrder) (g : Generated) : List (String × ℤ) :=
  o.items g.tokens.fields.dict

end DStreamon.Moin

/-! ## `_configure` -/

namespace DStreamon.EventFactory

open Function (update)

/-- What the block keeps of the keys; `flowkeyRules` are eight. -/
structure Keys where
  tokenMap : String → Option ℤ
  builtinTokens : ℤ
  lastTokenId : ℤ
  flowkeyRules : ℕ → List ℤ

namespace Keys

def new : Keys := ⟨fun _ => none, 0, 0, fun _ => []⟩

/-- `TokenMap[name]`, which inserts a `0` where there is none. -/
def token (k : Keys) (name : String) : Keys × ℤ :=
  match k.tokenMap name with
  | some id => (k, id)
  | none => ({ k with tokenMap := update k.tokenMap name (some 0) }, 0)

/-- `as_int`, which clamps. -/
def asInt (id : ℤ) : ℤ := max (-2 ^ 31) (min id (2 ^ 31 - 1))

/-- One `field` element. -/
def addField (k : Keys) (field : String × ℤ) : Keys :=
  if asInt field.2 = -1 then k
  else { k with tokenMap := update k.tokenMap field.1 (some (asInt field.2))
                lastTokenId := max k.lastTokenId (asInt field.2) }

/-- The pieces `tokenize` cuts a name into, `piece` the one being read. -/
def pieces : List Char → List Char → List String
  | piece, [] => [String.ofList piece]
  | piece, c :: cs =>
    if c = '-' then String.ofList piece :: pieces [] cs else pieces (piece ++ [c]) cs

/-- The numbers `tokenize` pushes. -/
def tokenize (k : Keys) : List String → Keys × List ℤ
  | [] => (k, [])
  | piece :: rest =>
    let (k, id) := k.token piece
    let (k, ids) := k.tokenize rest
    (k, id :: ids)

/-- One `additional_key` element; `none` where there is no such rule. -/
def addKey (k : Keys) (name : String) : Option Keys :=
  if name = "" then some k
  else
    let (k, index) := k.token name
    let rule := k.lastTokenId - index
    if 0 ≤ rule ∧ rule < 8 then
      let (k, ids) := k.tokenize (pieces [] name.toList)
      some { k with flowkeyRules := update k.flowkeyRules rule.toNat
                      (k.flowkeyRules rule.toNat ++ ids)
                    builtinTokens := k.builtinTokens - 1 }
    else none

end Keys

/-- The fields of `_configure`. -/
def addFields (fields : List (String × ℤ)) : Keys := fields.foldl Keys.addField .new

/-- The fields and keys of `_configure`; `none` where an assertion fails or a rule is out of
bounds. -/
def configureKeys (fields : List (String × ℤ)) (additionals : List String) : Option Keys :=
  let k := addFields fields
  if 0 < k.lastTokenId then
    additionals.foldlM Keys.addKey { k with builtinTokens := k.lastTokenId + 1 }
  else none

end DStreamon.EventFactory
