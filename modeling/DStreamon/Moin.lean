import Mathlib.Algebra.Group.Int.Defs
import DStreamon.Pptags
import Mathlib.Data.List.Basic

/-!
# The tables `moin.py` generates

A configuration declares states and events.  For each event `moin.py` emits a table with a row for
every state, empty where the event does not list the state, and for each `timeout_set` element a
function that calls `TimeoutManager::Set`.

The texts of selectors, conditions and other actions stand for themselves.
-/

namespace DStreamon.Moin

/-! ## The configuration -/

/-- A `timeout_set` element; an attribute not given reads as the empty string. -/
structure TimeoutSet where
  cls : String
  key : String
  value : ℤ
  primarykey : String
deriving DecidableEq

/-- A `condition` element, its `action` attribute as the actions `Actions.parse` names. -/
structure Condition where
  expression : String
  nextState : String
  action : List OtherAction
  timeoutSet : List TimeoutSet

/-- A `post-condition-action` element. -/
structure PostAction where
  action : List OtherAction
  timeoutSet : List TimeoutSet

/-- A `state` element; `metricKeys` are the flow keys of its `use-metric` elements, in the order
they are looked at. -/
structure State where
  id : String
  metricKeys : List String
  conditions : List Condition
  postAction : Option PostAction

/-- An `event` element. -/
structure EventDef where
  type : String
  cls : String
  primaryKey : String
  selector : String
  states : List State

/-- A `statedef` element, its `timeout` attribute as an integer if it is given. -/
structure Statedef where
  id : String
  timeout : Option ℤ
  nextState : String
deriving DecidableEq

/-- `StateExpire`, in microseconds. -/
def Statedef.expire (s : Statedef) : ℤ := s.timeout.getD 0 * 1000000

/-- `StateOnTimeout`. -/
def Statedef.onTimeout (s : Statedef) : Option String :=
  if s.nextState = "" then none else some s.nextState

/-- `fields` are the message fields of `messages.xml`. -/
structure Config where
  fields : List (String × ℤ)
  statedefs : List Statedef
  events : List EventDef

/-! ## `shared.tokens` -/

structure Fields where
  dict : List (String × ℤ)
  max : ℤ

namespace Fields

def new (fields : List (String × ℤ)) : Fields where
  dict := fields.reverse ++ [("null", -1), ("", -1)]
  max := fields.foldl (fun m f => if m < f.2 then f.2 else m) 0 + 1

def get (f : Fields) (token : String) : Option ℤ := f.dict.lookup token

def add (f : Fields) (token : String) : Fields := ⟨(token, f.max) :: f.dict, f.max + 1⟩

/-- `if token not in shared.tokens: shared.tokens.add_composite(token)` -/
def require (f : Fields) (token : String) : Fields :=
  if (f.get token).isSome then f else f.add token

end Fields

/-! ## `StatesTable` -/

structure StateEntry where
  name : String
  id : ℤ
  timeout : ℤ
  onTimeout : Option String
deriving DecidableEq

/-- The loop over the `statedef` elements, `count` being `state_count`. -/
def addStates : List Statedef → List StateEntry → ℕ → List StateEntry
  | [], table, _ => table
  | s :: defs, table, count =>
    if table.any fun e => e.name = s.id then addStates defs table count
    else addStates defs (table ++ [⟨s.id, count, s.expire, s.onTimeout⟩]) (count + 1)

def noState : StateEntry := ⟨"", -1, 0, none⟩

/-- `StatesTable[""] = (-1, 0, 0)`, which keeps the place of a state of that name. -/
def setNoState (table : List StateEntry) : List StateEntry :=
  if table.any fun e => e.name = "" then table.map fun e => if e.name = "" then noState else e
  else table ++ [noState]

def statesTable (cfg : Config) : List StateEntry := setNoState (addStates cfg.statedefs [] 0)

def lookupState (table : List StateEntry) (name : String) : Option StateEntry :=
  table.find? fun e => e.name = name

/-- The number of the state a timeout leads to, `0` where there is none of the name. -/
def timeoutStateId (table : List StateEntry) (onTimeout : Option String) : ℤ :=
  match onTimeout.bind (lookupState table) with
  | some e => e.id
  | none => 0

/-! ## `Timeout` -/

/-- `Timeout.fill_from_events`: the place among all events of each class's event. -/
def fillFromEvents : List EventDef → ℕ → List (String × ℕ) → Except String (List (String × ℕ))
  | [], _, timeouts => .ok timeouts
  | ev :: events, index, timeouts =>
    if ev.type = "timeout" then
      if (timeouts.lookup ev.cls).isSome then
        .error "Found two timeout events with the same class!"
      else fillFromEvents events (index + 1) ((ev.cls, index) :: timeouts)
    else fillFromEvents events (index + 1) timeouts

/-- `Timeout._parse_one`; its branch for a plain string reads `self.values`, which the class has
not. -/
def parseOne (tokens : Fields) (timeouts : List (String × ℕ)) (ts : TimeoutSet) :
    Except String Action :=
  if ts.cls = "" ∨ ts.key = "" then .error "timeout_set: missing class or key attributes"
  else match timeouts.lookup ts.cls with
    | none => .error "KeyError"
    | some evid =>
      match tokens.get ts.key with
      | none => .error "AttributeError"
      | some key => .ok (.timeoutSet key ts.value evid
          (if ts.primarykey = "" then none else tokens.get ts.primarykey))

/-- `Timeout.parse_all`: the functions, each with its element. -/
def parseAll (tokens : Fields) (timeouts : List (String × ℕ)) :
    List TimeoutSet → Except String (List (TimeoutSet × Action))
  | [] => .ok []
  | ts :: rest => do
    let a ← parseOne tokens timeouts ts
    let as ← parseAll tokens timeouts rest
    .ok ((ts, a) :: as)

/-! ## Rows -/

/-- A row as it is printed, and the timeout functions printed with it. -/
structure Row where
  id : ℤ
  conditionList : Option (List ConditionTuple)
  postCondActionList : List Action
  timeout : ℤ
  timeoutState : ℤ
  functions : List (TimeoutSet × Action)

/-- The conditions of a state, their timeouts before their other actions. -/
def genConditions (tokens : Fields) (timeouts : List (String × ℕ)) (table : List StateEntry) :
    List Condition → Except String (List ConditionTuple × List (TimeoutSet × Action))
  | [] => .ok ([], [])
  | c :: rest => do
    let functions ← parseAll tokens timeouts c.timeoutSet
    match lookupState table c.nextState with
    | none => .error "KeyError"
    | some e => do
      let (tuples, more) ← genConditions tokens timeouts table rest
      .ok (⟨c.expression, functions.map Prod.snd ++ c.action.map .other, e.id⟩ :: tuples,
        functions ++ more)

/-- The post condition actions of a state, their timeouts after their other actions. -/
def genPostAction (tokens : Fields) (timeouts : List (String × ℕ)) :
    Option PostAction → Except String (List Action × List (TimeoutSet × Action))
  | none => .ok ([], [])
  | some p => do
    let functions ← parseAll tokens timeouts p.timeoutSet
    .ok (p.action.map .other ++ functions.map Prod.snd, functions)

/-- The row of a state in the table of an event; the state the event lists last under the name
counts. -/
def genRow (tokens : Fields) (timeouts : List (String × ℕ)) (table : List StateEntry)
    (ev : EventDef) (e : StateEntry) : Except String (Fields × Row) :=
  match ev.states.reverse.find? fun s => s.id = e.name with
  | none => .ok (tokens, ⟨e.id, none, [], 0, 0, []⟩)
  | some s => do
    let tokens := s.metricKeys.foldl Fields.require tokens
    let (tuples, functions) ← genConditions tokens timeouts table s.conditions
    let (post, more) ← genPostAction tokens timeouts s.postAction
    .ok (tokens, ⟨e.id, some tuples, post, e.timeout, timeoutStateId table e.onTimeout,
      functions ++ more⟩)

/-- The functions in the lists of a row. -/
def Row.actions (r : Row) : List Action :=
  (r.conditionList.getD []).flatMap ConditionTuple.action ++ r.postCondActionList

def genRows (timeouts : List (String × ℕ)) (table : List StateEntry) (ev : EventDef) :
    Fields → List StateEntry → Except String (Fields × List Row)
  | tokens, [] => .ok (tokens, [])
  | tokens, e :: rest => do
    let (tokens, row) ← genRow tokens timeouts table ev e
    let (tokens, rows) ← genRows timeouts table ev tokens rest
    .ok (tokens, row :: rows)

/-! ## Events -/

structure GenEvent where
  selector : Option String
  rows : List Row
  regId : ℤ

/-- `Event.parse`, then the rows. -/
def genEvents (timeouts : List (String × ℕ)) (table : List StateEntry) :
    Fields → List EventDef → Except String (List GenEvent)
  | _, [] => .ok []
  | tokens, ev :: rest => do
    let tokens := tokens.require ev.primaryKey
    let regId := (tokens.get ev.primaryKey).getD (-1)
    let (tokens, rows) ← genRows timeouts table ev tokens table
    let events ← genEvents timeouts table tokens rest
    .ok (⟨if ev.type = "timeout" then none else some ev.selector, rows, regId⟩ :: events)

structure Output where
  timeoutClasses : ℕ
  events : List GenEvent

/-- What `moin.py` generates from a configuration it accepts. -/
def moin (cfg : Config) : Except String Output := do
  let timeouts ← fillFromEvents cfg.events 0 []
  let events ← genEvents timeouts (statesTable cfg) (.new cfg.fields) cfg.events
  .ok ⟨timeouts.length, events⟩

/-! ## The shared library -/

/-- The initializer of a `state_tuple`; a constant that does not fit its `uint32_t` is ill-formed
there. -/
def Row.compile (r : Row) : Option StateTuple :=
  if 0 ≤ r.timeout ∧ r.timeout < 2 ^ 32 then
    some { id := r.id, metricSet := r.conditionList.isSome, conditionList := r.conditionList
           postCondActionList := r.postCondActionList, timeout := UInt32.ofNat r.timeout.toNat
           timeoutState := r.timeoutState }
  else none

def GenEvent.compile (ev : GenEvent) : Option Event := do
  let rows ← ev.rows.mapM Row.compile
  some ⟨ev.selector, rows, ev.regId⟩

/-- The event table of the library. -/
def Output.compile (out : Output) : Option (List Event) := out.events.mapM GenEvent.compile

end DStreamon.Moin
