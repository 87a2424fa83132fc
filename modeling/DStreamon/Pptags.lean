import DStreamon.DLeft
import Mathlib.Data.Int.Notation

/-!
# State machines as tables, and the tags of a message

Each event has its own table with a row for every state: what to do in that state, when its timeout
expires and where it then leads.  A message's tags keep the row it was found in and a pointer to
the flow's entry from `EventFactory` to `FilteringBlock`.
-/

namespace DStreamon

/-! ## Tables -/

/-- The actions that answer `CUSTOM_ACTION` or `EXPORT_PACKET`. -/
inductive OtherAction where
  | custom
  | exportPacket
deriving DecidableEq

/-- An action function; that of a `timeout_set` by its call of `Set`. -/
inductive Action where
  | timeoutSet (key : ℤ) (value : ℤ) (evid : ℕ) (pkey : Option ℤ)
  | other (a : OtherAction)
deriving DecidableEq

structure ConditionTuple where
  condition : String
  action : List Action
  nextState : ℤ
deriving DecidableEq

/-- `metricSet` says whether there is one; a `NULL` condition list is `none`, a `NULL` action list
is empty. -/
structure StateTuple where
  id : ℤ
  metricSet : Bool
  conditionList : Option (List ConditionTuple)
  postCondActionList : List Action
  timeout : UInt32
  timeoutState : ℤ
deriving DecidableEq, Inhabited

/-- `selector` is `none` where `Match` always answers `false`. -/
structure Event where
  selector : Option String
  stateTable : List StateTuple
  regId : ℤ
deriving DecidableEq

/-- The row `StateTable[i]`. -/
def Event.row? (ev : Event) (i : ℤ) : Option StateTuple :=
  if 0 ≤ i then ev.stateTable[i.toNat]? else none

/-! ## Entries -/

structure StateData where
  id : ℤ
  expire : UInt64
deriving DecidableEq, Inhabited

/-- Reading and writing an entry through a pointer `P`. -/
class IEntries (D : Type) (P : outParam Type) where
  load : D → P → StateData
  store : D → P → StateData → D

/-- What the blocks use of `states_map`. -/
class IDictionary (D K : Type) (P : outParam Type) where
  get : D → K → Option P
  add : D → K → StateData → D × Option P
  remove : D → K → D

instance : IEntries (DLeft StateData) Slot where
  load := DLeft.load
  store := DLeft.store

instance {K : Type} [IReadBuffer K] : IDictionary (DLeft StateData) K Slot where
  get := DLeft.get
  add d key value := d.add key value
  remove d key := (d.remove key).1

/-- `DLeft<state_data> states_map(8, 20)`; a node holds an `int`, a `uint64_t` and a fingerprint. -/
def statesMap : DLeft StateData := DLeft.new 24 8 20

/-! ## Tags -/

/-- The tags of a message with registers `map`.  `state` names a row by its event's place in the
event table and its own; `kept` says whether `Message` points at the message. -/
structure Tags (K P : Type) where
  map : ℕ → K
  stateFlowkey : Option K
  state : Option (ℕ × ℤ)
  stateInfo : Option P
  tEventId : ℤ
  kept : Bool
  timestamp : UInt64

namespace Tags

variable {K P : Type}

/-- The tags of a new message. -/
def new (map : ℕ → K) : Tags K P where
  map := map
  stateFlowkey := none
  state := none
  stateInfo := none
  tEventId := -1
  kept := false
  timestamp := 0

/-- `getFlowkey`, `NULL` for a negative register; there are sixteen. -/
def getFlowkey (tags : Tags K P) (id : ℤ) : Option K :=
  if 0 ≤ id ∧ id < 16 then some (tags.map id.toNat) else none

end Tags

end DStreamon
