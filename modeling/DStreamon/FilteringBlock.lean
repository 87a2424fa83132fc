import DStreamon.EventFactory

/-!
# `FilteringBlock`

The block fires the first true condition of the row the message carries, takes the flow to the next
state, arms the state's timeout and runs the actions.
-/

namespace DStreamon

open IEntries IDictionary

variable {D K P : Type} [IEntries D P] [IDictionary D K P]

namespace FilteringBlock

/-- The first condition that holds. -/
def fires (row : StateTuple) (holds : String → Bool) : Option (Option ConditionTuple) :=
  row.conditionList.map fun tuples => tuples.find? fun t => holds t.condition

/-- The actions run: those of the condition fired, and those after all conditions. -/
def executed (row : StateTuple) (fired : Option ConditionTuple) : List Action :=
  (fired.map ConditionTuple.action).getD [] ++ row.postCondActionList

/-- `StateID` -/
def stateID (d : D) : Option P → ℤ
  | some p => (load d p).id
  | none => 0

/-- Where a fired condition leads: the map, the pointer to the flow's entry and the index of
`NextStateTuple`, `i` being that of `State`. -/
def takeTransition (d : D) (tags : Tags K P) (i : ℤ) (t : ConditionTuple) :
    Option (D × Option P × ℤ) :=
  if t.nextState ≠ -1 then do
    let stateID := stateID d tags.stateInfo
    let key ← tags.stateFlowkey
    let (d, slot) := add d key ⟨t.nextState, 0⟩
    some (d, slot, i - stateID + t.nextState)
  else some (d, tags.stateInfo, i)

/-- The update of the expire time. -/
def arm (ev : Event) (d : D) (timestamp : UInt64) : Option P → ℤ → Option D
  | none, _ => some d
  | some p, next => do
    let row ← ev.row? next
    some (if 0 < row.timeout then
      store d p { load d p with expire := timestamp + row.timeout.toUInt64 } else d)

/-- What `_receive_msg` does up to the actions, and the actions it runs. -/
def filterState (events : List Event) (d : D) (tags : Tags K P) (holds : String → Bool) :
    Option (D × List Action) := do
  let (e, i) ← tags.state
  let ev ← events[e]?
  let row ← ev.row? i
  let fired ← fires row holds
  match fired with
  | none => some (d, executed row fired)
  | some t =>
    let (d, info, next) ← takeTransition d tags i t
    let d ← arm ev d tags.timestamp info next
    some (d, executed row fired)

end FilteringBlock

end DStreamon
