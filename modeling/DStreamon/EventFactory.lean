import DStreamon.Pptags

/-!
# `EventFactory`

The block finds the event of a message, the entry of its flow and the row of the state the flow
sits in, moving a flow whose state has expired.
-/

namespace DStreamon

open IEntries IDictionary

variable {D K P : Type} [IEntries D P] [IDictionary D K P]

namespace EventFactory

/-- `find_event`: the event of a timer, or the first that matches; `none` past the table, and
`some none` where none matches. -/
def findEvent (events : List Event) (tEventId : ℤ) (matcher : String → Bool) :
    Option (Option ℕ) :=
  if tEventId ≠ -1 then
    if 0 ≤ tEventId ∧ tEventId < events.length then some (some tEventId.toNat) else none
  else some (events.findIdx? fun ev => ev.selector.any matcher)

/-- Whether the state of an entry has timed out. -/
def Expired (s : StateData) (now : UInt64) : Prop := 0 < s.id ∧ 0 < s.expire ∧ s.expire < now

instance (s : StateData) (now : UInt64) : Decidable (Expired s now) :=
  inferInstanceAs (Decidable (_ ∧ _))

/-- What `_receive_msg` does with the entry: the row captured, moved on if the state has expired.
`e` is the event's place in the table. -/
def moveState (e : ℕ) (ev : Event) (d : D) (tags : Tags K P) (key : K) :
    Option (D × Tags K P) :=
  match get d key with
  | none => some (d, { tags with stateInfo := none, state := some (e, 0) })
  | some p => do
    let stateId := (load d p).id
    let row ← ev.row? stateId
    let tags := { tags with stateInfo := some p, state := some (e, stateId) }
    if Expired (load d p) tags.timestamp then
      let d := store d p { load d p with id := row.timeoutState }
      if row.timeoutState = 0 then
        some (remove d key, { tags with stateInfo := none, state := some (e, 0) })
      else do
        let next ← ev.row? row.timeoutState
        let expire := if 0 < next.timeout then tags.timestamp + next.timeout.toUInt64 else 0
        some (store d p { load d p with expire },
          { tags with state := some (e, row.timeoutState) })
    else some (d, tags)

/-- The key of the flow: the one the tags have, else the register of the event. -/
def stateKey (ev : Event) (tags : Tags K P) : Option K :=
  match tags.stateFlowkey with
  | some key => some key
  | none => tags.getFlowkey ev.regId

/-- `_receive_msg` at time `now`, and whether the message is sent on; else, as where the row has no
metric operations, it is destroyed.  `none` where a pointer is wild: the event or a row past its
table, or no flow key. -/
def receiveMsg (events : List Event) (d : D) (tags : Tags K P) (matcher : String → Bool)
    (now : UInt64) : Option (D × Tags K P × Bool) := do
  match ← findEvent events tags.tEventId matcher with
  | none => some (d, tags, false)
  | some e =>
    let ev ← events[e]?
    let key ← stateKey ev tags
    let tags := { tags with timestamp := now, stateFlowkey := some key }
    let (d, tags) ← moveState e ev d tags key
    let (_, i) ← tags.state
    let row ← ev.row? i
    some (d, tags, row.metricSet)

end EventFactory

end DStreamon
