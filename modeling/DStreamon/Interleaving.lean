import DStreamon.Pipeline

/-!
# Flows moved between the blocks

What a step tells of the flow it moves, and the history a run keeps of it: the messages whose flow
another step has moved since `EventFactory` found it.
-/

namespace DStreamon

open MutableQueue

variable {H K : Type} [DecidableEq H] [Inhabited H] [IReadBuffer K]

/-! ## Moves -/

/-- The flow, by its fingerprint, that `EventFactory` finds expired. -/
def expiring (events : List Event) (d : DLeft StateData) (tags : Tags K Slot)
    (matcher : String → Bool) (now : UInt64) : Option UInt32 := do
  let e ← (EventFactory.findEvent events tags.tEventId matcher).join
  let ev ← events[e]?
  let key ← EventFactory.stateKey ev tags
  let p ← d.get key
  if EventFactory.Expired (d.load p) now then some (fhash key) else none

/-- The condition `FilteringBlock` fires. -/
def fired (events : List Event) (tags : Tags K Slot) (holds : String → Bool) :
    Option ConditionTuple := do
  let (e, i) ← tags.state
  let ev ← events[e]?
  let row ← ev.row? i
  (FilteringBlock.fires row holds).join

/-- The entry is kept where it is, with the state it has. -/
def InPlace (d : DLeft StateData) (key : K) (nextState : ℤ) : Prop :=
  (d.get key).any fun p =>
    (d.add key ⟨nextState, 0⟩).2 = some p ∧ (d.load p).id = nextState

instance (d : DLeft StateData) (key : K) (nextState : ℤ) : Decidable (InPlace d key nextState) :=
  inferInstanceAs (Decidable (_ = true))

/-- The flow a condition takes to another state, or to another node. -/
def transiting (events : List Event) (d : DLeft StateData) (tags : Tags K Slot)
    (holds : String → Bool) : Option UInt32 := do
  let t ← fired events tags holds
  let key ← tags.stateFlowkey
  if t.nextState = -1 ∨ InPlace d key t.nextState then none else some (fhash key)

namespace Pipeline

variable (C : Choice H (TimeoutEvent ℕ (Option ℤ))) (events : List Event)

/-- The message `_handle_timer` passes to `_receive_msg`, and its tags. -/
def reentry (s : Pipeline H K) (time : UInt64) : Option (ℕ × Tags K Slot) := do
  let tmsg ← (← s.tmanager.pop C time).2
  let msg ← s.messages[tmsg.context]?
  if msg.tags.kept = true ∧ tmsg.value ≠ 0 then
    some (tmsg.context, { msg.tags with tEventId := tmsg.type.toNat })
  else none

/-- The flow a step moves. -/
def moves (s : Pipeline H K) : Op K → Option UInt32
  | .packet map matcher now => expiring events s.statesMap (.new map : Tags K Slot) matcher now
  | .handleTimer time now => do
    let (_, tags) ← s.reentry C time
    expiring events s.statesMap tags (fun _ => false) now
  | .filter i holds _ => do
    let msg ← s.messages[i]?
    transiting events s.statesMap msg.tags holds
  | .remove _ _ => none

/-- The message whose flow `EventFactory` looks up. -/
def finds (s : Pipeline H K) : Op K → Option ℕ
  | .packet _ _ _ => some s.messages.length
  | .handleTimer time _ => (s.reentry C time).map Prod.fst
  | .filter _ _ _ | .remove _ _ => none

def flow? (s : Pipeline H K) (i : ℕ) : Option UInt32 :=
  (s.messages[i]?.bind fun msg => msg.tags.stateFlowkey).map fhash

end Pipeline

/-! ## History -/

/-- `moved i` says that the flow of message `i` has been moved since it was looked up. -/
structure Traced (H K : Type) where
  pipeline : Pipeline H K
  moved : ℕ → Bool

namespace Traced

variable (C : Choice H (TimeoutEvent ℕ (Option ℤ))) (events : List Event)

def new (timeoutClasses : ℕ) : Traced H K := ⟨.new timeoutClasses, fun _ => false⟩

/-- The messages whose flow is moved after a step. -/
def mark (t : Traced H K) (op : Pipeline.Op K) (i : ℕ) : Bool :=
  if t.pipeline.finds C op = some i then false
  else t.moved i ||
    ((t.pipeline.moves C events op).isSome && t.pipeline.flow? i = t.pipeline.moves C events op)

def step (t : Traced H K) (op : Pipeline.Op K) : Option (Traced H K) :=
  (t.pipeline.step C events op).map fun s => ⟨s, t.mark C events op⟩

/-- No condition fires for a message that was given an entry its flow has left. -/
def Steady (t : Traced H K) : Pipeline.Op K → Prop
  | .filter i holds _ => ∀ msg ∈ t.pipeline.messages[i]?, (fired events msg.tags holds).isSome →
      msg.tags.stateInfo.isSome →
        t.moved i = false ∧ ∀ key ∈ msg.tags.stateFlowkey, fhash key ≠ 0
  | _ => True

instance (t : Traced H K) (op : Pipeline.Op K) : Decidable (Steady events t op) := by
  cases op <;> unfold Steady <;> infer_instance

/-- A condition that fires leads to the row of its next state in the table of the message's own
event, and the expire time goes to the entry of the message's own flow. -/
def RowKept (t : Traced H K) : Pipeline.Op K → Prop
  | .filter i holds _ => ∀ msg, t.pipeline.messages[i]? = some msg →
      ∀ e r key ev cond, msg.tags.state = some (e, r) → msg.tags.stateFlowkey = some key →
        events[e]? = some ev → fired events msg.tags holds = some cond →
        (cond.nextState ≠ -1 →
          r - FilteringBlock.stateID t.pipeline.statesMap msg.tags.stateInfo + cond.nextState =
            cond.nextState ∧ 0 ≤ cond.nextState ∧ cond.nextState < ev.stateTable.length) ∧
        ∀ d p next row, FilteringBlock.takeTransition t.pipeline.statesMap msg.tags r cond =
          some (d, some p, next) → ev.row? next = some row → 0 < row.timeout →
          d.get key = some p
  | _ => True

end Traced

end DStreamon
