import DStreamon.Interleaving
import DStreamon.Xfsm

/-!
# Who owns a message

A timer owns the message it was created on.  What a run of the blocks should keep of that
(`Released`), and where each step does (`Tidy`).
-/

namespace DStreamon

open MutableQueue

variable {H K : Type} [DecidableEq H] [Inhabited H] [IReadBuffer K]

namespace Pipeline

/-- Some timer has the message for its context. -/
def Owns (m : TimeoutManager H ℕ (Option ℤ)) (i : ℕ) : Prop :=
  ∃ c ∈ m.queue.cells, c.value.context = i

/-- Timers belong to messages not destroyed, no message is destroyed twice, and every message kept
alive has a timer. -/
structure Released (s : Pipeline H K) : Prop where
  alive : ∀ i, Owns s.tmanager i → ∃ msg, s.messages[i]? = some msg ∧ msg.destroyed = 0
  once : ∀ msg ∈ s.messages, msg.destroyed ≤ 1
  kept : ∀ i msg, s.messages[i]? = some msg → msg.tags.kept = true → msg.destroyed = 0 →
    Owns s.tmanager i

/-- The actions `FilteringBlock` runs. -/
def actions (events : List Event) (tags : Tags K Slot) (holds : String → Bool) : List Action :=
  (do
    let (e, i) ← tags.state
    let ev ← events[e]?
    let row ← ev.row? i
    let fired ← FilteringBlock.fires row holds
    some (FilteringBlock.executed row fired)).getD []

/-- The key of an action has no timer of its class. -/
def lacks (m : TimeoutManager H ℕ (Option ℤ)) (tags : Tags K Slot) : Action → Bool
  | .timeoutSet key _ evid _ =>
    (tags.getFlowkey key).any fun key =>
      m.timeoutTables[(UInt16.ofNat evid).toNat]?.any fun d => (d.get key).isNone
  | .other _ => false

/-- The key of an action has a fingerprint that can mark a node. -/
def Marks (tags : Tags K Slot) : Action → Prop
  | .timeoutSet key _ _ _ => ∀ k ∈ tags.getFlowkey key, fhash k ≠ 0
  | .other _ => True

instance (tags : Tags K Slot) (a : Action) : Decidable (Marks tags a) := by
  cases a <;> unfold Marks <;> infer_instance

/-- The timeout event lists the state in which it finds the flow of the tags. -/
def lists (events : List Event) (d : DLeft StateData) (e : ℕ) (tags : Tags K Slot)
    (now : UInt64) : Bool :=
  (events[e]?.bind fun ev => EventFactory.stateKey ev tags).all fun key =>
    (rowOf events e (expireStep (rowOf events e) now ((d.get key).map d.load)).2).metricSet

/-- A fresh message is filtered only with a new timer and a value other than zero among its
actions, or with neither; a deleted timer is popped only if it is the last of a message that is not
on its way; an expired one runs an event that lists the state of the flow. -/
def Tidy (C : Choice H (TimeoutEvent ℕ (Option ℤ))) (events : List Event) (s : Pipeline H K) :
    Op K → Prop
  | .filter i holds _ => ∀ msg ∈ s.messages[i]?,
      (∀ a ∈ actions events msg.tags holds, Marks msg.tags a) ∧
      (msg.tags.kept = false → (actions events msg.tags holds).any (lacks s.tmanager msg.tags) =
        setted (actions events msg.tags holds))
  | .handleTimer time now => ∀ c ∈ s.tmanager.queue.top C, ∀ msg ∈ s.messages[c.value.context]?,
      (c.value.value = 0 → msg.inFlight = 0 ∧ ∀ c' ∈ s.tmanager.queue.cells,
        c'.value.context = c.value.context → c'.handle = c.handle) ∧
      (c.value.value ≠ 0 → c.value.expireTime < time →
        lists events s.statesMap c.value.type.toNat msg.tags now = true)
  | .packet _ _ _ | .remove _ _ => True

instance (C : Choice H (TimeoutEvent ℕ (Option ℤ))) (events : List Event) (s : Pipeline H K)
    (op : Op K) : Decidable (Tidy C events s op) :=
  match op with
  | .packet _ _ _ | .handleTimer _ _ | .filter _ _ _ | .remove _ _ => by
    unfold Tidy
    infer_instance

end Pipeline

end DStreamon
