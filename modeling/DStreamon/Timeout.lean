import DStreamon.DLeft
import DStreamon.Lib.MutableQueue

/-!
# `TimeoutManager`: one timer for each key and type

Queued events are ordered by expiry.  For each event a d-left table, one for each type, keeps the
event's handle in the node of its key, and the event points back at that node.  A removed timer
stays in the queue with value zero until it reaches the top.
-/

namespace DStreamon

open MutableQueue

/-- `M` are the context pointers, `P` those to flow keys; `node` is a node's table and slot. -/
structure TimeoutEvent (M P : Type) where
  expireTime : UInt64
  value : UInt32
  primaryFlowkey : P
  context : M
  node : ℕ × Slot
  type : UInt16

/-- What `timeout_event::comparator` orders by. -/
def TimeoutEvent.rank {M P : Type} (ev : TimeoutEvent M P) : ℕ := ev.expireTime.toNat

def TimeoutEvent.setExpireTime {M P : Type} (ev : TimeoutEvent M P) (time : UInt64) :
    TimeoutEvent M P :=
  { ev with expireTime := time }

/-- A `CLOCK_REALTIME` reading. -/
structure Timespec where
  tvSec : UInt64
  tvNsec : UInt64

def Timespec.expiry (ts : Timespec) (value : UInt32) : UInt64 :=
  (ts.tvSec + value.toUInt64) * 1000000 + ts.tvNsec / 1000

structure TimeoutManager (H M P : Type) where
  queue : Queue H (TimeoutEvent M P)
  timeoutTables : List (DLeft H)

namespace TimeoutManager

variable {H M P K : Type} [DecidableEq H] [Inhabited H] [IReadBuffer K]
variable (C : Choice H (TimeoutEvent M P))

/-- A node of a `DLeft<timeout_handle>` is a pointer and a fingerprint. -/
def new (numOfTables : ℕ) : TimeoutManager H M P :=
  ⟨.empty, List.replicate numOfTables (DLeft.new 16 8 20)⟩

/-- `none` where the code indexes past the tables, fails its assert, or follows a handle of no
event. -/
def set (m : TimeoutManager H M P) (key : K) (value : UInt32) (context : M) (type : UInt16)
    (primaryKey : P) (ts : Timespec) : Option (TimeoutManager H M P) := do
  let timeoutMap ← m.timeoutTables[type.toNat]?
  match timeoutMap.get key with
  | none =>
    match timeoutMap.reserve key with
    | (_, none) => none
    | (timeoutMap, some timeoutData) =>
      let ev : TimeoutEvent M P :=
        { expireTime := ts.expiry value, value, primaryFlowkey := primaryKey, context, type
          node := (type.toNat, timeoutData) }
      let (queue, h) := m.queue.push C TimeoutEvent.rank ev
      some ⟨queue, m.timeoutTables.set type.toNat (timeoutMap.store timeoutData h)⟩
  | some timeoutData =>
    let h := timeoutMap.load timeoutData
    let _ ← m.queue.deref h
    let queue := m.queue.modify h fun ev => { ev with value }
    if 0 < value then
      let queue := queue.modify h fun ev => ev.setExpireTime (ts.expiry value)
      some { m with queue := queue.update TimeoutEvent.rank h }
    else some { m with queue }

/-- `Remove`: the event is deleted when it is popped. -/
def remove (m : TimeoutManager H M P) (key : K) (type : UInt16) :
    Option (TimeoutManager H M P) := do
  let timeoutMap ← m.timeoutTables[type.toNat]?
  match timeoutMap.get key with
  | none => some m
  | some timeoutData =>
    let h := timeoutMap.load timeoutData
    let _ ← m.queue.deref h
    some { m with queue := m.queue.modify h fun ev => { ev with value := 0 } }

/-- `Free`: the node goes back to the table of that type, which throws if it is not its own. -/
def free (m : TimeoutManager H M P) (node : ℕ × Slot) (type : UInt16) :
    Option (TimeoutManager H M P) := do
  let timeoutMap ← m.timeoutTables[type.toNat]?
  if node.1 = type.toNat then
    let timeoutMap ← timeoutMap.removeNode node.2
    some { m with timeoutTables := m.timeoutTables.set type.toNat timeoutMap }
  else none

/-- `*(timeout_handle*)node` -/
def handleAt (m : TimeoutManager H M P) (node : ℕ × Slot) : Option H :=
  m.timeoutTables[node.1]?.map fun timeoutMap => timeoutMap.load node.2

/-- `Pop`, and the event it puts in `out` if it answers `true`. -/
def pop (m : TimeoutManager H M P) (time : UInt64) :
    Option (TimeoutManager H M P × Option (TimeoutEvent M P)) :=
  match m.queue.top C with
  | none => some (m, none)
  | some top => do
    let watched ← m.handleAt top.value.node
    let ev ← m.queue.deref watched
    if ev.value = 0 then
      let m ← m.free ev.node ev.type
      some ({ m with queue := m.queue.pop C }, some ev)
    else if ev.expireTime < time then
      let queue := m.queue.modify watched fun ev =>
        ev.setExpireTime (time + ev.value.toUInt64 * 1000000)
      some ({ m with queue := queue.update TimeoutEvent.rank watched }, some ev)
    else some (m, none)

/-- `Pop` until it answers `false`, in at most `n` calls, and the events reported. -/
def drain (time : UInt64) : ℕ → TimeoutManager H M P →
    Option (TimeoutManager H M P × List (TimeoutEvent M P))
  | 0, _ => none
  | n + 1, m => do
    match ← m.pop C time with
    | (m, none) => some (m, [])
    | (m, some ev) =>
      let (m, evs) ← drain time n m
      some (m, ev :: evs)

/-! ## Runs -/

inductive Op (K M P : Type) where
  | set (key : K) (value : UInt32) (context : M) (type : UInt16) (primaryKey : P) (ts : Timespec)
  | remove (key : K) (type : UInt16)
  | pop (time : UInt64)

def Op.key? : Op K M P → Option K
  | .set key .. | .remove key _ => some key
  | .pop _ => none

def step (m : TimeoutManager H M P) : Op K M P → Option (TimeoutManager H M P)
  | .set key value context type primaryKey ts => m.set C key value context type primaryKey ts
  | .remove key type => m.remove key type
  | .pop time => (m.pop C time).map Prod.fst

end TimeoutManager

end DStreamon
