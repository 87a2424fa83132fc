import DStreamon.Lib.Heap
import Mathlib.Data.Int.Order.Basic

/-!
# `TimerThread`: the timers of all blocks in one heap

Blocks schedule timers into a queue; the thread moves them to a heap once a millisecond and fires
those that have expired.  Between its steps other threads may schedule, or stop it.  Times are ticks
of the system clock, a thousand to a microsecond.
-/

namespace DStreamon

inductive TimerKind where
  | oneShot
  | periodic (period : ℤ)
deriving DecidableEq

structure Timer (B : Type) where
  owner : B
  time : ℤ
  name : String
  id : ℕ
  kind : TimerKind
deriving DecidableEq

namespace Timer

variable {B : Type}

/-- `next_time`, called at `now`. -/
def nextTime (now : ℤ) (t : Timer B) : Timer B :=
  match t.kind with
  | .oneShot => t
  | .periodic period => { t with time := now + 1000 * period }

end Timer

structure TimerThread (B : Type) where
  stop : Bool
  running : Bool
  queue : List (Timer B)
  heap : List (Timer B)

namespace TimerThread

variable {B : Type}

def new : TimerThread B where
  stop := false
  running := false
  queue := []
  heap := []

def insertInHeap (d : TimerThread B) (t : Timer B) : TimerThread B :=
  { d with heap := BinHeap.pushHeap Timer.time d.heap t }

/-- The timer taken from the back after `pop_heap`; `none` for an empty heap. -/
def removeFromHeap (d : TimerThread B) : Option (Timer B × TimerThread B) :=
  let heap := BinHeap.popHeap Timer.time d.heap
  heap.getLast?.map fun t => (t, { d with heap := heap.dropLast })

def scheduleTimer (d : TimerThread B) (t : Timer B) : TimerThread B :=
  { d with queue := d.queue ++ [t] }

/-- The queue is emptied from its back. -/
def drain (d : TimerThread B) : TimerThread B :=
  d.queue.foldr (fun t d => d.insertInHeap t) { d with queue := [] }

def start (d : TimerThread B) : Except String (TimerThread B) :=
  if d.running then .error "trying to start timer thread while it is already running"
  else .ok { d with running := true }

/-- The test of the inner loop. -/
def Due (d : TimerThread B) (tnow : ℤ) : Prop := ∃ t ∈ d.heap.head?, t.time ≤ tnow

instance (d : TimerThread B) (tnow : ℤ) : Decidable (d.Due tnow) :=
  match h : d.heap.head? with
  | none => .isFalse (by simp [Due, h])
  | some t => decidable_of_iff (t.time ≤ tnow) (by simp [Due, h])

/-- Once its handler has returned, a timer whose time has changed goes back. -/
def reschedule (d : TimerThread B) (now : ℤ) (t : Timer B) : TimerThread B :=
  let t' := t.nextTime now
  if t'.time ≠ t.time then d.insertInHeap t' else d

def removeReferences [DecidableEq B] (d : TimerThread B) (b : B) : Except String (TimerThread B) :=
  if d.running then
    .error "timer thread::cannot remove references while the thread is running"
  else .ok { d with
    heap := d.heap.filter fun t => t.owner ≠ b
    queue := d.queue.filter fun t => t.owner ≠ b }

end TimerThread

/-! ## The steps of the thread -/

/-- An inner loop: its time, the heap it began with, and the timers fired in it. -/
structure TimerPass (B : Type) where
  tnow : ℤ
  atWake : List (Timer B)
  fired : List (Timer B)

/-- `pass` is the inner loop the thread is in. -/
structure TimerSystem (B : Type) where
  thread : TimerThread B
  pass : Option (TimerPass B)

namespace TimerSystem

variable {B : Type} [DecidableEq B]

inductive Op (B : Type) where
  | schedule (t : Timer B)
  | start
  /-- The outer loop goes on, the clock at `tnow`. -/
  | wake (tnow : ℤ)
  /-- The front timer is handled, its handler schedules timers, and the clock is at `now`. -/
  | fire (now : ℤ) (scheduled : List (Timer B))
  | sleep
  | stop
  | finish
  | removeReferences (b : B)
deriving DecidableEq

def new : TimerSystem B where
  thread := .new
  pass := none

/-- A step, `none` where the thread is at another point.  An exception leaves all as it is. -/
def step (s : TimerSystem B) : Op B → Option (TimerSystem B)
  | .schedule t => some { s with thread := s.thread.scheduleTimer t }
  | .start =>
    match s.thread.start with
    | .ok d => some { s with thread := d }
    | .error _ => some s
  | .wake tnow =>
    if s.thread.running ∧ ¬s.thread.stop ∧ s.pass.isNone then
      let d := s.thread.drain
      some ⟨d, some ⟨tnow, d.heap, []⟩⟩
    else none
  | .fire now scheduled =>
    s.pass.bind fun p =>
      if s.thread.Due p.tnow then
        s.thread.removeFromHeap.map fun (t, d) =>
          ⟨(scheduled.foldl (fun d t => d.scheduleTimer t) d).reschedule now t,
            some { p with fired := p.fired ++ [t] }⟩
      else none
  | .sleep =>
    s.pass.bind fun p => if s.thread.Due p.tnow then none else some { s with pass := none }
  | .stop => some { s with thread := { s.thread with stop := true } }
  | .finish =>
    if s.thread.running ∧ s.thread.stop ∧ s.pass.isNone then
      some { s with thread := { s.thread with running := false, stop := false } }
    else none
  | .removeReferences b =>
    match s.thread.removeReferences b with
    | .ok d => some { s with thread := d }
    | .error _ => some s

/-- How many timers before a position are not of `b`. -/
def rankWithout (b : B) (heap : List (Timer B)) (i : ℕ) : ℕ :=
  BinHeap.rank (fun t => decide (t.owner ≠ b)) heap i

/-- Where it becomes the parent, once `b`'s timers are erased, a timer is not after the other. -/
def KeepsOrder (b : B) (heap : List (Timer B)) (i j : ℕ) : Prop :=
  0 < rankWithout b heap j → rankWithout b heap i = BinHeap.parent (rankWithout b heap j) →
    ∀ t ∈ heap[i]?, ∀ u ∈ heap[j]?, t.owner ≠ b → u.owner ≠ b → t.time ≤ u.time

instance (b : B) (heap : List (Timer B)) (i j : ℕ) : Decidable (KeepsOrder b heap i j) := by
  unfold KeepsOrder
  infer_instance

/-- No timer of another block is before the one that the erasure of `b`'s timers puts above it. -/
def ErasesInOrder (b : B) (heap : List (Timer B)) : Prop :=
  ∀ i < heap.length, ∀ j < heap.length, KeepsOrder b heap i j

instance (b : B) (heap : List (Timer B)) : Decidable (ErasesInOrder b heap) := by
  unfold ErasesInOrder
  infer_instance

def Orderly (s : TimerSystem B) : Op B → Prop
  | .removeReferences b => s.thread.running ∨ ErasesInOrder b s.thread.heap
  | _ => True

instance (s : TimerSystem B) (op : Op B) : Decidable (Orderly s op) := by
  cases op <;> unfold Orderly <;> infer_instance

/-- In an inner loop the timers are a heap with the earliest in front, and when the loop has ended
none in the heap has expired, and all that had, of those it began with, are fired. -/
structure Sound (s : TimerSystem B) (p : TimerPass B) : Prop where
  isHeap : BinHeap.IsHeap Timer.time s.thread.heap
  earliest : ∀ t ∈ s.thread.heap.head?, ∀ u ∈ s.thread.heap, t.time ≤ u.time
  none_due : ¬s.thread.Due p.tnow → ∀ t ∈ s.thread.heap, p.tnow < t.time
  all_fired : ¬s.thread.Due p.tnow → ∀ t, t.time ≤ p.tnow →
    p.atWake.count t ≤ p.fired.count t

end TimerSystem

end DStreamon
