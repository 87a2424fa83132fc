import DStreamon.Lib.StepRun
import Mathlib.Data.Int.Notation

/-!
# `ThreadPool`: the threads that run the active blocks

All threads of a pool take blocks from one queue, run them and put them back.  The main thread adds
and removes blocks, starts the threads and joins them; its steps and theirs come in any order.
-/

namespace DStreamon

namespace Scheduler

/-- Where a thread is in `operator()`.  `absent` is the null `m_thread`, and `ended` a thread that
is not joined. -/
inductive Progress (B : Type) where
  | absent
  | testing
  | requesting
  | running (b : B)
  | sleeping
  | leaving
  | ended
deriving DecidableEq

structure ThreadHandler (B : Type) where
  stop : Bool
  thread : Progress B
deriving DecidableEq

/-- `m_queue` of the `DumbScheduler` is the `queue`. -/
structure ThreadPool (B : Type) where
  queue : List B
  affinity : List ℕ
  running : Bool
  threads : List (ThreadHandler B)

def cpuSetSize : ℕ := 1024

namespace ThreadPool

variable {B : Type}

/-- A number of threads below zero makes no threads. -/
def new (threadnum : ℤ) (affinity : List ℕ) : ThreadPool B where
  queue := []
  affinity := affinity
  running := false
  threads := List.replicate threadnum.toNat ⟨false, .absent⟩

/-! ## `DumbScheduler` -/

def addBlock (p : ThreadPool B) (b : B) : ThreadPool B := { p with queue := p.queue ++ [b] }

def removeBlock [DecidableEq B] (p : ThreadPool B) (b : B) : ThreadPool B :=
  { p with queue := p.queue.filter fun c => c ≠ b }

def nextTask (p : ThreadPool B) : Option B × ThreadPool B :=
  (p.queue.head?, { p with queue := p.queue.tail })

def taskDone (p : ThreadPool B) (b : B) : ThreadPool B := { p with queue := p.queue ++ [b] }

/-! ## Calls -/

def addTask (p : ThreadPool B) (b : B) : Except String (ThreadPool B) :=
  if p.running then .error "cannot add task when thread pool is already running"
  else .ok (p.addBlock b)

def removeTask [DecidableEq B] (p : ThreadPool B) (b : B) : Except String (ThreadPool B) :=
  if p.running then .error "cannot remove task when thread pool is already running"
  else .ok (p.removeBlock b)

def setThread (p : ThreadPool B) (i : ℕ) (th : ThreadHandler B) : ThreadPool B :=
  { p with threads := p.threads.set i th }

/-- The next step of thread `i`, with the block it takes; `none` for a thread that is not there. -/
def turn (p : ThreadPool B) (i : ℕ) : Option (Option B × ThreadPool B) :=
  p.threads[i]?.bind fun th =>
    match th.thread with
    | .testing =>
      some (none, p.setThread i { th with thread := if th.stop then .leaving else .requesting })
    | .requesting =>
      match p.nextTask with
      | (some b, p') => some (some b, p'.setThread i { th with thread := .running b })
      | (none, p') => some (none, p'.setThread i { th with thread := .sleeping })
    | .running b => some (none, (p.taskDone b).setThread i { th with thread := .testing })
    | .sleeping => some (none, p.setThread i { th with thread := .testing })
    | .leaving => some (none, p.setThread i ⟨false, .ended⟩)
    | .absent => none
    | .ended => none

/-- The block a thread has taken and not put back. -/
def holding (th : ThreadHandler B) : List B :=
  match th.thread with
  | .running b => [b]
  | _ => []

def held (p : ThreadPool B) : List B := p.threads.flatMap holding

/-- Thread `i` runs the block. -/
def Runs (p : ThreadPool B) (i : ℕ) (b : B) : Prop :=
  ∃ th ∈ p.threads[i]?, th.thread = .running b

end ThreadPool

/-- Where the main thread is: in the loop of `run` or `stop` at the thread of an index, or waiting
for that thread to end. -/
inductive Caller where
  | outside
  | starting (i : ℕ)
  | stopping (i : ℕ)
  | joining (i : ℕ)
deriving DecidableEq

/-- With the blocks added and not removed since, and those taken by threads, in order. -/
structure PoolSystem (B : Type) where
  pool : ThreadPool B
  caller : Caller
  assigned : List B
  started : List B

namespace PoolSystem

variable {B : Type} [DecidableEq B]

def new (threadnum : ℤ) (affinity : List ℕ) : PoolSystem B where
  pool := .new threadnum affinity
  caller := .outside
  assigned := []
  started := []

inductive Op (B : Type) where
  | addTask (b : B)
  | removeTask (b : B)
  | run
  | stop
  /-- The main thread goes on in `run` or `stop`. -/
  | main
  | turn (i : ℕ)
deriving DecidableEq

/-- An exception in a call leaves all as it is.  One for the affinity ends the loop of `run`. -/
def main (s : PoolSystem B) : Option (PoolSystem B) :=
  match s.caller with
  | .outside => none
  | .starting i =>
    match s.pool.threads[i]? with
    | some th =>
      if ∃ a ∈ s.pool.affinity, cpuSetSize < a then some { s with caller := .outside }
      else some { s with
        pool := s.pool.setThread i { th with thread := .testing }
        caller := .starting (i + 1) }
    | none => some { s with pool := { s.pool with running := true }, caller := .outside }
  | .stopping i =>
    match s.pool.threads[i]? with
    | some th => some { s with
        pool := s.pool.setThread i { th with stop := true }
        caller := .joining i }
    | none => some { s with pool := { s.pool with running := false }, caller := .outside }
  | .joining i =>
    match s.pool.threads[i]? with
    | some ⟨stop, .ended⟩ => some { s with
        pool := s.pool.setThread i ⟨stop, .absent⟩
        caller := .stopping (i + 1) }
    | _ => none

/-- A step; `none` where its thread is at another point. -/
def step (s : PoolSystem B) : Op B → Option (PoolSystem B)
  | .addTask b =>
    if s.caller = .outside then
      match s.pool.addTask b with
      | .ok p => some { s with pool := p, assigned := s.assigned ++ [b] }
      | .error _ => some s
    else none
  | .removeTask b =>
    if s.caller = .outside then
      match s.pool.removeTask b with
      | .ok p => some { s with pool := p, assigned := s.assigned.filter fun c => c ≠ b }
      | .error _ => some s
    else none
  | .run =>
    if s.caller = .outside then
      some (if s.pool.running then s else { s with caller := .starting 0 })
    else none
  | .stop =>
    if s.caller = .outside then
      some (if s.pool.running then { s with caller := .stopping 0 } else s)
    else none
  | .main => s.main
  | .turn i =>
    (s.pool.turn i).map fun (taken, p) =>
      { s with pool := p, started := s.started ++ taken.toList }

/-! ## What is kept -/

/-- The pool does not run, and the main thread is in no call. -/
def Stopped (s : PoolSystem B) : Prop :=
  s.caller = .outside ∧ s.pool.running = false

/-- Every block assigned is in the queue or with one thread, so none is run by two; between calls a
pool that is not running has all of them in the queue and no threads; and a thread sleeps only where
there are fewer blocks than threads. -/
structure Custody (s : PoolSystem B) : Prop where
  all : (s.pool.queue ++ s.pool.held).Perm s.assigned
  apart : s.assigned.Nodup → ∀ i j b, s.pool.Runs i b → s.pool.Runs j b → i = j
  back : s.Stopped → s.pool.queue.Perm s.assigned ∧ ∀ th ∈ s.pool.threads, th = ⟨false, .absent⟩
  busy : (∃ th ∈ s.pool.threads, th.thread = .sleeping) →
    s.assigned.length < s.pool.threads.length

/-- The main thread is in `stop`. -/
def InStop (s : PoolSystem B) : Prop :=
  match s.caller with
  | .stopping _ | .joining _ => True
  | _ => False

instance (s : PoolSystem B) : Decidable s.InStop := by
  unfold InStop
  split <;> infer_instance

/-- The step that `stop` waits for. -/
def awaited (s : PoolSystem B) : Op B :=
  match s.caller with
  | .joining i =>
    match s.pool.threads[i]? with
    | some ⟨_, .ended⟩ => .main
    | _ => .turn i
  | _ => .main

/-- Ahead of a block that waits, these are started, each at most as often as it is there, before it
is. -/
def InTurn (ahead : List B) (b : B) (started : List B) : Prop :=
  started.Sublist ahead ∨ ∃ before after, started = before ++ b :: after ∧ before.Sublist ahead

end PoolSystem

end Scheduler

end DStreamon
