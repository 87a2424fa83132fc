import DStreamon.Lib.StepRun
import Mathlib.Logic.Function.Basic
import Mathlib.Logic.Relation

/-!
# Messages from block to block

`OutGate::deliver` hands a message to its peers one after the other.  One of an active block queues
it; one of a passive block calls the block, with its mutex locked if the block is synchronized, and
the block may send in turn before it returns.  Threads do this at the same time.
-/

namespace DStreamon

open Function (update)

/-- The blocks with their gates, while blockmon runs. -/
structure Wiring (B I O : Type) where
  active : B → Bool
  synchronized : B → Bool
  outGates : B → List O
  peers : O → List I
  owner : I → B

/-- A call of a block: whether it holds the block's mutex, and the peers that the `deliver` it is in
has not come to. -/
structure Call (B I M : Type) where
  block : B
  locked : Bool
  pending : List (I × M)
deriving DecidableEq

/-- The calls of each thread, the last one first.  `sent` are the messages at the out gates, and
`received` those at the in gates. -/
structure Process (B I O M : Type) where
  threads : List (List (Call B I M))
  mutex : B → Bool
  sent : List (O × M)
  received : List (I × M)

namespace Process

variable {B I O M : Type} [DecidableEq B] [DecidableEq O]

def new (n : ℕ) : Process B I O M where
  threads := List.replicate n []
  mutex _ := false
  sent := []
  received := []

/-- `run` is called for a block by a thread of its pool, and `timer` by the timer thread. -/
inductive Op (B O M : Type) where
  | run (t : ℕ) (b : B)
  | timer (t : ℕ) (b : B)
  | send (t : ℕ) (o : O) (m : M)
  | deliver (t : ℕ)
  | leave (t : ℕ)
deriving DecidableEq

variable (W : Wiring B I O)

def setStack (s : Process B I O M) (t : ℕ) (calls : List (Call B I M)) : Process B I O M :=
  { s with threads := s.threads.set t calls }

/-- `receive_msg` and `handle_timer` of a passive block; `none` while the mutex is locked. -/
def enter (s : Process B I O M) (t : ℕ) (calls : List (Call B I M)) (b : B) :
    Option (Process B I O M) :=
  if W.synchronized b then
    if s.mutex b then none
    else some { s with
      threads := s.threads.set t (⟨b, true, []⟩ :: calls)
      mutex := update s.mutex b true }
  else some (s.setStack t (⟨b, false, []⟩ :: calls))

/-- A step of a thread; `none` where it is at another point, has to wait, or fails an assertion. -/
def step (s : Process B I O M) : Op B O M → Option (Process B I O M)
  | .run t b =>
    match s.threads[t]? with
    | some [] => if W.active b then some (s.setStack t [⟨b, false, []⟩]) else none
    | _ => none
  | .timer t b =>
    match s.threads[t]? with
    | some [] => if W.active b then none else s.enter W t [] b
    | _ => none
  | .send t o m =>
    match s.threads[t]? with
    | some (⟨b, locked, []⟩ :: calls) =>
      if o ∈ W.outGates b ∧ 0 < (W.peers o).length then
        some { s with
          threads := s.threads.set t (⟨b, locked, (W.peers o).map fun g => (g, m)⟩ :: calls)
          sent := s.sent ++ [(o, m)] }
      else none
    | _ => none
  | .deliver t =>
    match s.threads[t]? with
    | some (⟨b, locked, (g, m) :: pending⟩ :: calls) =>
      let s' := { s with received := s.received ++ [(g, m)] }
      if W.active (W.owner g) then some (s'.setStack t (⟨b, locked, pending⟩ :: calls))
      else s'.enter W t (⟨b, locked, pending⟩ :: calls) (W.owner g)
    | _ => none
  | .leave t =>
    match s.threads[t]? with
    | some (⟨b, locked, []⟩ :: calls) =>
      some { s with
        threads := s.threads.set t calls
        mutex := if locked then update s.mutex b false else s.mutex }
    | _ => none

/-! ## What is kept -/

/-- A step of a thread that is in a block. -/
def Op.inBlock : Op B O M → Bool
  | .run _ _ => false
  | .timer _ _ => false
  | _ => true

/-- Threads are in blocks, and none of them can go on. -/
def Deadlocked (s : Process B I O M) : Prop :=
  (∃ calls ∈ s.threads, calls ≠ []) ∧ ∀ op : Op B O M, op.inBlock → s.step W op = none

/-- The first block may call the second, which is passive. -/
def Calls (b c : B) : Prop :=
  W.active c = false ∧ ∃ o ∈ W.outGates b, ∃ g ∈ W.peers o, W.owner g = c

/-- No synchronized block comes to call itself through passive blocks. -/
def Acyclic : Prop :=
  ∀ b, W.active b = false → W.synchronized b = true → ¬Relation.TransGen (Calls W) b b

/-- All messages at the out gates, for each of the peers. -/
def copies (s : Process B I O M) : List (I × M) :=
  s.sent.flatMap fun x => (W.peers x.1).map fun g => (g, x.2)

/-- At most one call of each synchronized block, and `InGate::receive` of every peer is called for
each message once: with no thread in a block, for all of them.  What an active block's queue then
drops is received here. -/
structure Exact (s : Process B I O M) : Prop where
  exclusive : ∀ b, W.active b = false → W.synchronized b = true →
    (s.threads.flatten.countP fun c => c.block = b) ≤ 1
  once : s.received.Subperm (s.copies W)
  all : (∀ calls ∈ s.threads, calls = []) → s.received.Perm (s.copies W)

end Process

end DStreamon
