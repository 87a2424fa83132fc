import Mathlib.Algebra.Group.Nat.Defs
import Mathlib.Data.List.Nodup
import Mathlib.Logic.Function.Basic

/-!
# `DBQueue`: two buffers between many producers and one consumer

Where threads come between, `push` and `pop` are taken apart into steps, and messages are numbers,
in the order their pushes begin; a caller alone makes whole calls.
-/

namespace DStreamon

open Function (update)

/-- `valid` and `payload`; a payload that was moved away is `none`. -/
structure QueueSlot (T : Type) where
  valid : Bool
  payload : Option T
deriving DecidableEq

/-- `queues (q, i)` is `m_queues[q].vec[i]`. -/
structure DBQueue (T : Type) where
  queues : ℕ × ℕ → QueueSlot T
  pointer : ℕ
  read : ℕ
  consumerQ : ℕ
  fullSlots : ℕ
  full : Bool

namespace DBQueue

variable {T : Type}

def new : DBQueue T where
  queues _ := ⟨false, none⟩
  pointer := 0
  read := 0
  consumerQ := 1
  fullSlots := 0
  full := false

def exchangeQueue (q : ℕ) : ℕ := if q = 0 then 1 else 0

/-- The bits of `MASK`, and the others. -/
def curQueue (pointer : ℕ) : ℕ := pointer / 2 ^ 30
def mySlot (pointer : ℕ) : ℕ := pointer % 2 ^ 30

variable (qlen : ℕ)

def swapQueues (d : DBQueue T) : DBQueue T where
  queues at' :=
    if at'.1 = d.consumerQ ∧ at'.2 < d.fullSlots then ⟨false, (d.queues at').payload⟩
    else d.queues at'
  pointer := d.consumerQ * 2 ^ 30
  read := 0
  consumerQ := exchangeQueue d.consumerQ
  fullSlots := min (mySlot d.pointer) qlen
  full := false

def reset (d : DBQueue T) : DBQueue T where
  queues at' :=
    if at'.1 < 2 ∧ at'.2 < qlen ∧ (d.queues at').valid then ⟨false, none⟩ else d.queues at'
  pointer := 0
  read := 0
  consumerQ := 1
  fullSlots := 0
  full := false

/-! ## Whole calls -/

/-- The loop of `consume`, with the payload it moves out where it returns true.  With no thread
between, all reads of a slot's `valid` are the same. -/
def consumeLoop : ℕ → DBQueue T → DBQueue T × Option (Option T)
  | 0, d => (d, none)
  | n + 1, d =>
    if d.read < d.fullSlots then
      let at' := (d.consumerQ, d.read)
      if (d.queues at').valid then
        ({ d with
          read := d.read + 1
          queues := update d.queues at' ⟨(d.queues at').valid, none⟩ }, some (d.queues at').payload)
      else consumeLoop n { d with read := d.read + 1 }
    else (d, none)

def consume (d : DBQueue T) : DBQueue T × Option (Option T) := consumeLoop (d.fullSlots - d.read) d

def pop (d : DBQueue T) : DBQueue T × Option (Option T) :=
  match consume d with
  | (d, some x) => (d, some x)
  | (d, none) => consume (d.swapQueues qlen)

/-- What `push` returns; `none` where its assertion fails. -/
def push (d : DBQueue T) (x : T) : Option (DBQueue T × Bool) :=
  if d.full then some (d, false)
  else
    let q := curQueue d.pointer
    let i := mySlot d.pointer
    let d := { d with pointer := (d.pointer + 1) % 2 ^ 32 }
    if q = 0 ∨ q = 1 then
      if qlen - 1 ≤ i ∧ i ≠ qlen - 1 then some (d, false)
      else
        some ({ d with
          full := d.full || i = qlen - 1
          queues := update d.queues (q, i) ⟨true, some x⟩ }, true)
    else none

end DBQueue

inductive QueueCall (T : Type) where
  | push (x : T)
  | pop

/-- A queue with the values its pushes accepted, those its pops returned, and how many were accepted
since the buffers were swapped. -/
structure QueueRun (T : Type) where
  queue : DBQueue T
  accepted : List T
  popped : List (Option T)
  sinceSwap : ℕ

namespace QueueRun

variable {T : Type} (qlen : ℕ)

def new : QueueRun T where
  queue := .new
  accepted := []
  popped := []
  sinceSwap := 0

/-- A `pop` that has consumed nothing swaps the buffers. -/
def call (s : QueueRun T) : QueueCall T → Option (QueueRun T)
  | .push x => (s.queue.push qlen x).map fun (d, answer) =>
      { s with
        queue := d
        accepted := if answer then s.accepted ++ [x] else s.accepted
        sinceSwap := if answer then s.sinceSwap + 1 else s.sinceSwap }
  | .pop =>
      some { s with
        queue := (s.queue.pop qlen).1
        popped := s.popped ++ (s.queue.pop qlen).2.toList
        sinceSwap := if s.queue.consume.2.isSome then s.sinceSwap else 0 }

/-- What a caller alone sees: the values come out as they went in, `pop` returns false when all
have come out, and `push` when the buffer has been filled since the swap. -/
structure Fifo (s : QueueRun T) : Prop where
  order : s.popped <+: s.accepted.map some
  empty : (s.queue.pop qlen).2 = none ↔ s.popped.length = s.accepted.length
  refused : ∀ x d, s.queue.push qlen x = some (d, false) → s.sinceSwap = qlen

end QueueRun

/-! ## The steps of the threads -/

/-- Where a producer is in `push`. -/
inductive Producer where
  | idle
  | checked (m : ℕ)
  /-- The last slot is claimed, `m_full` not yet set. -/
  | marking (m q i : ℕ)
  | claimed (m q i : ℕ)
  | written (m q i : ℕ)
deriving DecidableEq

/-- Where the consumer is in `pop`: in its first or second `consume`, with so many reads of a slot
that is not valid. -/
inductive Consumer where
  | idle
  | reading (again : Bool) (reads : ℕ)
  | taking
deriving DecidableEq

/-- With `accepted`, the messages whose push returned true, `popped`, those that `pop` returned, and
how many pops in a row returned false since a producer took a step or a pop returned true. -/
structure QueueSystem (P : Type) where
  queue : DBQueue ℕ
  producer : P → Producer
  consumer : Consumer
  next : ℕ
  accepted : List ℕ
  popped : List ℕ
  quiet : ℕ

namespace QueueSystem

variable {P : Type} [DecidableEq P]

inductive Op (P : Type) where
  | push (p : P)
  | claim (p : P)
  | mark (p : P)
  | write (p : P)
  | publish (p : P)
  | pop
  | readValid
  | skip
  | take
  | swap
  | finish

def new : QueueSystem P where
  queue := .new
  producer _ := .idle
  consumer := .idle
  next := 0
  accepted := []
  popped := []
  quiet := 0

def patience : ℕ := 100

variable (qlen : ℕ)

/-- The pointer is increased; a slot behind the last makes `push` return false. -/
def claim (s : QueueSystem P) (p : P) (m : ℕ) : Option (QueueSystem P) :=
  let q := DBQueue.curQueue s.queue.pointer
  let i := DBQueue.mySlot s.queue.pointer
  if q = 0 ∨ q = 1 then
    some { s with
      queue := { s.queue with pointer := (s.queue.pointer + 1) % 2 ^ 32 }
      producer := update s.producer p
        (if qlen - 1 ≤ i then if i = qlen - 1 then .marking m q i else .idle else .claimed m q i)
      quiet := 0 }
  else none

/-- A step of a thread that is where the operation says; `none` if it is not. -/
def step (s : QueueSystem P) : Op P → Option (QueueSystem P)
  | .push p =>
    match s.producer p with
    | .idle => some { s with
        producer := if s.queue.full then s.producer else update s.producer p (.checked s.next)
        next := s.next + 1
        quiet := 0 }
    | _ => none
  | .claim p =>
    match s.producer p with
    | .checked m => s.claim qlen p m
    | _ => none
  | .mark p =>
    match s.producer p with
    | .marking m q i => some { s with
        queue := { s.queue with full := true }
        producer := update s.producer p (.claimed m q i)
        quiet := 0 }
    | _ => none
  | .write p =>
    match s.producer p with
    | .claimed m q i => some { s with
        queue := { s.queue with
          queues := update s.queue.queues (q, i) ⟨(s.queue.queues (q, i)).valid, some m⟩ }
        producer := update s.producer p (.written m q i)
        quiet := 0 }
    | _ => none
  | .publish p =>
    match s.producer p with
    | .written m q i => some { s with
        queue := { s.queue with
          queues := update s.queue.queues (q, i) ⟨true, (s.queue.queues (q, i)).payload⟩ }
        producer := update s.producer p .idle
        accepted := s.accepted ++ [m]
        quiet := 0 }
    | _ => none
  | .pop =>
    match s.consumer with
    | .idle => some { s with consumer := .reading false 0 }
    | _ => none
  | .readValid =>
    match s.consumer with
    | .reading again reads =>
      if s.queue.read < s.queue.fullSlots ∧ reads < patience then
        some { s with
          consumer :=
            if (s.queue.queues (s.queue.consumerQ, s.queue.read)).valid then .taking
            else .reading again (reads + 1) }
      else none
    | _ => none
  | .skip =>
    match s.consumer with
    | .reading again reads =>
      if s.queue.read < s.queue.fullSlots ∧ patience ≤ reads then
        some { s with
          queue := { s.queue with read := s.queue.read + 1 }
          consumer := .reading again 0 }
      else none
    | _ => none
  | .take =>
    match s.consumer with
    | .taking =>
      let at' := (s.queue.consumerQ, s.queue.read)
      some { s with
        queue := { s.queue with
          read := s.queue.read + 1
          queues := update s.queue.queues at' ⟨(s.queue.queues at').valid, none⟩ }
        consumer := .idle
        popped := s.popped ++ (s.queue.queues at').payload.toList
        quiet := 0 }
    | _ => none
  | .swap =>
    match s.consumer with
    | .reading false _ =>
      if s.queue.read < s.queue.fullSlots then none
      else some { s with queue := s.queue.swapQueues qlen, consumer := .reading true 0 }
    | _ => none
  | .finish =>
    match s.consumer with
    | .reading true _ =>
      if s.queue.read < s.queue.fullSlots then none
      else some { s with consumer := .idle, quiet := s.quiet + 1 }
    | _ => none

/-- The consumer does not give up on a slot, and no claim carries into the queue's bits. -/
def Steady (s : QueueSystem P) : Op P → Prop
  | .skip => False
  | .claim _ => DBQueue.mySlot s.queue.pointer ≠ 2 ^ 30 - 1
  | _ => True

instance (s : QueueSystem P) (op : Op P) : Decidable (Steady s op) := by
  cases op <;> unfold Steady <;> infer_instance

/-- No message is popped twice, none is overwritten, and with all producers idle two pops that
return false leave none behind. -/
structure Delivered (s : QueueSystem P) : Prop where
  once : s.popped.Nodup
  kept : ∀ m ∈ s.accepted, m ∉ s.popped → ∃ at', s.queue.queues at' = ⟨true, some m⟩
  drained : (∀ p, s.producer p = .idle) → 2 ≤ s.quiet → ∀ m ∈ s.accepted, m ∈ s.popped

end QueueSystem

end DStreamon
