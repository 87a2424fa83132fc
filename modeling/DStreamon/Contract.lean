import DStreamon.ICounter
import DStreamon.Lib.StepRun

/-!
# The contract of a counter

A run of calls on a counter, with the keys that must read 0 since the last `add`: the keys reset
since, or all of them after a `clear`.
-/

namespace DStreamon

open Function (update)
open IReadBuffer Counter

inductive CounterOp (F K : Type) where
  | add (key : K) (value : F) (args : UInt64)
  | get (key : K) (args : UInt64)
  | reset (key : K)
  | clear

/-- A counter, and which keys must read 0. -/
structure Watched (F K : Type) where
  counter : Counter F
  zero : K → Bool

variable {F K : Type} [Field F] [LinearOrder F] [IReadBuffer K]

/-- A cell of the key is 0. -/
def TewmaCounter.clean (s : TewmaCounter F) (key : K) : Bool :=
  (s.cells key).all fun (h, hs) => (h :: hs).any fun x => s.c x = 0

/-- The node of the key, if it has one, is 0. -/
def TewmaFastCounter.clean (s : TewmaFastCounter F) (key : K) : Bool :=
  (s.data.get key).all fun p => (s.data.load p).value = 0

/-- The key has cells, none of which is of a later time. -/
def TewmaCounter.ready (s : TewmaCounter F) (key : K) (timestamp : ℤ) : Bool :=
  (s.cells key).any fun (h, hs) => (h :: hs).all fun x => s.t x ≤ timestamp

/-- The key's node is not of a later time, or there is room for one. -/
def TewmaFastCounter.ready (s : TewmaFastCounter F) (key : K) (timestamp : ℤ) : Bool :=
  match s.data.get key with
  | some p => (s.data.load p).timestamp ≤ timestamp
  | none => (s.data.reserve key).2.isSome ∧ 0 ≤ timestamp

def DLeftCounter.clean (s : DLeftCounter) (key : K) : Bool :=
  (s.table.get key).all fun p => s.table.load p = 0

variable [FloorRing F] [DecidableEq K]

namespace CounterOp

def key? : CounterOp F K → Option K
  | add key _ _ | get key _ | reset key => some key
  | clear => none

def args? : CounterOp F K → Option UInt64
  | add _ _ args | get _ args => some args
  | reset _ | clear => none

def step (w : Watched F K) : CounterOp F K → Option (Watched F K)
  | add key value args =>
    (ICounter.add w.counter key value args).map fun r => ⟨r.1, fun _ => false⟩
  | get key args => (ICounter.get (F := F) w.counter key args).map fun r => ⟨r.1, w.zero⟩
  | reset key => (ICounter.reset F w.counter key).map fun r => ⟨r.1, update w.zero key true⟩
  | clear => (ICounter.clear F K w.counter).map fun s => ⟨s, fun _ => true⟩

/-- `clear` returns, a key that must read 0 does, and a `reset` makes no other key in use read
more. -/
def Kept (keys : List K) (w : Watched F K) : CounterOp F K → Prop
  | add _ _ _ => True
  | get key args => w.zero key → ∃ r, ICounter.get (F := F) w.counter key args = some r ∧ r.2 = 0
  | reset key => ∃ s', ICounter.reset F w.counter key = some s' ∧ ∀ k ∈ keys, k ≠ key →
      ∀ args r, ICounter.get (F := F) w.counter k args = some r →
        ∃ r', ICounter.get (F := F) s'.1 k args = some r' ∧ r'.2 ≤ r.2
  | clear => (ICounter.clear F K w.counter).isSome

/-- Where the counters do.  A key that must read 0 has to be found or to have room; the classes that
do not override `reset` need nothing to be left of the key; a d-left node is found by its
fingerprint alone. -/
def Sound (keys : List K) (w : Watched F K) : CounterOp F K → Prop
  | get key args => w.zero key →
    match w.counter with
    | tewma s => s.ready key (timeT args)
    | tewmaFast s => s.ready key (timeT args)
    | _ => True
  | reset key =>
    match w.counter with
    | tewma s => s.clean key
    | tewmaFast s => fhash key ≠ 0 ∧ s.clean key
    | dleft s => (∀ k ∈ keys, fhash k ≠ 0) ∧
        ∀ i < s.table.tableCount, ∀ j < 2 ^ s.table.shash,
          s.table.hashKey (i, j) = fhash key → s.table.get key = some (i, j)
    | simple s => s.count = 0
  | clear =>
    match w.counter with
    | tewmaFast _ => False
    | dleft s => s.table.shash < 29 ∨ ∀ k ∈ keys, s.clean k
    | _ => True
  | _ => True

instance (keys : List K) (w : Watched F K) : ∀ o, Decidable (Sound keys w o)
  | add _ _ _ => inferInstanceAs (Decidable True)
  | get key args =>
    match w with
    | ⟨tewma s, zero⟩ => inferInstanceAs (Decidable (zero key → s.ready key (timeT args)))
    | ⟨tewmaFast s, zero⟩ => inferInstanceAs (Decidable (zero key → s.ready key (timeT args)))
    | ⟨dleft _, zero⟩ | ⟨simple _, zero⟩ => inferInstanceAs (Decidable (zero key → True))
  | reset key =>
    match w with
    | ⟨tewma s, _⟩ => inferInstanceAs (Decidable (s.clean key))
    | ⟨tewmaFast s, _⟩ => inferInstanceAs (Decidable (fhash key ≠ 0 ∧ s.clean key))
    | ⟨dleft s, _⟩ => inferInstanceAs (Decidable ((∀ k ∈ keys, fhash k ≠ 0) ∧
        ∀ i < s.table.tableCount, ∀ j < 2 ^ s.table.shash,
          s.table.hashKey (i, j) = fhash key → s.table.get key = some (i, j)))
    | ⟨simple s, _⟩ => inferInstanceAs (Decidable (s.count = 0))
  | clear =>
    match w with
    | ⟨tewma _, _⟩ | ⟨simple _, _⟩ => inferInstanceAs (Decidable True)
    | ⟨tewmaFast _, _⟩ => inferInstanceAs (Decidable False)
    | ⟨dleft s, _⟩ =>
      inferInstanceAs (Decidable (s.table.shash < 29 ∨ ∀ k ∈ keys, s.clean k))

end CounterOp

end DStreamon
