import DStreamon.Bloom
import DStreamon.Lib.StepRun
import Mathlib.Data.Rat.Floor

/-!
# The threshold of a pair in exact numbers

The square of the threshold is a fraction, so a pair can be run without rounding.  What a swap
should find and leave (`Meaningful`), and when it does (`Enough`).
-/

namespace DStreamon

namespace BloomPair

/-- The square of the threshold; `none` is the infinity that a division by zero leaves. -/
def squared : Threshold (Option ℚ) where
  initial m := some (m ^ 2 / 2)
  rescale t m dd := if dd = 0 then none else t.map fun t => t * m / (2 * dd)
  above t numZeros := t.all fun t => (numZeros : ℚ) ^ 2 < t

section

variable {τ : Type} (T : Threshold τ)

/-- A call and the fuel it is given. -/
def call (w : DetInstances τ) (x : ℕ × Op) : Option (DetInstances τ) :=
  (exec T x.1 w x.2).toOption.map Prod.fst

/-- What a call does to both filters of the pair at a place. -/
def upd? (i : ℕ) : ℕ × Op → Option (Bloomfilter → Except Fault (Bloomfilter × Bool))
  | (fuel, .add j key) => if j = i then some (Bloomfilter.insert fuel · key) else none
  | (_, .setBits j bits) => if j = i then some (Bloomfilter.setBits · bits) else none
  | _ => none

/-- The pair at place `i` that a call is about to swap, with both filters marked. -/
def due (i : ℕ) (w : DetInstances τ) (x : ℕ × Op) : Option (BloomPair τ) := do
  let upd ← upd? i x
  let p ← w i
  let (learning, _) ← (upd p.learning).toOption
  let (detecting, _) ← (upd p.detecting).toOption
  if T.above p.threshold learning.numZeros then some { p with learning, detecting } else none

/-- The place a pair made by a call has its slave at. -/
def slave? : Op → Option ℕ
  | .create _ _ _ slavePlace => slavePlace
  | _ => none

end

/-- The threshold is above half the filter and not above the filter. -/
def Fair (p : BloomPair (Option ℚ)) : Prop :=
  ∃ t, p.threshold = some t ∧ (p.m / 2 : ℚ) ^ 2 < t ∧ t ≤ (p.m : ℚ) ^ 2

/-- A call that swaps the pair at `i` divides by no zero, and leaves a fair threshold, as every
call does. -/
structure Meaningful (i : ℕ) (w : DetInstances (Option ℚ)) (x : ℕ × Op) : Prop where
  swapped : ∀ q ∈ due squared i w x, q.detecting.numZeros ≠ 0 ∧ Fair (q.exchange squared)
  after : ∀ w' p, call squared w x = some w' → w' i = some p → Fair p

/-- The detecting filter of a pair about to be swapped has zeros for its threshold. -/
def Enough (i : ℕ) (w : DetInstances (Option ℚ)) (x : ℕ × Op) : Prop :=
  ∀ q ∈ due squared i w x, ∀ t ∈ q.threshold, t ≤ 2 * q.m * q.detecting.numZeros

instance (i : ℕ) (w : DetInstances (Option ℚ)) (x : ℕ × Op) : Decidable (Enough i w x) :=
  inferInstanceAs (Decidable (∀ _ ∈ _, _))

end BloomPair

end DStreamon
