import Mathlib.Logic.Function.Basic
import Mathlib.Order.Basic

/-!
# Sweeping a table

A pass over some places of a table that changes the value at each.  The places may coincide, and
then a value is changed again.  Values are compared by a measure of them.
-/

namespace Sweep

open Function (update)

variable {ι α β : Type*} [DecidableEq ι] {g : α → α} {c : ι → α} {p : ι} {ps : List ι}

def sweep (g : α → α) (c : ι → α) (ps : List ι) : ι → α :=
  ps.foldl (fun c p => update c p (g (c p))) c

@[simp] theorem sweep_cons : sweep g c (p :: ps) = sweep g (update c p (g (c p))) ps := rfl

theorem sweep_id : ∀ (ps : List ι) (c : ι → α), sweep id c ps = c
  | [], _ => rfl
  | p :: ps, c => by rw [sweep_cons, id, Function.update_eq_self, sweep_id]

/-- Two passes are the same if they do the same to the values that are met. -/
theorem sweep_congr {g' : α → α} {P : α → Prop} (hg : ∀ v, P v → g v = g' v)
    (hP : ∀ v, P v → P (g v)) :
    ∀ (ps : List ι) (c : ι → α), (∀ p ∈ ps, P (c p)) → sweep g c ps = sweep g' c ps
  | [], _, _ => rfl
  | p :: ps, c, h => by
    have hp : P (c p) := h p List.mem_cons_self
    rw [sweep_cons, sweep_cons, ← hg _ hp]
    refine sweep_congr hg hP ps _ fun q hq => ?_
    by_cases hqp : q = p
    · rw [hqp, Function.update_self]
      exact hP _ hp
    · rw [Function.update_of_ne hqp]
      exact h q (List.mem_cons_of_mem _ hq)

variable [Preorder β] {m : α → β}

theorem le_update (hg : ∀ v, m v ≤ m (g v)) (c : ι → α) (q p : ι) :
    m (c p) ≤ m (update c q (g (c q)) p) := by
  by_cases hp : p = q
  · rw [hp, Function.update_self]
    exact hg _
  · rw [Function.update_of_ne hp]

theorem le_sweep (hg : ∀ v, m v ≤ m (g v)) (p : ι) :
    ∀ (ps : List ι) (c : ι → α), m (c p) ≤ m (sweep g c ps p)
  | [], _ => le_rfl
  | q :: ps, c => (le_update hg c q p).trans (le_sweep hg p ps _)

/-- A place in the pass is changed once at least. -/
theorem apply_le_sweep (hg : ∀ v, m v ≤ m (g v)) (hmono : ∀ v w, m v ≤ m w → m (g v) ≤ m (g w)) :
    ∀ (ps : List ι) (c : ι → α), p ∈ ps → m (g (c p)) ≤ m (sweep g c ps p)
  | q :: ps, c, hp => by
    rw [sweep_cons]
    by_cases hpq : p = q
    · subst hpq
      have := le_sweep hg p ps (update c p (g (c p)))
      rwa [Function.update_self] at this
    · have hp : p ∈ ps := (List.mem_cons.1 hp).resolve_left hpq
      exact (hmono _ _ (le_update hg c q p)).trans (apply_le_sweep hg hmono ps _ hp)

end Sweep
