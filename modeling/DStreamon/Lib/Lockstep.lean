import Mathlib.Data.List.Basic

/-!
# Two machines in lockstep

Two machines take the same operations, each with an answer.  Where the steps that keep them
together are those that meet a condition on the second one, so are the runs.
-/

namespace Lockstep

variable {σ τ ο α : Type*}

/-- From related states on, the same answers and related states. -/
def Follows (step : σ → ο → σ × α) (spec : τ → ο → τ × α) (R : σ → τ → Prop) :
    σ → τ → List ο → Prop
  | s, t, [] => R s t
  | s, t, o :: os =>
    R s t ∧ (step s o).2 = (spec t o).2 ∧ Follows step spec R (step s o).1 (spec t o).1 os

/-- Every operation meets `C` in the state it is taken from. -/
def Meets (spec : τ → ο → τ × α) (C : τ → ο → Prop) : τ → List ο → Prop
  | _, [] => True
  | t, o :: os => C t o ∧ Meets spec C (spec t o).1 os

/-- The state a list of operations leads to. -/
def final (step : σ → ο → σ × α) (s : σ) (os : List ο) : σ := os.foldl (fun s o => (step s o).1) s

variable {step : σ → ο → σ × α} {spec : τ → ο → τ × α} {R : σ → τ → Prop} {C : τ → ο → Prop}

theorem Follows.head : ∀ {os : List ο} {s : σ} {t : τ}, Follows step spec R s t os → R s t
  | [], _, _, h => h
  | _ :: _, _, _, h => h.1

theorem Follows.last : ∀ (os : List ο) {s : σ} {t : τ}, Follows step spec R s t os →
    R (final step s os) (final spec t os)
  | [], _, _, h => h
  | _ :: os, _, _, h => Follows.last os h.2.2

/-- On operations that meet `P`, from states with an invariant of the first machine, in runs of it
whose operations meet `D`. -/
theorem follows_iff_of_meets {Inv : σ → Prop} {P : ο → Prop} {D : σ → ο → Prop}
    (hinv : ∀ s o, Inv s → P o → Inv (step s o).1)
    (hstep : ∀ s t o, Inv s → P o → D s o → R s t →
      ((step s o).2 = (spec t o).2 ∧ R (step s o).1 (spec t o).1 ↔ C t o)) :
    ∀ (os : List ο) {s : σ} {t : τ}, (∀ o ∈ os, P o) → Inv s → Meets step D s os → R s t →
      (Follows step spec R s t os ↔ Meets spec C t os)
  | [], _, _, _, _, _, h => iff_of_true h trivial
  | o :: os, s, t, hP, hs, hD, h => by
    obtain ⟨ho, hP⟩ := List.forall_mem_cons.1 hP
    rw [Follows, Meets, ← hstep s t o hs ho hD.1 h]
    have hs' := hinv s o hs ho
    constructor
    · rintro ⟨-, hans, hos⟩
      exact ⟨⟨hans, hos.head⟩, (follows_iff_of_meets hinv hstep os hP hs' hD.2 hos.head).1 hos⟩
    · rintro ⟨⟨hans, hR⟩, hos⟩
      exact ⟨h, hans, (follows_iff_of_meets hinv hstep os hP hs' hD.2 hR).2 hos⟩

theorem meets_of_forall (h : ∀ t o, C t o) : ∀ (os : List ο) (t : τ), Meets spec C t os
  | [], _ => trivial
  | o :: os, t => ⟨h t o, meets_of_forall h os _⟩

theorem follows_iff
    (hstep : ∀ s t o, R s t →
      ((step s o).2 = (spec t o).2 ∧ R (step s o).1 (spec t o).1 ↔ C t o))
    (os : List ο) {s : σ} {t : τ} (h : R s t) :
    Follows step spec R s t os ↔ Meets spec C t os :=
  @follows_iff_of_meets _ _ _ _ _ _ _ _ (fun _ => True) (fun _ => True) (fun _ _ => True)
    (fun _ _ _ _ => trivial) (fun s t o _ _ _ => hstep s t o) os _ _ (fun _ _ => trivial) trivial
    (meets_of_forall (fun _ _ => trivial) os s) h

instance decidableMeets [∀ t o, Decidable (C t o)] :
    ∀ (os : List ο) (t : τ), Decidable (Meets spec C t os)
  | [], _ => .isTrue trivial
  | o :: os, t =>
    have := decidableMeets os (spec t o).1
    inferInstanceAs (Decidable (C t o ∧ Meets spec C (spec t o).1 os))

end Lockstep
