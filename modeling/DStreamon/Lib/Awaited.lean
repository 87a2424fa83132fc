import DStreamon.Lib.StepRun

/-!
# Steps that are waited for

In every state one operation is awaited.  Where it lowers a rank that no operation raises, a run
takes it no more often than the rank.
-/

namespace StepRun

variable {σ ο : Type*} [DecidableEq ο] {step : σ → ο → Option σ} {awaited : σ → ο}

/-- How often a run takes the operation that is awaited in its state. -/
def timesAwaited (step : σ → ο → Option σ) (awaited : σ → ο) : σ → List ο → ℕ
  | _, [] => 0
  | s, o :: os =>
    (if o = awaited s then 1 else 0) + (step s o).elim 0 fun s' => timesAwaited step awaited s' os

/-- A run all of whose operations are taken while it waits. -/
theorem timesAwaited_add_rank_le {Inv Waits : σ → Prop} {rank : σ → ℕ}
    (hinv : ∀ s o s', Inv s → step s o = some s' → Inv s')
    (hle : ∀ s o s', Inv s → Waits s → step s o = some s' → rank s' ≤ rank s)
    (hlt : ∀ s s', Inv s → Waits s → step s (awaited s) = some s' → rank s' < rank s) :
    ∀ (os : List ο) {s s' : σ}, Inv s → Meets step (fun s _ => Waits s) s os →
      run step s os = some s' → timesAwaited step awaited s os + rank s' ≤ rank s
  | [], s, s', _, _, h => by
    simp only [run_nil, Option.some.injEq] at h
    simp [h, timesAwaited]
  | o :: os, s, s', hs, hw, h => by
    obtain ⟨t, ht, h⟩ := run_cons_some h
    have ih := timesAwaited_add_rank_le hinv hle hlt os (hinv s o t hs ht) (hw.2 t ht) h
    have hstep : (if o = awaited s then 1 else 0) + rank t ≤ rank s := by
      split_ifs with ho
      · have := hlt s t hs hw.1 (ho ▸ ht)
        omega
      · have := hle s o t hs hw.1 ht
        omega
    rw [timesAwaited, ht, Option.elim_some]
    omega

end StepRun
