import DStreamon.Lib.Attempt

/-!
# How actions that may fail end

What holds of an action's value and of the state it leaves, and what of its error and the state that
it leaves then.
-/

namespace Attempt

variable {ε σ α β : Type} {x : Attempt ε σ α} {f : α → Attempt ε σ β} {s t : σ} {a : α}

/-- From `s`, a value and a state that meet `Q`, or an error and a state that meet `R`. -/
def Ends (x : Attempt ε σ α) (s : σ) (Q : α → σ → Prop) (R : ε → σ → Prop) : Prop :=
  match x.run s with
  | (.ok a, t) => Q a t
  | (.error e, t) => R e t

variable {Q Q' : α → σ → Prop} {P : β → σ → Prop} {R R' : ε → σ → Prop}

theorem ends_of_ok (h : x.run s = (.ok a, t)) (hQ : Q a t) : x.Ends s Q R := by
  rw [Ends, h]
  exact hQ

theorem ends_of_error {e : ε} (h : x.run s = (.error e, t)) (hR : R e t) : x.Ends s Q R := by
  rw [Ends, h]
  exact hR

theorem Ends.of_ok (h : x.Ends s Q R) (hrun : x.run s = (.ok a, t)) : Q a t := by
  rw [Ends, hrun] at h
  exact h

theorem Ends.of_error {e : ε} (h : x.Ends s Q R) (hrun : x.run s = (.error e, t)) : R e t := by
  rw [Ends, hrun] at h
  exact h

theorem Ends.bind (hx : x.Ends s Q R) (hf : ∀ a t, Q a t → (f a).Ends t P R) :
    (x >>= f).Ends s P R := by
  rcases hrun : x.run s with ⟨e | a, t⟩
  · exact ends_of_error (run_bind_of_error hrun) (hx.of_error hrun)
  · rw [Ends, run_bind_of_ok hrun]
    exact hf a t (hx.of_ok hrun)

theorem Ends.imp (hx : x.Ends s Q R) (hQ : ∀ a t, Q a t → Q' a t) (hR : ∀ e t, R e t → R' e t) :
    x.Ends s Q' R' := by
  rcases hrun : x.run s with ⟨e | a, t⟩
  · exact ends_of_error hrun (hR e t (hx.of_error hrun))
  · exact ends_of_ok hrun (hQ a t (hx.of_ok hrun))

theorem Ends.and (h : x.Ends s Q R) (h' : x.Ends s Q' R') :
    x.Ends s (fun a t => Q a t ∧ Q' a t) fun e t => R e t ∧ R' e t := by
  rcases hrun : x.run s with ⟨e | a, t⟩
  · exact ends_of_error hrun ⟨h.of_error hrun, h'.of_error hrun⟩
  · exact ends_of_ok hrun ⟨h.of_ok hrun, h'.of_ok hrun⟩

theorem ends_pure (hQ : Q a s) : (pure a : Attempt ε σ α).Ends s Q R := hQ

theorem ends_throw {e : ε} (hR : R e s) : (throw e : Attempt ε σ α).Ends s Q R := hR

theorem ends_get_bind {g : σ → Attempt ε σ α} (h : (g s).Ends s Q R) : (get >>= g).Ends s Q R := h

theorem ends_modify {g : σ → σ} {P : Unit → σ → Prop} (h : P () (g s)) :
    (modify g : Attempt ε σ Unit).Ends s P R := h

theorem ends_zoom {τ : Type} {part : σ → τ} {put : τ → σ → σ} {y : Attempt ε τ α}
    (h : y.Ends (part s) (fun a t => Q a (put t s)) fun e t => R e (put t s)) :
    (zoom part put y).Ends s Q R := by
  rcases hrun : y.run (part s) with ⟨e | a, t⟩
  · exact ends_of_error (by rw [run_zoom, hrun]) (h.of_error hrun)
  · exact ends_of_ok (by rw [run_zoom, hrun]) (h.of_ok hrun)

/-- A loop keeps what each of its rounds keeps. -/
theorem ends_forEach {I : σ → Prop} {g : α → Attempt ε σ Unit} : ∀ {as : List α} {s : σ},
    (∀ a ∈ as, ∀ t, I t → (g a).Ends t (fun _ => I) R) → I s →
      (forEach g as).Ends s (fun _ => I) R
  | [], _, _, hs => hs
  | a :: as, s, hg, hs => by
    obtain ⟨ha, has⟩ := List.forall_mem_cons.1 hg
    exact (ha s hs).bind fun _ t ht => ends_forEach has ht

end Attempt
