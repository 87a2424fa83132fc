import Mathlib.Tactic.Common

/-!
# Loops whose body may fail

`loop` goes round until its body gives a result, `times` a given number of times.  What a body keeps
the loop keeps.
-/

namespace Loop

variable {σ α ε : Type}

/-- Round again with `.inl`, out with `.inr`, and `stuck` once the fuel is spent. -/
def loop (stuck : ε) (step : σ → Except ε (σ ⊕ α)) : ℕ → σ → Except ε α
  | 0, _ => .error stuck
  | fuel + 1, s =>
    match step s with
    | .error e => .error e
    | .ok (.inl t) => loop stuck step fuel t
    | .ok (.inr a) => .ok a

def times (body : σ → Except ε σ) : ℕ → σ → Except ε σ
  | 0, s => .ok s
  | n + 1, s =>
    match body s with
    | .error e => .error e
    | .ok t => times body n t

/-- `P` holds before each of `n` rounds. -/
def AlongTimes (body : σ → Except ε σ) (P : σ → Prop) : ℕ → σ → Prop
  | 0, _ => True
  | n + 1, s => P s ∧ ∀ t, body s = .ok t → AlongTimes body P n t

variable {stuck : ε} {step : σ → Except ε (σ ⊕ α)} {body : σ → Except ε σ} {I : σ → Prop}

/-! ## Rules -/

/-- What holds of a round: its failures and results meet `R`, else it keeps `I` and comes
nearer to the end. -/
def Round (step : σ → Except ε (σ ⊕ α)) (I : σ → Prop) (m : σ → ℕ) (R : Except ε α → Prop)
    (s : σ) : Prop :=
  match step s with
  | .error e => R (.error e)
  | .ok (.inl t) => I t ∧ m t < m s
  | .ok (.inr a) => R (.ok a)

theorem loop_of_rounds {m : σ → ℕ} {R : Except ε α → Prop}
    (hround : ∀ s, I s → Round step I m R s) :
    ∀ {fuel : ℕ} {s : σ}, I s → m s < fuel → R (loop stuck step fuel s)
  | 0, s, _, hfuel => absurd hfuel (Nat.not_lt_zero _)
  | fuel + 1, s, hs, hfuel => by
    have h := hround s hs
    unfold Round at h
    rw [loop]
    cases hst : step s with
    | error e =>
      rw [hst] at h
      exact h
    | ok r =>
      rw [hst] at h
      cases r with
      | inl t => exact loop_of_rounds hround h.1 (by omega)
      | inr a => exact h

theorem times_add : ∀ (m n : ℕ) (s : σ),
    times body (m + n) s = (times body m s).bind (times body n)
  | 0, n, s => by
    rw [Nat.zero_add]
    rfl
  | m + 1, n, s => by
    rw [Nat.succ_add, times, times]
    cases body s with
    | error e => rfl
    | ok t => exact times_add m n t

theorem times_one (s : σ) : times body 1 s = body s := by
  rw [times]
  cases body s with
  | error e => rfl
  | ok t => rfl

theorem times_of_rounds {R : Except ε σ → Prop}
    (hround : ∀ s, I s → (∀ e, body s = .error e → R (.error e)) ∧ ∀ t, body s = .ok t → I t)
    (hend : ∀ s, I s → R (.ok s)) : ∀ (n : ℕ) {s : σ}, I s → R (times body n s)
  | 0, s, hs => hend s hs
  | n + 1, s, hs => by
    obtain ⟨herr, hok⟩ := hround s hs
    rw [times]
    cases hb : body s with
    | error e => exact herr e hb
    | ok t => exact times_of_rounds hround hend n (hok t hb)

end Loop
