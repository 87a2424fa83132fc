import Mathlib.Tactic.Common

/-!
# Actions that may fail half-way

An action changes a state and gives a value or an error.  An error keeps what was changed before it,
as an exception does that nobody undoes.
-/

/-- From a state, a value or an error, and the state that is left. -/
structure Attempt (ε σ α : Type) where
  run : σ → Except ε α × σ

namespace Attempt

variable {ε σ τ α β : Type}

/-- Where the first action fails the second is not tried. -/
protected def bind (x : Attempt ε σ α) (f : α → Attempt ε σ β) : Attempt ε σ β where
  run s :=
    match x.run s with
    | (.ok a, t) => (f a).run t
    | (.error e, t) => (.error e, t)

instance : Monad (Attempt ε σ) where
  pure a := ⟨fun s => (.ok a, s)⟩
  bind := Attempt.bind

def throw (e : ε) : Attempt ε σ α := ⟨fun s => (.error e, s)⟩

def get : Attempt ε σ σ := ⟨fun s => (.ok s, s)⟩

def modify (f : σ → σ) : Attempt ε σ Unit := ⟨fun s => (.ok (), f s)⟩

/-- The value, if there is one. -/
def orThrow (e : ε) : Option α → Attempt ε σ α
  | some a => pure a
  | none => throw e

/-- An action on a part of the state. -/
def zoom (part : σ → τ) (put : τ → σ → σ) (x : Attempt ε τ α) : Attempt ε σ α :=
  ⟨fun s => ((x.run (part s)).1, put (x.run (part s)).2 s)⟩

/-- One after the other, up to the first that fails. -/
def forEach (f : α → Attempt ε σ Unit) : List α → Attempt ε σ Unit
  | [] => pure ()
  | a :: as => do
    f a
    forEach f as

variable {x : Attempt ε σ α} {f : α → Attempt ε σ β} {s t u : σ} {a : α} {b : β} {e : ε}

@[simp] theorem run_pure : (pure a : Attempt ε σ α).run s = (.ok a, s) := rfl

@[simp] theorem run_get : (get : Attempt ε σ σ).run s = (.ok s, s) := rfl

@[simp] theorem run_modify (g : σ → σ) : (modify g : Attempt ε σ Unit).run s = (.ok (), g s) := rfl

@[simp] theorem run_throw : (throw e : Attempt ε σ α).run s = (.error e, s) := rfl

@[simp] theorem orThrow_some : (orThrow e (some a) : Attempt ε σ α) = pure a := rfl

@[simp] theorem orThrow_none : (orThrow e none : Attempt ε σ α) = throw e := rfl

@[simp] theorem run_zoom (part : σ → τ) (put : τ → σ → σ) (x : Attempt ε τ α) :
    (zoom part put x).run s = ((x.run (part s)).1, put (x.run (part s)).2 s) := rfl

theorem run_bind : (x >>= f).run s = match x.run s with
    | (.ok a, t) => (f a).run t
    | (.error e, t) => (.error e, t) := rfl

theorem run_bind_of_ok (h : x.run s = (.ok a, t)) : (x >>= f).run s = (f a).run t := by
  rw [run_bind, h]

theorem run_bind_of_error (h : x.run s = (.error e, t)) : (x >>= f).run s = (.error e, t) := by
  rw [run_bind, h]

/-- A value of the whole comes from values of the parts. -/
theorem ok_of_bind (h : (x >>= f).run s = (.ok b, u)) :
    ∃ a t, x.run s = (.ok a, t) ∧ (f a).run t = (.ok b, u) := by
  rcases hx : x.run s with ⟨e | a, t⟩
  · rw [run_bind_of_error hx] at h
    simp at h
  · rw [run_bind_of_ok hx] at h
    exact ⟨a, t, rfl, h⟩

theorem ok_of_zoom {part : σ → τ} {put : τ → σ → σ} {y : Attempt ε τ α}
    (h : (zoom part put y).run s = (.ok a, u)) :
    ∃ t, y.run (part s) = (.ok a, t) ∧ u = put t s := by
  obtain ⟨hok, hput⟩ := Prod.mk.inj h
  exact ⟨_, Prod.ext hok rfl, hput.symm⟩

@[simp] theorem run_get_bind (g : σ → Attempt ε σ β) : (get >>= g).run s = (g s).run s := rfl

@[simp] theorem run_modify_bind (g : σ → σ) (f : Unit → Attempt ε σ β) :
    (modify g >>= f).run s = (f ()).run (g s) := rfl

@[simp] theorem run_throw_bind : (throw e >>= f).run s = (.error e, s) := rfl

@[simp] theorem run_pure_bind : (pure a >>= f).run s = (f a).run s := rfl

@[simp] theorem forEach_nil (f : α → Attempt ε σ Unit) : forEach f [] = pure () := rfl

theorem forEach_cons (f : α → Attempt ε σ Unit) (a : α) (as : List α) :
    forEach f (a :: as) = (f a >>= fun _ => forEach f as) := rfl

theorem ext {x y : Attempt ε σ α} (h : ∀ s, x.run s = y.run s) : x = y :=
  congrArg mk (funext h)

instance : LawfulMonad (Attempt ε σ) := LawfulMonad.mk' _
  (fun x => ext fun s => by
    show (x >>= pure).run s = x.run s
    rw [run_bind]
    rcases x.run s with ⟨e | a, t⟩ <;> rfl)
  (fun _ _ => rfl)
  (fun x f g => ext fun s => by
    rw [run_bind, run_bind, run_bind]
    rcases x.run s with ⟨e | a, t⟩ <;> rfl)

/-- A loop on a part, where the part can be put back and read again. -/
theorem forEach_zoom {part : σ → τ} {put : τ → σ → σ} (hsame : ∀ s, put (part s) s = s)
    (hput : ∀ t s, part (put t s) = t) (hagain : ∀ u t s, put u (put t s) = put u s)
    (f : α → Attempt ε τ Unit) :
    ∀ (as : List α) (s : σ), (forEach (fun a => zoom part put (f a)) as).run s =
      (zoom part put (forEach f as)).run s
  | [], s => by simp [hsame]
  | a :: as, s => by
    rw [forEach_cons, forEach_cons, run_zoom, run_bind, run_bind, run_zoom]
    rcases (f a).run (part s) with ⟨e | _, t⟩
    · rfl
    · simp only [forEach_zoom hsame hput hagain f as, run_zoom, hput, hagain]

/-! ## Actions that leave a part alone -/

/-- With another part the action does the same, and leaves that part in its place. -/
def Frames (put : τ → σ → σ) (x : Attempt ε σ α) : Prop :=
  ∀ t s, x.run (put t s) = ((x.run s).1, put t (x.run s).2)

section Frames

variable {put : τ → σ → σ} {x : Attempt ε σ α} {f : α → Attempt ε σ β}

theorem frames_pure (a : α) : Frames put (pure a : Attempt ε σ α) := fun _ _ => rfl

theorem frames_throw (e : ε) : Frames put (throw e : Attempt ε σ α) := fun _ _ => rfl

theorem frames_orThrow (e : ε) (a : Option α) : Frames put (orThrow e a : Attempt ε σ α) := by
  rcases a with _ | a
  · exact frames_throw e
  · exact frames_pure a

theorem frames_modify {g : σ → σ} (h : ∀ t s, g (put t s) = put t (g s)) :
    Frames put (modify g : Attempt ε σ Unit) := fun t s => by
  rw [run_modify, run_modify, h]

theorem frames_bind (hx : Frames put x) (hf : ∀ a, Frames put (f a)) : Frames put (x >>= f) := by
  intro t s
  rw [run_bind, run_bind, hx]
  rcases x.run s with ⟨e | a, u⟩
  · rfl
  · exact hf a t u

/-- What it reads of the state is not in the part. -/
theorem frames_get {g : σ → Attempt ε σ β} (hread : ∀ t s, g (put t s) = g s)
    (hg : ∀ s, Frames put (g s)) : Frames put (get >>= g) := by
  intro t s
  rw [run_get_bind, run_get_bind, hread]
  exact hg s t s

theorem frames_zoom {υ : Type} {part : σ → υ} {put' : υ → σ → σ} (y : Attempt ε υ α)
    (hpart : ∀ t s, part (put t s) = part s) (hput : ∀ u t s, put' u (put t s) = put t (put' u s)) :
    Frames put (zoom part put' y) := by
  intro t s
  rw [run_zoom, run_zoom, hpart, hput]

theorem frames_forEach {f : α → Attempt ε σ Unit} :
    ∀ {as : List α}, (∀ a ∈ as, Frames put (f a)) → Frames put (forEach f as)
  | [], _ => frames_pure ()
  | a :: as, h => by
    obtain ⟨ha, has⟩ := List.forall_mem_cons.1 h
    exact frames_bind ha fun _ => frames_forEach has

variable {part : σ → τ} (hsame : ∀ s, put (part s) s = s) (hput : ∀ t s, part (put t s) = t)

include hsame hput

theorem Frames.part_eq (h : Frames put x) (s : σ) : part (x.run s).2 = part s := by
  have hrun := h (part s) s
  rw [hsame] at hrun
  rw [hrun, hput]

/-- It can change places with an action on that part. -/
theorem Frames.swap {y : Attempt ε σ Unit} (h : Frames put y) (x : Attempt ε τ Unit) :
    (zoom part put x >>= fun _ => y).run s = (.ok (), u) ↔
      (y >>= fun _ => zoom part put x).run s = (.ok (), u) := by
  have hpart := h.part_eq hsame hput s
  rw [run_bind, run_bind, run_zoom]
  rcases hx : x.run (part s) with ⟨e | _, t⟩ <;> rcases hy : y.run s with ⟨e' | _, v⟩
  · simp
  · rw [hy] at hpart
    simp only [run_zoom, hpart, hx]
    simp
  · simp only [h t s, hy]
    simp
  · rw [hy] at hpart
    simp only [h t s, hy, run_zoom, hpart, hx]

end Frames

end Attempt
