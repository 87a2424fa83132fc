import Mathlib.Data.Nat.Find
import Mathlib.Data.Set.Function
import Mathlib.Tactic.Lemma

/-!
# First-fit tables

Cells marked with the fingerprint of the key that holds them, `0` when free.  A key is looked for
along its own path of cells, and takes the first one that is free or its own.  Where each marked
cell lies on its key's path (`Owned`), a key with a cell has a first one (`Owned.exists_first`).

The cell a key takes may lie before one it has, when a cell was freed in between (`HoleBefore`);
`Single` says that no key has two.
-/

namespace FirstFit

variable {A K F : Type*}

/-- Distinct cells in order, up to some point. -/
structure Path (A : Type*) where
  cell : ℕ → Option A
  inj : ∀ {i j p}, cell i = some p → cell j = some p → i = j
  closed : ∀ {i j p}, i < j → cell j = some p → ∃ q, cell i = some q

def Path.On (P : Path A) (p : A) : Prop := ∃ j, P.cell j = some p

/-- The first cell of the path in `S`. -/
def Path.First (P : Path A) (S : A → Prop) (p : A) : Prop :=
  ∃ j, P.cell j = some p ∧ S p ∧ ∀ i < j, ∀ q, P.cell i = some q → ¬ S q

namespace Path

variable {P : Path A} {S S' : A → Prop} {p q : A}

theorem First.on (h : P.First S p) : P.On p := h.imp fun _ hj => hj.1

theorem First.mem (h : P.First S p) : S p := h.choose_spec.2.1

theorem First.unique (hp : P.First S p) (hq : P.First S q) : p = q := by
  obtain ⟨i, hi, hpS, hpi⟩ := hp
  obtain ⟨j, hj, hqS, hqj⟩ := hq
  rcases lt_trichotomy i j with hij | rfl | hij
  · exact absurd hpS (hqj i hij p hi)
  · exact Option.some.inj (hi.symm.trans hj)
  · exact absurd hqS (hpi j hij q hj)

theorem First.congr (h : P.First S p) (hS : ∀ q, S q ↔ S' q) : P.First S' p := by
  obtain ⟨j, hj, hp, hi⟩ := h
  exact ⟨j, hj, (hS p).1 hp, fun i hij q hq hS' => hi i hij q hq ((hS q).2 hS')⟩

end Path

variable [Zero F]

/-- Every marked cell lies on the path of a key with that fingerprint. -/
def Owned (T : A → F) (path : K → Path A) (f : K → F) (keys : Set K) : Prop :=
  ∀ p, T p ≠ 0 → ∃ k ∈ keys, T p = f k ∧ (path k).On p

/-- No two cells are marked alike. -/
def Single (T : A → F) : Prop := ∀ p q, T p = T q → T p ≠ 0 → p = q

/-- A free cell lies before a cell marked `x`. -/
def HoleBefore (T : A → F) (P : Path A) (x : F) : Prop :=
  ∃ i j p q, i < j ∧ P.cell i = some p ∧ T p = 0 ∧ P.cell j = some q ∧ T q = x

variable {T : A → F} {path : K → Path A} {f : K → F} {keys : Set K}

theorem owned_zero : Owned (fun _ => (0 : F)) path f keys := fun _ h => absurd rfl h

theorem single_zero : Single (fun _ : A => (0 : F)) := fun _ _ _ h => absurd rfl h

/-- Where the marked cells are their keys', a key with a cell has a first one on its path. -/
theorem Owned.exists_first (h : Owned T path f keys) (hinj : Set.InjOn f keys) {k : K}
    (hk : k ∈ keys) (hk0 : f k ≠ 0) {p : A} (hp : T p = f k) :
    ∃ q, (path k).First (fun r => T r = f k) q := by
  classical
  obtain ⟨k', hk', hfk, hon⟩ := h p (hp ▸ hk0)
  obtain rfl : k' = k := hinj hk' hk (hfk.symm.trans hp)
  have hex : ∃ j q, (path k').cell j = some q ∧ T q = f k' := hon.imp fun _ hj => ⟨p, hj, hp⟩
  obtain ⟨q, hq, hTq⟩ := Nat.find_spec hex
  exact ⟨q, Nat.find hex, hq, hTq, fun i hi r hr hTr => Nat.find_min hex hi ⟨r, hr, hTr⟩⟩

/-- Where moreover no two are marked alike, any cell with the key's fingerprint is the first. -/
theorem Owned.first (h : Owned T path f keys) (hs : Single T) (hinj : Set.InjOn f keys) {k : K}
    (hk : k ∈ keys) (hk0 : f k ≠ 0) {p : A} (hp : T p = f k) :
    (path k).First (fun q => T q = f k) p := by
  obtain ⟨q, hq⟩ := h.exists_first hinj hk hk0 hp
  obtain rfl : p = q := hs p q (hp.trans hq.mem.symm) (hp ▸ hk0)
  exact hq

section Update

variable [DecidableEq A]

theorem Owned.take (h : Owned T path f keys) {k : K} (hk : k ∈ keys) {p : A}
    (hp : (path k).On p) : Owned (Function.update T p (f k)) path f keys := by
  intro q hq
  by_cases hqp : q = p
  · subst hqp
    exact ⟨k, hk, by simp, hp⟩
  · rw [Function.update_of_ne hqp] at hq ⊢
    exact h q hq

theorem Owned.free (h : Owned T path f keys) (p : A) :
    Owned (Function.update T p 0) path f keys := by
  intro q hq
  by_cases hqp : q = p
  · simp [hqp] at hq
  · rw [Function.update_of_ne hqp] at hq ⊢
    exact h q hq

/-- The cell a key takes is the first it has. -/
theorem Path.First.take {P : Path A} {x : F} {p : A}
    (h : P.First (fun q => T q = 0 ∨ T q = x) p) :
    P.First (fun q => Function.update T p x q = x) p := by
  obtain ⟨j, hj, -, hlow⟩ := h
  refine ⟨j, hj, Function.update_self .., fun i hi q hq hTq => ?_⟩
  have hqp : q ≠ p := fun e => absurd (P.inj (e ▸ hq) hj) (by omega)
  simp only [Function.update_of_ne hqp] at hTq
  exact hlow i hi q hq (.inr hTq)

theorem Single.take (h : Single T) {x : F} {p : A} (hx : ∀ q, T q = x → q = p) :
    Single (Function.update T p x) := by
  intro q r hqr hq
  by_cases hqp : q = p <;> by_cases hrp : r = p
  · rw [hqp, hrp]
  · rw [hqp, Function.update_self, Function.update_of_ne hrp] at hqr
    exact absurd (hx r hqr.symm) hrp
  · rw [hrp, Function.update_self, Function.update_of_ne hqp] at hqr
    exact absurd (hx q hqr) hqp
  · rw [Function.update_of_ne hqp] at hqr hq
    rw [Function.update_of_ne hrp] at hqr
    exact h q r hqr hq

theorem Single.free (h : Single T) (p : A) : Single (Function.update T p 0) := by
  intro q r hqr hq
  have hqp : q ≠ p := fun e => hq (by simp [e])
  rw [Function.update_of_ne hqp] at hqr hq
  have hrp : r ≠ p := fun e => hq (by rw [hqr, e, Function.update_self])
  rw [Function.update_of_ne hrp] at hqr
  exact h q r hqr hq

end Update

/-- With no free cell before a marked one, the first cell that is free or so marked is the first
marked one. -/
theorem Path.First.of_not_hole {P : Path A} {x : F} {p q : A}
    (hp : P.First (fun r => T r = 0 ∨ T r = x) p) (hq : P.First (fun r => T r = x) q)
    (hh : ¬ HoleBefore T P x) : p = q := by
  obtain ⟨i, hi, hpS, hpi⟩ := hp
  obtain ⟨j, hj, hqS, hqj⟩ := hq
  rcases lt_trichotomy i j with hij | rfl | hij
  · rcases hpS with h0 | hx
    · exact absurd ⟨i, j, p, q, hij, hi, h0, hj, hqS⟩ hh
    · exact absurd hx (hqj i hij p hi)
  · exact Option.some.inj (hi.symm.trans hj)
  · exact absurd (Or.inr hqS) (hpi j hij q hj)

end FirstFit
