import Mathlib.Data.Finset.Card
import Mathlib.Logic.Relation

/-!
# Chains of pointers

Following a partial pointer from a start either comes to an end or, where there are only finitely
many targets, comes to one that points back at itself in some steps.
-/

namespace Chain

open Relation

variable {α : Type*} (next : α → Option α)

/-- One points to the other. -/
def To (a b : α) : Prop := next a = some b

/-- `n` steps along the pointers; `none` once there is no pointer. -/
def follow : ℕ → α → Option α
  | 0, a => some a
  | n + 1, a => (next a).bind (follow n)

/-- No target reached from `a` reaches itself. -/
def Ends (a : α) : Prop := ∀ b, ReflTransGen (To next) a b → ¬ TransGen (To next) b b

variable {next} {a b : α} {n : ℕ}

theorem follow_one (a : α) : follow next 1 a = next a := Option.bind_fun_some _

theorem follow_add (m : ℕ) : ∀ (n : ℕ) (a : α),
    follow next (n + m) a = (follow next n a).bind (follow next m)
  | 0, a => by rw [Nat.zero_add, follow, Option.bind_some]
  | n + 1, a => by
    rw [Nat.succ_add, follow, follow, Option.bind_assoc]
    exact congrArg (Option.bind (next a)) (funext (follow_add m n))

theorem reflTransGen_of_follow : ∀ {n : ℕ} {a : α}, follow next n a = some b →
    ReflTransGen (To next) a b
  | 0, a, h => by
    cases h
    exact .refl
  | n + 1, a, h => by
    obtain ⟨c, hc, h⟩ := Option.bind_eq_some_iff.1 h
    exact .head hc (reflTransGen_of_follow h)

theorem exists_follow_of_reflTransGen (h : ReflTransGen (To next) a b) :
    ∃ n, follow next n a = some b := by
  induction h using ReflTransGen.head_induction_on with
  | refl => exact ⟨0, rfl⟩
  | head hac _ ih =>
    obtain ⟨n, hn⟩ := ih
    exact ⟨n + 1, by rw [follow, show next _ = some _ from hac, Option.bind_some, hn]⟩

theorem transGen_of_follow (h : follow next (n + 1) a = some b) : TransGen (To next) a b := by
  obtain ⟨c, hc, h⟩ := Option.bind_eq_some_iff.1 h
  exact .head' hc (reflTransGen_of_follow h)

theorem exists_follow_of_transGen (h : TransGen (To next) a b) :
    ∃ n, follow next (n + 1) a = some b := by
  obtain ⟨c, hac, hcb⟩ := TransGen.head'_iff.1 h
  obtain ⟨n, hn⟩ := exists_follow_of_reflTransGen hcb
  exact ⟨n, by rw [follow, show next a = some c from hac, Option.bind_some, hn]⟩

/-- What has ended stays at its end. -/
theorem follow_eq_none_of_le {m : ℕ} (h : follow next n a = none) (hle : n ≤ m) :
    follow next m a = none := by
  obtain ⟨d, rfl⟩ := Nat.exists_eq_add_of_le hle
  rw [follow_add, h, Option.bind_none]

/-- Round and round a cycle. -/
theorem follow_mul (h : follow next n a = some a) : ∀ k, follow next (n * k) a = some a
  | 0 => rfl
  | k + 1 => by rw [Nat.mul_succ, follow_add, follow_mul h k, Option.bind_some, h]

theorem ends_of_follow (h : follow next n a = none) : Ends next a := by
  intro b hab hbb
  obtain ⟨m, hm⟩ := exists_follow_of_reflTransGen hab
  obtain ⟨p, hp⟩ := exists_follow_of_transGen hbb
  have hround : follow next (m + (p + 1) * n) a = some b := by
    rw [follow_add, hm, Option.bind_some, follow_mul hp]
  have hle : n ≤ m + (p + 1) * n :=
    (Nat.le_mul_of_pos_left n p.succ_pos).trans (Nat.le_add_left _ _)
  rw [follow_eq_none_of_le h hle] at hround
  cases hround

/-- Among finitely many targets a chain that does not end comes to one of them twice. -/
theorem follow_of_ends {s : Finset α} (hs : ∀ x y, next x = some y → y ∈ s) (h : Ends next a) :
    ∃ n, follow next n a = none := by
  by_contra hall
  push Not at hall
  have hmem : ∀ n, ∃ x ∈ s, follow next (n + 1) a = some x := by
    intro n
    obtain ⟨x, hx⟩ := Option.ne_none_iff_exists'.1 (hall (n + 1))
    have hstep := hx
    rw [follow_add] at hstep
    obtain ⟨y, -, hy⟩ := Option.bind_eq_some_iff.1 hstep
    rw [follow_one] at hy
    exact ⟨x, hs y x hy, hx⟩
  choose f hf hfollow using hmem
  obtain ⟨i, -, j, -, hne, heq⟩ := Finset.exists_ne_map_eq_of_card_lt_of_maps_to
    (s := Finset.range (s.card + 1)) (t := s) (by simp) fun n _ => hf n
  wlog hij : i < j generalizing i j
  · exact this j i hne.symm heq.symm (by omega)
  obtain ⟨d, rfl⟩ := Nat.exists_eq_add_of_lt hij
  have hcycle : follow next (d + 1) (f i) = some (f i) := by
    have := hfollow (i + d + 1)
    rw [show i + d + 1 + 1 = (i + 1) + (d + 1) by omega, follow_add, hfollow i,
      Option.bind_some] at this
    rw [this, heq]
  exact h _ (reflTransGen_of_follow (hfollow i)) (transGen_of_follow hcycle)

theorem exists_follow_eq_none_iff {s : Finset α} (hs : ∀ x y, next x = some y → y ∈ s) :
    (∃ n, follow next n a = none) ↔ Ends next a :=
  ⟨fun ⟨_, h⟩ => ends_of_follow h, follow_of_ends hs⟩

end Chain
