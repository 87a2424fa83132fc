import Mathlib.Data.List.Perm.Basic
import Mathlib.Data.List.Nodup
import Mathlib.Data.List.Pairwise

/-!
# Lists of slots

Slots that hold some elements each.  What a slot holds is replaced, and the elements in all of them
change by what it held and what it holds.
-/

namespace Slots

variable {α β : Type*} {f : α → List β} {slots : List α} {i j : ℕ} {x y z : α}

theorem getElem?_set_cases (h : (slots.set i x)[j]? = some y) :
    (j = i ∧ y = x) ∨ (j ≠ i ∧ slots[j]? = some y) := by
  by_cases hij : i = j
  · subst hij
    have hi : i < slots.length := by
      obtain ⟨hi, _⟩ := List.getElem?_eq_some_iff.1 h
      simpa using hi
    rw [List.getElem?_set_self hi] at h
    exact .inl ⟨rfl, (Option.some.inj h).symm⟩
  · rw [List.getElem?_set_ne hij] at h
    exact .inr ⟨Ne.symm hij, h⟩

theorem flatMap_set_perm (y : α) : ∀ {slots : List α} {i : ℕ}, slots[i]? = some x →
    (f x ++ (slots.set i y).flatMap f).Perm (f y ++ slots.flatMap f)
  | [], i, h => by simp at h
  | z :: slots, 0, h => by
    obtain rfl : z = x := by simpa using h
    simpa using List.perm_append_comm_assoc (f z) (f y) (slots.flatMap f)
  | z :: slots, i + 1, h => by
    have ih : (f x ++ (slots.set i y).flatMap f).Perm (f y ++ slots.flatMap f) :=
      flatMap_set_perm y (by simpa using h)
    have hin := List.perm_append_comm_assoc (f x) (f z) ((slots.set i y).flatMap f)
    have hout := List.perm_append_comm_assoc (f z) (f y) (slots.flatMap f)
    simpa using hin.trans ((ih.append_left (f z)).trans hout)

/-- An element that only one slot can hold. -/
theorem eq_of_mem_of_nodup {b : β} (h : (slots.flatMap f).Nodup) (hx : slots[i]? = some x)
    (hy : slots[j]? = some y) (hbx : b ∈ f x) (hby : b ∈ f y) : i = j := by
  have hpair := (List.nodup_flatMap.1 h).2
  rw [List.pairwise_iff_getElem] at hpair
  obtain ⟨hi, rfl⟩ := List.getElem?_eq_some_iff.1 hx
  obtain ⟨hj, rfl⟩ := List.getElem?_eq_some_iff.1 hy
  rcases Nat.lt_trichotomy i j with hlt | heq | hlt
  · exact absurd hby (hpair i j hi hj hlt hbx)
  · exact heq
  · exact absurd hbx (hpair j i hj hi hlt hby)

theorem length_flatMap_le (h : ∀ x, (f x).length ≤ 1) (slots : List α) :
    (slots.flatMap f).length ≤ slots.length := by
  induction slots with
  | nil => simp
  | cons x slots ih =>
    have := h x
    simp only [List.flatMap_cons, List.length_append, List.length_cons]
    omega

/-- With one of the slots empty. -/
theorem length_flatMap_lt (h : ∀ x, (f x).length ≤ 1) (hx : x ∈ slots) (hempty : f x = []) :
    (slots.flatMap f).length < slots.length := by
  obtain ⟨before, after, rfl⟩ := List.append_of_mem hx
  have hbefore := length_flatMap_le h before
  have hafter := length_flatMap_le h after
  simp only [List.flatMap_append, List.flatMap_cons, hempty, List.length_append, List.length_nil,
    List.length_cons]
  omega

end Slots
