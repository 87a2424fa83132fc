import Mathlib.Data.Finset.Dedup
import Mathlib.Data.Finset.Card

/-!
# The first members of a list, with or without repetitions

Members are taken one at a time until there are `n` of them; without repetitions one that was taken
before is passed over.
-/

namespace FirstDistinct

variable {α : Type*} [DecidableEq α] {norep : Bool} {n : ℕ} {vs acc out : List α}

/-- Take one more. -/
def keep (norep : Bool) (acc : List α) (v : α) : List α :=
  if norep = true ∧ v ∈ acc then acc else acc ++ [v]

/-- The first `n`, if there are so many. -/
def collect (norep : Bool) (n : ℕ) : List α → List α → Option (List α)
  | [], acc => if n ≤ acc.length then some acc else none
  | v :: vs, acc => if n ≤ acc.length then some acc else collect norep n vs (keep norep acc v)

theorem length_keep (acc : List α) (v : α) : (keep norep acc v).length =
    if norep = true ∧ v ∈ acc then acc.length else acc.length + 1 := by
  unfold keep
  split_ifs <;> simp

theorem length_le_foldl : ∀ (vs acc : List α), acc.length ≤ (vs.foldl (keep norep) acc).length
  | [], _ => le_rfl
  | v :: vs, acc => by
    refine le_trans ?_ (length_le_foldl vs _)
    rw [length_keep]
    split_ifs <;> omega

theorem collect_isSome_iff : ∀ (vs acc : List α),
    (collect norep n vs acc).isSome ↔ n ≤ (vs.foldl (keep norep) acc).length
  | [], acc => by
    unfold collect
    by_cases h : n ≤ acc.length <;> simp [h]
  | v :: vs, acc => by
    unfold collect
    by_cases h : n ≤ acc.length
    · simp only [h, if_true, Option.isSome_some, true_iff]
      exact h.trans (length_le_foldl (v :: vs) acc)
    · rw [if_neg h]
      exact collect_isSome_iff vs _

/-- What is true of those taken and of each member that is, is true of the result. -/
theorem collect_induct {P : List α → Prop} : ∀ {vs acc : List α}, P acc →
    (∀ acc v, v ∈ vs → acc.length < n → P acc → P (keep norep acc v)) →
    collect norep n vs acc = some out → P out ∧ n ≤ out.length
  | [], acc, hP, _, h => by
    unfold collect at h
    split_ifs at h with hn
    obtain rfl := Option.some.inj h
    exact ⟨hP, hn⟩
  | v :: vs, acc, hP, hstep, h => by
    unfold collect at h
    split_ifs at h with hn
    · obtain rfl := Option.some.inj h
      exact ⟨hP, hn⟩
    · exact collect_induct (hstep acc v List.mem_cons_self (by omega) hP)
        (fun acc v hv => hstep acc v (List.mem_cons_of_mem _ hv)) h

theorem collect_length (h : collect norep n vs [] = some out) : out.length = n := by
  obtain ⟨hle, hge⟩ := collect_induct (P := fun acc => acc.length ≤ n) (by simp)
    (fun acc v _ hlt _ => by
      rw [length_keep]
      split_ifs <;> omega) h
  omega

theorem mem_keep {v x : α} (h : x ∈ keep norep acc v) : x ∈ acc ∨ x = v := by
  unfold keep at h
  split_ifs at h
  · exact .inl h
  · simpa using h

theorem collect_mem (h : collect norep n vs [] = some out) : ∀ x ∈ out, x ∈ vs :=
  (collect_induct (P := fun acc => ∀ x ∈ acc, x ∈ vs) (by simp)
    (fun acc v hv _ hacc x hx => (mem_keep hx).elim (hacc x) fun hxv => hxv ▸ hv) h).1

theorem nodup_keep {v : α} (h : acc.Nodup) : (keep true acc v).Nodup := by
  unfold keep
  split_ifs with hv
  · exact h
  · simp only [true_and] at hv
    exact List.nodup_append.2 ⟨h, List.nodup_singleton v, by
      rintro a ha b hb rfl
      exact hv (List.mem_singleton.1 hb ▸ ha)⟩

theorem collect_nodup (h : collect true n vs [] = some out) : out.Nodup :=
  (collect_induct (P := List.Nodup) List.nodup_nil (fun _ _ _ _ hacc => nodup_keep hacc) h).1

/-! ## How many there are -/

theorem foldl_keep_false : ∀ (vs acc : List α), vs.foldl (keep false) acc = acc ++ vs
  | [], acc => by simp
  | v :: vs, acc => by
    rw [List.foldl_cons, foldl_keep_false vs]
    simp [keep]

theorem foldl_keep_true : ∀ (vs acc : List α), acc.Nodup →
    (vs.foldl (keep true) acc).Nodup ∧ ∀ x, x ∈ vs.foldl (keep true) acc ↔ x ∈ acc ∨ x ∈ vs
  | [], acc, h => ⟨h, fun x => by simp⟩
  | v :: vs, acc, h => by
    obtain ⟨hnd, hmem⟩ := foldl_keep_true vs (keep true acc v) (nodup_keep h)
    refine ⟨hnd, fun x => ?_⟩
    rw [List.foldl_cons, hmem, List.mem_cons]
    unfold keep
    split_ifs with hv
    · constructor
      · rintro (hx | hx)
        · exact .inl hx
        · exact .inr (.inr hx)
      · rintro (hx | rfl | hx)
        · exact .inl hx
        · exact .inl hv.2
        · exact .inr hx
    · simp [or_assoc]

/-- With repetitions, all of them; without, the distinct ones. -/
theorem length_foldl_keep (vs : List α) : (vs.foldl (keep norep) []).length =
    if norep = true then vs.toFinset.card else vs.length := by
  cases norep with
  | false => simp [foldl_keep_false]
  | true =>
    obtain ⟨hnd, hmem⟩ := foldl_keep_true vs [] List.nodup_nil
    rw [if_pos rfl, ← List.toFinset_card_of_nodup hnd]
    congr 1
    ext x
    simp [hmem]

end FirstDistinct
