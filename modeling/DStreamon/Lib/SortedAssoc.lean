import Mathlib.Tactic.Common

/-!
# Sorted associations

A map as the list of its entries, put in by ascending keys, and read at the first entry of a key.
-/

namespace SortedAssoc

variable {κ ν : Type} [DecidableEq κ]

def lookup (k : κ) : List (κ × ν) → Option ν
  | [] => none
  | e :: es => if e.1 = k then some e.2 else lookup k es

/-- In its place by `lt`, or instead of the entry with its key. -/
def insert (lt : κ → κ → Bool) (k : κ) (v : ν) : List (κ × ν) → List (κ × ν)
  | [] => [(k, v)]
  | e :: es =>
    if e.1 = k then (k, v) :: es
    else if lt k e.1 then (k, v) :: e :: es
    else e :: insert lt k v es

def erase (k : κ) (es : List (κ × ν)) : List (κ × ν) := es.filter fun e => e.1 ≠ k

variable {lt : κ → κ → Bool} {k k' : κ} {v : ν}

@[simp] theorem lookup_nil : lookup k ([] : List (κ × ν)) = none := rfl

@[simp] theorem lookup_insert_self : ∀ es : List (κ × ν), lookup k (insert lt k v es) = some v
  | [] => if_pos rfl
  | e :: es => by
    rw [insert]
    split_ifs with hk hlt
    · exact if_pos rfl
    · exact if_pos rfl
    · rw [lookup, if_neg hk, lookup_insert_self es]

theorem lookup_insert_of_ne (h : k' ≠ k) : ∀ es : List (κ × ν),
    lookup k' (insert lt k v es) = lookup k' es
  | [] => if_neg h.symm
  | e :: es => by
    rw [insert]
    split_ifs with hk hlt
    · rw [lookup, lookup, if_neg h.symm, if_neg (hk ▸ h.symm)]
    · rw [lookup, if_neg h.symm]
    · rw [lookup, lookup, lookup_insert_of_ne h es]

@[simp] theorem lookup_erase_self : ∀ es : List (κ × ν), lookup k (erase k es) = none
  | [] => rfl
  | e :: es => by
    rw [erase, List.filter_cons]
    split_ifs with hk
    · rw [lookup, if_neg (by simpa using hk)]
      exact lookup_erase_self es
    · exact lookup_erase_self es

theorem lookup_erase_of_ne (h : k' ≠ k) : ∀ es : List (κ × ν),
    lookup k' (erase k es) = lookup k' es
  | [] => rfl
  | e :: es => by
    rw [erase, List.filter_cons]
    split_ifs with hk
    · rw [lookup, lookup]
      split_ifs
      · rfl
      · exact lookup_erase_of_ne h es
    · have hek : e.1 ≠ k' := by
        simp only [ne_eq, decide_not, Bool.not_eq_true, Bool.not_eq_false', decide_eq_true_eq] at hk
        exact fun hek => h (hek ▸ hk)
      rw [lookup, if_neg hek]
      exact lookup_erase_of_ne h es

theorem mem_of_lookup : ∀ {es : List (κ × ν)}, lookup k es = some v → (k, v) ∈ es
  | e :: es, h => by
    rw [lookup] at h
    split_ifs at h with hk
    · cases h
      exact hk ▸ List.mem_cons_self
    · exact List.mem_cons_of_mem e (mem_of_lookup h)

theorem mem_insert : ∀ {es : List (κ × ν)} {e : κ × ν}, e ∈ insert lt k v es → e = (k, v) ∨ e ∈ es
  | [], e, h => .inl (List.mem_singleton.1 h)
  | d :: es, e, h => by
    rw [insert] at h
    split_ifs at h with hk hlt
    · exact (List.mem_cons.1 h).imp id (List.mem_cons_of_mem d)
    · exact List.mem_cons.1 h
    · obtain rfl | h := List.mem_cons.1 h
      · exact .inr List.mem_cons_self
      · exact (mem_insert h).imp id (List.mem_cons_of_mem d)

end SortedAssoc
