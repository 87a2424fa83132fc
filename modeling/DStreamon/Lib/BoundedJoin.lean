import Mathlib.Algebra.GroupWithZero.Nat
import Mathlib.Data.List.Basic
import Mathlib.Data.List.Flatten
import Mathlib.Logic.Nontrivial.Defs
import Mathlib.Tactic.Common

/-!
# Joining items up to a size

Items are appended one after the other, and one that would make the whole too large is skipped.
Which are kept follows from their lengths alone, so the lengths decide whether the whole tells the
items apart.
-/

namespace BoundedJoin

variable {ι α : Type*} {S n : ℕ} {l l' : ι → ℕ} {x y : ι → List α} {is : List ι} {i : ι}

def join (S : ℕ) (x : ι → List α) : List α → List ι → List α
  | acc, [] => acc
  | acc, i :: is =>
    if acc.length + (x i).length ≤ S then join S x (acc ++ x i) is else join S x acc is

/-- The items kept behind `n`, from their lengths. -/
def kept (S : ℕ) (l : ι → ℕ) : ℕ → List ι → List ι
  | _, [] => []
  | n, i :: is => if n + l i ≤ S then i :: kept S l (n + l i) is else kept S l n is

theorem kept_subset : ∀ (is : List ι) (n : ℕ), kept S l n is ⊆ is
  | [], _ => fun _ h => h
  | i :: is, n => by
    rw [kept]
    split_ifs
    · exact List.cons_subset_cons i (kept_subset is _)
    · exact List.Subset.trans (kept_subset is n) (List.subset_cons_self i is)

theorem kept_congr : ∀ (is : List ι) (n : ℕ), (∀ i ∈ is, l i = l' i) →
    kept S l n is = kept S l' n is
  | [], _, _ => rfl
  | i :: is, n, h => by
    have hi := h i List.mem_cons_self
    have his : ∀ j ∈ is, l j = l' j := fun j hj => h j (List.mem_cons_of_mem i hj)
    rw [kept, kept, hi, kept_congr is n his, kept_congr is (n + l' i) his]

/-- An empty item always fits. -/
theorem mem_kept_of_eq_zero (hi : l i = 0) : ∀ (is : List ι) (n : ℕ), n ≤ S → i ∈ is →
    i ∈ kept S l n is
  | j :: is, n, hn, hmem => by
    rw [kept]
    rcases List.mem_cons.1 hmem with rfl | hmem
    · rw [if_pos (by omega)]
      exact List.mem_cons_self
    · split_ifs with hfit
      · exact List.mem_cons_of_mem j (mem_kept_of_eq_zero hi is _ hfit hmem)
      · exact mem_kept_of_eq_zero hi is n hn hmem

theorem kept_eq_self : ∀ (is : List ι) (n : ℕ), n + (is.map l).sum ≤ S → kept S l n is = is
  | [], _, _ => rfl
  | i :: is, n, h => by
    rw [List.map_cons, List.sum_cons] at h
    rw [kept, if_pos (by omega), kept_eq_self is _ (by omega)]

theorem join_eq : ∀ (is : List ι) (acc : List α), (∀ i ∈ is, (x i).length = l i) →
    join S x acc is = acc ++ (kept S l acc.length is).flatMap x
  | [], acc, _ => (List.append_nil acc).symm
  | i :: is, acc, h => by
    have hi := h i List.mem_cons_self
    have his : ∀ j ∈ is, (x j).length = l j := fun j hj => h j (List.mem_cons_of_mem i hj)
    rw [join, kept, hi]
    split_ifs
    · rw [join_eq is _ his, List.length_append, hi, List.flatMap_cons, List.append_assoc]
    · exact join_eq is acc his

theorem join_congr : ∀ (is : List ι) (acc : List α), (∀ i ∈ is, x i = y i) →
    join S x acc is = join S y acc is
  | [], _, _ => rfl
  | i :: is, acc, h => by
    have hi := h i List.mem_cons_self
    have his : ∀ j ∈ is, x j = y j := fun j hj => h j (List.mem_cons_of_mem i hj)
    rw [join, join, hi, join_congr is acc his, join_congr is (acc ++ y i) his]

theorem length_flatMap (h : ∀ i ∈ is, (x i).length = l i) :
    (is.flatMap x).length = (is.map l).sum := by
  rw [List.length_flatMap, List.map_congr_left h]

/-- Items of the same lengths can be taken apart again. -/
theorem flatMap_inj : ∀ is : List ι, (∀ i ∈ is, (x i).length = (y i).length) →
    is.flatMap x = is.flatMap y → ∀ i ∈ is, x i = y i
  | [], _, _ => List.forall_mem_nil _
  | i :: is, hlen, h => by
    rw [List.flatMap_cons, List.flatMap_cons] at h
    obtain ⟨hi, his⟩ := List.append_inj h (hlen i List.mem_cons_self)
    rw [List.forall_mem_cons]
    exact ⟨hi, flatMap_inj is (fun j hj => hlen j (List.mem_cons_of_mem i hj)) his⟩

/-- The whole is the same for the same items only, of all items of these lengths. -/
def Separates (S : ℕ) (α : Type*) (l l' : ι → ℕ) (is : List ι) : Prop :=
  ∀ x y : ι → List α, (∀ i ∈ is, (x i).length = l i) → (∀ i ∈ is, (y i).length = l' i) →
    (join S x [] is = join S y [] is ↔ ∀ i ∈ is, x i = y i)

theorem separates_of_kept (h : ∀ i ∈ is, l i = l' i ∧ i ∈ kept S l 0 is) :
    Separates S α l l' is := by
  intro x y hx hy
  have hsame := kept_congr (S := S) is 0 fun i hi => (h i hi).1
  rw [join_eq is [] hx, join_eq is [] hy, List.nil_append, List.nil_append, List.length_nil,
    ← hsame]
  constructor
  · intro hwhole i hi
    refine flatMap_inj _ (fun j hj => ?_) hwhole i (h i hi).2
    have hj := kept_subset is 0 hj
    rw [hx j hj, hy j hj, (h j hj).1]
  · intro hitems
    exact List.flatMap_congr fun i hi => hitems i (kept_subset is 0 hi)

theorem separates_of_sum_ne
    (h : ((kept S l 0 is).map l).sum ≠ ((kept S l' 0 is).map l').sum) :
    Separates S α l l' is := by
  intro x y hx hy
  have hl := length_flatMap fun i hi => hx i (kept_subset (S := S) (l := l) is 0 hi)
  have hl' := length_flatMap fun i hi => hy i (kept_subset (S := S) (l := l') is 0 hi)
  rw [join_eq is [] hx, join_eq is [] hy, List.nil_append, List.nil_append, List.length_nil]
  refine iff_of_false (fun hwhole => h ?_) fun hitems => h ?_
  · rw [← hl, ← hl', hwhole]
  · have hlen : ∀ i ∈ is, l i = l' i := fun i hi => by
      rw [← hx i hi, ← hy i hi, hitems i hi]
    rw [kept_congr is 0 hlen]
    exact congrArg List.sum
      (List.map_congr_left fun i hi => hlen i (kept_subset is 0 hi))

/-- Items that all consist of one letter show what the lengths cannot tell apart. -/
theorem join_replicate (a : α) (is : List ι) : join S (fun i => List.replicate (l i) a) [] is =
    List.replicate ((kept S l 0 is).map l).sum a := by
  rw [join_eq (l := l) is [] fun i _ => List.length_replicate, List.nil_append]
  refine List.eq_replicate_iff.2 ⟨length_flatMap fun i _ => List.length_replicate, ?_⟩
  intro b hb
  obtain ⟨i, -, hi⟩ := List.mem_flatMap.1 hb
  exact (List.mem_replicate.1 hi).2

theorem separates_iff [Nontrivial α] : Separates S α l l' is ↔
    (∀ i ∈ is, l i = l' i ∧ i ∈ kept S l 0 is) ∨
      ((kept S l 0 is).map l).sum ≠ ((kept S l' 0 is).map l').sum := by
  classical
  refine ⟨fun h => ?_, fun h => h.elim separates_of_kept separates_of_sum_ne⟩
  by_contra hnot
  obtain ⟨hnot, hsum⟩ := not_or.1 hnot
  rw [not_not] at hsum
  obtain ⟨a, b, hab⟩ := exists_pair_ne α
  have hlen : ∀ i ∈ is, l i = l' i := by
    have hwhole := (h (fun i => List.replicate (l i) a) (fun i => List.replicate (l' i) a)
      (fun i _ => List.length_replicate) fun i _ => List.length_replicate).1 (by
        rw [join_replicate, join_replicate, hsum])
    intro i hi
    have := congrArg List.length (hwhole i hi)
    rwa [List.length_replicate, List.length_replicate] at this
  refine hnot fun i hi => ⟨hlen i hi, ?_⟩
  by_contra hskip
  have hpos : l i ≠ 0 := fun hzero => hskip (mem_kept_of_eq_zero hzero is 0 (Nat.zero_le S) hi)
  let y : ι → List α := fun j => List.replicate (l' j) (if j = i then b else a)
  have hy : ∀ j ∈ is, (y j).length = l' j := fun j _ => List.length_replicate
  have hwhole : join S (fun i => List.replicate (l i) a) [] is = join S y [] is := by
    rw [join_eq (l := l) is [] fun i _ => List.length_replicate, join_eq is [] hy,
      ← kept_congr is _ hlen, List.nil_append, List.nil_append]
    refine List.flatMap_congr fun j hj => ?_
    have hji : j ≠ i := fun he => hskip (he ▸ hj)
    dsimp only [y]
    rw [if_neg hji, hlen j (kept_subset is _ hj)]
  have hitem := (h _ y (fun i _ => List.length_replicate) hy).1 hwhole i hi
  dsimp only [y] at hitem
  rw [if_pos rfl, ← hlen i hi] at hitem
  exact hab ((List.replicate_inj.1 hitem).2.resolve_left hpos)

end BoundedJoin
