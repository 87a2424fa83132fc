import Mathlib.Data.Finset.Card
import Mathlib.Data.Finset.Range
import Mathlib.Data.Nat.Notation
import Mathlib.Logic.Function.Basic

/-!
# Arrays of bits kept in bytes

Bit `p` is bit `p % 8` of byte `p / 8`, tested and set by a one-bit mask.
-/

namespace BitArray

/-- Whether bit `p` is set. -/
def test (m : ℕ → BitVec 8) (p : ℕ) : Bool := (m (p / 8)).getLsbD (p % 8)

/-- The mask of bit `t` of a byte. -/
def mask (t : ℕ) : BitVec 8 := 1#8 <<< t

@[simp] theorem test_zero (p : ℕ) : test (fun _ => 0#8) p = false := by
  simp [test]

theorem getLsbD_mask {t u : ℕ} (ht : t < 8) : (mask t).getLsbD u = decide (u = t) := by
  unfold mask
  rw [BitVec.getLsbD_shiftLeft, BitVec.getLsbD_one]
  by_cases hut : u = t
  · subst hut
    simp [ht]
  · simp only [hut, decide_false, Bool.and_eq_false_imp, Bool.and_eq_true,
      decide_eq_true_eq, Bool.not_eq_true', decide_eq_false_iff_not]
    omega

theorem and_mask_eq_zero_iff {x : BitVec 8} {t : ℕ} (ht : t < 8) :
    x &&& mask t = 0#8 ↔ x.getLsbD t = false := by
  constructor
  · intro h
    have := congrArg (BitVec.getLsbD · t) h
    simpa [getLsbD_mask ht] using this
  · intro h
    refine BitVec.eq_of_getLsbD_eq fun i _ => ?_
    rw [BitVec.getLsbD_and, getLsbD_mask ht]
    by_cases hit : i = t
    · subst hit
      simp [h]
    · simp [hit]

theorem test_eq_false_iff (m : ℕ → BitVec 8) (p : ℕ) :
    m (p / 8) &&& mask (p % 8) = 0#8 ↔ test m p = false :=
  and_mask_eq_zero_iff (Nat.mod_lt _ (by decide))

/-- Setting bit `p` sets that bit and no other. -/
theorem test_set (m : ℕ → BitVec 8) (p q : ℕ) :
    test (Function.update m (p / 8) (m (p / 8) ||| mask (p % 8))) q = (test m q || q = p) := by
  unfold test
  by_cases hb : q / 8 = p / 8
  · rw [hb, Function.update_self, BitVec.getLsbD_or, getLsbD_mask (Nat.mod_lt _ (by decide))]
    congr 2
    apply propext
    omega
  · rw [Function.update_of_ne hb]
    have : q ≠ p := fun e => hb (by rw [e])
    simp [this]

/-! ## How many bits are set -/

/-- The bits set among the first `n`. -/
def ones (n : ℕ) (m : ℕ → BitVec 8) : ℕ :=
  ((Finset.range n).filter fun p => test m p).card

theorem ones_set {n p : ℕ} {m : ℕ → BitVec 8} (hp : p < n) (hnew : test m p = false) :
    ones n (Function.update m (p / 8) (m (p / 8) ||| mask (p % 8))) = ones n m + 1 := by
  have hset : ((Finset.range n).filter fun q =>
      test (Function.update m (p / 8) (m (p / 8) ||| mask (p % 8))) q) =
        insert p ((Finset.range n).filter fun q => test m q) := by
    ext q
    simp only [test_set, Finset.mem_filter, Finset.mem_range, Finset.mem_insert,
      Bool.or_eq_true, decide_eq_true_eq]
    constructor
    · rintro ⟨hq, hm | rfl⟩
      · exact .inr ⟨hq, hm⟩
      · exact .inl rfl
    · rintro (rfl | ⟨hq, hm⟩)
      · exact ⟨hp, .inr rfl⟩
      · exact ⟨hq, .inl hm⟩
  rw [ones, hset, Finset.card_insert_of_notMem (by simp [hnew]), ones]

/-- The bits not set among the first `n`. -/
def zeros (n : ℕ) (m : ℕ → BitVec 8) : ℕ :=
  ((Finset.range n).filter fun p => ¬ test m p).card

theorem ones_add_zeros (n : ℕ) (m : ℕ → BitVec 8) : ones n m + zeros n m = n := by
  rw [ones, zeros, Finset.card_filter_add_card_filter_not, Finset.card_range]

theorem zeros_of_clear {n : ℕ} {m : ℕ → BitVec 8} (h : ∀ p < n, test m p = false) :
    zeros n m = n := by
  rw [zeros, Finset.filter_true_of_mem, Finset.card_range]
  intro p hp
  simp [h p (Finset.mem_range.1 hp)]

theorem zeros_eq_iff {n : ℕ} {m : ℕ → BitVec 8} :
    zeros n m = n ↔ ∀ p < n, test m p = false := by
  refine ⟨fun h p hp => ?_, zeros_of_clear⟩
  have hones : ones n m = 0 := by
    have := ones_add_zeros n m
    omega
  have hp' := Finset.filter_eq_empty_iff.1 (Finset.card_eq_zero.1 hones) (Finset.mem_range.2 hp)
  simpa using hp'

theorem ones_mono {n : ℕ} {m m' : ℕ → BitVec 8}
    (h : ∀ p < n, test m p = true → test m' p = true) : ones n m ≤ ones n m' := by
  refine Finset.card_le_card fun p hp => ?_
  simp only [Finset.mem_filter, Finset.mem_range] at hp ⊢
  exact ⟨hp.1, h p hp.1 hp.2⟩

theorem ones_le {n k : ℕ} {m : ℕ → BitVec 8} (h : ∀ p < n, test m p = true → p < k) :
    ones n m ≤ k := by
  have hsub : ((Finset.range n).filter fun p => test m p) ⊆ Finset.range k := by
    intro p hp
    simp only [Finset.mem_filter, Finset.mem_range] at hp ⊢
    exact h p hp.1 hp.2
  simpa [ones] using Finset.card_le_card hsub

end BitArray
