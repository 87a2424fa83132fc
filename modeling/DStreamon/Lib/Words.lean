import Mathlib.Data.Nat.Bitwise
import Mathlib.Data.Nat.Notation
import Mathlib.Data.UInt

/-!
# Slices of a stream of words

Bit `q` of a stream of 32-bit words is bit `q % 32` of word `q / 32`.  A slice of up to 32 bits
lies in one word or straddles two, and is cut from them by shifts and masks.
-/

namespace Words

/-- Bit `q` of the stream. -/
def bit (w : ℕ → UInt32) (q : ℕ) : Bool := (w (q / 32)).toNat.testBit (q % 32)

/-- The number whose bits are the `bits` bits from `ptr` on. -/
def slice (w : ℕ → UInt32) (ptr bits : ℕ) : ℕ := Nat.ofBits fun t : Fin bits => bit w (ptr + t)

variable {w w' : ℕ → UInt32} {ptr bits : ℕ} {m : UInt32}

theorem slice_lt (w : ℕ → UInt32) (ptr bits : ℕ) : slice w ptr bits < 2 ^ bits :=
  Nat.ofBits_lt_two_pow _

theorem testBit_slice (t : ℕ) :
    (slice w ptr bits).testBit t = (decide (t < bits) && bit w (ptr + t)) := by
  rw [slice, Nat.testBit_ofBits]
  by_cases h : t < bits <;> simp [h]

theorem testBit_of_le (x : UInt32) {t : ℕ} (h : 32 ≤ t) : x.toNat.testBit t = false :=
  Nat.testBit_lt_two_pow (lt_of_lt_of_le x.toNat_lt (Nat.pow_le_pow_right (by decide) h))

/-- The slice in one word. -/
theorem cut_low (hm : m.toNat = 2 ^ bits - 1) (h : ptr % 32 + bits ≤ 32) :
    ((w (ptr / 32) >>> (ptr % 32).toUInt32) &&& m).toNat = slice w ptr bits := by
  refine Nat.eq_of_testBit_eq fun t => ?_
  have hptr : (ptr % 32).toUInt32.toNat % 32 = ptr % 32 := by
    simp only [Nat.toUInt32, UInt32.toNat_ofNat']
    omega
  rw [testBit_slice, UInt32.toNat_and, UInt32.toNat_shiftRight, hptr, hm, Nat.testBit_and,
    Nat.testBit_shiftRight, Nat.testBit_two_pow_sub_one, Bool.and_comm]
  by_cases ht : t < bits
  · unfold bit
    rw [show (ptr + t) / 32 = ptr / 32 by omega, show (ptr + t) % 32 = ptr % 32 + t by omega]
  · simp [ht]

/-- The slice of a word and the next. -/
theorem cut_straddle {c : UInt32} (hm : m.toNat = 2 ^ bits - 1) (hb : bits ≤ 32)
    (h : 32 < ptr % 32 + bits) (hc : c.toNat = 2 ^ (ptr % 32 + bits - 32) - 1) :
    (((w (ptr / 32) >>> (ptr % 32).toUInt32) &&& m) |||
      ((w (ptr / 32 + 1) &&& c) <<< (bits - (ptr % 32 + bits - 32)).toUInt32)).toNat =
        slice w ptr bits := by
  refine Nat.eq_of_testBit_eq fun t => ?_
  have hptr : (ptr % 32).toUInt32.toNat % 32 = ptr % 32 := by
    simp only [Nat.toUInt32, UInt32.toNat_ofNat']
    omega
  have hsh : (bits - (ptr % 32 + bits - 32)).toUInt32.toNat % 32 = 32 - ptr % 32 := by
    simp only [Nat.toUInt32, UInt32.toNat_ofNat']
    omega
  rw [testBit_slice, UInt32.toNat_or, UInt32.toNat_and, UInt32.toNat_shiftRight, hptr, hm,
    UInt32.toNat_shiftLeft, UInt32.toNat_and, hsh, hc, Nat.testBit_or, Nat.testBit_and,
    Nat.testBit_shiftRight, Nat.testBit_two_pow_sub_one, Nat.testBit_mod_two_pow,
    Nat.testBit_shiftLeft, Nat.testBit_and, Nat.testBit_two_pow_sub_one]
  by_cases ht : t < bits
  · by_cases hlow : ptr % 32 + t < 32
    · have hge : ¬ 32 - ptr % 32 ≤ t := by omega
      unfold bit
      rw [show (ptr + t) / 32 = ptr / 32 by omega, show (ptr + t) % 32 = ptr % 32 + t by omega]
      simp [ht, hge]
    · have hge : 32 - ptr % 32 ≤ t := by omega
      have hin : t - (32 - ptr % 32) < ptr % 32 + bits - 32 := by omega
      have ht32 : t < 32 := by omega
      unfold bit
      rw [show (ptr + t) / 32 = ptr / 32 + 1 by omega,
        show (ptr + t) % 32 = t - (32 - ptr % 32) by omega]
      simp [ht, hge, hin, ht32, testBit_of_le (w (ptr / 32)) (by omega : 32 ≤ ptr % 32 + t)]
  · have hout : ¬ t - (32 - ptr % 32) < ptr % 32 + bits - 32 := by omega
    simp [ht, hout]

/-- `(1 << bits) - 1` -/
theorem toNat_mask (h : bits < 32) :
    (((1 : UInt32) <<< bits.toUInt32) - 1).toNat = 2 ^ bits - 1 := by
  have hb : bits.toUInt32.toNat % 32 = bits := by
    simp only [Nat.toUInt32, UInt32.toNat_ofNat']
    omega
  have hpow : 2 ^ bits < 2 ^ 32 := Nat.pow_lt_pow_right (by decide) h
  have hpos : 1 ≤ 2 ^ bits := Nat.one_le_two_pow
  have hone : ((1 : UInt32) <<< bits.toUInt32).toNat = 2 ^ bits := by
    rw [UInt32.toNat_shiftLeft, hb, UInt32.toNat_one, Nat.one_shiftLeft, Nat.mod_eq_of_lt hpow]
  rw [UInt32.toNat_sub_of_le _ _ (UInt32.le_iff_toNat_le.2 (by simpa [hone] using hpos)), hone,
    UInt32.toNat_one]

end Words
