import DStreamon.NetTypes
import Mathlib.Algebra.Order.Floor.Semifield
import Mathlib.Tactic.Linarith
import Mathlib.Tactic.NormNum

/-!
# NTP times and back

The fraction is scaled by twice what its field holds, so the second half of every second does not
fit.  In the first half, what comes back is at most one unit early.
-/

namespace DStreamon.NetTypes

/-- Scaled up and down again, both times rounded down. -/
theorem scaled_back {d s : ℕ} (hd : 0 < d) (hds : d ≤ s) (x : ℕ) :
    x * s / d * d / s ≤ x ∧ x ≤ x * s / d * d / s + 1 := by
  have hs : 0 < s := hd.trans_le hds
  have hle : x * s / d * d ≤ x * s := Nat.div_mul_le_self (x * s) d
  have hlt : x * s < x * s / d * d + d := Nat.lt_div_mul_add hd
  constructor
  · exact Nat.div_le_of_le_mul (hle.trans_eq (Nat.mul_comm x s))
  · refine Nat.le_of_lt_succ (Nat.lt_of_mul_lt_mul_right (a := s) ?_)
    have hback : x * s / d * d < (x * s / d * d / s + 1) * s := by
      have := Nat.lt_div_mul_add (a := x * s / d * d) hs
      rwa [Nat.add_mul, Nat.one_mul]
    calc x * s < x * s / d * d + d := hlt
      _ < (x * s / d * d / s + 1) * s + s := Nat.add_lt_add_of_lt_of_le hback hds
      _ = (x * s / d * d / s + 1).succ * s := (Nat.succ_mul _ _).symm

/-! ## The cast -/

theorem castUint32_div {m n : ℕ} (hn : 0 < n) : castUint32 ((m : ℚ) / n) =
    if m / n < 2 ^ 32 then some (UInt32.ofNat (m / n)) else none := by
  have hq : (0 : ℚ) < n := Nat.cast_pos.2 hn
  have hpos : (-1 : ℚ) < (m : ℚ) / n := by
    have : (0 : ℚ) ≤ (m : ℚ) / n := by positivity
    linarith
  have hlt : (m : ℚ) / n < 2 ^ 32 ↔ m / n < 2 ^ 32 := by
    rw [div_lt_iff₀ hq, Nat.div_lt_iff_lt_mul hn]
    exact_mod_cast Iff.rfl
  rw [castUint32, Nat.floor_div_eq_div]
  simp only [hpos, hlt, true_and]

theorem castUint32_neg {q : ℚ} (h : q ≤ -1) : castUint32 q = none :=
  if_neg fun hq => absurd hq.1 (not_lt.2 h)

/-- A fraction of a second: `x` of the `d` parts of one. -/
theorem castUint32_up {d : ℕ} (hd : 0 < d) (x : ℕ) : castUint32 ((x : ℚ) / d * k2_32) =
    if x * k2_32 / d < 2 ^ 32 then some (UInt32.ofNat (x * k2_32 / d)) else none := by
  rw [← castUint32_div hd, Nat.cast_mul, div_mul_eq_mul_div]

/-- A fraction back to the parts. -/
theorem castUint32_down (d : ℕ) (f : UInt32) : castUint32 ((f.toNat : ℚ) * d / k2_32) =
    if f.toNat * d / k2_32 < 2 ^ 32 then some (UInt32.ofNat (f.toNat * d / k2_32)) else none := by
  rw [← castUint32_div (by simp [k2_32]), Nat.cast_mul]

/-- The fraction's width holds half of the scale. -/
theorem fraction_fits {d : ℕ} (hd : 0 < d) (x : ℕ) :
    x * k2_32 / d < 2 ^ 32 ↔ 2 * x < d := by
  rw [Nat.div_lt_iff_lt_mul hd, k2_32]
  constructor <;> intro h <;> omega

/-- What a fraction that fits is read back as. -/
theorem fraction_back {d x : ℕ} (hd : 0 < d) (hds : d ≤ k2_32) (hx : 2 * x < d) :
    ∃ back : UInt32, castUint32 (((UInt32.ofNat (x * k2_32 / d)).toNat : ℚ) * d / k2_32) =
      some back ∧ back.toNat ≤ x ∧ x ≤ back.toNat + 1 := by
  have hfit := (fraction_fits hd x).2 hx
  obtain ⟨hle, hge⟩ := scaled_back hd hds x
  have hfrac : (UInt32.ofNat (x * k2_32 / d)).toNat = x * k2_32 / d :=
    UInt32.toNat_ofNat_of_lt' hfit
  have hx32 : x < 2 ^ 32 := by
    rw [k2_32] at hds
    omega
  have hback : x * k2_32 / d * d / k2_32 < 2 ^ 32 := hle.trans_lt hx32
  refine ⟨UInt32.ofNat (x * k2_32 / d * d / k2_32), ?_, ?_⟩
  · rw [castUint32_down, hfrac, if_pos hback]
  · rw [UInt32.toNat_ofNat_of_lt' hback]
    exact ⟨hle, hge⟩

/-! ## Microseconds -/

theorem k10_6_le : k10_6 ≤ k2_32 := by decide

theorem k10_9_le : k10_9 ≤ k2_32 := by decide

/-- The whole seconds and the parts add up without wrapping. -/
theorem toNat_seconds (sec part : UInt32) :
    (sec.toUInt64 * UInt64.ofNat k10_6 + part.toUInt64).toNat = sec.toNat * k10_6 + part.toNat := by
  have hsec := sec.toNat_lt
  have hpart := part.toNat_lt
  simp only [k10_6, UInt64.toNat_add, UInt64.toNat_mul, UInt32.toNat_toUInt64, UInt64.toNat_ofNat']
  omega

theorem toNat_ofInt_natCast {n : ℕ} (h : n < 2 ^ 64) : (UInt64.ofInt (n : ℤ)).toNat = n := by
  rw [UInt64.ofInt, UInt64.toNat_ofNat']
  omega

theorem timespecToUs_usToTimespec (us : UInt64) : timespecToUs (usToTimespec us) = us := by
  have hus := us.toNat_lt
  have hsec : us.toNat / 1000000 < 2 ^ 64 := by omega
  have hnsec : us.toNat % 1000000 * 1000 < 2 ^ 64 := by omega
  have hk6 : (UInt64.ofNat 1000000).toNat = 1000000 := rfl
  have hk3 : (UInt64.ofNat 1000).toNat = 1000 := rfl
  apply UInt64.toNat_inj.1
  simp only [timespecToUs, usToTimespec, k10_6, k10_3, UInt64.toNat_add, UInt64.toNat_mul,
    UInt64.toNat_div, hk6, hk3, toNat_ofInt_natCast hsec, toNat_ofInt_natCast hnsec]
  omega

theorem usToNtp_eq (us : UInt64) : usToNtp us = if 2 * (us.toNat % k10_6) < k10_6 then
    some ⟨UInt32.ofNat (us.toNat / k10_6), UInt32.ofNat (us.toNat % k10_6 * k2_32 / k10_6)⟩
    else none := by
  have hd : 0 < k10_6 := by decide
  rw [usToNtp, castUint32_up hd]
  simp only [fraction_fits hd]
  split_ifs <;> rfl

theorem usRoundTrips_of {us back : UInt64} {nt : Ntptime} (hnt : usToNtp us = some nt)
    (hback : ntpToUs nt = some back) :
    UsRoundTrips us ↔ |(back.toNat : ℤ) - us.toNat| ≤ 1 := by
  constructor
  · rintro ⟨nt', back', hnt', hback', h⟩
    cases hnt.symm.trans hnt'
    cases hback.symm.trans hback'
    exact h
  · exact fun h => ⟨nt, back, hnt, hback, h⟩

theorem usRoundTrips_iff (us : UInt64) :
    UsRoundTrips us ↔ us.toNat / k10_6 < 2 ^ 32 ∧ 2 * (us.toNat % k10_6) < k10_6 := by
  by_cases hx : 2 * (us.toNat % k10_6) < k10_6
  · obtain ⟨part, hpart, hle, hge⟩ := fraction_back (by decide) k10_6_le hx
    have hback : ntpToUs ⟨UInt32.ofNat (us.toNat / k10_6),
        UInt32.ofNat (us.toNat % k10_6 * k2_32 / k10_6)⟩ =
        some ((UInt32.ofNat (us.toNat / k10_6)).toUInt64 * UInt64.ofNat k10_6 + part.toUInt64) := by
      rw [ntpToUs, hpart]
      rfl
    have hus : us.toNat / k10_6 * k10_6 + us.toNat % k10_6 = us.toNat := Nat.div_add_mod' _ _
    rw [usRoundTrips_of ((usToNtp_eq us).trans (if_pos hx)) hback, toNat_seconds,
      UInt32.toNat_ofNat', abs_le]
    rw [k10_6] at *
    omega
  · rw [UsRoundTrips, usToNtp_eq, if_neg hx]
    simp [hx]

/-! ## Nanoseconds -/

theorem timespecToNtp_eq (sec : ℤ) (x : ℕ) : timespecToNtp ⟨sec, x⟩ = if 2 * x < k10_9 then
    some ⟨UInt32.ofInt sec, UInt32.ofNat (x * k2_32 / k10_9)⟩ else none := by
  have hd : 0 < k10_9 := by decide
  rw [timespecToNtp]
  simp only [Int.cast_natCast, castUint32_up hd, fraction_fits hd]
  split_ifs <;> rfl

/-- A negative nanosecond is more than one unit of the fraction away. -/
theorem timespecToNtp_neg {ts : Timespec} (h : ts.tvNsec < 0) : timespecToNtp ts = none := by
  have hnsec : (ts.tvNsec : ℚ) ≤ -1 := by exact_mod_cast Int.le_sub_one_of_lt h
  have hq : (ts.tvNsec : ℚ) / k10_9 * k2_32 ≤ -1 := by
    simp only [k10_9, k2_32]
    push_cast
    linarith
  rw [timespecToNtp, castUint32_neg hq]
  rfl

theorem toNat_ofInt_eq (z : ℤ) : ((UInt32.ofInt z).toNat : ℤ) = z ↔ 0 ≤ z ∧ z < 2 ^ 32 := by
  rw [UInt32.ofInt, UInt32.toNat_ofNat']
  omega

theorem timespecRoundTrips_of {ts back : Timespec} {nt : Ntptime} (hnt : timespecToNtp ts = some nt)
    (hback : ntpToTimespec nt = some back) :
    TimespecRoundTrips ts ↔ back.tvSec = ts.tvSec ∧ |back.tvNsec - ts.tvNsec| ≤ 1 := by
  constructor
  · rintro ⟨nt', back', hnt', hback', h⟩
    cases hnt.symm.trans hnt'
    cases hback.symm.trans hback'
    exact h
  · exact fun h => ⟨nt, back, hnt, hback, h⟩

theorem timespecRoundTrips_iff (ts : Timespec) : TimespecRoundTrips ts ↔
    (0 ≤ ts.tvSec ∧ ts.tvSec < 2 ^ 32) ∧ 0 ≤ ts.tvNsec ∧ 2 * ts.tvNsec < k10_9 := by
  obtain ⟨sec, nsec⟩ := ts
  obtain hneg | ⟨x, rfl⟩ : nsec < 0 ∨ ∃ x : ℕ, nsec = x := by
    rcases lt_or_ge nsec 0 with h | h
    · exact .inl h
    · exact .inr (Int.eq_ofNat_of_zero_le h)
  · rw [TimespecRoundTrips, timespecToNtp_neg hneg]
    simp [hneg]
  by_cases hx : 2 * x < k10_9
  · obtain ⟨part, hpart, hle, hge⟩ := fraction_back (by decide) k10_9_le hx
    have hback : ntpToTimespec ⟨UInt32.ofInt sec, UInt32.ofNat (x * k2_32 / k10_9)⟩ =
        some ⟨(UInt32.ofInt sec).toNat, part.toNat⟩ := by
      rw [ntpToTimespec, hpart]
      rfl
    rw [timespecRoundTrips_of ((timespecToNtp_eq sec x).trans (if_pos hx)) hback, toNat_ofInt_eq,
      abs_le]
    dsimp only
    omega
  · rw [TimespecRoundTrips, timespecToNtp_eq, if_neg hx]
    simp only [reduceCtorEq, false_and, exists_false, false_iff]
    omega

/-- Microseconds come back in the first half of a second, and so do nanoseconds. -/
theorem ntp_round_trips_iff (us : UInt64) (ts : Timespec) :
    (UsRoundTrips us ↔ us.toNat / 10 ^ 6 < 2 ^ 32 ∧ us.toNat % 10 ^ 6 < 500000) ∧
      (TimespecRoundTrips ts ↔
        (0 ≤ ts.tvSec ∧ ts.tvSec < 2 ^ 32) ∧ 0 ≤ ts.tvNsec ∧ ts.tvNsec < 500000000) := by
  constructor
  · rw [usRoundTrips_iff, k10_6]
    omega
  · rw [timespecRoundTrips_iff, k10_9]
    omega

theorem not_ntp_round_trips : ¬ ((∀ us : UInt64, us.toNat / 10 ^ 6 < 2 ^ 32 → UsRoundTrips us) ∧
    ∀ ts : Timespec, 0 ≤ ts.tvSec → ts.tvSec < 2 ^ 32 → 0 ≤ ts.tvNsec → ts.tvNsec < 10 ^ 9 →
      TimespecRoundTrips ts) := fun h => by
  have hus := (usRoundTrips_iff 500000).1 (h.1 500000 (by decide))
  exact absurd hus.2 (by decide)

end DStreamon.NetTypes
