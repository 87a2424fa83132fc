import DStreamon.Proofs.Bookkeeping

/-!
# Filters written out and read back

The reader counts the bytes of the bits by a formula of its own, which gives none for the tiny
filters and a huge number for the largest ones, and leaves the count of zeros as the constructor set
it.
-/

namespace DStreamon.Bloomfilter

variable {f g f₀ : Bloomfilter} {nhash shash : ℕ}

/-! ## The bytes -/

theorem memorySize_small (h : shash < 3) : memorySize shash = 0 := by
  have : shash = 0 ∨ shash = 1 ∨ shash = 2 := by omega
  rcases this with rfl | rfl | rfl <;> decide

/-- `1 << 31` is negative. -/
theorem lt_memorySize : 2 ^ 28 < memorySize 31 := by
  have hneg : ∀ x : ℤ, x = -2 ^ 28 → 2 ^ 28 < (x % 2 ^ 64).toNat := by
    intro x hx
    omega
  exact hneg (((2 : ℤ) ^ (31 % 32)).bmod (2 ^ 32) |>.tdiv 8) (by decide)

theorem memorySize_eq (h3 : 3 ≤ shash) (h31 : shash < 31) : memorySize shash = 2 ^ (shash - 3) := by
  have hnat : ∀ n : ℕ, n < 2 ^ 28 → ((8 * n : ℤ).bmod (2 ^ 32)).tdiv 8 = n := by
    intro n hn
    rw [Int.bmod_eq_of_le_mul_two (by omega) (by omega)]
    exact Int.mul_tdiv_cancel_left _ (by decide)
  have hmod : ∀ n : ℕ, n < 2 ^ 28 → ((n : ℤ) % 2 ^ 64).toNat = n := by
    intro n hn
    omega
  have hlt : 2 ^ (shash - 3) < 2 ^ 28 := Nat.pow_lt_pow_right (by decide) (by omega)
  have hpow : (2 ^ (shash % 32) : ℤ) = 8 * (2 ^ (shash - 3) : ℕ) := by
    have hnat : 2 ^ shash = 8 * 2 ^ (shash - 3) := by
      rw [show (8 : ℕ) = 2 ^ 3 by rfl, ← Nat.pow_add, show 3 + (shash - 3) = shash by omega]
    rw [Nat.mod_eq_of_lt (by omega)]
    exact_mod_cast hnat
  unfold memorySize
  simp only [hpow, hnat _ hlt]
  exact hmod _ hlt

/-- The bytes of a filter. -/
def written (f : Bloomfilter) : List UInt8 :=
  Bytes.le 4 f.nhash ++ (Bytes.le 4 f.shash ++
    (List.range f.mmaxArr).map fun i => UInt8.ofBitVec (f.m i))

theorem length_written (f : Bloomfilter) : f.written.length = f.mmaxArr + 8 := by
  simp only [written, List.length_append, Bytes.length_le, List.length_map, List.length_range]
  omega

theorem serialize_eq {maxLen : ℕ} (h : f.mmaxArr + 8 ≤ maxLen) :
    f.serialize maxLen = some f.written := if_neg (by omega)

theorem take_written {n : ℕ} (hn : 8 ≤ n) : f.written.take n = Bytes.le 4 f.nhash ++
    (Bytes.le 4 f.shash ++
      ((List.range f.mmaxArr).map fun i => UInt8.ofBitVec (f.m i)).take (n - 8)) := by
  rw [written, List.take_append, List.take_append, Bytes.length_le, Bytes.length_le,
    List.take_of_length_le (by rw [Bytes.length_le]; omega),
    List.take_of_length_le (by rw [Bytes.length_le]; omega), Nat.sub_sub]

/-! ## Reading them -/

/-- Fewer bytes than the two numbers. -/
theorem deserialize_short {buffer : List UInt8} (h : buffer.length < 8) :
    deserialize buffer = .ok none := by
  unfold deserialize
  rw [Bytes.le32_eq_none (i := 4) (by omega)]
  split
  · next h => cases h
  · rfl

/-- The two numbers and the bytes that follow them. -/
theorem deserialize_eq (hn : nhash < 2 ^ 31) (hs : shash < 2 ^ 31) (bytes : List UInt8) :
    deserialize (Bytes.le 4 nhash ++ (Bytes.le 4 shash ++ bytes)) =
      if bytes.length < memorySize shash then .ok none
      else new nhash shash true >>= fun bf => .ok (some { bf with
        m := fun i => if i < memorySize shash then (bytes.getD i 0).toBitVec else bf.m i }) := by
  have hnhash : Bytes.le32 (Bytes.le 4 nhash ++ (Bytes.le 4 shash ++ bytes)) 0 =
      some (UInt32.ofNat nhash) := Bytes.le32_le (by omega) [] rfl
  have hshash : Bytes.le32 (Bytes.le 4 nhash ++ (Bytes.le 4 shash ++ bytes)) 4 =
      some (UInt32.ofNat shash) := Bytes.le32_le (by omega) _ (Bytes.length_le 4 nhash)
  have htn : (UInt32.ofNat nhash).toNat = nhash := UInt32.toNat_ofNat_of_lt' (by
    rw [UInt32.size]
    omega)
  have hts : (UInt32.ofNat shash).toNat = shash := UInt32.toNat_ofNat_of_lt' (by
    rw [UInt32.size]
    omega)
  have hlen : (Bytes.le 4 nhash ++ (Bytes.le 4 shash ++ bytes)).length - 8 = bytes.length := by
    simp only [List.length_append, Bytes.length_le]
    omega
  have hget : ∀ i, (Bytes.le 4 nhash ++ (Bytes.le 4 shash ++ bytes)).getD (8 + i) 0 =
      bytes.getD i 0 := by
    intro i
    rw [List.getD_append_right _ _ _ _ (by rw [Bytes.length_le]; omega), Bytes.length_le,
      List.getD_append_right _ _ _ _ (by rw [Bytes.length_le]; omega), Bytes.length_le]
    congr 1
    omega
  unfold deserialize
  rw [hnhash, hshash]
  simp only [htn, hts, hlen, hget]
  rw [if_neg (show ¬(2 ^ 31 ≤ nhash ∨ 2 ^ 31 ≤ shash) by omega)]

theorem checkLoop_congr (ha : f.mmaxArr = g.mmaxArr) (hm : ∀ i < f.mmaxArr, f.m i = g.m i)
    (H : ℕ → UInt32) : ∀ n i, f.checkLoop H n i = g.checkLoop H n i
  | 0, _ => rfl
  | n + 1, i => by
    unfold checkLoop
    dsimp only
    rw [checkLoop_congr ha hm H n (i + 1), ← ha]
    by_cases hb : (H i).toNat / 8 < f.mmaxArr
    · rw [hm _ hb]
    · rw [if_pos hb, if_pos hb]

/-! ## The filter read back -/

/-- What a filter is for, once it is written out: the one read back is of its shape, answers as it
does and counts its zeros, and nothing shorter is read. -/
structure RoundTrips (f : Bloomfilter) : Prop where
  restored : ∀ maxLen, f.mmaxArr + 8 ≤ maxLen → ∃ bytes g, f.serialize maxLen = some bytes ∧
    deserialize bytes = .ok (some g) ∧ g.nhash = f.nhash ∧ g.shash = f.shash ∧
    (∀ fuel key, g.check fuel key = f.check fuel key) ∧
    (∀ bits, g.checkBits bits = f.checkBits bits) ∧ g.numZeros = f.numZeros
  prefixes : ∀ maxLen bytes, f.serialize maxLen = some bytes → ∀ n < bytes.length,
    deserialize (bytes.take n) = .ok none

theorem Alike.runs : ∀ {ops : List (ℕ × Op)} {f g : Bloomfilter}, Alike f₀ f → f.Booked →
    f.runs ops = .ok g → Alike f₀ g
  | [], f, g, ha, _, h => Except.ok.inj h ▸ ha
  | (fuel, o) :: ops, f, g, ha, hf, h => by
    obtain ⟨⟨f', b⟩, hf', h⟩ := bind_ok h
    have ha' : Alike f₀ f' := exec_keeps (P := Alike f₀) (fun _ => ha.trans (alike_clear f))
      (fun _ _ _ ha h _ => ha.trans (mark_ok h).1) hf ha hf'
    exact Alike.runs ha' (hf.exec hf') h

/-- The shape a filter has from its constructor. -/
structure Shape (n s : ℕ) (f : Bloomfilter) : Prop where
  nhash : f.nhash = n
  shash : f.shash = s
  norep : f.norep = true
  mmaxArr : f.mmaxArr = if s < 3 then 1 else 2 ^ (s - 3)
  admitted : Admitted n s true

theorem new_eq (ha : Admitted nhash shash true) : new nhash shash true =
    .ok ⟨nhash, shash, true, fun _ => 0#8, 2 ^ shash, if shash < 3 then 1 else 2 ^ (shash - 3),
      2 ^ shash⟩ :=
  if_pos ⟨ha.hashes, ha.bits, ha.small, ha.enough⟩

theorem shape_of_new (h : new nhash shash true = .ok f) : Shape nhash shash f := by
  unfold new at h
  by_cases hshape : 1 ≤ nhash ∧ 1 ≤ shash ∧ shash < 32 ∧ (true = true → nhash ≤ 2 ^ shash)
  · rw [if_pos hshape] at h
    obtain rfl := Except.ok.inj h
    exact ⟨rfl, rfl, rfl, rfl, hshape.1, hshape.2.1, hshape.2.2.1, hshape.2.2.2⟩
  · rw [if_neg hshape] at h
    cases h

theorem Shape.congr (hs : Shape nhash shash f) (ha : Alike f g) : Shape nhash shash g :=
  ⟨ha.nhash ▸ hs.nhash, ha.shash ▸ hs.shash, ha.norep ▸ hs.norep, ha.mmaxArr ▸ hs.mmaxArr,
    hs.admitted⟩

/-- The filter read back from a filter that is neither tiny nor of the largest size. -/
theorem deserialize_written (hs : Shape nhash shash f) (hn : nhash < 2 ^ 31) (h3 : 3 ≤ shash)
    (h31 : shash < 31) : ∃ g, deserialize f.written = .ok (some g) ∧ Alike f g ∧
      (∀ i < f.mmaxArr, f.m i = g.m i) ∧ g.numZeros = 2 ^ shash := by
  have hmem := memorySize_eq h3 h31
  have harr : f.mmaxArr = 2 ^ (shash - 3) := hs.mmaxArr.trans (if_neg (by omega))
  have hlen : ((List.range f.mmaxArr).map fun i => UInt8.ofBitVec (f.m i)).length = f.mmaxArr := by
    simp
  rw [written, hs.nhash, hs.shash, deserialize_eq hn (by omega), hlen, if_neg (by omega),
    new_eq hs.admitted]
  refine ⟨_, rfl, ⟨hs.nhash, hs.shash, hs.norep, hs.mmaxArr⟩, fun i hi => ?_, rfl⟩
  have hi' : i < memorySize shash := by omega
  simp [hi', hi]

theorem deserialize_prefix (hs : Shape nhash shash f) (hn : nhash < 2 ^ 31) (h3 : 3 ≤ shash)
    (h31 : shash < 31) {n : ℕ} (hlt : n < f.written.length) :
    deserialize (f.written.take n) = .ok none := by
  have hmem := memorySize_eq h3 h31
  have harr : f.mmaxArr = 2 ^ (shash - 3) := hs.mmaxArr.trans (if_neg (by omega))
  rw [length_written] at hlt
  by_cases h8 : n < 8
  · refine deserialize_short ?_
    rw [List.length_take]
    omega
  · rw [take_written (by omega), hs.nhash, hs.shash, deserialize_eq hn (by omega), if_pos]
    simp only [List.length_take, List.length_map, List.length_range]
    omega

/-- The numbers alone are a filter already, when it is tiny. -/
theorem deserialize_tiny (hs : Shape nhash shash f) (hn : nhash < 2 ^ 31) (h3 : shash < 3) :
    deserialize (f.written.take 8) ≠ .ok none := by
  rw [take_written (by omega), hs.nhash, hs.shash, deserialize_eq hn (by omega),
    memorySize_small h3,
    if_neg (by simp), new_eq hs.admitted]
  rintro ⟨⟩

theorem deserialize_largest (hs : Shape nhash shash f) (hn : nhash < 2 ^ 31) (h31 : shash = 31) :
    deserialize f.written = .ok none := by
  subst h31
  have harr : f.mmaxArr = 2 ^ 28 := hs.mmaxArr
  rw [written, hs.nhash, hs.shash, deserialize_eq hn (by omega), if_pos]
  rw [List.length_map, List.length_range, harr]
  exact lt_memorySize

/-- What is read back counts the zeros of an empty filter. -/
theorem RoundTrips.numZeros (h : RoundTrips f) (hs : Shape nhash shash f) (hn : nhash < 2 ^ 31)
    (h3 : 3 ≤ shash) (h31 : shash < 31) : f.numZeros = 2 ^ shash := by
  obtain ⟨bytes, g, hser, hde, -, -, -, -, hnz⟩ := h.restored _ le_rfl
  obtain rfl : f.written = bytes := Option.some.inj ((serialize_eq (f := f) le_rfl).symm.trans hser)
  obtain ⟨g', hg', -, -, hz'⟩ := deserialize_written hs hn h3 h31
  obtain rfl : g' = g := Option.some.inj (Except.ok.inj (hg'.symm.trans hde))
  exact hnz.symm.trans hz'

/-- A filter can be written out and read back iff it has from 8 to `2 ^ 30` bits and is empty. -/
theorem roundTrips_iff (nhash shash : ℕ) (ops : List (ℕ × Op)) (hn : nhash < 2 ^ 31)
    (hnew : new nhash shash true = .ok f₀) (h : f₀.runs ops = .ok f) : RoundTrips f ↔
      3 ≤ shash ∧ shash ≤ 30 ∧ ∀ p < 2 ^ shash, BitArray.test f.m p = false := by
  have hf₀ := new_booked hnew
  have hf := hf₀.runs h
  have ha : Alike f₀ f := Alike.runs ⟨rfl, rfl, rfl, rfl⟩ hf₀ h
  have hs := (shape_of_new hnew).congr ha
  have hsmall := hs.admitted.small
  have hlen := f.length_written
  have hz : f.numZeros = BitArray.zeros (2 ^ shash) f.m := hs.shash ▸ hf.zeros
  constructor
  · intro hrt
    have hw := serialize_eq (f := f) le_rfl
    have h3 : 3 ≤ shash := by
      by_contra h3
      refine deserialize_tiny hs hn (by omega) (hrt.prefixes _ _ hw 8 ?_)
      have harr : f.mmaxArr = 1 := hs.mmaxArr.trans (if_pos (by omega))
      omega
    have h31 : shash ≤ 30 := by
      by_contra h31
      obtain ⟨bytes, g, hser, hde, -⟩ := hrt.restored _ le_rfl
      obtain rfl : f.written = bytes := Option.some.inj (hw.symm.trans hser)
      rw [deserialize_largest hs hn (by omega)] at hde
      cases hde
    have hmax := hrt.numZeros hs hn h3 (by omega)
    exact ⟨h3, h31, BitArray.zeros_eq_iff.1 (hz.symm.trans hmax)⟩
  · rintro ⟨h3, h31, hempty⟩
    obtain ⟨g, hg, hfg, hm, hz'⟩ := deserialize_written hs hn h3 (by omega)
    have hloop : ∀ H, g.checkLoop H g.nhash 1 = f.checkLoop H f.nhash 1 := fun H => by
      rw [← hfg.nhash]
      exact (checkLoop_congr hfg.mmaxArr hm H f.nhash 1).symm
    refine ⟨fun maxLen hmax => ⟨_, g, serialize_eq hmax, hg, hfg.nhash.symm, hfg.shash.symm,
      fun fuel key => ?_, fun bits => ?_, ?_⟩, fun maxLen bytes hser n hlt => ?_⟩
    · simp only [check, hloop, hfg.nhash, hfg.shash, hfg.norep]
    · simp only [checkBits, hloop, hfg.nhash, hfg.shash, hfg.norep]
    · rw [hz', hz, BitArray.zeros_eq_iff.2 hempty]
    · unfold serialize at hser
      split_ifs at hser
      obtain rfl := Option.some.inj hser
      exact deserialize_prefix hs hn h3 (by omega) hlt

theorem roundTrips_empty : ∃ f₀ f, new 2 4 true = .ok f₀ ∧ f₀.runs [(0, .clear)] = .ok f ∧
    RoundTrips f := by
  refine ⟨_, _, rfl, rfl, (roundTrips_iff 2 4 [(0, .clear)] (by decide) rfl rfl).2 ?_⟩
  decide

/-- One bit set of sixteen, and sixteen zeros counted. -/
theorem restored_miscounts : ∃ f₀ f, new 1 4 true = .ok f₀ ∧
    f₀.runs [(0, .insert (.bits fun _ => 0))] = .ok f ∧ ¬ RoundTrips f := by
  refine ⟨_, _, rfl, rfl, fun h => ?_⟩
  have hz := h.numZeros ⟨rfl, rfl, rfl, rfl, by decide, by decide, by decide, by decide⟩
    (by decide) (by decide) (by decide)
  exact absurd hz (by decide)

end DStreamon.Bloomfilter
