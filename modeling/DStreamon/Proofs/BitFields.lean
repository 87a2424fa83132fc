import DStreamon.Lib.Fields
import DStreamon.Proofs.SubDigests

/-!
# The small digests of `KHASH` are bits of the long one

The blocks of the buffer make up one number, least significant byte first, and `H(i)` is its `i`th
field of `shash` bits.  The bits cut are always in blocks that are hashed.  The bytes hashed are not
always in the buffer: a long key makes the hash read past the end of it.
-/

namespace DStreamon

namespace KHASH

variable {h : HASH} {nhash shash hashdiglen size len n i : ℕ} {norep : Bool} {k s s' : KHASH}
  {key : List UInt8} {keys : List (List UInt8)} {m m' : ℕ → UInt8}

/-- `n` blocks of `hashdiglen` bytes, one behind the other. -/
def blocks (hashdiglen n : ℕ) (m : ℕ → UInt8) : List UInt8 := (List.range (n * hashdiglen)).map m

/-- Bits `i * shash` to `(i + 1) * shash` of the bytes' number. -/
def bitField (shash : ℕ) (bytes : List UInt8) (i : ℕ) : ℕ :=
  Bytes.value bytes / 2 ^ (i * shash) % 2 ^ shash

example : (bitField 12 [0x34, 0x12, 0xab] 0, bitField 12 [0x34, 0x12, 0xab] 1) =
    (0x234, 0xab1) := by
  decide

/-- After `compute` of a key: every block is the digest of as many bytes as the key has, and the
small digests are the fields of the blocks. -/
structure BitFields (h : HASH) (s : KHASH) (key : List UInt8) (s' : KHASH) : Prop where
  hashed : ∀ b < s.hashtodo, ∃ bytes : List UInt8, bytes.length = key.length ∧
    ∀ j < h.digestLength, s'.msgdig (b * h.digestLength + j) = h.compute bytes j
  fields : ∀ i < s.nhash,
    s'.res i = bitField s.shash (blocks h.digestLength s.hashtodo s'.msgdig) i

/-! ## The blocks are enough -/

/-- The test for one block more fails only where one block is exactly enough. -/
theorem hashTodo_eq (hbits : nhash * shash < 2 ^ 16) (hdig : 0 < hashdiglen) :
    hashTodo hashdiglen nhash shash =
      if nhash * shash = 8 * hashdiglen then 1 else nhash * shash / (8 * hashdiglen) + 1 := by
  unfold hashTodo
  simp only [Nat.mul_comm shash nhash]
  rw [Nat.mod_eq_of_lt (Nat.lt_trans hbits (by decide))]
  have hblock : 8 ≤ 8 * hashdiglen := by omega
  generalize nhash * shash = bitneeded at hbits ⊢
  generalize 8 * hashdiglen = block at hblock ⊢
  have hprod : bitneeded / block * bitneeded < 2 ^ 32 := calc
    bitneeded / block * bitneeded ≤ bitneeded * bitneeded :=
      Nat.mul_le_mul_right _ (Nat.div_le_self _ _)
    _ ≤ (2 ^ 16 - 1) * (2 ^ 16 - 1) := Nat.mul_le_mul (by omega) (by omega)
    _ < 2 ^ 32 := by decide
  rw [Nat.mod_eq_of_lt hprod]
  rcases Nat.lt_trichotomy bitneeded block with hlt | heq | hgt
  · rw [Nat.div_eq_of_lt hlt, Nat.zero_mul, if_pos (by omega), if_neg (by omega)]
  · rw [heq, Nat.div_self (by omega), Nat.one_mul, if_neg (not_not.2 rfl), if_pos rfl]
  · have hone : 1 ≤ bitneeded / block := (Nat.one_le_div_iff (by omega)).2 hgt.le
    have hle := Nat.mul_le_mul_right bitneeded hone
    rw [if_pos (by omega), if_neg (by omega)]

theorem le_hashTodo (hbits : nhash * shash < 2 ^ 16) (hdig : 0 < hashdiglen) :
    nhash * shash ≤ hashTodo hashdiglen nhash shash * hashdiglen * 8 := by
  rw [hashTodo_eq hbits hdig, Nat.mul_assoc, Nat.mul_comm hashdiglen]
  split
  · next heq => rw [heq, Nat.one_mul]
  · exact (Nat.lt_mul_div_succ _ (by omega)).le.trans_eq (Nat.mul_comm _ _)

theorem hashTodo_le_one (hbits : nhash * shash < 2 ^ 16) (hdig : 0 < hashdiglen) :
    hashTodo hashdiglen nhash shash ≤ 1 ↔ nhash * shash ≤ 8 * hashdiglen := by
  rw [hashTodo_eq hbits hdig]
  split
  · next heq => exact iff_of_true le_rfl heq.le
  · next hne =>
    have hzero : nhash * shash / (8 * hashdiglen) = 0 ↔ nhash * shash < 8 * hashdiglen :=
      Nat.div_eq_zero_iff_lt (by omega)
    generalize nhash * shash / (8 * hashdiglen) = more at hzero ⊢
    omega

/-- Wherever a field of the blocks is, the bytes it is cut from are in the buffer. -/
theorem inBuffer (hpos : 0 < shash) (hall : nhash * shash < 2 ^ 32)
    (hcover : nhash * shash ≤ n * hashdiglen * 8) (hi : i < nhash) :
    InBuffer shash (bufferSize hashdiglen n) i := by
  have hnext : (i + 1) * shash ≤ nhash * shash := Nat.mul_le_mul_right _ hi
  have hsucc : (i + 1) * shash = i * shash + shash := Nat.succ_mul i shash
  unfold InBuffer startoffset endoffset bufferSize
  rw [Nat.mod_eq_of_lt (by omega : i * shash < 2 ^ 32),
    Nat.mod_eq_of_lt (Nat.lt_of_le_of_lt hnext hall)]
  omega

/-! ## What is cut -/

theorem testBit_blocks {t : ℕ} (ht : t < n * hashdiglen * 8) :
    (Bytes.value (blocks hashdiglen n m)).testBit t = (m (t / 8)).toNat.testBit (t % 8) := by
  refine Bytes.testBit_value ?_
  have hbyte : t / 8 < n * hashdiglen := by omega
  rw [blocks, List.getElem?_map, List.getElem?_range hbyte, Option.map_some]

/-- A field within the blocks is cut out as it is, whatever they hold. -/
theorem subDigest_eq (hshash : shash ≤ 32) (hall : (i + 1) * shash < 2 ^ 32)
    (hcover : (i + 1) * shash ≤ n * hashdiglen * 8) :
    subDigest shash m i = bitField shash (blocks hashdiglen n m) i := by
  have hsucc : (i + 1) * shash = i * shash + shash := Nat.succ_mul i shash
  refine Nat.eq_of_testBit_eq fun j => ?_
  rw [bitField, Nat.testBit_mod_two_pow, Nat.testBit_div_two_pow]
  by_cases hj : j < shash
  · rw [testBit_subDigest m hshash hj (by omega) (.inr hall), testBit_blocks (by omega),
      Nat.add_comm j]
    simp [hj]
  · unfold subDigest
    rw [Nat.testBit_and, Nat.testBit_two_pow_sub_one]
    simp [hj]

/-! ## What is hashed -/

/-- The rounds of the loop fail only where the hash reads past the end. -/
theorem hashLoop_isSome : ∀ {n i : ℕ} {m : ℕ → UInt8}, 1 ≤ i →
    ((hashLoop h size len n i m).isSome ↔ ∀ j < n, (i - 1 + j) * h.digestLength + len ≤ size)
  | 0, _, _, _ => iff_of_true rfl fun j hj => absurd hj (Nat.not_lt_zero j)
  | n + 1, i, m, hi => by
    have hrest : ∀ bytes, (hashLoop h size len n (i + 1)
        (write h m (i * h.digestLength) (h.compute bytes))).isSome ↔
          ∀ j < n, (i - 1 + (j + 1)) * h.digestLength + len ≤ size := fun bytes => by
      rw [hashLoop_isSome (Nat.le_add_left 1 i)]
      refine forall₂_congr fun j _ => ?_
      rw [show i + 1 - 1 + j = i - 1 + (j + 1) by omega]
    rw [hashLoop]
    by_cases hin : (i - 1) * h.digestLength + len ≤ size
    · rw [read, if_pos hin, Option.bind_some, hrest]
      exact ⟨fun hall j hj => j.casesOn (fun _ => hin) (fun j hj => hall j (by omega)) hj,
        fun hall j hj => hall (j + 1) (by omega)⟩
    · rw [read, if_neg hin]
      exact iff_of_false (by simp) fun hall => hin (hall 0 (Nat.succ_pos n))

/-- Every round writes a digest of as many bytes as the key has. -/
theorem hashLoop_blocks : ∀ {n i : ℕ} {m m' : ℕ → UInt8}, hashLoop h size len n i m = some m' →
    ∀ b, i ≤ b → b < i + n → ∃ bytes : List UInt8, bytes.length = len ∧
      ∀ j < h.digestLength, m' (b * h.digestLength + j) = h.compute bytes j
  | 0, _, _, _, _, _, _, _ => by omega
  | n + 1, i, m, m', hloop, b, hle, hlt => by
    simp only [hashLoop, Option.bind_eq_some_iff] at hloop
    obtain ⟨bytes, hread, hloop⟩ := hloop
    rcases Nat.eq_or_lt_of_le hle with rfl | hlt'
    · refine ⟨bytes, ?_, fun j hj => ?_⟩
      · unfold read at hread
        split at hread
        · rw [← Option.some.inj hread, List.length_map, List.length_range]
        · cases hread
      · rw [hashLoop_outside hloop _ (.inl (by rw [Nat.succ_mul]; omega)),
          write_inside (Nat.le_add_right _ j) (by omega), Nat.add_sub_cancel_left]
    · exact hashLoop_blocks hloop b hlt' (by omega)

theorem compute_blocks (hc : compute h s key = some s') : ∀ b < s.hashtodo,
    ∃ bytes : List UInt8, bytes.length = key.length ∧
      ∀ j < h.digestLength, s'.msgdig (b * h.digestLength + j) = h.compute bytes j := by
  intro b hb
  obtain ⟨m, hloop, -, rfl⟩ := compute_eq_some.1 hc
  rcases Nat.eq_zero_or_pos b with rfl | hpos
  · refine ⟨key, rfl, fun j hj => ?_⟩
    rw [Nat.zero_mul, Nat.zero_add]
    change m j = _
    rw [hashLoop_outside hloop j (.inl (by omega)), write_inside (Nat.zero_le j) (by omega),
      Nat.sub_zero]
  · exact hashLoop_blocks hloop b hpos (by omega)

/-! ## Calls of `compute` -/

/-- A call fails only where one block is not enough and the hash reads past the end. -/
theorem hashed_iff (hbits : nhash * shash < 2 ^ 16) (hdig : 0 < h.digestLength)
    (hs : Made h nhash shash s) :
    (hashLoop h (bufferSize h.digestLength s.hashtodo) key.length (s.hashtodo - 1) 1
      (write h s.msgdig 0 (h.compute key))).isSome ↔
        nhash * shash ≤ 8 * h.digestLength ∨ key.length ≤ 2 * h.digestLength + 4 := by
  rw [hashLoop_isSome le_rfl, ← hashTodo_le_one hbits hdig, ← hs.todo_eq, bufferSize]
  constructor
  · intro hall
    by_contra hnot
    have hlast := hall (s.hashtodo - 2) (by omega)
    have htodo : s.hashtodo * h.digestLength =
        (s.hashtodo - 2) * h.digestLength + 2 * h.digestLength := by
      rw [← Nat.add_mul]
      congr 1
      omega
    rw [Nat.sub_self, Nat.zero_add] at hlast
    omega
  · intro hcond j hj
    have hle : (j + 2) * h.digestLength ≤ s.hashtodo * h.digestLength :=
      Nat.mul_le_mul_right _ (by omega)
    rw [Nat.sub_self, Nat.zero_add]
    rw [Nat.add_mul] at hle
    omega

/-- Whatever the blocks hold, the small digests cut from them are their fields, in hashed blocks and
in the buffer; and a call leaves such digests, with every byte read in the buffer, if and only if
one block is enough or the key is not longer than two blocks and the tail. -/
theorem bitFields_iff (hnew : new h nhash shash norep = some k) (hbits : nhash * shash < 2 ^ 16)
    (hrun : run h k keys = some s) :
    (nhash * shash ≤ k.hashtodo * h.digestLength * 8 ∧ ∀ i < nhash,
      InBuffer shash (bufferSize h.digestLength k.hashtodo) i ∧ ∀ m,
        subDigest shash m i = bitField shash (blocks h.digestLength k.hashtodo m) i) ∧
    ((∃ s', compute h s key = some s' ∧ BitFields h s key s') ↔
      nhash * shash ≤ 8 * h.digestLength ∨ key.length ≤ 2 * h.digestLength + 4) := by
  obtain ⟨⟨hshash, -, hpos⟩, hk, -⟩ := new_eq_some hnew
  have hdig := digestLength_pos hnew
  have hs := hk.run hdig hrun
  have hcover : nhash * shash ≤ k.hashtodo * h.digestLength * 8 :=
    hk.todo_eq ▸ le_hashTodo hbits hdig
  have hin : ∀ i < nhash, InBuffer shash (bufferSize h.digestLength k.hashtodo) i := fun i =>
    inBuffer (Nat.pos_of_ne_zero hpos) (by omega) hcover
  have hcut : ∀ i < nhash, ∀ m,
      subDigest shash m i = bitField shash (blocks h.digestLength k.hashtodo m) i := by
    intro i hi m
    have hnext : (i + 1) * shash ≤ nhash * shash := Nat.mul_le_mul_right _ hi
    exact subDigest_eq hshash (by omega) (by omega)
  refine ⟨⟨hcover, fun i hi => ⟨hin i hi, hcut i hi⟩⟩, ?_⟩
  rw [← hashed_iff hbits hdig hs, Option.isSome_iff_exists]
  constructor
  · rintro ⟨s', hc, -⟩
    obtain ⟨m, hloop, -⟩ := compute_eq_some.1 hc
    exact ⟨m, hloop⟩
  · rintro ⟨m, hloop⟩
    have htodo : s.hashtodo = k.hashtodo := hs.todo_eq.trans hk.todo_eq.symm
    have hc := compute_eq_some.2 ⟨m, hloop, by rwa [hs.nhash_eq, hs.shash_eq, htodo], rfl⟩
    refine ⟨_, hc, compute_blocks hc, fun i hi => ?_⟩
    rw [hs.nhash_eq] at hi
    rw [hs.res_eq hc hi, hs.shash_eq, htodo]
    exact hcut i hi _

/-- 200 bits from digests of 20 bytes, for a key that fills the buffer of two blocks. -/
theorem bitFields_full : ∃ k s', new (lookBehind 20 (by decide)) 10 20 false = some k ∧
    compute (lookBehind 20 (by decide)) k (List.replicate 44 0) = some s' ∧
      BitFields (lookBehind 20 (by decide)) k (List.replicate 44 0) s' := by
  obtain ⟨k, hnew⟩ : ∃ k, new (lookBehind 20 (by decide)) 10 20 false = some k := ⟨_, rfl⟩
  have hrun : run (lookBehind 20 (by decide)) k [] = some k := rfl
  have hlen : (List.replicate 44 (0 : UInt8)).length ≤ 2 * 20 + 4 := by decide
  obtain ⟨s', hs'⟩ := (bitFields_iff hnew (by decide) hrun).2.2 (.inr hlen)
  exact ⟨k, s', hnew, hs'⟩

/-- One byte more is read past the end. -/
theorem not_bitFields : ¬ ∀ (h : HASH) (nhash shash : ℕ) (norep : Bool) (k : KHASH)
    (key : List UInt8), new h nhash shash norep = some k → nhash * shash < 2 ^ 16 →
      ∃ s', compute h k key = some s' ∧ BitFields h k key s' := by
  intro hall
  obtain ⟨k, hnew⟩ : ∃ k, new (lookBehind 20 (by decide)) 10 20 false = some k := ⟨_, rfl⟩
  obtain ⟨s', hc, -⟩ := hall _ 10 20 false k (List.replicate 45 0) hnew (by decide)
  obtain ⟨m, hloop, -⟩ := compute_eq_some.1 hc
  have hlong := (hashed_iff (by decide) (by decide) (new_eq_some hnew).2.1).1
    (Option.isSome_of_eq_some hloop)
  exact absurd hlong (by decide)

end KHASH

end DStreamon
