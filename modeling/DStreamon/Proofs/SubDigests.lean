import DStreamon.SubDigests
import Mathlib.Data.Nat.Bitwise
import Mathlib.Tactic.Common

/-!
# When `KHASH` is stateless

With a key no longer than a block every block is made of bytes this call has written.  A longer key
makes the second block depend on what an earlier key left there.
-/

namespace DStreamon

namespace KHASH

/-! ## The bits of a small digest -/

theorem testBit_byte (b : UInt8) {n : ℕ} (hn : 8 ≤ n) : b.toNat.testBit n = false :=
  Nat.testBit_lt_two_pow (Nat.lt_of_lt_of_le b.toNat_lt (Nat.pow_le_pow_right (by decide) hn))

/-- The bits of four bytes read as a word. -/
theorem testBit_word (m : ℕ → UInt8) (a t : ℕ) :
    ((m a).toNat ||| (m (a + 1)).toNat <<< 8 ||| (m (a + 2)).toNat <<< 16 |||
      (m (a + 3)).toNat <<< 24).testBit t =
        (decide (t < 32) && (m (a + t / 8)).toNat.testBit (t % 8)) := by
  simp only [Nat.testBit_or, Nat.testBit_shiftLeft]
  have hbyte : t / 8 = 0 ∨ t / 8 = 1 ∨ t / 8 = 2 ∨ t / 8 = 3 ∨ 4 ≤ t / 8 := by omega
  rcases hbyte with h | h | h | h | h
  · have ht : t % 8 = t := by omega
    simp [h, ht, decide_eq_false (by omega : ¬ 8 ≤ t), decide_eq_false (by omega : ¬ 16 ≤ t),
      decide_eq_false (by omega : ¬ 24 ≤ t), (by omega : t < 32)]
  · have ht : t % 8 = t - 8 := by omega
    simp [h, ht, testBit_byte _ (by omega : 8 ≤ t), (by omega : 8 ≤ t),
      decide_eq_false (by omega : ¬ 16 ≤ t), decide_eq_false (by omega : ¬ 24 ≤ t),
      (by omega : t < 32)]
  · have ht : t % 8 = t - 16 := by omega
    simp [h, ht, testBit_byte _ (by omega : 8 ≤ t), testBit_byte _ (by omega : 8 ≤ t - 8),
      (by omega : 16 ≤ t), decide_eq_false (by omega : ¬ 24 ≤ t), (by omega : t < 32)]
  · have ht : t % 8 = t - 24 := by omega
    simp [h, ht, testBit_byte _ (by omega : 8 ≤ t), testBit_byte _ (by omega : 8 ≤ t - 8),
      testBit_byte _ (by omega : 8 ≤ t - 16), (by omega : 24 ≤ t), (by omega : t < 32)]
  · simp [testBit_byte _ (by omega : 8 ≤ t), testBit_byte _ (by omega : 8 ≤ t - 8),
      testBit_byte _ (by omega : 8 ≤ t - 16), testBit_byte _ (by omega : 8 ≤ t - 24),
      decide_eq_false (by omega : ¬ t < 32)]

/-- `H(i)` is cut from the bits of the buffer, the low ones of a byte first. -/
theorem testBit_subDigest {shash i j : ℕ} (m : ℕ → UInt8) (hshash : shash ≤ 32) (hj : j < shash)
    (hi : i * shash < 2 ^ 32)
    (hlast : i * shash % 8 + j < 32 ∨ (i + 1) * shash < 2 ^ 32) :
    (subDigest shash m i).testBit j =
      (m ((i * shash + j) / 8)).toNat.testBit ((i * shash + j) % 8) := by
  have hstart : startoffset shash i = i * shash := Nat.mod_eq_of_lt hi
  unfold subDigest
  simp only [hstart]
  have hend : endoffset shash i % 8 = (i * shash + shash) % 8 ∧
      (32 ≤ i * shash % 8 + j → endoffset shash i = i * shash + shash) := by
    unfold endoffset
    rw [Nat.succ_mul] at hlast ⊢
    omega
  obtain ⟨hendBit, hend⟩ := hend
  rw [hendBit]
  generalize i * shash = s at *
  rw [Nat.testBit_and, Nat.testBit_two_pow_sub_one]
  simp only [hj, decide_true, Bool.and_true]
  have hbyte : (s + j) / 8 = s / 8 + (s % 8 + j) / 8 := by omega
  have hbit : (s + j) % 8 = (s % 8 + j) % 8 := by omega
  rw [hbyte, hbit]
  generalize hb : s % 8 = b at *
  split
  · next hlong =>
    have hshift : shash - (s + shash) % 8 = 32 - b := by omega
    rw [Nat.testBit_or, Nat.testBit_shiftRight, testBit_word, Nat.testBit_shiftLeft, hshift]
    by_cases hin : b + j < 32
    · simp only [hin, decide_true, Bool.true_and, decide_eq_false (by omega : ¬ 32 - b ≤ j),
        Bool.false_and, Bool.or_false]
    · have hfifth : endoffset shash i / 8 = s / 8 + (b + j) / 8 := by
        rw [hend (by omega)]
        omega
      have hsub : j - (32 - b) = (b + j) % 8 := by omega
      simp [hin, hfifth, hsub, (by omega : 32 - b ≤ j)]
  · next hshort =>
    rw [Nat.testBit_shiftRight, testBit_word]
    simp [(by omega : b + j < 32)]

/-! ## The loop that hashes on -/

section Loop

variable {h : HASH} {size len : ℕ}

theorem write_inside {m : ℕ → UInt8} {off a : ℕ} {d : ℕ → UInt8} (hle : off ≤ a)
    (hlt : a < off + h.digestLength) : write h m off d a = d (a - off) := if_pos ⟨hle, hlt⟩

theorem write_outside {m : ℕ → UInt8} {off a : ℕ} {d : ℕ → UInt8}
    (hout : a < off ∨ off + h.digestLength ≤ a) : write h m off d a = m a :=
  if_neg fun hin => by omega

/-- Rounds `i` to `i + n` write their own blocks. -/
theorem hashLoop_outside : ∀ {n i : ℕ} {m m' : ℕ → UInt8}, hashLoop h size len n i m = some m' →
    ∀ a, a < i * h.digestLength ∨ (i + n) * h.digestLength ≤ a → m' a = m a
  | 0, i, m, m', hloop, a, _ => by
    simp only [hashLoop, Option.some.injEq] at hloop
    rw [hloop]
  | n + 1, i, m, m', hloop, a, ha => by
    simp only [hashLoop, Option.bind_eq_some_iff] at hloop
    obtain ⟨bytes, -, hloop⟩ := hloop
    have hi : i * h.digestLength + h.digestLength = (i + 1) * h.digestLength :=
      (Nat.succ_mul ..).symm
    have hle : (i + 1) * h.digestLength ≤ (i + (n + 1)) * h.digestLength :=
      Nat.mul_le_mul_right _ (by omega)
    rw [hashLoop_outside hloop a (by
      rw [(by omega : i + 1 + n = i + (n + 1))]
      omega)]
    exact write_outside (by omega)

/-- With a key no longer than a block, buffers that agree on the blocks before end up the same on
the blocks written. -/
theorem hashLoop_agree (hlen : len ≤ h.digestLength) : ∀ {n i : ℕ} {m m' : ℕ → UInt8}, 1 ≤ i →
    (i + n) * h.digestLength ≤ size → (∀ a < i * h.digestLength, m a = m' a) →
    ∃ r r', hashLoop h size len n i m = some r ∧ hashLoop h size len n i m' = some r' ∧
      ∀ a < (i + n) * h.digestLength, r a = r' a
  | 0, i, m, m', _, _, hagree => ⟨m, m', rfl, rfl, hagree⟩
  | n + 1, i, m, m', hi, hsize, hagree => by
    have hblock : (i - 1) * h.digestLength + h.digestLength = i * h.digestLength := by
      rw [← Nat.succ_mul, Nat.succ_eq_add_one, Nat.sub_add_cancel hi]
    have hle : i * h.digestLength ≤ (i + (n + 1)) * h.digestLength :=
      Nat.mul_le_mul_right _ (by omega)
    have hread : ∀ m : ℕ → UInt8, read size m ((i - 1) * h.digestLength) len =
        some ((List.range len).map fun j => m ((i - 1) * h.digestLength + j)) := fun m =>
      if_pos (by omega)
    have hsame : ((List.range len).map fun j => m ((i - 1) * h.digestLength + j)) =
        (List.range len).map fun j => m' ((i - 1) * h.digestLength + j) :=
      List.map_congr_left fun j hj => hagree _ (by
        have := List.mem_range.1 hj
        omega)
    simp only [hashLoop, hread, Option.bind_some, hsame]
    rw [(by omega : i + (n + 1) = i + 1 + n)] at hsize ⊢
    refine hashLoop_agree hlen (by omega) hsize fun a ha => ?_
    rw [Nat.succ_mul] at ha
    by_cases hin : i * h.digestLength ≤ a
    · rw [write_inside hin ha, write_inside hin ha]
    · rw [write_outside (.inl (Nat.not_le.1 hin)), write_outside (.inl (Nat.not_le.1 hin))]
      exact hagree a (Nat.not_le.1 hin)

end Loop

/-! ## Calls of `compute` -/

variable {h : HASH} {nhash shash len : ℕ} {norep : Bool} {k k' s : KHASH} {key : List UInt8}

theorem hashTodo_pos {hashdiglen : ℕ} (hdig : 0 < hashdiglen) :
    1 ≤ hashTodo hashdiglen nhash shash := by
  unfold hashTodo
  simp only
  generalize shash * nhash % 2 ^ 32 = bitneeded
  split
  · exact Nat.succ_pos _
  · next heq =>
    refine Nat.pos_of_ne_zero fun hzero => ?_
    rw [hzero, Nat.zero_mul, Nat.zero_mod] at heq
    omega

theorem compute_eq_some : compute h k key = some k' ↔
    ∃ m, hashLoop h (bufferSize h.digestLength k.hashtodo) key.length (k.hashtodo - 1) 1
        (write h k.msgdig 0 (h.compute key)) = some m ∧
      (∀ i < k.nhash, InBuffer k.shash (bufferSize h.digestLength k.hashtodo) i) ∧
      k' = { k with
        msgdig := m
        res := fun i => if i < k.nhash then subDigest k.shash m i else k.res i } := by
  unfold compute
  simp only [Option.bind_eq_some_iff]
  refine exists_congr fun m => and_congr_right fun _ => ?_
  split
  · next hin =>
    rw [Option.some.injEq, eq_comm]
    exact (and_iff_right hin).symm
  · next hin => simp [hin]

/-- An object the constructor made, after any calls: the four bytes behind the last block are never
written. -/
structure Made (h : HASH) (nhash shash : ℕ) (k : KHASH) : Prop where
  nhash_eq : k.nhash = nhash
  shash_eq : k.shash = shash
  todo_eq : k.hashtodo = hashTodo h.digestLength nhash shash
  clear : ∀ a, k.hashtodo * h.digestLength ≤ a → k.msgdig a = 0

/-- The asserts of the constructor. -/
theorem new_eq_some (hnew : new h nhash shash norep = some k) :
    (shash ≤ 32 ∧ shash ≤ h.digestLength * 8 ∧ shash ≠ 0) ∧ Made h nhash shash k ∧
      k.msgdig = fun _ => 0 := by
  unfold new at hnew
  split at hnew
  · next hok =>
    obtain rfl := Option.some.inj hnew
    exact ⟨⟨hok.1, hok.2.1, hok.2.2.1⟩, ⟨rfl, rfl, rfl, fun _ _ => rfl⟩, rfl⟩
  · cases hnew

theorem Made.res_eq (hk : Made h nhash shash k) (hc : KHASH.compute h k key = some k') {i : ℕ}
    (hi : i < nhash) : k'.res i = subDigest shash k'.msgdig i := by
  obtain ⟨m, -, -, rfl⟩ := compute_eq_some.1 hc
  simp only [hk.nhash_eq, if_pos hi, hk.shash_eq]

theorem digestLength_pos (hnew : new h nhash shash norep = some k) : 0 < h.digestLength := by
  have := (new_eq_some hnew).1
  omega

/-- The bytes behind the last block stay as they are. -/
theorem Made.clear_behind (hdig : 0 < h.digestLength) (hk : Made h nhash shash k) {size : ℕ}
    {m : ℕ → UInt8} (hloop : hashLoop h size key.length (hashTodo h.digestLength nhash shash - 1) 1
      (write h k.msgdig 0 (h.compute key)) = some m) :
    ∀ a, hashTodo h.digestLength nhash shash * h.digestLength ≤ a → m a = 0 := by
  intro a ha
  have htodo : 1 ≤ hashTodo h.digestLength nhash shash := hashTodo_pos hdig
  have hle := Nat.mul_le_mul_right h.digestLength htodo
  rw [hashLoop_outside hloop a (.inr (by rwa [Nat.add_sub_cancel' htodo])),
    write_outside (by omega)]
  exact hk.clear a (hk.todo_eq ▸ ha)

theorem Made.compute (hdig : 0 < h.digestLength) (hk : Made h nhash shash k)
    (hc : compute h k key = some k') : Made h nhash shash k' := by
  obtain ⟨m, hloop, -, rfl⟩ := compute_eq_some.1 hc
  rw [hk.todo_eq] at hloop
  exact ⟨hk.nhash_eq, hk.shash_eq, hk.todo_eq, hk.todo_eq ▸ hk.clear_behind hdig hloop⟩

theorem Made.run (hdig : 0 < h.digestLength) : ∀ {keys : List (List UInt8)} {k : KHASH},
    Made h nhash shash k → run h k keys = some s → Made h nhash shash s
  | [], k, hk, hrun => by
    obtain rfl := Option.some.inj hrun
    exact hk
  | key :: keys, k, hk, hrun => by
    simp only [KHASH.run, List.foldlM_cons, Option.bind_eq_bind, Option.bind_eq_some_iff] at hrun
    obtain ⟨k', hc, hrun⟩ := hrun
    exact Made.run hdig (hk.compute hdig hc) hrun

/-- Two objects give the same digests of a key that is not longer than a block. -/
theorem Made.same (hdig : 0 < h.digestLength) (hk : Made h nhash shash k)
    (hs : Made h nhash shash s) (henough : Enough h.digestLength nhash shash key.length) :
    ∃ k' s', KHASH.compute h k key = some k' ∧ KHASH.compute h s key = some s' ∧
      ∀ i < nhash, s'.res i = k'.res i := by
  obtain ⟨hlen, hin⟩ := henough
  have hsum : 1 + (hashTodo h.digestLength nhash shash - 1) = hashTodo h.digestLength nhash shash :=
    Nat.add_sub_cancel' (hashTodo_pos hdig)
  have hfirst : ∀ a < 1 * h.digestLength, write h k.msgdig 0 (h.compute key) a =
      write h s.msgdig 0 (h.compute key) a := fun a ha => by
    rw [write_inside (Nat.zero_le a) (by omega), write_inside (Nat.zero_le a) (by omega)]
  have hloops : ∃ r r',
      hashLoop h (bufferSize h.digestLength (hashTodo h.digestLength nhash shash)) key.length
        (hashTodo h.digestLength nhash shash - 1) 1 (write h k.msgdig 0 (h.compute key)) = some r ∧
      hashLoop h (bufferSize h.digestLength (hashTodo h.digestLength nhash shash)) key.length
        (hashTodo h.digestLength nhash shash - 1) 1 (write h s.msgdig 0 (h.compute key)) = some r' ∧
      ∀ a < (1 + (hashTodo h.digestLength nhash shash - 1)) * h.digestLength, r a = r' a := by
    rcases hlen with hone | hlen
    · have hzero : hashTodo h.digestLength nhash shash - 1 = 0 := by omega
      rw [hzero]
      exact ⟨_, _, rfl, rfl, hfirst⟩
    · exact hashLoop_agree hlen (Nat.le_refl 1) (by rw [hsum, bufferSize]; omega) hfirst
  obtain ⟨r, r', hr, hr', hagree⟩ := hloops
  rw [hsum] at hagree
  have heq : r' = r := funext fun a => by
    by_cases ha : a < hashTodo h.digestLength nhash shash * h.digestLength
    · exact (hagree a ha).symm
    · have ha := Nat.not_lt.1 ha
      rw [hk.clear_behind hdig hr a ha, hs.clear_behind hdig hr' a ha]
  subst heq
  refine ⟨_, _, compute_eq_some.2 ⟨r', ?_, ?_, rfl⟩, compute_eq_some.2 ⟨r', ?_, ?_, rfl⟩,
    fun i hi => ?_⟩
  · rw [hk.todo_eq]
    exact hr
  · rw [hk.todo_eq, hk.nhash_eq, hk.shash_eq]
    exact hin
  · rw [hs.todo_eq]
    exact hr'
  · rw [hs.todo_eq, hs.nhash_eq, hs.shash_eq]
    exact hin
  · simp only [hk.nhash_eq, hs.nhash_eq, if_pos hi, hk.shash_eq, hs.shash_eq]

/-! ## Keys longer than a block -/

/-- A hash that looks at one byte, the first behind a block. -/
def lookBehind (hashdiglen : ℕ) (hsmall : 8 * hashdiglen < 2 ^ 32) : HASH where
  digestLength := hashdiglen
  compute bytes _ := if bytes.getD hashdiglen 1 = 0 then 255 else 0
  small := hsmall

/-- Its second block is made from the old one. -/
theorem second_block {hashdiglen : ℕ} {hsmall : 8 * hashdiglen < 2 ^ 32} (hdig : 0 < hashdiglen)
    (hk : Made (lookBehind hashdiglen hsmall) nhash shash k)
    (htodo : 2 ≤ hashTodo hashdiglen nhash shash) (hlen : hashdiglen < key.length)
    (hc : KHASH.compute (lookBehind hashdiglen hsmall) k key = some k') :
    k'.msgdig hashdiglen = if k.msgdig hashdiglen = 0 then 255 else 0 := by
  obtain ⟨m, hloop, -, rfl⟩ := compute_eq_some.1 hc
  have hrounds : k.hashtodo - 1 = k.hashtodo - 2 + 1 := by
    have := hk.todo_eq
    simp only [lookBehind] at this
    omega
  rw [hrounds] at hloop
  simp only [hashLoop, Option.bind_eq_some_iff] at hloop
  obtain ⟨bytes, hread, hloop⟩ := hloop
  have hbytes : bytes.getD hashdiglen 1 = k.msgdig hashdiglen := by
    unfold read at hread
    split at hread
    · obtain rfl := Option.some.inj hread
      have hout : write (lookBehind hashdiglen hsmall) k.msgdig 0
          ((lookBehind hashdiglen hsmall).compute key) hashdiglen = k.msgdig hashdiglen :=
        write_outside (.inr (by simp [lookBehind]))
      simp [List.getD_eq_getElem?_getD, List.getElem?_range hlen, hout]
    · cases hread
  have hdig' : (lookBehind hashdiglen hsmall).digestLength = hashdiglen := rfl
  show m hashdiglen = _
  rw [hashLoop_outside hloop _ (.inl (by rw [hdig']; omega)), hdig', Nat.one_mul,
    write_inside (Nat.le_refl _) (by rw [hdig']; omega)]
  simp only [lookBehind, hbytes]

/-- The bit behind the first block is cut into one of the digests. -/
theorem testBit_behind {hashdiglen : ℕ} (hsmall : 8 * hashdiglen < 2 ^ 32) (hshash : shash ≤ 32)
    (hpos : 0 < shash) (htodo : 2 ≤ hashTodo hashdiglen nhash shash) :
    8 * hashdiglen / shash < nhash ∧ ∀ m : ℕ → UInt8,
      (subDigest shash m (8 * hashdiglen / shash)).testBit (8 * hashdiglen % shash) =
        (m hashdiglen).toNat.testBit 0 := by
  have hsplit := Nat.div_add_mod (8 * hashdiglen) shash
  have hmod := Nat.mod_lt (8 * hashdiglen) hpos
  constructor
  · rw [Nat.div_lt_iff_lt_mul hpos, Nat.mul_comm nhash]
    refine Nat.lt_of_lt_of_le ?_ (Nat.mod_le (shash * nhash) (2 ^ 32))
    unfold hashTodo at htodo
    simp only at htodo
    generalize shash * nhash % 2 ^ 32 = bitneeded at htodo ⊢
    by_contra hle
    rcases Nat.lt_or_eq_of_le (Nat.not_lt.1 hle) with hlt | heq
    · rw [Nat.div_eq_of_lt hlt] at htodo
      split at htodo <;> omega
    · rcases Nat.eq_zero_or_pos hashdiglen with hzero | hdig
      · subst hzero
        simp at htodo
      · rw [heq, Nat.div_self (by omega), Nat.one_mul, Nat.mod_eq_of_lt (by omega)] at htodo
        simp at htodo
  · intro m
    have hi : 8 * hashdiglen / shash * shash + 8 * hashdiglen % shash = 8 * hashdiglen := by
      rw [Nat.mul_comm, hsplit]
    rw [testBit_subDigest m hshash hmod (by omega) ?_, hi]
    · simp
    · rw [Nat.add_mul, Nat.one_mul]
      generalize 8 * hashdiglen / shash * shash = s at hi ⊢
      omega

theorem new_of_new (h' : HASH) (hnew : new h nhash shash norep = some k)
    (hdig : h'.digestLength = h.digestLength) : ∃ k', new h' nhash shash norep = some k' := by
  unfold new at hnew ⊢
  rw [hdig]
  split at hnew
  · next hok => exact ⟨_, if_pos hok⟩
  · cases hnew

theorem enough_of_stateless (hnew : new h nhash shash norep = some k)
    (hstateless : Stateless h.digestLength nhash shash norep len) :
    Enough h.digestLength nhash shash len := by
  obtain ⟨⟨hshash, -, hpos⟩, hmade, -⟩ := new_eq_some hnew
  constructor
  · by_contra hlong
    obtain ⟨k₀, hk₀⟩ := new_of_new (lookBehind h.digestLength h.small) hnew rfl
    obtain ⟨-, hmade₀, hclear⟩ := new_eq_some hk₀
    have hdig := digestLength_pos hk₀
    have htodo : 2 ≤ hashTodo h.digestLength nhash shash := by omega
    obtain ⟨H, hH⟩ := hstateless (lookBehind h.digestLength h.small) (List.replicate len 0) rfl
      List.length_replicate
    obtain ⟨s₁, h₁, hres₁⟩ := hH k₀ k₀ [] hk₀ rfl
    obtain ⟨s₂, h₂, hres₂⟩ := hH k₀ s₁ [List.replicate len 0] hk₀ (by simp [run, h₁])
    have hmade₁ := hmade₀.compute hdig h₁
    have hlen : h.digestLength < (List.replicate len (0 : UInt8)).length := by
      rw [List.length_replicate]
      omega
    have hblock₁ : s₁.msgdig h.digestLength = _ := second_block hdig hmade₀ htodo hlen h₁
    have hblock₂ : s₂.msgdig h.digestLength = _ := second_block hdig hmade₁ htodo hlen h₂
    rw [hclear, if_pos rfl] at hblock₁
    rw [hblock₁, if_neg (by decide)] at hblock₂
    obtain ⟨hi, hbit⟩ := testBit_behind h.small hshash (Nat.pos_of_ne_zero hpos) htodo
    have hsame := congrArg (Nat.testBit · (8 * h.digestLength % shash))
      ((hres₁ _ hi).trans (hres₂ _ hi).symm)
    simp only [hmade₀.res_eq h₁ hi, hmade₁.res_eq h₂ hi, hbit, hblock₁, hblock₂] at hsame
    simp at hsame
  · obtain ⟨H, hH⟩ := hstateless h (List.replicate len 0) rfl List.length_replicate
    obtain ⟨s', hs', -⟩ := hH k k [] hnew rfl
    obtain ⟨m, -, hin, -⟩ := compute_eq_some.1 hs'
    rw [hmade.nhash_eq, hmade.shash_eq, hmade.todo_eq] at hin
    exact hin

theorem stateless_iff (hnew : new h nhash shash norep = some k) :
    Stateless h.digestLength nhash shash norep len ↔ Enough h.digestLength nhash shash len := by
  refine ⟨enough_of_stateless hnew, fun henough h' key hdig hlen => ?_⟩
  obtain ⟨k₀, hk₀⟩ := new_of_new _ hnew hdig
  have hpos := digestLength_pos hk₀
  have hmade₀ := (new_eq_some hk₀).2.1
  rw [← hdig, ← hlen] at henough
  obtain ⟨k', -, hk', -⟩ := hmade₀.same hpos hmade₀ henough
  refine ⟨k'.res, fun k s keys hk hrun => ?_⟩
  obtain ⟨k'', s', hk'', hs', hres⟩ := hmade₀.same hpos ((new_eq_some hk).2.1.run hpos hrun) henough
  obtain rfl := Option.some.inj (hk'.symm.trans hk'')
  exact ⟨s', hs', hres⟩

end KHASH

end DStreamon
