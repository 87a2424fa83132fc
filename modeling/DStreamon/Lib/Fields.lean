import DStreamon.Lib.Bytes
import Mathlib.Data.List.TakeDrop
import Mathlib.Order.Basic
import Mathlib.Tactic.Ring

/-!
# Fields of a memory

Numbers as lists of bytes, the least significant one first, and writing bytes over others.
-/

namespace Bytes

/-- The number a list of bytes stands for, the least significant one first. -/
def value : List UInt8 → ℕ
  | [] => 0
  | b :: bs => b.toNat + 256 * value bs

@[simp] theorem value_nil : value [] = 0 := rfl

theorem value_cons (b : UInt8) (bs : List UInt8) : value (b :: bs) = b.toNat + 256 * value bs := rfl

theorem value_append : ∀ a b : List UInt8, value (a ++ b) = value a + 256 ^ a.length * value b
  | [], b => by simp
  | c :: a, b => by
    rw [List.cons_append, value_cons, value_cons, value_append a b, List.length_cons]
    ring

theorem value_lt : ∀ bs : List UInt8, value bs < 256 ^ bs.length
  | [] => by simp
  | b :: bs => by
    have hb := b.toNat_lt
    have hbs := value_lt bs
    rw [value_cons, List.length_cons, Nat.pow_succ]
    omega

@[simp] theorem value_zeros : ∀ n : ℕ, value (List.replicate n 0) = 0
  | 0 => rfl
  | n + 1 => by
    rw [List.replicate_succ, value_cons, value_zeros n]
    rfl

theorem value_le : ∀ {k n : ℕ}, n < 256 ^ k → value (le k n) = n
  | 0, n, h => by
    rw [Nat.pow_zero, Nat.lt_one_iff] at h
    rw [h]
    rfl
  | k + 1, n, h => by
    have hdiv : n / 256 < 256 ^ k := Nat.div_lt_of_lt_mul (by rwa [Nat.pow_succ, Nat.mul_comm] at h)
    rw [le, value_cons, value_le hdiv, UInt8.toNat_ofNat']
    omega

/-- Its bits are those of the bytes. -/
theorem testBit_value : ∀ {bs : List UInt8} {b : UInt8} {t : ℕ}, bs[t / 8]? = some b →
    (value bs).testBit t = b.toNat.testBit (t % 8)
  | [], _, _, h => by cases h
  | c :: bs, b, t, h => by
    rw [value_cons, Nat.add_comm, show 256 = 2 ^ 8 from rfl,
      Nat.testBit_two_pow_mul_add _ c.toNat_lt]
    by_cases ht : t < 8
    · rw [Nat.div_eq_of_lt ht] at h
      rw [if_pos ht, Nat.mod_eq_of_lt ht, Option.some.inj h]
    · rw [show t / 8 = (t - 8) / 8 + 1 by omega, List.getElem?_cons_succ] at h
      rw [if_neg ht, testBit_value h]
      congr 1
      omega

/-- Without its first bytes a number is divided. -/
theorem value_drop {bs : List UInt8} {k : ℕ} (hk : k ≤ bs.length) :
    value (bs.drop k) = value bs / 256 ^ k := by
  have hlen : (bs.take k).length = k := List.length_take_of_le hk
  have hlt : value (bs.take k) < 256 ^ k := by
    have := value_lt (bs.take k)
    rwa [hlen] at this
  have hsplit : value bs = value (bs.take k) + 256 ^ k * value (bs.drop k) := by
    have := value_append (bs.take k) (bs.drop k)
    rwa [List.take_append_drop, hlen] at this
  rw [hsplit, Nat.add_mul_div_left _ _ (Nat.pow_pos (by decide)), Nat.div_eq_of_lt hlt,
    Nat.zero_add]

/-- A number in more bytes than it needs ends in zeros. -/
theorem le_add : ∀ {k n : ℕ} (j : ℕ), n < 256 ^ k → le (k + j) n = le k n ++ List.replicate j 0
  | 0, n, j, h => by
    rw [Nat.pow_zero, Nat.lt_one_iff] at h
    subst h
    rw [Nat.zero_add, le, List.nil_append]
    induction j with
    | zero => rfl
    | succ j ih =>
      rw [le, List.replicate_succ, ih]
      rfl
  | k + 1, n, j, h => by
    have hdiv : n / 256 < 256 ^ k := Nat.div_lt_of_lt_mul (by rwa [Nat.pow_succ, Nat.mul_comm] at h)
    rw [Nat.add_right_comm, le, le, le_add j hdiv, List.cons_append]

/-! ## Numbers with the most significant byte first -/

theorem toNat_shl_or (hi lo : UInt8) :
    (hi.toUInt16 <<< 8 ||| lo.toUInt16).toNat = lo.toNat + 256 * hi.toNat := by
  have hhi := hi.toNat_lt
  have hshift : (hi.toUInt16 <<< 8).toNat = hi.toNat <<< 8 := by
    rw [UInt16.toNat_shiftLeft, UInt8.toNat_toUInt16, Nat.shiftLeft_eq, Nat.shiftLeft_eq]
    exact Nat.mod_eq_of_lt (by change hi.toNat * 256 < _; omega)
  rw [UInt16.toNat_or, hshift, UInt8.toNat_toUInt16, ← Nat.shiftLeft_add_eq_or_of_lt lo.toNat_lt,
    Nat.shiftLeft_eq]
  omega

theorem toNat_shl_or' (hi lo : UInt16) :
    (hi.toUInt32 <<< 16 ||| lo.toUInt32).toNat = lo.toNat + 65536 * hi.toNat := by
  have hhi := hi.toNat_lt
  have hshift : (hi.toUInt32 <<< 16).toNat = hi.toNat <<< 16 := by
    rw [UInt32.toNat_shiftLeft, UInt16.toNat_toUInt32, Nat.shiftLeft_eq, Nat.shiftLeft_eq]
    exact Nat.mod_eq_of_lt (by change hi.toNat * 65536 < _; omega)
  rw [UInt32.toNat_or, hshift, UInt16.toNat_toUInt32, ← Nat.shiftLeft_add_eq_or_of_lt lo.toNat_lt,
    Nat.shiftLeft_eq]
  omega

/-- Two bytes read as a number are the reversed field. -/
theorem be16_eq {mem : List UInt8} {i : ℕ} (h : i + 2 ≤ mem.length) :
    be16 mem i = some (UInt16.ofNat (value ((mem.drop i).take 2).reverse)) := by
  obtain ⟨hi, hhi⟩ := getElem?_of_lt (m := mem) (i := i) (by omega)
  obtain ⟨lo, hlo⟩ := getElem?_of_lt (m := mem) (i := i + 1) (by omega)
  have hbytes : (mem.drop i).take 2 = [hi, lo] := by
    rw [drop_of_getElem? hhi, drop_of_getElem? hlo]
    rfl
  have hval : value [lo, hi] = lo.toNat + 256 * hi.toNat := by simp [value_cons]
  rw [be16, hhi, hlo, hbytes]
  simp only [Option.bind_eq_bind, Option.bind_some, List.reverse_cons, List.reverse_nil,
    List.nil_append, List.cons_append, hval, ← toNat_shl_or, UInt16.ofNat_toNat]

theorem be32_eq {mem : List UInt8} {i : ℕ} (h : i + 4 ≤ mem.length) :
    be32 mem i = some (UInt32.ofNat (value ((mem.drop i).take 4).reverse)) := by
  have hsplit : ((mem.drop i).take 4).reverse =
      ((mem.drop (i + 2)).take 2).reverse ++ ((mem.drop i).take 2).reverse := by
    rw [← List.reverse_append, ← List.drop_drop, ← List.take_add]
  have hlen : ((mem.drop (i + 2)).take 2).reverse.length = 2 := by
    rw [List.length_reverse, List.length_take, List.length_drop]
    omega
  have hlen' : ((mem.drop i).take 2).reverse.length = 2 := by
    rw [List.length_reverse, List.length_take, List.length_drop]
    omega
  have hlo := value_lt ((mem.drop (i + 2)).take 2).reverse
  have hhi := value_lt ((mem.drop i).take 2).reverse
  rw [hlen] at hlo
  rw [hlen'] at hhi
  rw [be32, be16_eq (by omega), be16_eq (by omega), hsplit, value_append, hlen]
  simp only [Option.bind_eq_bind, Option.bind_some, Option.some.injEq]
  rw [← UInt32.toNat_inj, toNat_shl_or', UInt16.toNat_ofNat_of_lt' hlo,
    UInt16.toNat_ofNat_of_lt' hhi, UInt32.toNat_ofNat_of_lt' (by rw [UInt32.size]; omega),
    show (256 : ℕ) ^ 2 = 65536 from rfl]

/-- What stands before `n` is read as in the whole. -/
theorem be16_take {mem : List UInt8} {i n : ℕ} (h : i + 2 ≤ n) :
    be16 (mem.take n) i = be16 mem i := by
  rw [be16, be16, List.getElem?_take_of_lt (by omega), List.getElem?_take_of_lt (by omega)]

theorem be32_take {mem : List UInt8} {i n : ℕ} (h : i + 4 ≤ n) :
    be32 (mem.take n) i = be32 mem i := by
  rw [be32, be32, be16_take (by omega), be16_take (by omega)]

/-! ## Writing over -/

/-- `bs` written from `i` on. -/
def splice (l : List UInt8) (i : ℕ) (bs : List UInt8) : List UInt8 :=
  l.take i ++ bs ++ l.drop (i + bs.length)

variable {l bs : List UInt8} {i : ℕ}

theorem length_splice (h : i + bs.length ≤ l.length) : (splice l i bs).length = l.length := by
  simp only [splice, List.length_append, List.length_take, List.length_drop]
  omega

/-- Written right after what counts, it is appended to that. -/
theorem take_splice (h : i ≤ l.length) :
    (splice l i bs).take (i + bs.length) = l.take i ++ bs := by
  have hlen : (l.take i ++ bs).length = i + bs.length := by
    rw [List.length_append, List.length_take_of_le h]
  rw [splice, List.take_append_of_le_length hlen.ge, List.take_of_length_le hlen.le]

/-- Written in two parts. -/
theorem splice_splice {cs : List UInt8} (h : i ≤ l.length) :
    splice (splice l i bs) (i + bs.length) cs = splice l i (bs ++ cs) := by
  have hlen : (l.take i ++ bs).length = i + bs.length := by
    rw [List.length_append, List.length_take_of_le h]
  have hdrop : (splice l i bs).drop (i + bs.length + cs.length) =
      l.drop (i + bs.length + cs.length) := by
    rw [splice, ← hlen, List.drop_append, List.drop_of_length_le (Nat.le_add_right _ _),
      List.nil_append, List.drop_drop]
    congr 1
    omega
  conv_lhs => rw [splice, take_splice h, hdrop]
  rw [splice, List.length_append, Nat.add_assoc]
  simp only [List.append_assoc]

/-- What was written is read back. -/
theorem drop_splice (h : i ≤ l.length) :
    (splice l i bs).drop i = bs ++ l.drop (i + bs.length) := by
  have hlen : (l.take i).length = i := List.length_take_of_le h
  rw [splice, List.append_assoc, List.drop_append_of_le_length hlen.ge,
    List.drop_of_length_le hlen.le,
    List.nil_append]

/-- What stands before `n` is written over as a whole is. -/
theorem take_splice_below {n : ℕ} (hn : i + bs.length ≤ n) (hl : n ≤ l.length) :
    (splice l i bs).take n = splice (l.take n) i bs := by
  have hi : i ≤ l.length := by omega
  have hlen : (l.take i ++ bs).length = i + bs.length := by
    rw [List.length_append, List.length_take_of_le hi]
  rw [splice, splice, List.take_append, List.take_of_length_le (hlen.le.trans hn), hlen,
    List.take_take, min_eq_left (by omega), List.drop_take]

/-- Bytes over as many others. -/
theorem splice_append {a b c : List UInt8} (hi : a.length = i) (hb : b.length = bs.length) :
    splice (a ++ (b ++ c)) i bs = a ++ (bs ++ c) := by
  subst hi
  rw [splice, List.take_left, ← hb, ← List.append_assoc a b c, ← List.length_append,
    List.drop_left, List.append_assoc]

end Bytes
