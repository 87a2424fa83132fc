import DStreamon.Buffer
import DStreamon.Lib.Lockstep

/-!
# A buffer is a list of at most `S` bytes

As long as no length passes what an `int` holds and none is `2 ^ 16`, which sixteen bits keep as
zero.  `Get` subtracts its offset from the length as an `unsigned long`, so it takes an offset past
the end for one with almost `2 ^ 64` bytes behind it.
-/

namespace DStreamon.Buffers

/-- Bytes that an `int` counts. -/
structure Chunk where
  bytes : List UInt8
  isInt : bytes.length < 2 ^ 31

inductive Call where
  | append (c : Chunk) (ty : BufferType)
  | reset

def Buffer.step {S : ℕ} (b : Buffer S) : Call → Buffer S × Outcome
  | .append c ty => b.append c.bytes c.bytes.length ty
  | .reset => (b.reset, .returned)

/-- What a buffer is for: bytes and a type, `S` of them at most. -/
structure ByteList (S : ℕ) where
  bytes : List UInt8
  type : BufferType
  fits : bytes.length ≤ S

namespace ByteList

variable {S : ℕ}

def empty : ByteList S := ⟨[], .unknown, Nat.zero_le S⟩

def step (l : ByteList S) : Call → ByteList S × Outcome
  | .append c ty =>
    if h : (l.bytes ++ c.bytes).length ≤ S then (⟨l.bytes ++ c.bytes, ty, h⟩, .returned)
    else (l, .outOfRange)
  | .reset => (⟨[], l.type, Nat.zero_le S⟩, .returned)

/-- The `size` bytes at an offset. -/
def get (l : ByteList S) (size offset : ℕ) : Option (List UInt8) :=
  if l.bytes.length < offset + size then none else some ((l.bytes.drop offset).take size)

/-- The length an append comes to is that of an `int`, and no more than 16 bits hold. -/
def Countable (l : ByteList S) : Call → Prop
  | .append c _ => l.bytes.length + c.bytes.length < 2 ^ 31 ∧
      (l.bytes.length + c.bytes.length = 2 ^ 16 → S < 2 ^ 16)
  | .reset => True

instance : ∀ (l : ByteList S) (c : Call), Decidable (l.Countable c)
  | l, .append c _ => inferInstanceAs (Decidable (l.bytes.length + c.bytes.length < 2 ^ 31 ∧
      (l.bytes.length + c.bytes.length = 2 ^ 16 → S < 2 ^ 16)))
  | _, .reset => .isTrue trivial

end ByteList

variable {S : ℕ} {b : Buffer S} {l : ByteList S}

/-- The buffer holds these bytes, and says so. -/
structure Shows (b : Buffer S) (l : ByteList S) : Prop where
  length : b.getLength = l.bytes.length
  bytes : b.bytes = l.bytes
  type : b.getType = l.type

theorem shows_new (data : ℕ → UInt8) : Shows (Buffer.new data : Buffer S) ByteList.empty :=
  ⟨rfl, rfl, rfl⟩

theorem Buffer.getLength_lt (b : Buffer S) : b.getLength < 2 ^ 16 := b.count.toNat_lt

theorem bytes_memcpy (b : Buffer S) (ptr : List UInt8) :
    (List.range (b.getLength + ptr.length)).map (memcpy b.data b.getLength ptr ptr.length) =
      b.bytes ++ ptr := by
  rw [List.range_add, List.map_append, List.map_map]
  congr 1
  · refine List.map_congr_left fun i hi => ?_
    have hi := List.mem_range.1 hi
    exact if_neg fun h => absurd h.1 (by omega)
  · refine List.ext_getElem (by simp) fun i hi _ => ?_
    simp only [List.length_map, List.length_range] at hi
    simp [memcpy, hi]

/-! ## Appending -/

theorem bmod_of_lt {n : ℕ} (h : n < 2 ^ 31) : (n : ℤ).bmod (2 ^ 32) = n :=
  Int.bmod_eq_of_le_mul_two (by omega) (by omega)

/-- A sum past the largest `int` is negative, so nothing is refused. -/
theorem bmod_neg {n : ℕ} (h : 2 ^ 31 ≤ n) (h' : n < 2 ^ 32) : (n : ℤ).bmod (2 ^ 32) < 0 := by
  rw [Int.bmod]
  omega

theorem append_overflow {ptr : List UInt8} {ty : BufferType} (hS : S ≤ 2 ^ 16)
    (h : 2 ^ 31 ≤ b.getLength + ptr.length) (h' : ptr.length < 2 ^ 31) :
    b.append ptr ptr.length ty = (b, .undefined) := by
  have hb := b.getLength_lt
  unfold Buffer.getLength at h hb
  have hneg := bmod_neg (n := b.count.toNat + ptr.length) h (by omega)
  rw [Nat.cast_add] at hneg
  rw [Buffer.append, if_neg (by omega), if_pos (by omega)]

theorem append_refused {ptr : List UInt8} {ty : BufferType}
    (h : b.getLength + ptr.length < 2 ^ 31) (hS : S < b.getLength + ptr.length) :
    b.append ptr ptr.length ty = (b, .outOfRange) := by
  unfold Buffer.getLength at h hS
  have hsum := bmod_of_lt h
  rw [Nat.cast_add] at hsum
  rw [Buffer.append, hsum, if_pos (by omega)]

theorem append_done {ptr : List UInt8} {ty : BufferType}
    (h : b.getLength + ptr.length < 2 ^ 31) (hS : b.getLength + ptr.length ≤ S) :
    b.append ptr ptr.length ty =
      (⟨ty, UInt16.ofNat (b.getLength + ptr.length),
        memcpy b.data b.getLength ptr ptr.length⟩, .returned) := by
  unfold Buffer.getLength at *
  have hsum := bmod_of_lt h
  rw [Nat.cast_add] at hsum
  rw [Buffer.append, hsum, if_neg (by omega), if_neg (by omega)]
  rfl

/-- A call leaves buffer and list together iff the length it comes to can be counted. -/
theorem step_shows_iff (hS : S ≤ 2 ^ 16) (hl : Shows b l) (c : Call) :
    (b.step c).2 = (l.step c).2 ∧ Shows (b.step c).1 (l.step c).1 ↔ l.Countable c := by
  cases c with
  | reset => exact iff_of_true ⟨rfl, rfl, rfl, hl.type⟩ trivial
  | append c ty =>
    have hlen := hl.length
    have hc := c.isInt
    have hb := b.getLength_lt
    simp only [Buffer.step, ByteList.step, ByteList.Countable, List.length_append]
    by_cases hint : l.bytes.length + c.bytes.length < 2 ^ 31
    · by_cases hfit : l.bytes.length + c.bytes.length ≤ S
      · rw [append_done (by omega) (by omega), dif_pos hfit]
        by_cases h16 : l.bytes.length + c.bytes.length = 2 ^ 16
        · refine iff_of_false ?_ (by omega)
          rintro ⟨-, h⟩
          have := h.length
          simp only [Buffer.getLength, UInt16.toNat_ofNat', List.length_append] at this hlen
          omega
        · refine iff_of_true ⟨rfl, ?_⟩ ⟨hint, fun h => absurd h h16⟩
          have hcount : (UInt16.ofNat (b.getLength + c.bytes.length)).toNat =
              b.getLength + c.bytes.length := UInt16.toNat_ofNat_of_lt' (by
            rw [UInt16.size]
            omega)
          refine ⟨?_, ?_, rfl⟩
          · rw [List.length_append, ← hlen]
            exact hcount
          · show List.map _ (List.range (UInt16.ofNat (b.getLength + c.bytes.length)).toNat) = _
            rw [hcount, bytes_memcpy, hl.bytes]
      · rw [append_refused (by omega) (by omega), dif_neg hfit]
        exact iff_of_true ⟨rfl, hl⟩ ⟨hint, fun h => by omega⟩
    · rw [append_overflow hS (by omega) hc]
      refine iff_of_false ?_ fun h => hint h.1
      rintro ⟨h, -⟩
      split_ifs at h

/-! ## `Get` -/

theorem get_of_le (hl : Shows b l) (size : ℕ) {o : UInt64} (h : o.toNat ≤ l.bytes.length) :
    b.get size o = l.get size o.toNat := by
  have hlen := hl.length
  have hb := b.getLength_lt
  have hsub : (b.count.toUInt64 - o).toNat = l.bytes.length - o.toNat := by
    rw [UInt64.toNat_sub, UInt16.toNat_toUInt64]
    unfold Buffer.getLength at hlen hb
    omega
  unfold Buffer.get ByteList.get
  rw [hsub]
  by_cases hs : l.bytes.length < o.toNat + size
  · rw [if_pos (by omega), if_pos hs]
  · rw [if_neg (by omega), if_neg hs]
    refine congrArg some (List.ext_getElem ?_ fun i hi _ => ?_)
    · simp only [List.length_map, List.length_range, List.length_take, List.length_drop]
      omega
    · simp only [List.length_map, List.length_range] at hi
      simp [← hl.bytes, Buffer.bytes]

theorem get_of_lt (hl : Shows b l) (size : ℕ) {o : UInt64} (h : l.bytes.length < o.toNat) :
    b.get size o = none ↔ 2 ^ 64 + l.bytes.length < o.toNat + size := by
  have hlen := hl.length
  have ho := o.toNat_lt
  have hsub : (b.count.toUInt64 - o).toNat = 2 ^ 64 + l.bytes.length - o.toNat := by
    rw [UInt64.toNat_sub, UInt16.toNat_toUInt64]
    unfold Buffer.getLength at hlen
    omega
  unfold Buffer.get
  rw [hsub]
  constructor
  · intro hn
    by_contra hs
    rw [if_neg (by omega)] at hn
    cases hn
  · exact fun hs => if_pos (by omega)

/-- `Get` agrees with the list iff its offset is no more than the length, or so large that the
difference wraps to less than the size. -/
theorem get_iff (hl : Shows b l) (size : ℕ) (o : UInt64) : b.get size o = l.get size o.toNat ↔
    o.toNat ≤ l.bytes.length ∨ 2 ^ 64 + l.bytes.length < o.toNat + size := by
  by_cases h : o.toNat ≤ l.bytes.length
  · exact iff_of_true (get_of_le hl size h) (.inl h)
  · have hspec : l.get size o.toNat = none := if_pos (by omega)
    rw [hspec, get_of_lt hl size (by omega)]
    exact (or_iff_right h).symm

/-! ## Runs -/

/-- All along a run the buffer is the list of bytes, and so is what `Get` reads at its end. -/
def IsByteList (S : ℕ) (data : ℕ → UInt8) (calls : List Call) (size : ℕ) (o : UInt64) : Prop :=
  Lockstep.Follows Buffer.step ByteList.step Shows (Buffer.new data : Buffer S) ByteList.empty
      calls ∧
    (Lockstep.final Buffer.step (Buffer.new data : Buffer S) calls).get size o =
      (Lockstep.final ByteList.step (ByteList.empty : ByteList S) calls).get size o.toNat

def InReach (l : ByteList S) (size : ℕ) (o : UInt64) : Prop :=
  o.toNat ≤ l.bytes.length ∨ 2 ^ 64 + l.bytes.length < o.toNat + size

theorem buffer_is_byteList_iff (hS : S ≤ 2 ^ 16) (data : ℕ → UInt8) (calls : List Call) (size : ℕ)
    (o : UInt64) : IsByteList S data calls size o ↔
      Lockstep.Meets ByteList.step ByteList.Countable (ByteList.empty : ByteList S) calls ∧
        InReach (Lockstep.final ByteList.step (ByteList.empty : ByteList S) calls) size o := by
  have hstep := Lockstep.follows_iff (R := Shows (S := S)) (fun _ _ c hl => step_shows_iff hS hl c)
    calls (shows_new data)
  rw [IsByteList, ← hstep]
  exact and_congr_right fun hf => get_iff (hf.last calls) size o

theorem buffer_is_byteList_two : IsByteList 4 (fun _ => 7)
    [.append ⟨[1, 2], by decide⟩ .uint, .reset, .append ⟨[3, 4, 5], by decide⟩ .string] 2 1 :=
  (buffer_is_byteList_iff (by decide) _ _ 2 1).2 ⟨by decide, by unfold InReach; decide⟩

/-- At the offset one of an empty buffer there is a byte. -/
theorem get_past_end : ¬IsByteList 4 (fun _ => 7) [] 1 1 := by
  rintro ⟨-, h⟩
  exact absurd h (by decide)

end DStreamon.Buffers
