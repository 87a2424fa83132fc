import DStreamon.Proofs.DLeft

/-!
# The slices of a digest

The calls of `next` cut one slice after another from the words the splitter begins at.  The end
test looks at the position before the slice, and at a length that counts the words before the first
one too, so past the last whole slice there are calls that answer and read on.
-/

namespace DStreamon

open IReadBuffer

namespace HashSplitter

/-- `next`, with the pointer in the 32 bits it has. -/
def next32 (s : HashSplitter) (bits : ℕ) : Option (ℕ × HashSplitter) :=
  (s.next bits).map fun r => (r.1, { r.2 with ptr := r.2.ptr % 2 ^ 32 })

/-- The splitter a call leaves; one that returns false leaves it as it is. -/
def called (s : HashSplitter) (bits : ℕ) : HashSplitter :=
  match s.next32 bits with
  | some (_, s) => s
  | none => s

/-- The splitter after `k` calls. -/
def after (bits : ℕ) : ℕ → HashSplitter → HashSplitter
  | 0, s => s
  | k + 1, s => (after bits k s).called bits

/-- What the `k`-th call puts out; `none` where it returns false. -/
def call (dig : Digest) (beginFrom bits k : ℕ) : Option ℕ :=
  ((after bits k (set dig beginFrom)).next32 bits).map Prod.fst

/-- The words of the buffer a call reads. -/
def reads (s : HashSplitter) (bits : ℕ) : List ℕ :=
  if s.length < s.ptr then []
  else if 32 < s.ptr % 32 + bits then [s.ptr / 32, s.ptr / 32 + 1] else [s.ptr / 32]

/-- The bits of the digest from `beginFrom` on. -/
def available (dig : Digest) (beginFrom : ℕ) : ℕ := (dig.size - beginFrom) * 32

/-- The slice, if it lies inside the digest. -/
def sliceOf (dig : Digest) (beginFrom bits k : ℕ) : Option ℕ :=
  if (k + 1) * bits ≤ available dig beginFrom then
    some (Words.slice (fun w => dig.value (beginFrom + w)) (k * bits) bits)
  else none

/-- The `k`-th call puts out the slice if there is one, returns false otherwise, and reads no word
past the end. -/
structure CallRight (dig : Digest) (beginFrom bits k : ℕ) : Prop where
  out : call dig beginFrom bits k = sliceOf dig beginFrom bits k
  inside : ∀ i ∈ (after bits k (set dig beginFrom)).reads bits, beginFrom + i < dig.size

variable {dig : Digest} {beginFrom bits k : ℕ}

theorem after_fixed (bits : ℕ) : ∀ (k : ℕ) (s : HashSplitter),
    (after bits k s).buffer = s.buffer ∧ (after bits k s).length = s.length
  | 0, _ => ⟨rfl, rfl⟩
  | k + 1, s => by
    rw [after, called, next32, next]
    split_ifs
    · exact after_fixed bits k s
    · exact after_fixed bits k s

theorem next32_of_le {s : HashSplitter} (h : s.ptr ≤ s.length) : s.next32 bits =
    some ((extract s.buffer s.ptr bits).toNat, { s with ptr := (s.ptr + bits) % 2 ^ 32 }) := by
  unfold next32 next
  rw [if_neg (by omega)]
  rfl

theorem next32_of_lt {s : HashSplitter} (h : s.length < s.ptr) : s.next32 bits = none := by
  unfold next32 next
  rw [if_pos h]
  rfl

theorem ptr_called {s : HashSplitter} : (s.called bits).ptr =
    if s.ptr ≤ s.length then (s.ptr + bits) % 2 ^ 32 else s.ptr := by
  unfold called
  split_ifs with h
  · rw [next32_of_le h]
  · rw [next32_of_lt (by omega)]

/-- In a digest whose bits 32 bits can count, the pointer goes on to the first slice that begins
past the end. -/
theorem ptr_after (beginFrom : ℕ) (hsmall : dig.size < 2 ^ 27) (hb : bits < 32) : ∀ k,
    (k * bits ≤ dig.size * 32 → (after bits k (set dig beginFrom)).ptr = k * bits) ∧
    (dig.size * 32 < k * bits → dig.size * 32 < (after bits k (set dig beginFrom)).ptr)
  | 0 => ⟨fun _ => (Nat.zero_mul bits).symm, fun h => absurd h (by omega)⟩
  | k + 1 => by
    obtain ⟨hle, hlt⟩ := ptr_after beginFrom hsmall hb k
    have hlen : (after bits k (set dig beginFrom)).length = dig.size * 32 :=
      (after_fixed bits k _).2
    have hmul : (k + 1) * bits = k * bits + bits := Nat.succ_mul k bits
    rw [after, ptr_called]
    by_cases hk : k * bits ≤ dig.size * 32
    · have hptr := hle hk
      rw [if_pos (by omega), hptr, Nat.mod_eq_of_lt (by omega)]
      exact ⟨fun _ => hmul.symm, fun h => hmul ▸ h⟩
    · have hptr := hlt (by omega)
      rw [if_neg (by omega)]
      exact ⟨fun h => by omega, fun _ => hptr⟩

/-- In a longer one it wraps before it can come to the end. -/
theorem ptr_after_wraps (beginFrom bits : ℕ) (hlarge : 2 ^ 27 ≤ dig.size) :
    ∀ k, (after bits k (set dig beginFrom)).ptr = k * bits % 2 ^ 32
  | 0 => by simp [after, set]
  | k + 1 => by
    have hptr := ptr_after_wraps beginFrom bits hlarge k
    have hlen : (after bits k (set dig beginFrom)).length = dig.size * 32 :=
      (after_fixed bits k _).2
    rw [after, ptr_called, if_pos (by omega), hptr, Nat.succ_mul, Nat.mod_add_mod]

/-- What a call with the pointer at `p` puts out. -/
theorem call_of_ptr {p : ℕ} (hb : bits < 32) (hp : (after bits k (set dig beginFrom)).ptr = p)
    (hle : p ≤ dig.size * 32) :
    call dig beginFrom bits k = some (Words.slice (fun w => dig.value (beginFrom + w)) p bits) := by
  have hlen : (after bits k (set dig beginFrom)).length = dig.size * 32 := (after_fixed bits k _).2
  have hbuf : (after bits k (set dig beginFrom)).buffer = fun w => dig.value (beginFrom + w) :=
    (after_fixed bits k _).1
  rw [call, next32_of_le (by omega), hp, hbuf, Option.map_some, extract_eq_slice _ hb]

theorem reads_inside {s : HashSplitter} (hb : 1 ≤ bits)
    (h : s.ptr + bits ≤ available dig beginFrom) :
    ∀ i ∈ s.reads bits, beginFrom + i < dig.size := by
  unfold available at h
  intro i hi
  unfold reads at hi
  split_ifs at hi with h1 h2
  · cases hi
  · have hi : i = s.ptr / 32 ∨ i = s.ptr / 32 + 1 := by simpa using hi
    omega
  · have hi : i = s.ptr / 32 := by simpa using hi
    omega

/-- The `k`-th slice lies inside the digest and its position in 32 bits (or it is what is found
where that wraps to), or its position is past the recorded length. -/
def Reachable (dig : Digest) (beginFrom bits k : ℕ) : Prop :=
  ((k + 1) * bits ≤ available dig beginFrom ∧
    Words.slice (fun w => dig.value (beginFrom + w)) (k * bits % 2 ^ 32) bits =
      Words.slice (fun w => dig.value (beginFrom + w)) (k * bits) bits) ∨
  (dig.size < 2 ^ 27 ∧ dig.size * 32 < k * bits)

theorem callRight_of_ptr {p : ℕ} (hb1 : 1 ≤ bits) (hb : bits < 32)
    (hp : (after bits k (set dig beginFrom)).ptr = p) (hpk : p ≤ k * bits)
    (hle : p ≤ dig.size * 32) : CallRight dig beginFrom bits k ↔
      (k + 1) * bits ≤ available dig beginFrom ∧
        Words.slice (fun w => dig.value (beginFrom + w)) p bits =
          Words.slice (fun w => dig.value (beginFrom + w)) (k * bits) bits := by
  have hcall := call_of_ptr hb hp hle
  have hmul : (k + 1) * bits = k * bits + bits := Nat.succ_mul k bits
  constructor
  · rintro ⟨hout, -⟩
    rw [hcall, sliceOf] at hout
    split_ifs at hout with hin
    exact ⟨hin, Option.some.inj hout⟩
  · rintro ⟨hin, hs⟩
    refine ⟨?_, reads_inside hb1 (by omega)⟩
    rw [hcall, sliceOf, if_pos hin, hs]

theorem callRight_iff (hb1 : 1 ≤ bits) (hb : bits < 32) (dig : Digest) (beginFrom k : ℕ) :
    CallRight dig beginFrom bits k ↔ Reachable dig beginFrom bits k := by
  unfold Reachable
  have havail : available dig beginFrom ≤ dig.size * 32 :=
    Nat.mul_le_mul_right 32 (Nat.sub_le dig.size beginFrom)
  have hmul : (k + 1) * bits = k * bits + bits := Nat.succ_mul k bits
  by_cases hsmall : dig.size < 2 ^ 27
  · obtain ⟨hle, hlt⟩ := ptr_after beginFrom hsmall hb k
    by_cases hk : k * bits ≤ dig.size * 32
    · rw [callRight_of_ptr hb1 hb (hle hk) le_rfl hk, Nat.mod_eq_of_lt (by omega)]
      simp only [and_true, hsmall, true_and]
      exact (or_iff_left (by omega)).symm
    · have hptr := hlt (by omega)
      have hlen : (after bits k (set dig beginFrom)).length = dig.size * 32 :=
        (after_fixed bits k _).2
      refine iff_of_true ⟨?_, ?_⟩ (.inr ⟨hsmall, by omega⟩)
      · rw [call, next32_of_lt (by omega), sliceOf, if_neg (by omega)]
        rfl
      · rw [reads, if_pos (by omega)]
        exact fun i hi => absurd hi List.not_mem_nil
  · have hp := ptr_after_wraps beginFrom bits (Nat.not_lt.1 hsmall) k
    rw [callRight_of_ptr hb1 hb hp (Nat.mod_le _ _) (by omega)]
    exact (or_iff_left fun h => hsmall h.1).symm

/-! ## The probes of a d-left table -/

/-- The places of a key are what the calls put out. -/
theorem cellAt_eq_call {K : Type*} [IReadBuffer K] {shash : ℕ} {key : K} (hs : shash < 32)
    (hsize : (getHash key).size < 2 ^ 27) (i : ℕ) :
    (DLeft.cellAt shash key i).map Prod.snd = call (getHash key) 1 shash i := by
  obtain ⟨hle, hlt⟩ := ptr_after 1 hsize hs i
  unfold DLeft.cellAt
  by_cases hi : i * shash ≤ (getHash key).size * 32
  · rw [if_neg (by omega), call_of_ptr hs (hle hi) hi, Option.map_some, DLeft.place,
      extract_eq_slice _ hs]
  · have hlen : (after shash i (set (getHash key) 1)).length = (getHash key).size * 32 :=
      (after_fixed shash i _).2
    have hptr := hlt (by omega)
    rw [if_pos (by omega), call, next32_of_lt (by omega)]
    rfl

/-- All the probes of a key are right iff the six words hold a slice for each sub-table. -/
theorem probes_right_iff {shash : ℕ} (hs1 : 1 ≤ shash) (hs : shash < 32) (key : HashedBuffer)
    (nhash : ℕ) : (∀ i < nhash, CallRight (getHash key) 1 shash i) ↔ nhash * shash ≤ 192 := by
  have hsize : (getHash key).size = 7 := rfl
  have hcond : ∀ i, CallRight (getHash key) 1 shash i ↔
      (i + 1) * shash ≤ 192 ∨ 224 < i * shash := by
    intro i
    rw [callRight_iff hs1 hs, Reachable, available, hsize]
    constructor
    · rintro (⟨h, -⟩ | ⟨-, h⟩)
      · exact .inl h
      · exact .inr h
    · rintro (h | h)
      · refine .inl ⟨h, congrArg (Words.slice _ · shash) (Nat.mod_eq_of_lt ?_)⟩
        have : i * shash ≤ (i + 1) * shash := Nat.mul_le_mul_right shash (Nat.le_succ i)
        omega
      · exact .inr ⟨by decide, h⟩
  simp only [hcond]
  constructor
  · intro h
    by_contra hn
    have hfirst := Nat.lt_div_mul_add (a := 192) hs1
    have hdiv := Nat.div_mul_le_self 192 shash
    rw [← Nat.add_one_mul] at hfirst
    have hlt : 192 / shash < nhash := by
      rw [Nat.div_lt_iff_lt_mul hs1]
      omega
    rcases h (192 / shash) hlt with h | h <;> omega
  · intro h i hi
    exact .inl ((Nat.mul_le_mul_right shash hi).trans h)

/-- The calls of `next`, and the probes of a key, that are right. -/
theorem splitter_exact_iff (hb1 : 1 ≤ bits) (hb : bits ≤ 31) :
    (∀ dig beginFrom k, CallRight dig beginFrom bits k ↔ Reachable dig beginFrom bits k) ∧
    ∀ (key : HashedBuffer) (nhash : ℕ),
      (∀ i < nhash, CallRight (getHash key) 1 bits i) ↔ nhash * bits ≤ 192 :=
  ⟨callRight_iff hb1 (by omega), probes_right_iff hb1 (by omega)⟩

/-- The last of twelve slices of 16 bits. -/
theorem splitter_exact_key : CallRight (getHash (⟨[1, 2, 3]⟩ : HashedBuffer)) 1 16 11 :=
  ((splitter_exact_iff (by decide) (by decide)).2 _ 12).2 (by decide) 11 (by decide)

/-- One word, and a second call that reads the word after it. -/
theorem splitter_reads_past : ¬ CallRight ⟨fun _ => 0, 1⟩ 0 20 1 := by
  rintro ⟨-, h⟩
  exact absurd (h 1 (by decide)) (by decide)

end HashSplitter

end DStreamon
