import DStreamon.Khash
import DStreamon.Lib.FirstDistinct
import DStreamon.Lib.Words
import Mathlib.Tactic.SplitIfs

/-!
# When `split` is safe

`split` takes the slices of the digest one after another, and with `norep` passes over those it has
taken before.  The refill of `compute` is left out, so what decides is whether the 192 bits hold
enough slices.
-/

namespace DStreamon

open Function (update)

/-- What the constructor of `khash` admits. -/
structure Admitted (nhash shash : ℕ) (norep : Bool) : Prop where
  hashes : 1 ≤ nhash
  bits : 1 ≤ shash
  small : shash < 32
  enough : norep = true → nhash ≤ 2 ^ shash

/-! ## The digests are short -/

theorem toNat_bitmask {bit : ℕ} (h : bit < 32) : (bitmask bit).toNat = 2 ^ bit - 1 := by
  rw [bitmask, if_neg (by omega)]
  exact Words.toNat_mask h

/-- The slice at `ptr`, as `split` cuts it. -/
theorem cut_eq_slice (msgdig : ℕ → UInt32) (ptr : ℕ) {shash : ℕ} (hs : shash < 32) :
    (if 0 < ptr % 32 + shash - 32 then
        lowBits msgdig ptr shash ||| highBits (msgdig (ptr / 32 + 1)) (ptr % 32 + shash - 32) shash
      else lowBits msgdig ptr shash).toNat = Words.slice msgdig ptr shash := by
  split_ifs with hc
  · exact Words.cut_straddle (toNat_bitmask hs) hs.le (by omega) (toNat_bitmask (by omega))
  · exact Words.cut_low (toNat_bitmask hs) (by omega)

/-- The bits of two words, whatever the words. -/
theorem digest_lt {shash : ℕ} (hs : shash < 32) (msgdig : ℕ → UInt32) (next : UInt32) (ptr : ℕ) :
    (if 0 < ptr % 32 + shash - 32 then
        lowBits msgdig ptr shash ||| highBits next (ptr % 32 + shash - 32) shash
      else lowBits msgdig ptr shash).toNat < 2 ^ shash := by
  have hslice := cut_eq_slice (update msgdig (ptr / 32 + 1) next) ptr hs
  have hlow : lowBits (update msgdig (ptr / 32 + 1) next) ptr shash = lowBits msgdig ptr shash := by
    unfold lowBits
    rw [Function.update_of_ne (Nat.ne_of_lt (Nat.lt_succ_self _))]
  rw [hlow, Function.update_self] at hslice
  exact hslice ▸ Words.slice_lt _ _ _

theorem update_lt {res : ℕ → UInt32} {v : UInt32} {n : ℕ} (hres : ∀ i, (res i).toNat < n)
    (hv : v.toNat < n) (k i : ℕ) : (update res k v i).toNat < n := by
  rw [Function.update_apply]
  split_ifs
  · exact hv
  · exact hres i

theorem splitLoop_lt {nhash shash : ℕ} {norep : Bool} {msgdig : ℕ → UInt32} (hs : shash < 32) :
    ∀ {fuel ptr k : ℕ} {res H : ℕ → UInt32}, (∀ i, (res i).toNat < 2 ^ shash) →
      splitLoop nhash shash norep msgdig fuel ptr k res = .ok H → ∀ i, (H i).toNat < 2 ^ shash
  | 0, ptr, k, res, H, hres, h => by
    unfold splitLoop at h
    split_ifs at h
    exact Except.ok.inj h ▸ hres
  | fuel + 1, ptr, k, res, H, hres, h => by
    unfold splitLoop at h
    by_cases hk : nhash < k
    · rw [if_pos hk] at h
      exact Except.ok.inj h ▸ hres
    rw [if_neg hk] at h
    dsimp only at h
    by_cases hover : hashBits < ptr + shash
    · rw [if_pos hover] at h
      cases h
    · rw [if_neg hover] at h
      exact splitLoop_lt hs (update_lt hres (digest_lt hs msgdig _ ptr) k) h

theorem computeLoop_lt {nhash shash : ℕ} {norep : Bool} {key : List UInt8} (hs : shash < 32) :
    ∀ {fuel ptr k : ℕ} {msgdig res H : ℕ → UInt32}, (∀ i, (res i).toNat < 2 ^ shash) →
      computeLoop nhash shash norep key fuel ptr k msgdig res = .ok H → ∀ i, (H i).toNat < 2 ^ shash
  | 0, ptr, k, msgdig, res, H, hres, h => by
    unfold computeLoop at h
    split_ifs at h
    exact Except.ok.inj h ▸ hres
  | fuel + 1, ptr, k, msgdig, res, H, hres, h => by
    unfold computeLoop at h
    by_cases hk : nhash < k
    · rw [if_pos hk] at h
      exact Except.ok.inj h ▸ hres
    rw [if_neg hk] at h
    dsimp -zeta only at h
    extract_lets carry low again words next res' at h
    split at h
    · cases h
    · exact computeLoop_lt hs (update_lt hres (digest_lt hs msgdig next ptr) k) h

/-! ## The inner loop -/

variable {res : ℕ → UInt32}

theorem norepLoop_new : ∀ (n : ℕ) {i k : ℕ}, (∀ j, i ≤ j → j < k → res j ≠ res k) →
    norepLoop res n i k = k
  | 0, _, _, _ => rfl
  | n + 1, i, k, h => by
    unfold norepLoop
    split_ifs with hi he
    · exact absurd he (h i le_rfl hi)
    · exact norepLoop_new n fun j hj hjk => h j (by omega) hjk
    · rfl

/-- `k` goes down once: from then on the digest is compared with is an earlier one, and those differ
from each other. -/
theorem norepLoop_repeated : ∀ (n : ℕ) {i k j : ℕ}, k ≤ i + n → i ≤ j → j < k → res j = res k →
    (∀ a b, i ≤ a → a < b → b < k → res a ≠ res b) → norepLoop res n i k = k - 1
  | 0, i, k, j, hn, hij, hjk, _, _ => by omega
  | n + 1, i, k, j, hn, hij, hjk, he, hd => by
    unfold norepLoop
    rw [if_pos (by omega)]
    split_ifs with hi
    · exact norepLoop_new n fun a ha hak => hd a (k - 1) (by omega) hak (by omega)
    · have hne : i ≠ j := fun h => hi (h ▸ he)
      exact norepLoop_repeated n (by omega) (by omega) hjk he
        fun a b ha hab hb => hd a b (by omega) hab hb

/-! ## The outer loop -/

/-- `res[1]` on are the digests taken so far. -/
structure Holds (res : ℕ → UInt32) (acc : List ℕ) : Prop where
  get : ∀ i (h : i < acc.length), (res (i + 1)).toNat = acc[i]

theorem Holds.mem_iff {acc : List ℕ} (h : Holds res acc) (v : ℕ) :
    v ∈ acc ↔ ∃ j, 1 ≤ j ∧ j < acc.length + 1 ∧ (res j).toNat = v := by
  constructor
  · intro hv
    obtain ⟨i, hi, rfl⟩ := List.mem_iff_getElem.1 hv
    exact ⟨i + 1, by omega, by omega, h.get i hi⟩
  · rintro ⟨j, hj, hja, rfl⟩
    have := h.get (j - 1) (by omega)
    rw [Nat.sub_add_cancel hj] at this
    exact this ▸ List.getElem_mem _

theorem Holds.distinct {acc : List ℕ} (h : Holds res acc) (hnd : acc.Nodup) {a b : ℕ} (ha : 1 ≤ a)
    (hab : a < b) (hb : b < acc.length + 1) : res a ≠ res b := by
  intro he
  have hga := h.get (a - 1) (by omega)
  have hgb := h.get (b - 1) (by omega)
  rw [Nat.sub_add_cancel ha] at hga
  rw [Nat.sub_add_cancel (by omega)] at hgb
  have := (List.Nodup.getElem_inj_iff hnd).1 (hga.symm.trans ((congrArg _ he).trans hgb))
  omega

/-- The next digest cut, and the next `k`. -/
theorem Holds.next {acc : List ℕ} {norep : Bool} (h : Holds res acc)
    (hnd : norep = true → acc.Nodup) (v : UInt32) :
    Holds (update res (acc.length + 1) v) (FirstDistinct.keep norep acc v.toNat) ∧
      nextK norep (update res (acc.length + 1) v) (acc.length + 1) =
        (FirstDistinct.keep norep acc v.toNat).length + 1 := by
  have hold : ∀ j, j < acc.length + 1 → update res (acc.length + 1) v j = res j := fun j hj =>
    Function.update_of_ne (by omega) _ _
  have hget : Holds (update res (acc.length + 1) v) acc :=
    ⟨fun i hi => by rw [hold _ (by omega), h.get i hi]⟩
  have hpush : Holds (update res (acc.length + 1) v) (acc ++ [v.toNat]) := by
    refine ⟨fun i hi => ?_⟩
    by_cases hia : i < acc.length
    · rw [List.getElem_append_left hia, hget.get i hia]
    · obtain rfl : i = acc.length := by
        rw [List.length_append, List.length_singleton] at hi
        omega
      simp
  unfold nextK FirstDistinct.keep
  cases norep with
  | false => exact ⟨by simpa using hpush, by simp⟩
  | true =>
    simp only [if_true, true_and]
    split_ifs with hv
    · obtain ⟨j, hj, hja, hjv⟩ := (hget.mem_iff v.toNat).1 hv
      refine ⟨hget, congrArg (· + 1) ?_⟩
      refine norepLoop_repeated _ (by omega) hj hja ?_ fun a b ha hab hb => ?_
      · rw [Function.update_self]
        exact UInt32.toNat_inj.1 hjv
      · exact hget.distinct (hnd rfl) ha hab hb
    · refine ⟨hpush, ?_⟩
      rw [List.length_append, List.length_singleton]
      refine congrArg (· + 1) (norepLoop_new _ fun j hj hja he => hv ?_)
      rw [Function.update_self] at he
      exact (hget.mem_iff v.toNat).2 ⟨j, hj, hja, congrArg _ he⟩

variable {nhash shash : ℕ} {norep : Bool} {msgdig : ℕ → UInt32}

/-- The `n` slices from `ptr` on. -/
def slices (msgdig : ℕ → UInt32) (shash : ℕ) : ℕ → ℕ → List ℕ
  | 0, _ => []
  | n + 1, ptr => Words.slice msgdig ptr shash :: slices msgdig shash n (ptr + shash)

theorem mem_slices_lt : ∀ (n ptr : ℕ) {v : ℕ}, v ∈ slices msgdig shash n ptr → v < 2 ^ shash
  | n + 1, ptr, v, h => by
    rcases List.mem_cons.1 h with rfl | h
    · exact Words.slice_lt _ _ _
    · exact mem_slices_lt n (ptr + shash) h

/-- The loop takes the slices there are: it ends with the first `nhash` of them, or fails its assert
when there are not so many. -/
theorem splitLoop_eq (hs : 1 ≤ shash) (hs' : shash < 32) : ∀ (n fuel ptr : ℕ) (res : ℕ → UInt32)
    (acc : List ℕ), ptr + n * shash ≤ hashBits → hashBits < ptr + (n + 1) * shash → n < fuel →
      Holds res acc → (norep = true → acc.Nodup) →
    (∀ out, FirstDistinct.collect norep nhash (slices msgdig shash n ptr) acc = some out →
      ∃ H, splitLoop nhash shash norep msgdig fuel ptr (acc.length + 1) res = .ok H ∧ Holds H out) ∧
    (FirstDistinct.collect norep nhash (slices msgdig shash n ptr) acc = none →
      splitLoop nhash shash norep msgdig fuel ptr (acc.length + 1) res = .error .digestOverrun)
  | n, 0, _, _, _, _, _, hf, _, _ => absurd hf (Nat.not_lt_zero n)
  | n, fuel + 1, ptr, res, acc, hle, hgt, hf, hacc, hnd => by
    by_cases hk : nhash < acc.length + 1
    · have hdone :
          FirstDistinct.collect norep nhash (slices msgdig shash n ptr) acc = some acc := by
        cases n <;> exact if_pos (by omega)
      have hres : splitLoop nhash shash norep msgdig (fuel + 1) ptr (acc.length + 1) res =
          .ok res := by
        unfold splitLoop
        rw [if_pos hk]
      rw [hdone]
      refine ⟨fun out hout => ⟨res, hres, ?_⟩, fun h => by cases h⟩
      obtain rfl := Option.some.inj hout
      exact hacc
    · unfold splitLoop
      rw [if_neg hk]
      dsimp only
      rcases n with _ | n
      · have hover : hashBits < ptr + shash := by omega
        have hnone : FirstDistinct.collect norep nhash (slices msgdig shash 0 ptr) acc = none :=
          if_neg (by omega)
        rw [if_pos hover, hnone]
        exact ⟨fun out h => (by cases h), fun _ => rfl⟩
      · have hsucc : ptr + (n + 1) * shash = ptr + shash + n * shash := by
          rw [Nat.succ_mul]
          omega
        have hsucc' : ptr + (n + 1 + 1) * shash = ptr + shash + (n + 1) * shash := by
          rw [Nat.succ_mul (n + 1)]
          omega
        have hfit : ¬ hashBits < ptr + shash := by omega
        have hstep : FirstDistinct.collect norep nhash (slices msgdig shash (n + 1) ptr) acc =
            FirstDistinct.collect norep nhash (slices msgdig shash n (ptr + shash))
              (FirstDistinct.keep norep acc (Words.slice msgdig ptr shash)) :=
          if_neg (by omega)
        rw [if_neg hfit, hstep]
        have hcut := cut_eq_slice msgdig ptr hs'
        obtain ⟨hnext, hk'⟩ := hacc.next hnd (if 0 < ptr % 32 + shash - 32 then
          lowBits msgdig ptr shash |||
            highBits (msgdig (ptr / 32 + 1)) (ptr % 32 + shash - 32) shash
          else lowBits msgdig ptr shash)
        rw [hcut] at hnext hk'
        rw [hk']
        refine splitLoop_eq hs hs' n fuel (ptr + shash) _ _ (by omega) (by omega) (by omega) hnext
          ?_
        rintro rfl
        exact FirstDistinct.nodup_keep (hnd rfl)

/-! ## The words read -/

/-- The words of the digest the loop of `split` reads. -/
def splitReads (nhash shash : ℕ) (norep : Bool) (msgdig : ℕ → UInt32) :
    ℕ → ℕ → ℕ → (ℕ → UInt32) → List ℕ
  | fuel, ptr, k, res =>
    if nhash < k then []
    else match fuel with
      | 0 => []
      | fuel + 1 =>
        let carry := ptr % 32 + shash - 32
        let low := lowBits msgdig ptr shash
        let res := update res k
          (if 0 < carry then low ||| highBits (msgdig (ptr / 32 + 1)) carry shash else low)
        let here := if 0 < carry then [ptr / 32, ptr / 32 + 1] else [ptr / 32]
        if hashBits < ptr + shash then here
        else here ++ splitReads nhash shash norep msgdig fuel (ptr + shash) (nextK norep res k) res

theorem splitReads_lt (hs : 1 ≤ shash) : ∀ (fuel ptr k : ℕ) (res H : ℕ → UInt32),
    splitLoop nhash shash norep msgdig fuel ptr k res = .ok H →
      ∀ i ∈ splitReads nhash shash norep msgdig fuel ptr k res, i < hashIntegers
  | 0, ptr, k, res, H, h, i, hi => by
    unfold splitReads at hi
    split_ifs at hi <;> cases hi
  | fuel + 1, ptr, k, res, H, h, i, hi => by
    unfold splitLoop at h
    unfold splitReads at hi
    by_cases hk : nhash < k
    · rw [if_pos hk] at hi
      cases hi
    rw [if_neg hk] at h hi
    dsimp only at h hi
    by_cases hover : hashBits < ptr + shash
    · rw [if_pos hover] at h
      cases h
    rw [if_neg hover] at h hi
    rcases List.mem_append.1 hi with hi | hi
    · unfold hashBits at hover
      unfold hashIntegers
      split_ifs at hi with hc
      · have hi : i = ptr / 32 ∨ i = ptr / 32 + 1 := by simpa using hi
        omega
      · have hi : i = ptr / 32 := by simpa using hi
        omega
    · exact splitReads_lt hs fuel _ _ _ H h i hi

/-! ## `split` -/

/-- `split` comes to an end, reads the six words of the digest only, and leaves `nhash` digests of
`shash` bits, distinct if they must be. -/
def SplitSafe (nhash shash : ℕ) (norep : Bool) (msgdig : ℕ → UInt32) : Prop :=
  ∃ H, (∀ fuel, hashBits < fuel →
      splitLoop nhash shash norep msgdig fuel 0 1 (fun _ => 0) = .ok H ∧
        ∀ i ∈ splitReads nhash shash norep msgdig fuel 0 1 fun _ => 0, i < hashIntegers) ∧
    (∀ k, 1 ≤ k → k ≤ nhash → (H k).toNat < 2 ^ shash) ∧
    (norep = true → ∀ a b, 1 ≤ a → a < b → b ≤ nhash → H a ≠ H b)

/-- The whole slices of the digest. -/
def allSlices (msgdig : ℕ → UInt32) (shash : ℕ) : List ℕ := slices msgdig shash (hashBits / shash) 0

/-- There are `nhash` of them, distinct ones if they must be. -/
def EnoughSlices (nhash shash : ℕ) (norep : Bool) (msgdig : ℕ → UInt32) : Prop :=
  if norep = true then nhash ≤ (allSlices msgdig shash).toFinset.card else nhash * shash ≤ hashBits

theorem length_slices : ∀ (n ptr : ℕ), (slices msgdig shash n ptr).length = n
  | 0, _ => rfl
  | n + 1, ptr => congrArg (· + 1) (length_slices n (ptr + shash))

theorem enoughSlices_iff (hs : 1 ≤ shash) : EnoughSlices nhash shash norep msgdig ↔
    (FirstDistinct.collect norep nhash (allSlices msgdig shash) []).isSome := by
  rw [FirstDistinct.collect_isSome_iff, FirstDistinct.length_foldl_keep, EnoughSlices]
  split_ifs with h
  · rfl
  · rw [allSlices, length_slices, Nat.le_div_iff_mul_le hs]

theorem split_eq (ha : Admitted nhash shash norep) (msgdig : ℕ → UInt32) {fuel : ℕ}
    (hf : hashBits < fuel) :
    (∀ out, FirstDistinct.collect norep nhash (allSlices msgdig shash) [] = some out →
      ∃ H, splitLoop nhash shash norep msgdig fuel 0 1 (fun _ => 0) = .ok H ∧ Holds H out) ∧
    (FirstDistinct.collect norep nhash (allSlices msgdig shash) [] = none →
      splitLoop nhash shash norep msgdig fuel 0 1 (fun _ => 0) = .error .digestOverrun) := by
  have hdiv := Nat.div_mul_le_self hashBits shash
  have hlt := Nat.lt_div_mul_add (a := hashBits) ha.bits
  have hle := Nat.div_le_self hashBits shash
  rw [← Nat.add_one_mul] at hlt
  exact splitLoop_eq ha.bits ha.small _ fuel 0 _ [] (by omega) (by omega) (by omega)
    ⟨fun i hi => absurd hi (Nat.not_lt_zero i)⟩ fun _ => List.nodup_nil

theorem splitLoop_mono : ∀ {fuel fuel' : ℕ} {ptr k : ℕ} {res H : ℕ → UInt32}, fuel ≤ fuel' →
    splitLoop nhash shash norep msgdig fuel ptr k res = .ok H →
      splitLoop nhash shash norep msgdig fuel' ptr k res = .ok H
  | 0, fuel', ptr, k, res, H, _, h => by
    unfold splitLoop at h ⊢
    split_ifs at h ⊢
    exact h
  | fuel + 1, 0, _, _, _, _, hle, _ => absurd hle (Nat.not_succ_le_zero fuel)
  | fuel + 1, fuel' + 1, ptr, k, res, H, hle, h => by
    unfold splitLoop at h ⊢
    by_cases hk : nhash < k
    · rw [if_pos hk] at h ⊢
      exact h
    rw [if_neg hk] at h ⊢
    dsimp only at h ⊢
    by_cases hover : hashBits < ptr + shash
    · rw [if_pos hover] at h
      cases h
    rw [if_neg hover] at h ⊢
    exact splitLoop_mono (Nat.le_of_succ_le_succ hle) h

/-- `split` is safe exactly where the 192 bits hold enough slices. -/
theorem splitSafe_iff (ha : Admitted nhash shash norep) (msgdig : ℕ → UInt32) :
    SplitSafe nhash shash norep msgdig ↔ EnoughSlices nhash shash norep msgdig := by
  rw [enoughSlices_iff ha.bits]
  obtain ⟨hsome, hnone⟩ := split_eq ha msgdig (Nat.lt_succ_self hashBits)
  constructor
  · rintro ⟨H, hH, -⟩
    by_contra h
    rw [Bool.not_eq_true, Option.isSome_eq_false_iff, Option.isNone_iff_eq_none] at h
    cases (hH _ (Nat.lt_succ_self _)).1.symm.trans (hnone h)
  · intro h
    obtain ⟨out, hout⟩ := Option.isSome_iff_exists.1 h
    obtain ⟨H, hok, hH⟩ := hsome out hout
    have hlen := FirstDistinct.collect_length hout
    refine ⟨H, fun fuel hf => ?_, fun k hk hkn => ?_, ?_⟩
    · have hokf := splitLoop_mono (Nat.succ_le_of_lt hf) hok
      exact ⟨hokf, splitReads_lt ha.bits fuel 0 1 _ H hokf⟩
    · have hmem := FirstDistinct.collect_mem hout _ ((hH.mem_iff _).2 ⟨k, hk, by omega, rfl⟩)
      exact mem_slices_lt _ _ hmem
    · rintro rfl a b ha' hab hb
      exact hH.distinct (FirstDistinct.collect_nodup hout) ha' hab (by omega)

theorem splitSafe_four : SplitSafe 4 10 false fun i => UInt32.ofNat i :=
  (splitSafe_iff ⟨by decide, by decide, by decide, by decide⟩ _).2
    (by unfold EnoughSlices; decide)

/-- Seven digests of 31 bits are more than there are. -/
theorem split_overruns : Admitted 7 31 false ∧ ¬ SplitSafe 7 31 false fun _ => 0 := by
  refine ⟨⟨by decide, by decide, by decide, by decide⟩, ?_⟩
  rintro ⟨H, hH, -⟩
  have := (hH 193 (by decide)).1
  exact absurd this (by simp [splitLoop, nextK, hashBits])

end DStreamon
