import DStreamon.HashPaths
import DStreamon.Proofs.Bloom

/-!
# The two ways cut the same digests

As long as `compute` needs no more than the six words hashed first, which are the words a key
caches, it leaves the digests that `split` leaves.
-/

namespace DStreamon

open Function (update)

variable {hash : List UInt8 → UInt32 → UInt32 → UInt32 × UInt32} {fuel nhash shash : ℕ}
  {norep : Bool} {key : List UInt8} {H : ℕ → UInt32} {bits : ℕ}

/-! ## Over `hashlittle2` itself -/

theorem rehashBy_hashlittle2 : rehashBy hashlittle2 = rehash := by
  funext key msgdig i
  match i with
  | 0 | 1 | 2 | 3 | 4 | 5 => rfl
  | _ + 6 => rfl

theorem computeBitsLoop_eq : ∀ (fuel : ℕ) {ptr n k : ℕ} {msgdig res : ℕ → UInt32},
    (computeBitsLoop hashlittle2 nhash shash norep key fuel ptr n k msgdig res).map Prod.fst =
      computeLoop nhash shash norep key fuel ptr k msgdig res
  | 0, ptr, n, k, msgdig, res => by
    unfold computeBitsLoop computeLoop
    split_ifs <;> rfl
  | fuel + 1, ptr, n, k, msgdig, res => by
    unfold computeBitsLoop computeLoop
    rw [rehashBy_hashlittle2]
    by_cases hk : nhash < k
    · simp only [hk, if_true]
      rfl
    · simp only [hk, if_false]
      split_ifs
      all_goals first
        | exact computeBitsLoop_eq fuel
        | rfl

theorem computeBits_eq : (computeBits hashlittle2 fuel nhash shash norep key).map Prod.fst =
    compute fuel nhash shash norep key := by
  unfold computeBits compute
  split_ifs
  · rfl
  · rw [computeBitsLoop_eq, rehashBy_hashlittle2]

theorem insertBy_eq (f : Bloomfilter) : f.insertBy hashlittle2 fuel key = f.insert fuel key := by
  unfold Bloomfilter.insertBy Bloomfilter.insert
  rw [← computeBits_eq]
  cases computeBits hashlittle2 fuel f.nhash f.shash f.norep key <;> rfl

theorem checkBy_eq (f : Bloomfilter) : f.checkBy hashlittle2 fuel key = f.check fuel key := by
  unfold Bloomfilter.checkBy Bloomfilter.check
  rw [← computeBits_eq]
  cases computeBits hashlittle2 fuel f.nhash f.shash f.norep key <;> rfl

theorem addBy_eq {τ : Type} (T : Threshold τ) (i : ℕ) (w : DetInstances τ) :
    BloomPair.addBy hashlittle2 T fuel i w key = BloomPair.add T fuel i w key := by
  unfold BloomPair.addBy BloomPair.add
  exact congrArg (BloomPair.update' T fuel i w) (funext insertBy_eq)

theorem pair_checkBy_eq {τ : Type} (i : ℕ) (w : DetInstances τ) :
    BloomPair.checkBy hashlittle2 fuel i w key = BloomPair.check fuel i w key := by
  unfold BloomPair.checkBy BloomPair.check
  cases w i with
  | none => rfl
  | some p => exact checkBy_eq p.detecting

theorem cachedBits_hashlittle2 :
    cachedBits hashlittle2 key = fun i => (bufferHash key).value (i + 1) := rfl

/-! ## The words -/

/-- The words hashed first are the words cached. -/
theorem rehashBy_seeds {i : ℕ} (hi : i < hashIntegers) :
    rehashBy hash key (fun i => UInt32.ofNat (i + 1)) i = cachedBits hash key i := by
  match i, hi with
  | 0, _ | 1, _ | 2, _ | 3, _ | 4, _ | 5, _ => rfl

theorem lowBits_congr {msgdig words : ℕ → UInt32} {ptr : ℕ}
    (h : msgdig (ptr / 32) = words (ptr / 32)) :
    lowBits msgdig ptr shash = lowBits words ptr shash := by
  rw [lowBits, lowBits, h]

theorem computeBitsLoop_le : ∀ {fuel ptr n k : ℕ} {msgdig res : ℕ → UInt32},
    computeBitsLoop hash nhash shash norep key fuel ptr n k msgdig res = .ok (H, bits) → n ≤ bits
  | 0, ptr, n, k, msgdig, res, h => by
    unfold computeBitsLoop at h
    split_ifs at h
    cases h
    exact Nat.le_refl _
  | fuel + 1, ptr, n, k, msgdig, res, h => by
    unfold computeBitsLoop at h
    by_cases hk : nhash < k
    · rw [if_pos hk] at h
      cases h
      exact Nat.le_refl _
    · rw [if_neg hk] at h
      dsimp -zeta only at h
      extract_lets at h
      split at h
      · cases h
      · have := computeBitsLoop_le h
        omega

/-- `split` follows `compute` until the words are used up. -/
theorem splitLoop_of_compute (hs : 1 ≤ shash) (hbits : bits ≤ hashBits) {words : ℕ → UInt32} :
    ∀ {fuel fuel' ptr k : ℕ} {msgdig res : ℕ → UInt32},
      (∀ i < hashIntegers, msgdig i = words i) → hashBits < ptr + fuel' →
      computeBitsLoop hash nhash shash norep key fuel ptr ptr k msgdig res = .ok (H, bits) →
      splitLoop nhash shash norep words fuel' ptr k res = .ok H
  | 0, fuel', ptr, k, msgdig, res, hwords, hfuel, h => by
    unfold computeBitsLoop at h
    unfold splitLoop
    split_ifs at h with hk
    cases h
    rw [if_pos hk]
  | fuel + 1, fuel', ptr, k, msgdig, res, hwords, hfuel, h => by
    have hptr : ptr ≤ bits := computeBitsLoop_le h
    unfold computeBitsLoop at h
    unfold splitLoop
    by_cases hk : nhash < k
    · rw [if_pos hk] at h ⊢
      cases h
      rfl
    rw [if_neg hk] at h ⊢
    obtain ⟨fuel', rfl⟩ : ∃ n, fuel' = n + 1 := ⟨fuel' - 1, by omega⟩
    dsimp only
    have h192 : hashBits = 192 := rfl
    have h6 : hashIntegers = 6 := rfl
    by_cases hagain : 32 ≤ ptr % 32 + shash ∧ ptr / 32 = hashIntegers - 1
    · simp only [hagain, and_self, decide_true, if_true] at h
      split at h
      · cases h
      have hle := computeBitsLoop_le h
      have hend : ptr + shash = 192 := by omega
      have hcarry : ¬ 0 < ptr % 32 + shash - 32 := by omega
      rw [if_neg hcarry, lowBits_congr (hwords _ (by omega))] at h
      rw [if_neg hcarry, if_neg (by omega)]
      have hdone : nhash < nextK norep (update res k (lowBits words ptr shash)) k := by
        by_contra hmore
        unfold computeBitsLoop at h
        rw [if_neg hmore] at h
        cases fuel with
        | zero => cases h
        | succ fuel =>
          dsimp -zeta only at h
          extract_lets at h
          split at h
          · cases h
          · have := computeBitsLoop_le h
            omega
      unfold computeBitsLoop at h
      rw [if_pos hdone] at h
      cases h
      unfold splitLoop
      rw [if_pos hdone]
    · simp only [hagain, decide_false, Bool.false_eq_true, if_false] at h
      split at h
      · cases h
      next hover =>
      have hle := computeBitsLoop_le h
      have hlow : lowBits msgdig ptr shash = lowBits words ptr shash :=
        lowBits_congr (hwords _ (by omega))
      have hdigest : (if 0 < ptr % 32 + shash - 32 then lowBits msgdig ptr shash |||
            highBits (msgdig (ptr / 32 + 1)) (ptr % 32 + shash - 32) shash
          else lowBits msgdig ptr shash) =
          if 0 < ptr % 32 + shash - 32 then lowBits words ptr shash |||
            highBits (words (ptr / 32 + 1)) (ptr % 32 + shash - 32) shash
          else lowBits words ptr shash := by
        rw [hlow]
        split_ifs with hcarry
        · rw [hwords _ (by omega)]
        · rfl
      rw [if_neg hover, ← hdigest]
      exact splitLoop_of_compute hs hbits hwords (by omega) h

/-! ## On filters and pairs -/

theorem split_of_compute (hs : 1 ≤ shash)
    (h : computeBits hash fuel nhash shash norep key = .ok (H, bits)) (hbits : bits ≤ hashBits) :
    split nhash shash norep (cachedBits hash key) = .ok H := by
  unfold computeBits at h
  split_ifs at h
  exact splitLoop_of_compute hs hbits (fun i hi => rehashBy_seeds hi) (by omega) h

section Filters

variable {f : Bloomfilter} (hf : f.Shaped nhash shash norep) (hs : 1 ≤ shash)
  (h : computeBits hash fuel nhash shash norep key = .ok (H, bits)) (hbits : bits ≤ hashBits)

include hf hs h hbits

theorem insertBy_eq_setBits :
    f.insertBy hash fuel key = f.setBits (cachedBits hash key) := by
  rw [Bloomfilter.insertBy, Bloomfilter.setBits, hf.nhash, hf.shash, hf.norep, h,
    split_of_compute hs h hbits]
  rfl

theorem checkBy_eq_checkBits :
    f.checkBy hash fuel key = f.checkBits (cachedBits hash key) := by
  rw [Bloomfilter.checkBy, Bloomfilter.checkBits, hf.nhash, hf.shash, hf.norep, h,
    split_of_compute hs h hbits]
  rfl

end Filters

/-- Over any `hashlittle2`, for every key of which `compute` needs at most the 192 bits hashed
first, `split` cuts the same digests from the key's cached hash, and both ways of inserting it and
of asking for it do the same to every filter and pair of that shape. -/
theorem hash_paths_agree (hash : List UInt8 → UInt32 → UInt32 → UInt32 × UInt32) (hs : 1 ≤ shash)
    (h : computeBits hash fuel nhash shash norep key = .ok (H, bits)) (hbits : bits ≤ hashBits) :
    split nhash shash norep (cachedBits hash key) = .ok H ∧
      (∀ f : Bloomfilter, f.Shaped nhash shash norep →
        f.insertBy hash fuel key = f.setBits (cachedBits hash key) ∧
        f.checkBy hash fuel key = f.checkBits (cachedBits hash key)) ∧
      ∀ (τ : Type) (T : Threshold τ) (w : DetInstances τ) (i : ℕ) (p : BloomPair τ),
        w i = some p → p.learning.Shaped nhash shash norep → p.detecting.Shaped nhash shash norep →
        BloomPair.addBy hash T fuel i w key = BloomPair.setBits T fuel i w (cachedBits hash key) ∧
        BloomPair.checkBy hash fuel i w key = BloomPair.checkBits i w (cachedBits hash key) := by
  refine ⟨split_of_compute hs h hbits, fun f hf =>
    ⟨insertBy_eq_setBits hf hs h hbits, checkBy_eq_checkBits hf hs h hbits⟩, ?_⟩
  intro τ T w i p hp hl hd
  constructor
  · simp only [BloomPair.addBy, BloomPair.setBits, BloomPair.update', hp,
      insertBy_eq_setBits hl hs h hbits, insertBy_eq_setBits hd hs h hbits]
  · simp only [BloomPair.checkBy, BloomPair.checkBits, hp, checkBy_eq_checkBits hd hs h hbits]

/-- Two digests of a host, of twenty bits each. -/
theorem hash_paths_agree_host : ∃ H,
    computeBits hashlittle2 2 2 20 true [192, 168, 3, 40] = .ok (H, 40) ∧
      split 2 20 true (cachedBits hashlittle2 [192, 168, 3, 40]) = .ok H := by
  obtain ⟨H, h⟩ : ∃ H, computeBits hashlittle2 2 2 20 true [192, 168, 3, 40] = .ok (H, 40) :=
    ⟨_, rfl⟩
  exact ⟨H, h, (hash_paths_agree hashlittle2 (by decide) h (by decide)).1⟩

end DStreamon
