import DStreamon.CBF
import DStreamon.Lib.Sweep

/-!
# The counting filter never counts less

No call lowers a counter, and one that adds an amount to a key leaves its least counter higher by
that amount, or full.
-/

namespace DStreamon

open Function (update)
open Sweep

namespace CBF

variable {f : CBF} {H : ℕ → ℕ} {c : ℕ → UInt32} {x amount : UInt32} {n i p b : ℕ}

theorem uintMax_toNat : uintMax.toNat = 2 ^ 32 - 1 := rfl

/-! ## The shape of a filter -/

theorem log2Loop_dvd : ∀ (fuel n i : ℕ), ∃ r, BLOOMFILTER.log2Loop fuel n i = i + r ∧ 2 ^ r ∣ n
  | 0, n, i => ⟨0, rfl, one_dvd n⟩
  | fuel + 1, n, i => by
    rw [BLOOMFILTER.log2Loop]
    split_ifs with h
    · obtain ⟨r, hr, hdvd⟩ := log2Loop_dvd fuel (n / 2) (i + 1)
      refine ⟨r + 1, by omega, ?_⟩
      rw [pow_succ']
      exact Nat.mul_dvd_of_dvd_div (Nat.dvd_of_mod_eq_zero h.1) hdvd
    · exact ⟨0, rfl, one_dvd n⟩

/-- Every digest of `hashsize` bits is the place of a counter. -/
theorem new_counters {counters nhash : ℕ} (h : new counters nhash = some f) :
    f.counters = 2 ^ f.hashsize := by
  unfold new at h
  dsimp only at h
  split_ifs at h with hshape
  obtain ⟨hpos, -, hshift, -⟩ := hshape
  cases h
  obtain ⟨r, hr, k, hk⟩ := log2Loop_dvd 32 counters 0
  rw [zero_add] at hr
  have hlog : BLOOMFILTER.log2 counters = r := hr
  rw [hlog, Nat.shiftRight_eq_div_pow, Nat.div_eq_zero_iff, pow_succ] at hshift
  have hpow : 0 < 2 ^ r := Nat.two_pow_pos r
  have hlt : 2 ^ r * k < 2 ^ r * 2 := hk ▸ hshift.resolve_left (by omega)
  have hk1 : k = 1 := by
    have := Nat.lt_of_mul_lt_mul_left hlt
    have : k ≠ 0 := by
      rintro rfl
      omega
    omega
  change counters = 2 ^ BLOOMFILTER.log2 counters
  rw [hlog, hk, hk1, mul_one]

/-! ## The least counter -/

theorem le_leastLoop : ∀ {n i : ℕ} {x : UInt32}, b ≤ (leastLoop H c n i x).toNat ↔
    b ≤ x.toNat ∧ ∀ p ∈ (List.range' i n).map H, b ≤ (c p).toNat
  | 0, i, x => by simp [leastLoop]
  | n + 1, i, x => by
    have hmin : b ≤ (if c (H i) < x then c (H i) else x).toNat ↔
        b ≤ x.toNat ∧ b ≤ (c (H i)).toNat := by
      split_ifs with h <;> rw [UInt32.lt_iff_toNat_lt] at h <;> omega
    rw [leastLoop, le_leastLoop, hmin, List.range'_succ, List.map_cons, List.forall_mem_cons,
      and_assoc]

/-- The places of a key's digests. -/
def places (f : CBF) (H : ℕ → ℕ) : List ℕ := (List.range' 0 f.nhash).map H

theorem le_getCount : b ≤ (f.getCount H).toNat ↔
    b ≤ 2 ^ 32 - 1 ∧ ∀ p ∈ f.places H, b ≤ (f.countset p).toNat :=
  le_leastLoop

/-! ## The loops -/

/-- An amount added to a counter, or the counter full. -/
def satAdd (amount v : UInt32) : UInt32 := if uintMax - v < amount then uintMax else v + amount

theorem uintMax_sub (v : UInt32) : (uintMax - v).toNat = 2 ^ 32 - 1 - v.toNat := by
  have hv := v.toNat_lt
  have hle : v ≤ uintMax := by
    rw [UInt32.le_iff_toNat_le, uintMax_toNat]
    omega
  rw [UInt32.toNat_sub_of_le _ _ hle, uintMax_toNat]

theorem satAdd_toNat (v : UInt32) :
    (satAdd amount v).toNat = min (v.toNat + amount.toNat) (2 ^ 32 - 1) := by
  have hv := v.toNat_lt
  unfold satAdd
  split_ifs with h <;> rw [UInt32.lt_iff_toNat_lt, uintMax_sub] at h
  · rw [uintMax_toNat]
    omega
  · rw [UInt32.toNat_add, Nat.mod_eq_of_lt (by omega)]
    omega

theorem addAmountLoop_fst : ∀ (n i : ℕ) (c : ℕ → UInt32) (x : UInt32) (exc : Bool),
    (addAmountLoop H amount n i c x exc).1 = sweep (satAdd amount) c ((List.range' i n).map H)
  | 0, _, _, _, _ => rfl
  | n + 1, i, c, x, exc => by
    rw [addAmountLoop, List.range'_succ, List.map_cons, sweep_cons, satAdd]
    dsimp only
    split_ifs <;> exact addAmountLoop_fst n (i + 1) _ _ _

theorem uintMax_sub_lt_one (v : UInt32) : uintMax - v < 1 ↔ v = uintMax := by
  have hv := v.toNat_lt
  rw [UInt32.lt_iff_toNat_lt, uintMax_sub, ← UInt32.toNat_inj, uintMax_toNat, UInt32.toNat_one]
  omega

/-- A full counter is left by `add_normal(in, len)`, which comes to the same. -/
theorem addNormalLoop_eq : ∀ (n i : ℕ) (c : ℕ → UInt32) (x : UInt32) (exc : Bool),
    addNormalLoop H n i c x exc = addAmountLoop H 1 n i c x exc
  | 0, _, _, _, _ => rfl
  | n + 1, i, c, x, exc => by
    rw [addNormalLoop, addAmountLoop]
    dsimp only
    simp only [uintMax_sub_lt_one]
    by_cases hfull : c (H i) = uintMax
    · have hsame : update c (H i) uintMax = c := by rw [← hfull, Function.update_eq_self]
      rw [if_pos hfull, if_pos hfull, hsame]
      exact addNormalLoop_eq n (i + 1) _ _ _
    · rw [if_neg hfull, if_neg hfull]
      exact addNormalLoop_eq n (i + 1) _ _ _

theorem conservativeLoop_eq : ∀ (n i : ℕ) (c : ℕ → UInt32), conservativeLoop H x n i c =
    sweep (fun v => if v = x then v + 1 else v) c ((List.range' i n).map H)
  | 0, _, _ => rfl
  | n + 1, i, c => by
    rw [conservativeLoop, conservativeLoop_eq, List.range'_succ, List.map_cons, sweep_cons]
    split_ifs
    · rfl
    · rw [Function.update_eq_self]

theorem fillLoop_eq : ∀ (n i : ℕ) (c : ℕ → UInt32), fillLoop H x n i c =
    sweep (fun v => if v < x then x else v) c ((List.range' i n).map H)
  | 0, _, _ => rfl
  | n + 1, i, c => by
    rw [fillLoop, fillLoop_eq, List.range'_succ, List.map_cons, sweep_cons]
    split_ifs
    · rfl
    · rw [Function.update_eq_self]

/-! ## The calls -/

/-- A call sweeps the counters of its key with a function that lowers none and takes those the key
counts with higher by `amount`, or up to the full. -/
structure Raises (H : ℕ → ℕ) (amount : ℕ) (g : UInt32 → UInt32) (f f' : CBF) : Prop where
  nhash : f'.nhash = f.nhash
  countset : f'.countset = sweep g f.countset (f.places H)
  grows : ∀ v, v.toNat ≤ (g v).toNat
  mono : ∀ v w, v.toNat ≤ w.toNat → (g v).toNat ≤ (g w).toNat
  adds : ∀ v, (f.getCount H).toNat ≤ v.toNat →
    min ((f.getCount H).toNat + amount) (2 ^ 32 - 1) ≤ (g v).toNat

variable {f' : CBF} {g : UInt32 → UInt32} {H' : ℕ → ℕ} {a : ℕ}

theorem getCount_le (h : p ∈ f.places H) : (f.getCount H).toNat ≤ (f.countset p).toNat :=
  (le_getCount.1 le_rfl).2 p h

theorem getCount_le_max : (f.getCount H).toNat ≤ 2 ^ 32 - 1 := (le_getCount.1 le_rfl).1

/-- The count of every key is no less. -/
theorem Raises.le (h : Raises H a g f f') (H' : ℕ → ℕ) :
    (f.getCount H').toNat ≤ (f'.getCount H').toNat := by
  refine le_getCount.2 ⟨getCount_le_max, fun p hp => ?_⟩
  rw [places, h.nhash] at hp
  rw [h.countset]
  exact (getCount_le hp).trans (le_sweep (m := UInt32.toNat) h.grows p _ _)

/-- And of the key that was added to as much more. -/
theorem Raises.add_le (h : Raises H a g f f') :
    min ((f.getCount H).toNat + a) (2 ^ 32 - 1) ≤ (f'.getCount H).toNat := by
  refine le_getCount.2 ⟨min_le_right _ _, fun p hp => ?_⟩
  rw [places, h.nhash] at hp
  rw [h.countset]
  exact (h.adds _ (getCount_le hp)).trans
    (apply_le_sweep (m := UInt32.toNat) h.grows h.mono _ _ hp)

theorem raises_satAdd (amount : UInt32) (hn : f'.nhash = f.nhash)
    (hc : f'.countset = sweep (satAdd amount) f.countset (f.places H)) :
    Raises H amount.toNat (satAdd amount) f f' := by
  refine ⟨hn, hc, fun v => ?_, fun v w hvw => ?_, fun v hv => ?_⟩
  · have := v.toNat_lt
    rw [satAdd_toNat]
    omega
  · rw [satAdd_toNat, satAdd_toNat]
    omega
  · rw [satAdd_toNat]
    omega

theorem addNormal_raises (f : CBF) (H : ℕ → ℕ) : ∃ g, Raises H 1 g f (f.addNormal H).1 :=
  by
  refine ⟨_, raises_satAdd 1 rfl ?_⟩
  unfold addNormal
  rw [addNormalLoop_eq]
  exact addAmountLoop_fst ..

theorem addAmount_raises (f : CBF) (H : ℕ → ℕ) (amount : UInt32) :
    ∃ g, Raises H amount.toNat g f (f.addAmount H amount).1 :=
  ⟨_, raises_satAdd amount rfl (addAmountLoop_fst ..)⟩

theorem addConservative_raises (f : CBF) (H : ℕ → ℕ) :
    ∃ g, Raises H 1 g f (f.addConservative H).1 := by
  have hx : leastLoop H f.countset f.nhash 0 uintMax = f.getCount H := rfl
  unfold addConservative
  dsimp only
  rw [hx]
  generalize hcount : f.getCount H = x
  split_ifs with hfull
  · refine ⟨id, rfl, (sweep_id ..).symm, fun _ => le_rfl, fun _ _ h => h, fun v hv => ?_⟩
    rw [hcount, hfull, uintMax_toNat] at hv ⊢
    exact (min_le_right _ _).trans hv
  · have hlt : x.toNat < 2 ^ 32 - 1 := by
      have := x.toNat_lt
      rw [← UInt32.toNat_inj, uintMax_toNat] at hfull
      omega
    have hsucc : (x + 1).toNat = x.toNat + 1 := by
      rw [UInt32.toNat_add, UInt32.toNat_one, Nat.mod_eq_of_lt (by omega)]
    have hg : ∀ v : UInt32, (if v = x then v + 1 else v).toNat =
        if v.toNat = x.toNat then x.toNat + 1 else v.toNat := by
      intro v
      by_cases hv : v = x
      · rw [if_pos hv, if_pos (congrArg _ hv), hv, hsucc]
      · rw [if_neg hv, if_neg (hv ∘ UInt32.toNat_inj.1)]
    refine ⟨_, rfl, conservativeLoop_eq .., fun v => ?_, fun v w hvw => ?_, fun v hv => ?_⟩
    · rw [hg]
      split_ifs <;> omega
    · rw [hg, hg]
      split_ifs <;> omega
    · rw [hcount] at hv ⊢
      rw [hg]
      split_ifs <;> omega

theorem fill_raises (f : CBF) (H : ℕ → ℕ) (amount : UInt32) :
    ∃ g, Raises H amount.toNat g f (f.fill H amount).1 := by
  have hx : leastLoop H f.countset f.nhash 0 uintMax = f.getCount H := rfl
  unfold fill
  dsimp only
  rw [hx]
  generalize hcount : f.getCount H = x
  have hlevel : (if decide (¬ amount ≤ uintMax - x) = true then uintMax else x + amount) =
      satAdd amount x := by
    unfold satAdd
    simp only [decide_eq_true_eq, UInt32.not_le]
  rw [hlevel]
  have hg : ∀ v : UInt32, (if v < satAdd amount x then satAdd amount x else v).toNat =
      max v.toNat (satAdd amount x).toNat := by
    intro v
    split_ifs with hv <;> rw [UInt32.lt_iff_toNat_lt] at hv <;> omega
  refine ⟨_, rfl, fillLoop_eq .., fun v => ?_, fun v w hvw => ?_, fun v hv => ?_⟩
  · rw [hg]
    omega
  · rw [hg, hg]
    omega
  · rw [hcount, hg, satAdd_toNat]
    omega

/-! ## Adding one -/

/-- No counter of the key is below the least, so the next above the least is filled up to by those
that are equal to it.  A counter met twice is above the least the second time. -/
theorem conservativeLoop_eq_fillLoop (hlt : x < uintMax) (n i : ℕ) (c : ℕ → UInt32)
    (hc : ∀ p ∈ (List.range' i n).map H, x ≤ c p) :
    conservativeLoop H x n i c = fillLoop H (x + 1) n i c := by
  rw [UInt32.lt_iff_toNat_lt, uintMax_toNat] at hlt
  have hsucc : (x + 1).toNat = x.toNat + 1 := by
    rw [UInt32.toNat_add, UInt32.toNat_one, Nat.mod_eq_of_lt (by omega)]
  have hiff : ∀ v : UInt32, x ≤ v → (v < x + 1 ↔ v = x) := by
    intro v hv
    rw [UInt32.le_iff_toNat_le] at hv
    rw [UInt32.lt_iff_toNat_lt, hsucc, ← UInt32.toNat_inj]
    omega
  rw [conservativeLoop_eq, fillLoop_eq]
  refine sweep_congr (P := (x ≤ ·)) (fun v hv => ?_) (fun v hv => ?_) _ _ hc
  · by_cases hvx : v = x
    · rw [if_pos hvx, if_pos ((hiff v hv).2 hvx), hvx]
    · rw [if_neg hvx, if_neg (hvx ∘ (hiff v hv).1)]
  · split_ifs with hvx
    · rw [hvx, UInt32.le_iff_toNat_le, hsucc]
      omega
    · exact hv

theorem addConservative_eq_fill (f : CBF) (H : ℕ → ℕ) : f.addConservative H = f.fill H 1 := by
  have hx : leastLoop H f.countset f.nhash 0 uintMax = f.getCount H := rfl
  have hle : ∀ p ∈ (List.range' 0 f.nhash).map H, f.getCount H ≤ f.countset p :=
    fun p hp => UInt32.le_iff_toNat_le.2 (getCount_le hp)
  unfold addConservative fill
  dsimp only
  rw [hx]
  generalize f.getCount H = x at hle
  have hfits : (1 : UInt32) ≤ uintMax - x ↔ ¬ x = uintMax := by
    rw [← UInt32.not_lt, uintMax_sub_lt_one]
  by_cases hfull : x = uintMax
  · have hsame : fillLoop H uintMax f.nhash 0 f.countset = f.countset := by
      refine (fillLoop_eq ..).trans (Eq.trans ?_ (sweep_id ((List.range' 0 f.nhash).map H) _))
      refine sweep_congr (P := (uintMax ≤ ·)) (fun v hv => ?_) (fun v hv => ?_) _ _ (hfull ▸ hle)
      · rw [if_neg (UInt32.not_lt.2 hv), id]
      · rw [if_neg (UInt32.not_lt.2 hv)]
        exact hv
    have hexc : decide (¬ (1 : UInt32) ≤ uintMax - x) = true := by
      rw [decide_eq_true_eq, hfits, not_not]
      exact hfull
    rw [if_pos hfull, hexc, if_pos rfl, hsame, result, if_pos rfl]
  · have hlt : x < uintMax := by
      have := x.toNat_lt
      rw [UInt32.lt_iff_toNat_lt, uintMax_toNat]
      rw [← UInt32.toNat_inj, uintMax_toNat] at hfull
      omega
    have hexc : decide (¬ (1 : UInt32) ≤ uintMax - x) = false := by
      rw [decide_eq_false_iff_not, hfits, not_not]
      exact hfull
    rw [if_neg hfull, hexc, if_neg Bool.false_ne_true, result, if_neg Bool.false_ne_true,
      conservativeLoop_eq_fillLoop hlt _ _ _ hle]

/-- The two functions for one more do as the two for any amount: the counters, what is returned and
what is thrown. -/
theorem add_one_eq (f : CBF) (H : ℕ → ℕ) :
    f.addConservative H = f.fill H 1 ∧ f.addNormal H = f.addAmount H 1 := by
  refine ⟨addConservative_eq_fill f H, ?_⟩
  unfold addNormal addAmount
  rw [addNormalLoop_eq]

end CBF

/-! ## Runs -/

namespace CBFOp

open CBF

variable {K : Type} [DecidableEq K] {H : K → ℕ → ℕ} {f : CBF}

/-- A call adds to a key's count what it adds to the key. -/
theorem run_count (o : CBFOp K) (x : K) :
    min ((f.getCount (H x)).toNat + o.added x) (2 ^ 32 - 1) ≤
      ((run H f o).1.getCount (H x)).toNat := by
  have hraises : ∀ {key : K} {amount : ℕ} {f' : CBF}, (∃ g, Raises (H key) amount g f f') →
      min ((f.getCount (H x)).toNat + if key = x then amount else 0) (2 ^ 32 - 1) ≤
        (f'.getCount (H x)).toNat := by
    rintro key amount f' ⟨g, hg⟩
    split_ifs with hkey
    · exact hkey ▸ hg.add_le
    · exact (min_le_left _ _).trans (hg.le _)
  cases o with
  | addNormal key => exact hraises (addNormal_raises f (H key))
  | addAmount key amount => exact hraises (addAmount_raises f (H key) amount)
  | addConservative key => exact hraises (addConservative_raises f (H key))
  | fill key amount => exact hraises (fill_raises f (H key) amount)

theorem runs_count (x : K) : ∀ (ops : List (CBFOp K)) (f : CBF),
    min ((f.getCount (H x)).toNat + total x ops) (2 ^ 32 - 1) ≤
      ((runs H f ops).getCount (H x)).toNat
  | [], f => min_le_left _ _
  | o :: ops, f => by
    have hstep := run_count (H := H) (f := f) o x
    have hrest := runs_count x ops (run H f o).1
    have hsum : total x (o :: ops) = o.added x + total x ops := List.sum_cons
    change _ ≤ ((runs H (run H f o).1 ops).getCount (H x)).toNat
    omega

/-- A filter that is made has a counter for every digest of its size; after any calls, whether they
return or throw, a key counts no less than was added to it, or is full. -/
theorem never_undercounts {counters nhash : ℕ} (H : K → ℕ → ℕ) (ops : List (CBFOp K)) (x : K)
    (hnew : CBF.new counters nhash = some f) :
    f.counters = 2 ^ f.hashsize ∧
      min (total x ops) (2 ^ 32 - 1) ≤ ((runs H f ops).getCount (H x)).toNat := by
  have h := runs_count (H := H) x ops f
  exact ⟨new_counters hnew, by omega⟩

/-- Two keys that share a counter, one of them filled up. -/
def shared : List (CBFOp Bool) :=
  [.addNormal true, .fill false 0xFFFFFFFF, .addConservative true, .addAmount false 5]

/-- The second place of the one key is the first of the other. -/
def sharedPlaces : Bool → ℕ → ℕ
  | true, i => i
  | false, i => i + 1

theorem never_undercounts_shared : ∃ f, CBF.new 4 2 = some f ∧
    min (total true shared) (2 ^ 32 - 1) ≤
      ((runs sharedPlaces f shared).getCount (sharedPlaces true)).toNat := by
  obtain ⟨f, hnew⟩ := Option.isSome_iff_exists.1 (show (CBF.new 4 2).isSome by decide)
  exact ⟨f, hnew, (never_undercounts sharedPlaces shared true hnew).2⟩

end CBFOp

end DStreamon
