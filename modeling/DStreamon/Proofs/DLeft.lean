import DStreamon.DLeft
import DStreamon.Lib.FirstFit
import DStreamon.Lib.Words
import Mathlib.Tactic.SplitIfs

/-!
# The d-left table as a first-fit table

The places a splitter cuts from a digest are a path of slots, one in each sub-table.  With the
sub-tables not allocated yet read as free (`fp`), an expansion changes nothing, and `reserve`,
`get` and `remove` are the first-fit operations on that path.
-/

namespace DStreamon

open IReadBuffer FirstFit

variable {V K : Type*} [IReadBuffer K]

theorem extract_eq_slice (buffer : ℕ → UInt32) {ptr bits : ℕ} (h : bits < 32) :
    (extract buffer ptr bits).toNat = Words.slice buffer ptr bits := by
  unfold extract
  dsimp only
  split_ifs with hc
  · exact Words.cut_straddle (Words.toNat_mask h) h.le hc (Words.toNat_mask (by omega))
  · exact Words.cut_low (Words.toNat_mask h) (by omega)

namespace DLeft

/-! ## The path of a key -/

/-- The splitter of a key after `i` places. -/
def splitterAt (shash : ℕ) (key : K) (i : ℕ) : HashSplitter :=
  { HashSplitter.set (getHash key) 1 with ptr := i * shash }

/-- The place of a key in sub-table `i`. -/
def place (shash : ℕ) (key : K) (i : ℕ) : ℕ :=
  (extract (fun w => (getHash key).value (1 + w)) (i * shash) shash).toNat

def cellAt (shash : ℕ) (key : K) (i : ℕ) : Option Slot :=
  if (getHash key).size * 32 < i * shash then none else some (i, place shash key i)

theorem cellAt_some {shash i : ℕ} {key : K} {p : Slot} (h : cellAt shash key i = some p) :
    p.1 = i ∧ ¬ (getHash key).size * 32 < i * shash := by
  unfold cellAt at h
  split_ifs at h with hi
  cases h
  exact ⟨rfl, hi⟩

def path (shash : ℕ) (key : K) : Path Slot where
  cell := cellAt shash key
  inj hi hj := (cellAt_some hi).1.symm.trans (cellAt_some hj).1
  closed {i j p} hij hj := by
    have hle : i * shash ≤ j * shash := Nat.mul_le_mul_right _ hij.le
    have := (cellAt_some hj).2
    exact ⟨(i, place shash key i), if_neg (by omega)⟩

theorem next_splitterAt (shash : ℕ) (key : K) (i : ℕ) :
    (splitterAt shash key i).next shash
      = (cellAt shash key i).map fun p => (p.2, splitterAt shash key (i + 1)) := by
  unfold HashSplitter.next cellAt
  split_ifs with h1 h2 h2
  · rfl
  · exact absurd h1 h2
  · exact absurd h2 h1
  · simp only [Option.map_some, splitterAt, Nat.succ_mul]
    rfl

/-! ## The loops -/

/-- What the loop from sub-table `i` finds: the first slot on the path it stops at, the end of the
digest, or nothing. -/
theorem probe_cases (d : DLeft V) (stop : UInt32 → Bool) (key : K) : ∀ n i,
    (∃ j p, i ≤ j ∧ j < i + n ∧ cellAt d.shash key j = some p ∧ stop (d.hashKey p) = true
        ∧ (∀ k, i ≤ k → k < j → ∀ q, cellAt d.shash key k = some q → stop (d.hashKey q) = false)
        ∧ d.probe stop n i (splitterAt d.shash key i) = .hit p)
    ∨ (∃ j, i ≤ j ∧ j < i + n ∧ cellAt d.shash key j = none
        ∧ (∀ k, i ≤ k → k < j → ∀ q, cellAt d.shash key k = some q → stop (d.hashKey q) = false)
        ∧ d.probe stop n i (splitterAt d.shash key i) = .noBits)
    ∨ ((∀ k, i ≤ k → k < i + n → ∀ q, cellAt d.shash key k = some q →
          stop (d.hashKey q) = false)
        ∧ d.probe stop n i (splitterAt d.shash key i)
            = .miss (i + n) (splitterAt d.shash key (i + n)))
  | 0, i => Or.inr (Or.inr ⟨fun k hk hk' => by omega, rfl⟩)
  | n + 1, i => by
    unfold probe
    rw [next_splitterAt]
    rcases hc : cellAt d.shash key i with _ | p
    · exact Or.inr (Or.inl ⟨i, le_rfl, by omega, hc, fun k hk hk' => by omega, rfl⟩)
    · obtain ⟨hp1, -⟩ := cellAt_some hc
      have hpe : ((i, p.2) : Slot) = p := by rw [← hp1]
      simp only [Option.map_some, hpe]
      by_cases hs : stop (d.hashKey p) = true
      · rw [if_pos hs]
        exact Or.inl ⟨i, p, le_rfl, by omega, hc, hs, fun k hk hk' => by omega, rfl⟩
      · rw [if_neg hs]
        have hlow : ∀ k, i ≤ k → k < i + 1 → ∀ q, cellAt d.shash key k = some q →
            stop (d.hashKey q) = false := by
          intro k hk hk' q hq
          obtain rfl : k = i := by omega
          rw [hc] at hq
          cases hq
          simpa using hs
        have hjoin : ∀ m, (∀ k, i + 1 ≤ k → k < m → ∀ q, cellAt d.shash key k = some q →
            stop (d.hashKey q) = false) → ∀ k, i ≤ k → k < m → ∀ q,
            cellAt d.shash key k = some q → stop (d.hashKey q) = false := by
          intro m hm k hk hk' q hq
          rcases Nat.lt_or_ge k (i + 1) with h | h
          · exact hlow k hk h q hq
          · exact hm k h hk' q hq
        rcases probe_cases d stop key n (i + 1) with
          ⟨j, q, hj, hj', hq, hsq, hlt, hpr⟩ | ⟨j, hj, hj', hq, hlt, hpr⟩ | ⟨hlt, hpr⟩
        · exact Or.inl ⟨j, q, by omega, by omega, hq, hsq, hjoin j hlt, hpr⟩
        · exact Or.inr (Or.inl ⟨j, by omega, by omega, hq, hjoin j hlt, hpr⟩)
        · refine Or.inr (Or.inr ⟨fun k hk hk' => hjoin (i + 1 + n) hlt k hk (by omega), ?_⟩)
          rw [hpr, show i + 1 + n = i + (n + 1) by omega]

/-! ## The marks -/

/-- The fingerprint of a slot, a sub-table not allocated yet read as free. -/
def fp (d : DLeft V) (p : Slot) : UInt32 := if p.1 < d.tableCount then d.hashKey p else 0

/-- `d'` has the shape of `d`, sub-tables perhaps added, and the same objects in the old ones. -/
structure Grows (d d' : DLeft V) : Prop where
  nodeSize : d'.nodeSize = d.nodeSize
  shash : d'.shash = d.shash
  tableCount : d.tableCount ≤ d'.tableCount
  load : ∀ q : Slot, q.1 < d.tableCount → d'.load q = d.load q

theorem Grows.refl (d : DLeft V) : Grows d d := ⟨rfl, rfl, le_rfl, fun _ _ => rfl⟩

theorem Grows.trans {a b c : DLeft V} (h : Grows a b) (h' : Grows b c) : Grows a c where
  nodeSize := h'.nodeSize.trans h.nodeSize
  shash := h'.shash.trans h.shash
  tableCount := h.tableCount.trans h'.tableCount
  load q hq := (h'.load q (hq.trans_le h.tableCount)).trans (h.load q hq)

theorem fp_of_lt {d : DLeft V} {p : Slot} (h : p.1 < d.tableCount) : fp d p = d.hashKey p :=
  if_pos h

theorem lt_of_fp {d : DLeft V} {p : Slot} (h : fp d p ≠ 0) : p.1 < d.tableCount := by
  unfold fp at h
  split_ifs at h with hp
  · exact hp
  · exact absurd rfl h

@[simp] theorem fp_new [Inhabited V] (nodeSize nhash shash : ℕ) :
    fp (new nodeSize nhash shash : DLeft V) = fun _ => 0 := by
  funext p
  simp [fp, new, hashKey, blank]

@[simp] theorem load_store (d : DLeft V) (p q : Slot) (v : V) :
    (d.store p v).load q = if q = p then v else d.load q := by
  unfold load store setNode
  simp only [Prod.mk.eta]
  split_ifs <;> rfl

@[simp] theorem hashKey_store (d : DLeft V) (p q : Slot) (v : V) :
    (d.store p v).hashKey q = d.hashKey q := by
  unfold hashKey store setNode
  simp only [Prod.mk.eta]
  split_ifs with h
  · rw [h]; rfl
  · rfl

@[simp] theorem fp_store (d : DLeft V) (p : Slot) (v : V) : fp (d.store p v) = fp d := by
  funext q
  unfold fp
  rw [hashKey_store]
  rfl

@[simp] theorem load_setHashKey (d : DLeft V) (p q : Slot) (h : UInt32) :
    (d.setHashKey p h).load q = d.load q := by
  unfold load setHashKey setNode
  simp only [Prod.mk.eta]
  split_ifs with hq
  · rw [hq]; rfl
  · rfl

theorem fp_setHashKey {d : DLeft V} {p : Slot} (hp : p.1 < d.tableCount) (h : UInt32) :
    fp (d.setHashKey p h) = Function.update (fp d) p h := by
  funext q
  unfold fp setHashKey setNode hashKey
  by_cases hq : q = p
  · subst hq
    simp [hp]
  · simp [hq]

theorem setHashKey_grows (d : DLeft V) (p : Slot) (h : UInt32) : Grows d (d.setHashKey p h) :=
  ⟨rfl, rfl, le_rfl, fun q _ => load_setHashKey d p q h⟩

theorem expand_some [Inhabited V] {d d' : DLeft V} (h : d.expand = some d') :
    Grows d d' ∧ d'.tableCount = d.tableCount + 1 ∧ fp d' = fp d := by
  unfold expand at h
  split_ifs at h
  cases h
  refine ⟨⟨rfl, rfl, Nat.le_succ _, fun q hq => ?_⟩, rfl, ?_⟩
  · simp only [load, if_neg hq.ne]
  · funext q
    unfold fp hashKey
    rcases lt_trichotomy q.1 d.tableCount with hq | hq | hq
    · simp [hq, hq.ne, Nat.lt_succ_of_lt hq]
    · simp [hq, blank]
    · simp [show ¬ q.1 < d.tableCount + 1 by omega, show ¬ q.1 < d.tableCount by omega]

/-! ## `reserve`, `get` and `remove` -/

/-- A cell the loop of `reserve` passes over: neither free nor the key's own. -/
theorem passed_of_stop {d : DLeft V} {f : UInt32} {q : Slot} (hq : q.1 < d.tableCount)
    (h : (decide (d.hashKey q = 0) || decide (d.hashKey q = f)) = false) :
    ¬ (fp d q = 0 ∨ fp d q = f) := by
  rw [fp_of_lt hq]
  simpa using h

/-- The `do` loop, once every sub-table before `i` is passed over: it takes the first cell of the
path that is free or the key's own, or gives up with no cell changed and none of these left. -/
theorem reserveLoop_cases [Inhabited V] (key : K) :
    ∀ (n : ℕ) (d : DLeft V) (i : ℕ), i ≤ d.tableCount →
      (∀ k < i, ∀ q, cellAt d.shash key k = some q → ¬ (fp d q = 0 ∨ fp d q = fhash key)) →
      (∃ d' p, reserveLoop (fhash key) n d i (splitterAt d.shash key i) = (d', some p)
          ∧ (path d.shash key).First (fun q => fp d q = 0 ∨ fp d q = fhash key) p
          ∧ Grows d d' ∧ p.1 < d'.tableCount ∧ fp d' = Function.update (fp d) p (fhash key))
      ∨ ∃ d', reserveLoop (fhash key) n d i (splitterAt d.shash key i) = (d', none)
          ∧ Grows d d' ∧ fp d' = fp d
          ∧ ∀ k < d'.tableCount, ∀ q, cellAt d.shash key k = some q →
            ¬ (fp d q = 0 ∨ fp d q = fhash key)
  | n, d, i, hi, hlow => by
    unfold reserveLoop
    rcases probe_cases d (fun h => h = 0 || h = fhash key) key (d.tableCount - i) i with
      ⟨j, p, hj, hj', hp, hs, hlt, hpr⟩ | ⟨j, hj, hj', hnone, hlt, hpr⟩ | ⟨hlt, hpr⟩ <;>
      rw [hpr] <;> simp only []
    · have hpc : p.1 < d.tableCount := by rw [(cellAt_some hp).1]; omega
      refine Or.inl ⟨_, p, rfl, ⟨j, hp, ?_, fun k hk q hq => ?_⟩, ?_, ?_, ?_⟩
      · show fp d p = 0 ∨ fp d p = fhash key
        rw [fp_of_lt hpc]
        simpa using hs
      · rcases Nat.lt_or_ge k i with hki | hki
        · exact hlow k hki q hq
        · exact passed_of_stop (by rw [(cellAt_some hq).1]; omega) (hlt k hki hk q hq)
      · split_ifs
        · exact setHashKey_grows d p _
        · exact Grows.refl d
      · split_ifs <;> exact hpc
      · split_ifs with h0
        · exact fp_setHashKey hpc _
        · have hf : fp d p = fhash key := by
            rw [fp_of_lt hpc]
            simpa [h0] using hs
          rw [← hf, Function.update_eq_self]
    · refine Or.inr ⟨d, rfl, Grows.refl d, rfl, fun k hk q hq => ?_⟩
      rcases Nat.lt_or_ge k i with hki | hki
      · exact hlow k hki q hq
      · rcases Nat.lt_or_ge k j with hkj | hkj
        · exact passed_of_stop (by rw [(cellAt_some hq).1]; exact hk) (hlt k hki hkj q hq)
        · rcases hkj.eq_or_lt with rfl | hkj
          · rw [hnone] at hq
            cases hq
          · obtain ⟨r, hr⟩ := (path d.shash key).closed hkj hq
            rw [show (path d.shash key).cell j = none from hnone] at hr
            cases hr
    · have hall : ∀ k < d.tableCount, ∀ q, cellAt d.shash key k = some q →
          ¬ (fp d q = 0 ∨ fp d q = fhash key) := by
        intro k hk q hq
        rcases Nat.lt_or_ge k i with hki | hki
        · exact hlow k hki q hq
        · exact passed_of_stop (by rw [(cellAt_some hq).1]; exact hk)
            (hlt k hki (by omega) q hq)
      rw [show i + (d.tableCount - i) = d.tableCount by omega]
      cases n with
      | zero => exact Or.inr ⟨d, rfl, Grows.refl d, rfl, hall⟩
      | succ n =>
        rcases he : d.expand with _ | d₁
        · exact Or.inr ⟨d, rfl, Grows.refl d, rfl, hall⟩
        · obtain ⟨hg, hc, hfp⟩ := expand_some he
          simp only []
          have hrec := reserveLoop_cases key n d₁ d.tableCount (by omega)
            (by rw [hg.shash, hfp]; exact hall)
          rw [hg.shash, hfp] at hrec
          rcases hrec with ⟨d', p, h1, h2, h3, h4, h5⟩ | ⟨d', h1, h2, h3, h4⟩
          · exact Or.inl ⟨d', p, h1, h2, hg.trans h3, h4, h5⟩
          · exact Or.inr ⟨d', h1, hg.trans h2, h3, h4⟩

theorem reserveLoop_key [Inhabited V] (d : DLeft V) (key : K) :
    d.reserve key = reserveLoop (fhash key) (d.nhash - d.tableCount) d 0
      (splitterAt d.shash key 0) := by
  rw [reserve, splitterAt, Nat.zero_mul]
  rfl

theorem reserve_cases [Inhabited V] (d : DLeft V) (key : K) :
    (∃ d' p, d.reserve key = (d', some p)
        ∧ (path d.shash key).First (fun q => fp d q = 0 ∨ fp d q = fhash key) p
        ∧ Grows d d' ∧ p.1 < d'.tableCount ∧ fp d' = Function.update (fp d) p (fhash key))
    ∨ ∃ d', d.reserve key = (d', none) ∧ Grows d d' ∧ fp d' = fp d := by
  rcases reserveLoop_cases key (d.nhash - d.tableCount) d 0 (Nat.zero_le _)
    (fun k hk => absurd hk (Nat.not_lt_zero k)) with h | ⟨d', hr, hgrows, hfp, -⟩
  · rw [reserveLoop_key]
    exact Or.inl h
  · rw [reserveLoop_key]
    exact Or.inr ⟨d', hr, hgrows, hfp⟩

/-- Where `reserve` gives up, no cell of the key's that is allocated is free or its own. -/
theorem reserve_none [Inhabited V] {d d' : DLeft V} {key : K} (h : d.reserve key = (d', none)) :
    ∀ q, (path d.shash key).On q → q.1 < d'.tableCount → ¬ (fp d q = 0 ∨ fp d q = fhash key) := by
  rw [reserveLoop_key] at h
  rcases reserveLoop_cases key (d.nhash - d.tableCount) d 0 (Nat.zero_le _)
    (fun k hk => absurd hk (Nat.not_lt_zero k)) with ⟨d₁, p, hr, -⟩ | ⟨d₁, hr, -, -, hall⟩
  · rw [h] at hr
    cases hr
  · rw [h] at hr
    cases hr
    rintro q ⟨j, hj⟩ hlt
    exact hall j (by rwa [← (cellAt_some hj).1]) q hj

/-- A key is found at its first cell on the path, if that is allocated. -/
theorem find_iff {d : DLeft V} {key : K} {p : Slot} :
    d.find key = some p ↔
      (path d.shash key).First (fun q => fp d q = fhash key) p ∧ p.1 < d.tableCount := by
  have hs : splitterAt d.shash key 0 = .set (getHash key) 1 := by
    simp [splitterAt, HashSplitter.set]
  have hpass : ∀ q : Slot, q.1 < d.tableCount →
      decide (d.hashKey q = fhash key) = false → fp d q ≠ fhash key := by
    intro q hq h
    rw [fp_of_lt hq]
    simpa using h
  unfold find
  rw [← hs]
  rcases probe_cases d (fun h => h = fhash key) key d.tableCount 0 with
    ⟨j, q, -, hj, hq, hst, hlt, hpr⟩ | ⟨j, -, hj, hq, hlt, hpr⟩ | ⟨hlt, hpr⟩ <;> rw [hpr] <;>
    simp only [Option.some.injEq, reduceCtorEq, false_iff]
  · have hqc : q.1 < d.tableCount := by
      rw [(cellAt_some hq).1]
      omega
    have hF : (path d.shash key).First (fun r => fp d r = fhash key) q := by
      refine ⟨j, hq, ?_, fun k hk r hr => ?_⟩
      · show fp d q = fhash key
        rw [fp_of_lt hqc]
        simpa using hst
      · exact hpass r (by rw [(cellAt_some hr).1]; omega) (hlt k (Nat.zero_le _) hk r hr)
    exact ⟨fun e => e ▸ ⟨hF, hqc⟩, fun h => hF.unique h.1⟩
  · rintro ⟨⟨k, hk, hfk, -⟩, hpc⟩
    have hkc : k < d.tableCount := by rwa [(cellAt_some hk).1] at hpc
    rcases Nat.lt_or_ge k j with hkj | hkj
    · exact hpass p (by rw [(cellAt_some hk).1]; exact hkc) (hlt k (Nat.zero_le _) hkj p hk) hfk
    · rcases hkj.eq_or_lt with rfl | hkj
      · rw [show (path d.shash key).cell j = none from hq] at hk
        cases hk
      · obtain ⟨r, hr⟩ := (path d.shash key).closed hkj hk
        rw [show (path d.shash key).cell j = none from hq] at hr
        cases hr
  · rintro ⟨⟨k, hk, hfk, -⟩, hpc⟩
    have := (cellAt_some hk).1
    exact hpass p hpc (hlt k (Nat.zero_le _) (by omega) p hk) hfk

/-- With a non-zero fingerprint only allocated cells are marked. -/
theorem find_eq_some_iff {d : DLeft V} {key : K} (h0 : fhash key ≠ 0) {p : Slot} :
    d.find key = some p ↔ (path d.shash key).First (fun q => fp d q = fhash key) p :=
  find_iff.trans ⟨And.left, fun h => ⟨h, lt_of_fp (h.mem ▸ h0)⟩⟩

theorem find_hit {d : DLeft V} {key : K} {p : Slot} (h : d.find key = some p) :
    fp d p = fhash key ∧ p.1 < d.tableCount :=
  ⟨(find_iff.1 h).1.mem, (find_iff.1 h).2⟩

end DLeft

end DStreamon
