import DStreamon.Contract
import DStreamon.Proofs.DLeftEntry
import DStreamon.Proofs.Tewma
import Mathlib.Data.Rat.Floor

/-!
# What keeps a counter to the contract

A key that must read 0 is clean: its node, or one of its cells, is 0.  No `get` and no `reset` of
another key soils it, and an `add` ends what the keys must read.
-/

namespace DStreamon

open IReadBuffer StepRun DLeft FirstFit
open Function (update)

variable {F K : Type} [Field F] [LinearOrder F] [IReadBuffer K]

/-! ## `TewmaCounter` -/

namespace TewmaCounter

variable {s s' : TewmaCounter F} {key k : K} {args : UInt64} {timestamp : ℤ} {hs : List ℕ} {v : F}

theorem clean_iff : s.clean key ↔
    ∀ h hs, s.cells key = some (h, hs) → ∃ x ∈ h :: hs, s.c x = 0 := by
  unfold clean
  rcases s.cells key with _ | ⟨h, hs⟩ <;> simp

theorem Decayed.clean (hd : Decayed timestamp hs s s') (h : s.clean k) : s'.clean k := by
  rw [clean_iff] at h ⊢
  intro h₁ hs₁ hcells
  rw [hd.cells] at hcells
  obtain ⟨x, hx, hzero⟩ := h h₁ hs₁ hcells
  refine ⟨x, hx, ?_⟩
  rw [hd.c, hzero, zero_mul, ite_self]

/-- A key whose cells are of no later time is read. -/
theorem get_ready (h : s.ready key (timeT args)) : ∃ r, s.get key args = some r := by
  obtain ⟨⟨h₁, hs₁⟩, hcells, hall⟩ := (Option.any_eq_true _ _).1 h
  have hstamps : ∀ x ∈ h₁ :: hs₁, s.t x ≤ timeT args := fun x hx =>
    of_decide_eq_true (List.all_eq_true.1 hall x hx)
  obtain ⟨r, hr⟩ := decayLoop_isSome (s.c h₁) hstamps
  exact ⟨r, by rw [get, hcells]; exact hr⟩

variable [IsStrictOrderedRing F]

/-- Cells only decay, or are raised. -/
theorem Decayed.nonneg (hd : Decayed timestamp hs s s') (hbeta : 0 < s.beta)
    (h : ∀ x, 0 ≤ s.c x) (x : ℕ) : 0 ≤ s'.c x := by
  rw [hd.c]
  split_ifs
  · exact mul_nonneg (h x) (pow_nonneg hbeta.le _)
  · exact h x

/-- A clean key reads 0. -/
theorem get_clean (hbeta : 0 < s.beta) (hnonneg : ∀ x, 0 ≤ s.c x) (h : s.clean key)
    (hg : s.get key args = some (s', v)) : v = 0 := by
  obtain ⟨⟨h₁, hs₁⟩, hcells, hg⟩ := Option.bind_eq_some_iff.1 hg
  obtain ⟨hdec, hm, -, hle⟩ := decayLoop_ok hg
  refine le_antisymm ?_ ?_
  · obtain ⟨x, hx, hzero⟩ := clean_iff.1 h h₁ hs₁ hcells
    have := hle x hx
    rwa [hdec.c, hzero, zero_mul, ite_self] at this
  · rcases hm with rfl | ⟨x, -, rfl⟩
    · exact hnonneg h₁
    · exact hdec.nonneg hbeta hnonneg x

theorem add_nonneg {quantity : F} (hbeta : 0 < s.beta) (hnonneg : ∀ x, 0 ≤ s.c x)
    (ha : s.add key quantity args = some (s', v)) : 0 < s'.beta ∧ ∀ x, 0 ≤ s'.c x := by
  obtain ⟨⟨h₁, hs₁⟩, -, ha⟩ := Option.bind_eq_some_iff.1 ha
  obtain ⟨⟨s₁, minctr⟩, hloop, ha⟩ := Option.bind_eq_some_iff.1 ha
  obtain ⟨hdec, -⟩ := decayLoop_ok hloop
  dsimp only at ha
  split_ifs at ha
  cases ha
  refine ⟨hdec.beta ▸ hbeta, fun x => ?_⟩
  have hx := hdec.nonneg hbeta hnonneg x
  simp only [raise_eq]
  split_ifs
  · exact hx.trans (le_max_left _ _)
  · exact hx

end TewmaCounter

/-! ## The nodes of a table -/

namespace DLeft

variable {V : Type} {d d' : DLeft V} {key k : K} {p q : Slot}

/-- Where one node is marked anew, and was not `k`'s unless it is still, a key is found there or
where it was. -/
theorem find_update {x : UInt32} (hfp : fp d' = update (fp d) p x) (hshash : d'.shash = d.shash)
    (h0 : fhash k ≠ 0) (hp : fp d p = fhash k → x = fhash k) (hf : d'.find k = some q) :
    q = p ∨ d.find k = some q := by
  rw [find_eq_some_iff h0] at hf ⊢
  obtain ⟨j, hj, hq, hlow⟩ := hf
  rw [hshash] at hj hlow
  by_cases hqp : q = p
  · exact .inl hqp
  · refine .inr ⟨j, hj, ?_, fun i hi r hr hfr => hlow i hi r hr ?_⟩
    · rwa [hfp, Function.update_of_ne hqp] at hq
    · show fp d' r = fhash k
      by_cases hrp : r = p
      · rw [hfp, hrp, Function.update_self]
        exact hp (hrp ▸ hfr)
      · rw [hfp, Function.update_of_ne hrp]
        exact hfr

theorem find_congr (hfp : fp d' = fp d) (hshash : d'.shash = d.shash) (h0 : fhash k ≠ 0) :
    d'.find k = d.find k := by
  refine Option.ext fun q => ?_
  rw [find_eq_some_iff h0, find_eq_some_iff h0, hshash, hfp]

/-- The key's own node, or a free one with the object `init`. -/
theorem getOrReserve_cases [Inhabited V] {init : V}
    (h : d.getOrReserve key init = some (d', p)) :
    d.get key = some p ∧ d' = d ∨
      d.get key = none ∧ d'.nodeSize = d.nodeSize ∧ d'.shash = d.shash ∧ d'.load p = init ∧
        (fp d p = 0 ∨ fp d p = fhash key) ∧ fp d' = update (fp d) p (fhash key) ∧
        ∀ q, q.1 < d.tableCount → q ≠ p → d'.load q = d.load q := by
  unfold DLeft.getOrReserve at h
  rcases hg : d.get key with _ | q
  · rw [hg] at h
    rcases d.reserve_cases key with ⟨d₁, p₁, hr, hfirst, hgrows, -, hfp⟩ | ⟨d₁, hr, -, -⟩
    · rw [hr] at h
      cases h
      refine .inr ⟨rfl, hgrows.nodeSize, hgrows.shash, by rw [load_store, if_pos rfl], hfirst.mem,
        by rw [fp_store, hfp], fun q hq hne => ?_⟩
      rw [load_store, if_neg hne, hgrows.load q hq]
    · rw [hr] at h
      cases h
  · rw [hg] at h
    cases h
    exact .inl ⟨rfl, rfl⟩

end DLeft

/-! ## `TewmaFastCounter` -/

namespace TewmaFastCounter

variable {s s' : TewmaFastCounter F} {key k : K} {args : UInt64} {p : Slot} {v : F}

theorem clean_iff : s.clean key ↔
    ∀ p, s.data.get key = some p → (s.data.load p).value = 0 := by
  unfold clean
  cases s.data.get key <;> simp

/-- A key's node brought up to date leaves the clean keys clean. -/
theorem getActualizedNode_clean (h0 : fhash k ≠ 0) (h : s.clean k)
    (hn : s.getActualizedNode key args = some (s', p)) : s'.clean k := by
  rw [clean_iff] at h ⊢
  obtain ⟨⟨d, p⟩, hd, hn⟩ := Option.bind_eq_some_iff.1 hn
  dsimp only at hn
  split_ifs at hn
  cases hn
  intro q hq
  rcases getOrReserve_cases hd with ⟨-, rfl⟩ | ⟨-, -, hshash, hload, hp, hfp, hother⟩
  · have hfind : s.data.find k = some q :=
      (find_congr (fp_store s.data p _) rfl h0).symm.trans hq
    rw [load_store]
    split_ifs with hqp
    · rw [← hqp, h q hfind, zero_mul]
    · exact h q hfind
  · rw [load_store]
    split_ifs with hqp
    · simp [hload]
    · have hmark : fp s.data p = fhash k → fhash key = fhash k := fun e =>
        (hp.resolve_left fun hz => h0 (e.symm.trans hz)).symm.trans e
      have hold := (find_update ((fp_store d p _).trans hfp) hshash h0 hmark hq).resolve_left hqp
      rw [hother q (find_hit hold).2 hqp]
      exact h q hold

omit [LinearOrder F] in
/-- A key with a node of no later time, or with room for one, is read. -/
theorem get_ready (h : s.ready key (timeT args)) : ∃ r, s.get key args = some r := by
  obtain ⟨d, p, hd, hle⟩ : ∃ d p, s.data.getOrReserve key ⟨0, 0⟩ = some (d, p) ∧
      (d.load p).timestamp ≤ timeT args := by
    unfold ready at h
    unfold DLeft.getOrReserve
    cases hget : s.data.get key with
    | some p =>
      rw [hget] at h
      exact ⟨_, p, rfl, of_decide_eq_true h⟩
    | none =>
      rw [hget] at h
      obtain ⟨hroom, hle⟩ := of_decide_eq_true h
      obtain ⟨p, hp⟩ := Option.isSome_iff_exists.1 hroom
      cases hr : s.data.reserve key with
      | mk d q =>
        rw [hr] at hp
        obtain rfl : q = some p := hp
        exact ⟨_, p, rfl, by rwa [load_store, if_pos rfl]⟩
  unfold get getActualizedNode
  rw [hd]
  simp only [Option.bind_eq_bind, Option.bind_some]
  rw [if_neg (by omega)]
  exact ⟨_, rfl⟩

theorem get_clean (h : s.clean key) (hg : s.get key args = some (s', v)) : v = 0 := by
  obtain ⟨⟨s₁, p⟩, hn, hg⟩ := Option.bind_eq_some_iff.1 hg
  cases hg
  obtain ⟨⟨d, q⟩, hd, hn⟩ := Option.bind_eq_some_iff.1 hn
  dsimp only at hn
  split_ifs at hn
  cases hn
  rw [load_store, if_pos rfl]
  rcases getOrReserve_cases hd with ⟨hget, rfl⟩ | ⟨-, -, -, hload, -⟩
  · rw [clean_iff.1 h p hget, zero_mul]
  · rw [hload, zero_mul]

end TewmaFastCounter

/-! ## `DLeftCounter` -/

namespace DLeftCounter

variable {s s' : DLeftCounter} {key k : K} {v : F}

theorem clean_iff : s.clean key ↔ ∀ p, s.table.get key = some p → s.table.load p = 0 := by
  unfold clean
  cases s.table.get key <;> simp

omit [LinearOrder F] in
theorem get_clean (h : s.clean key) : (s.get key : F) = 0 := by
  unfold get
  rcases hg : s.table.get key with _ | p
  · rfl
  · have hp := clean_iff.1 h p hg
    simp [hp, ofUInt32]

variable [IsStrictOrderedRing F] in
theorem get_nonneg : (0 : F) ≤ s.get key := by
  unfold get
  cases s.table.get key with
  | none => exact le_rfl
  | some p => exact Nat.cast_nonneg _

/-- After a reset the key has no node, if none but its own had its fingerprint; the other keys have
the nodes they had. -/
theorem find_remove {d : DLeft UInt32} {q : Slot} (hs : d.shash < 32) (h0 : fhash key ≠ 0)
    (hone : ∀ i < d.tableCount, ∀ j < 2 ^ d.shash,
      d.hashKey (i, j) = fhash key → d.get key = some (i, j))
    (hk : fhash k ≠ 0) (hf : (d.remove key).1.find k = some q) :
    fhash k ≠ fhash key ∧ d.find k = some q := by
  have hplace : ∀ {d' : DLeft UInt32}, d'.shash = d.shash → d'.find k = some q →
      q.2 < 2 ^ d.shash := by
    intro d' hshash hq
    obtain ⟨⟨j, hj, -⟩, -⟩ := find_iff.1 hq
    exact hshash ▸ cellAt_place (hshash ▸ hs) hj
  have howner : fp d q = fhash key → q.2 < 2 ^ d.shash → d.find key = some q := by
    intro hq hlt
    have h1 : q.1 < d.tableCount := lt_of_fp (hq ▸ h0)
    exact hone q.1 h1 q.2 hlt ((fp_of_lt h1).symm.trans hq)
  unfold DLeft.remove at hf
  rcases hfind : d.find key with _ | p
  · rw [hfind] at hf
    refine ⟨fun e => ?_, hf⟩
    have := howner ((find_hit hf).1.trans e) (hplace rfl hf)
    rw [hfind] at this
    cases this
  · rw [hfind] at hf
    change (d.setHashKey p 0).find k = some q at hf
    have hshash : (d.setHashKey p 0).shash = d.shash := rfl
    obtain ⟨hp, hlt⟩ := find_hit hfind
    have hfp := fp_setHashKey hlt 0
    have hq := (find_hit hf).1
    have hqp : q ≠ p := by
      rintro rfl
      rw [hfp, Function.update_self] at hq
      exact hk hq.symm
    rw [hfp, Function.update_of_ne hqp] at hq
    have hne : fhash k ≠ fhash key := by
      intro e
      have := howner (hq.trans e) (hplace hshash hf)
      rw [hfind] at this
      cases this
      exact hqp rfl
    have hold := find_update hfp hshash hk (fun e => absurd (e.symm.trans hp) hne) hf
    exact ⟨hne, hold.resolve_left hqp⟩

theorem load_remove {d : DLeft UInt32} (p : Slot) : (d.remove key).1.load p = d.load p := by
  unfold DLeft.remove
  cases d.find key with
  | none => rfl
  | some q => exact load_setHashKey ..

theorem clear_clean {d : DLeft UInt32} (hs : d.shash < 29) (hsize : d.nodeSize = 8) :
    (⟨d.clear⟩ : DLeftCounter).clean k := by
  rw [clean_iff]
  intro p hp
  obtain ⟨⟨j, hj, -⟩, hlt⟩ := find_iff.1 hp
  have hplace : p.2 < 2 ^ d.shash := cellAt_place (by omega) hj
  have hpow : 2 ^ d.shash ≤ 2 ^ 28 := Nat.pow_le_pow_right (by omega) (by omega)
  have hbytes : (p.2 + 1) * d.nodeSize ≤ d.tableSizeBytes := by
    rw [tableSizeBytes, hsize, Nat.mod_eq_of_lt (by omega)]
    omega
  simp only [DLeft.load, DLeft.clear]
  rw [if_pos ⟨hlt, hbytes⟩]
  rfl

/-- From 29 bits on no byte is zeroed. -/
theorem clear_eq {d : DLeft UInt32} (hge : 29 ≤ d.shash) (hsize : d.nodeSize = 8) :
    d.clear = d := by
  have hbytes : d.tableSizeBytes = 0 := by
    obtain ⟨e, he⟩ := Nat.exists_eq_add_of_le hge
    rw [tableSizeBytes, hsize, he, pow_add]
    omega
  have hdata : ∀ i j, (if i < d.tableCount ∧ (j + 1) * d.nodeSize ≤ d.tableSizeBytes then blank
      else d.data i j) = d.data i j := by
    intro i j
    rw [if_neg]
    rw [hbytes, hsize]
    omega
  unfold DLeft.clear
  simp only [hdata]

end DLeftCounter

/-! ## Runs -/

namespace CounterOp

open Counter

variable [FloorRing F] [DecidableEq K] {keys : List K} {w w' : Watched F K} {o : CounterOp F K}
  {key : K} {args : UInt64}

/-- The keys that must read 0 are clean. -/
def Clean (keys : List K) (w : Watched F K) : Prop :=
  match w.counter with
  | tewma s => 0 < s.beta ∧ (∀ x, 0 ≤ s.c x) ∧ ∀ k ∈ keys, w.zero k → s.clean k
  | tewmaFast s => ∀ k ∈ keys, w.zero k → fhash k ≠ 0 ∧ s.clean k
  | dleft s => s.table.nodeSize = 8 ∧ s.table.shash < 32 ∧ ∀ k ∈ keys, w.zero k → s.clean k
  | simple s => ∀ k ∈ keys, w.zero k → s.count = 0

theorem Clean.reset (h : Clean keys w) (hsound : (reset key).Sound keys w) (hkey : key ∈ keys)
    (hs : (reset key).step w = some w') : Clean keys w' := by
  obtain ⟨⟨c, v⟩, hreset, rfl⟩ := Option.map_eq_some_iff.1 hs
  obtain ⟨c₀, zero⟩ := w
  have hcases : ∀ {P : K → Prop}, P key → (∀ k ∈ keys, zero k → P k) →
      ∀ k ∈ keys, update zero key true k → P k := by
    intro P hP hold k hk hz
    by_cases hkk : k = key
    · exact hkk ▸ hP
    · rw [Function.update_of_ne hkk] at hz
      exact hold k hk hz
  cases c₀ with
  | tewma s =>
    cases hreset
    exact ⟨h.1, h.2.1, hcases hsound h.2.2⟩
  | tewmaFast s =>
    cases hreset
    exact hcases hsound h
  | dleft s =>
    cases hreset
    obtain ⟨hmarks, hone⟩ := hsound
    obtain ⟨hsize, hshash, hclean⟩ := h
    have hfind : ∀ k ∈ keys, ∀ q, (s.table.remove key).1.get k = some q →
        fhash k ≠ fhash key ∧ s.table.get k = some q := fun k hk q hq =>
      DLeftCounter.find_remove hshash (hmarks key hkey) hone (hmarks k hk) hq
    refine ⟨?_, ?_, hcases ?_ fun k hk hz => ?_⟩
    · rw [← hsize]
      unfold DLeft.remove
      cases s.table.find key <;> rfl
    · unfold DLeft.remove
      cases s.table.find key <;> exact hshash
    · exact DLeftCounter.clean_iff.2 fun q hq => absurd rfl (hfind key hkey q hq).1
    · refine DLeftCounter.clean_iff.2 fun q hq => ?_
      exact (DLeftCounter.load_remove q).trans
        (DLeftCounter.clean_iff.1 (hclean k hk hz) q (hfind k hk q hq).2)
  | simple s =>
    cases hreset
    exact hcases hsound h

theorem Clean.clear (h : Clean keys w) (hsound : CounterOp.clear.Sound keys w)
    (hs : CounterOp.clear.step w = some w') : Clean keys w' := by
  obtain ⟨c, hclear, rfl⟩ := Option.map_eq_some_iff.1 hs
  obtain ⟨c₀, zero⟩ := w
  cases c₀ with
  | tewma s =>
    cases hclear
    refine ⟨h.1, fun _ => le_rfl, fun k _ _ => TewmaCounter.clean_iff.2 fun h hs _ => ?_⟩
    exact ⟨h, List.mem_cons_self, rfl⟩
  | tewmaFast s => exact hsound.elim
  | dleft s =>
    cases hclear
    obtain ⟨hsize, hshash, -⟩ := h
    refine ⟨hsize, hshash, fun k hk _ => ?_⟩
    by_cases hlt : s.table.shash < 29
    · exact DLeftCounter.clear_clean hlt hsize
    · rw [DLeftCounter.clear_eq (by omega) hsize]
      exact (hsound.resolve_left hlt) k hk
  | simple s =>
    cases hclear
    exact fun _ _ _ => rfl

variable [IsStrictOrderedRing F]

theorem Clean.add {value : F} (h : Clean keys w) (hs : (add key value args).step w = some w') :
    Clean keys w' := by
  obtain ⟨⟨c, v⟩, hr, rfl⟩ := Option.map_eq_some_iff.1 hs
  obtain ⟨c₀, zero⟩ := w
  cases c₀ with
  | tewma s =>
    obtain ⟨⟨s', v'⟩, hadd, heq⟩ := Option.map_eq_some_iff.1 hr
    cases heq
    obtain ⟨hbeta, hnonneg, -⟩ := h
    obtain ⟨hbeta', hnonneg'⟩ := TewmaCounter.add_nonneg hbeta hnonneg hadd
    exact ⟨hbeta', hnonneg', fun _ _ hz => by cases hz⟩
  | tewmaFast s =>
    obtain ⟨⟨s', v'⟩, hadd, heq⟩ := Option.map_eq_some_iff.1 hr
    cases heq
    exact fun _ _ hz => by cases hz
  | dleft s =>
    obtain ⟨⟨s', v'⟩, hadd, heq⟩ := Option.map_eq_some_iff.1 hr
    cases heq
    obtain ⟨⟨d, p⟩, hd, hx⟩ := Option.bind_eq_some_iff.1 hadd
    cases hx
    obtain ⟨hsize, hshash, -⟩ := h
    rcases getOrReserve_cases hd with ⟨-, rfl⟩ | ⟨-, hsize', hshash', -⟩
    · exact ⟨hsize, hshash, fun _ _ hz => by cases hz⟩
    · exact ⟨hsize'.trans hsize, hshash'.trans_lt hshash, fun _ _ hz => by cases hz⟩
  | simple s =>
    obtain ⟨⟨s', v'⟩, hadd, heq⟩ := Option.map_eq_some_iff.1 hr
    cases heq
    exact fun _ _ hz => by cases hz

theorem Clean.get (h : Clean keys w) (hs : (get key args).step w = some w') : Clean keys w' := by
  obtain ⟨⟨c, v⟩, hr, rfl⟩ := Option.map_eq_some_iff.1 hs
  obtain ⟨c₀, zero⟩ := w
  cases c₀ with
  | tewma s =>
    obtain ⟨⟨s', v'⟩, hget, heq⟩ := Option.map_eq_some_iff.1 hr
    cases heq
    obtain ⟨⟨h₁, hs₁⟩, -, hloop⟩ := Option.bind_eq_some_iff.1 hget
    obtain ⟨hdec, -⟩ := TewmaCounter.decayLoop_ok hloop
    obtain ⟨hbeta, hnonneg, hclean⟩ := h
    exact ⟨hdec.beta ▸ hbeta, hdec.nonneg hbeta hnonneg,
      fun k hk hz => hdec.clean (hclean k hk hz)⟩
  | tewmaFast s =>
    obtain ⟨⟨s', v'⟩, hget, heq⟩ := Option.map_eq_some_iff.1 hr
    cases heq
    obtain ⟨⟨s₁, p⟩, hnode, hx⟩ := Option.bind_eq_some_iff.1 hget
    cases hx
    intro k hk hz
    obtain ⟨h0, hclean⟩ := h k hk hz
    exact ⟨h0, TewmaFastCounter.getActualizedNode_clean h0 hclean hnode⟩
  | dleft s =>
    cases hr
    exact h
  | simple s =>
    cases hr
    exact h

theorem Clean.step (h : Clean keys w) (ho : ∀ k, o.key? = some k → k ∈ keys)
    (hsound : o.Sound keys w) (hs : o.step w = some w') : Clean keys w' := by
  cases o with
  | add key value args => exact h.add hs
  | get key args => exact h.get hs
  | reset key => exact h.reset hsound (ho key rfl) hs
  | clear => exact h.clear hsound hs

omit [DecidableEq K] in
theorem Clean.kept_get (h : Clean keys w) (hsound : (CounterOp.get key args).Sound keys w)
    (hkey : key ∈ keys) : (CounterOp.get key args).Kept keys w := by
  obtain ⟨c₀, zero⟩ := w
  intro hz
  cases c₀ with
  | tewma s =>
    obtain ⟨⟨s', v⟩, hget⟩ := TewmaCounter.get_ready (hsound hz)
    exact ⟨_, Option.map_eq_some_iff.2 ⟨_, hget, rfl⟩,
      TewmaCounter.get_clean h.1 h.2.1 (h.2.2 key hkey hz) hget⟩
  | tewmaFast s =>
    obtain ⟨⟨s', v⟩, hget⟩ := TewmaFastCounter.get_ready (hsound hz)
    exact ⟨_, Option.map_eq_some_iff.2 ⟨_, hget, rfl⟩,
      TewmaFastCounter.get_clean (h key hkey hz).2 hget⟩
  | dleft s => exact ⟨_, rfl, DLeftCounter.get_clean (h.2.2 key hkey hz)⟩
  | simple s =>
    have hcount := h key hkey hz
    exact ⟨_, rfl, by simp [hcount, ofUInt32]⟩

omit [DecidableEq K] in
/-- The default `reset` changes nothing, and that of a `DLeftCounter` finds no other key's node. -/
theorem Clean.kept_reset (h : Clean keys w) (hsound : (CounterOp.reset key).Sound keys w)
    (hkey : key ∈ keys) : (CounterOp.reset key).Kept keys w := by
  obtain ⟨c₀, zero⟩ := w
  cases c₀ with
  | dleft s =>
    refine ⟨_, rfl, fun k hk _ args r hr => ⟨_, rfl, ?_⟩⟩
    cases hr
    show (DLeftCounter.get _ k : F) ≤ s.get k
    rw [DLeftCounter.get]
    rcases hg : (s.table.remove key).1.get k with _ | q
    · exact DLeftCounter.get_nonneg
    · obtain ⟨-, hold⟩ := DLeftCounter.find_remove h.2.1 (hsound.1 key hkey) hsound.2
        (hsound.1 k hk) hg
      rw [DLeftCounter.get, show s.table.get k = some q from hold]
      exact (congrArg ofUInt32 (DLeftCounter.load_remove q)).le
  | _ => exact ⟨_, rfl, fun k hk _ args r hr => ⟨r, hr, le_rfl⟩⟩

omit [DecidableEq K] in
theorem Clean.kept (h : Clean keys w) (ho : ∀ k, o.key? = some k → k ∈ keys)
    (hsound : o.Sound keys w) : o.Kept keys w := by
  cases o with
  | add key value args => trivial
  | get key args => exact h.kept_get hsound (ho key rfl)
  | reset key => exact h.kept_reset hsound (ho key rfl)
  | clear =>
    obtain ⟨c₀, zero⟩ := w
    cases c₀ with
    | tewmaFast s => exact hsound.elim
    | _ => rfl

omit [FloorRing F] [DecidableEq K] [IsStrictOrderedRing F] in
theorem clean_getInstance {log : F → F} {type : String} {nhash shash : ℕ} {beta : F}
    {c : Counter F} (h : getInstance log type nhash shash beta = some c) :
    Clean keys ⟨c, fun _ => false⟩ := by
  unfold getInstance at h
  split_ifs at h
  · obtain ⟨s, hs, rfl⟩ := Option.map_eq_some_iff.1 h
    unfold TewmaCounter.new at hs
    split_ifs at hs with hshape
    cases hs
    exact ⟨hshape.2.2.1, fun _ => le_rfl, fun _ _ hz => by cases hz⟩
  · cases h
    exact fun _ _ hz => by cases hz
  · obtain ⟨s, hs, rfl⟩ := Option.map_eq_some_iff.1 h
    unfold DLeftCounter.new at hs
    split_ifs at hs with hshape
    cases hs
    exact ⟨rfl, hshape.2, fun _ _ hz => by cases hz⟩
  · cases h
    exact fun _ _ hz => by cases hz

/-- In a run whose calls are sound every counter keeps the contract, towards any keys in use. -/
theorem contract_kept {log : F → F} {type : String} {nhash shash : ℕ} {beta : F} {c : Counter F}
    {ops : List (CounterOp F K)} (hnew : getInstance log type nhash shash beta = some c)
    (hkeys : ∀ o ∈ ops, ∀ k, o.key? = some k → k ∈ keys)
    (hsound : Meets step (Sound keys) ⟨c, fun _ => false⟩ ops) :
    Meets step (Kept keys) ⟨c, fun _ => false⟩ ops :=
  meets_of_meets (fun _ _ _ hc ho hs => hc.step ho hs) (fun _ _ hc ho hs => hc.kept ho hs) ops
    hkeys (clean_getInstance hnew) hsound

/-- One key counted, reset and read, and the table cleared. -/
def oneKey : List (CounterOp ℚ HashedBuffer) :=
  [.add ⟨[1]⟩ 3 10, .reset ⟨[1]⟩, .get ⟨[1]⟩ 11, .clear, .get ⟨[2]⟩ 12]

theorem contract_kept_oneKey : ∃ c, getInstance logHalf "dleft" 2 4 0 = some c ∧
    Meets step (Kept [⟨[1]⟩, ⟨[2]⟩]) ⟨c, fun _ => false⟩ oneKey := by
  have hnew : getInstance logHalf "dleft" 2 4 0 = some (.dleft ⟨.new 8 2 4⟩) := rfl
  exact ⟨_, hnew, contract_kept hnew (by decide) (by decide +kernel)⟩

/-- A `SimpleCounter` does not override `reset`. -/
theorem contract_not_kept : ¬ ∀ (type : String) (nhash shash : ℕ) (beta : ℚ) (c : Counter ℚ)
    (keys : List HashedBuffer) (ops : List (CounterOp ℚ HashedBuffer)),
    getInstance logHalf type nhash shash beta = some c →
    (∀ o ∈ ops, ∀ k, o.key? = some k → k ∈ keys) →
    (ops.filterMap args?).Pairwise (· ≤ ·) →
    Meets step (Kept keys) ⟨c, fun _ => false⟩ ops := by
  intro hall
  have hm := hall "simple" 0 0 0 (.simple ⟨0⟩) [⟨[1]⟩]
    [.add ⟨[1]⟩ 1 0, .reset ⟨[1]⟩, .get ⟨[1]⟩ 0] rfl (by decide) (by decide)
  have hget := (hm.2 _ rfl).2 _ rfl
  obtain ⟨r, hr, hzero⟩ := hget.1 (by decide)
  cases hr
  exact absurd hzero (by decide +kernel)

end CounterOp

end DStreamon
