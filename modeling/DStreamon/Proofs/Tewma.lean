import DStreamon.Tewma
import DStreamon.Proofs.DLeftEntry
import Mathlib.Tactic.Linarith
import Mathlib.Tactic.Ring

/-!
# The sketch never counts less than the exact counter

Every cell of a key holds at least the key's decayed sum, as of the cell's own time stamp: decay
scales both alike, and an `add` raises the key's cells to their least value and its own weight.
The node of a key in the d-left table holds exactly that sum.
-/

namespace DStreamon

open IReadBuffer StepRun DLeft
open Function (update)

variable {F K : Type} [Field F]

/-! ## Times -/

theorem timeT_of_lt {args : UInt64} (h : args.toNat < 2 ^ 63) : timeT args = args.toNat := by
  unfold timeT
  rw [Int64.toInt, UInt64.toBitVec_toInt64]
  rw [BitVec.toInt_eq_toNat_of_lt]
  · rfl
  · have : args.toBitVec.toNat = args.toNat := rfl
    omega

theorem timeT_mono {args args' : UInt64} (hle : args ≤ args') (h : args'.toNat < 2 ^ 63) :
    timeT args ≤ timeT args' := by
  have hle : args.toNat ≤ args'.toNat := UInt64.le_iff_toNat_le.1 hle
  rw [timeT_of_lt h, timeT_of_lt (by omega)]
  exact_mod_cast hle

/-! ## The sum -/

namespace TewmaOp

variable [DecidableEq K] {weight beta : F} {key : K} {ops : List (TewmaOp F K)} {time time' : ℤ}

/-- No `add` of the key is later. -/
def Until (key : K) (time : ℤ) (ops : List (TewmaOp F K)) : Prop :=
  ∀ quantity args, .add key quantity args ∈ ops → timeT args ≤ time

theorem sum_append (o : TewmaOp F K) : sum weight beta key time (ops ++ [o]) =
    sum weight beta key time ops + mass weight beta key time o := by
  simp [sum]

theorem Until.sum_decay (h : Until key time ops) (hle : time ≤ time') :
    sum weight beta key time' ops = sum weight beta key time ops * beta ^ (time' - time).toNat := by
  induction ops with
  | nil => simp [sum]
  | cons o ops ih =>
    have hrest : Until key time ops := fun q a ha => h q a (List.mem_cons_of_mem _ ha)
    have hhead : mass weight beta key time' o =
        mass weight beta key time o * beta ^ (time' - time).toNat := by
      cases o with
      | get key' args => simp [mass]
      | add key' quantity args =>
        simp only [mass]
        split_ifs with hk
        · subst hk
          have ht := h quantity args List.mem_cons_self
          have hexp : (time' - timeT args).toNat =
              (time - timeT args).toNat + (time' - time).toNat := by omega
          rw [hexp, pow_add, mul_assoc _ (beta ^ _)]
        · simp
    have ih := ih hrest
    simp only [sum, List.map_cons, List.sum_cons] at ih ⊢
    rw [hhead, ih]
    ring

end TewmaOp

open TewmaOp (Until sum mass)

/-! ## The cells of the sketch -/

namespace TewmaCounter

variable {s₀ s s' : TewmaCounter F} {key : K} {timestamp : ℤ} {minctr m : F} {hs : List ℕ} {x : ℕ}

/-- One cell brought up to date. -/
def touch (s : TewmaCounter F) (timestamp : ℤ) (x : ℕ) : TewmaCounter F :=
  { s with
    t := update s.t x timestamp
    c := update s.c x (s.c x * s.beta ^ (timestamp - s.t x).toNat) }

theorem touch_t (y : ℕ) : (s.touch timestamp x).t y = if y = x then timestamp else s.t y :=
  Function.update_apply ..

theorem touch_c (y : ℕ) : (s.touch timestamp x).c y =
    if y = x then s.c x * s.beta ^ (timestamp - s.t x).toNat else s.c y :=
  Function.update_apply ..

variable [LinearOrder F]

theorem decay_ok (hd : s.decay timestamp minctr x = some (s', m)) :
    s.t x ≤ timestamp ∧ s' = s.touch timestamp x ∧ (m = minctr ∨ m = s'.c x) ∧
      m ≤ minctr ∧ m ≤ s'.c x := by
  unfold decay at hd
  dsimp only at hd
  split_ifs at hd with hlt hle <;> cases hd
  · exact ⟨by omega, rfl, .inr (by simp), hle.le, by simp⟩
  · exact ⟨by omega, rfl, .inl rfl, le_rfl, by simpa using hle⟩

/-- Counters of one constructor call's arguments. -/
structure Alike (s s' : TewmaCounter F) : Prop where
  beta : s'.beta = s.beta
  logbeta : s'.logbeta = s.logbeta
  nhash : s'.nhash = s.nhash
  shash : s'.shash = s.shash

omit [Field F] [LinearOrder F] in
theorem Alike.trans {s₁ : TewmaCounter F} (h : Alike s s₁) (h' : Alike s₁ s') : Alike s s' :=
  ⟨h'.beta.trans h.beta, h'.logbeta.trans h.logbeta, h'.nhash.trans h.nhash,
    h'.shash.trans h.shash⟩

/-- The loop sets the time stamps of its cells and decays them. -/
structure Decayed (timestamp : ℤ) (hs : List ℕ) (s s' : TewmaCounter F) : Prop
    extends Alike s s' where
  past : ∀ x ∈ hs, s.t x ≤ timestamp
  t : ∀ x, s'.t x = if x ∈ hs then timestamp else s.t x
  c : ∀ x, s'.c x = if x ∈ hs then s.c x * s.beta ^ (timestamp - s.t x).toNat else s.c x

/-- The loop answers the least of `minctr` and its cells. -/
theorem decayLoop_ok : ∀ {hs : List ℕ} {s s' : TewmaCounter F} {minctr m : F},
    decayLoop timestamp hs s minctr = some (s', m) →
      Decayed timestamp hs s s' ∧ (m = minctr ∨ ∃ x ∈ hs, m = s'.c x) ∧
        m ≤ minctr ∧ ∀ x ∈ hs, m ≤ s'.c x
  | [], s, s', minctr, m, h => by
    cases h
    exact ⟨⟨⟨rfl, rfl, rfl, rfl⟩, by simp, by simp, by simp⟩, .inl rfl, le_rfl, by simp⟩
  | y :: hs, s, s', minctr, m, h => by
    obtain ⟨⟨s₁, m₁⟩, hdecay, h⟩ := Option.bind_eq_some_iff.1 h
    obtain ⟨hy, rfl, hm₁, hle, hley⟩ := decay_ok hdecay
    obtain ⟨hrest, hm, hle₁, hlerest⟩ := decayLoop_ok h
    have hcy : s'.c y = s.c y * s.beta ^ (timestamp - s.t y).toNat := by
      rw [hrest.c]
      simp [touch_t, touch_c]
    rw [touch_c, if_pos rfl, ← hcy] at hley
    refine ⟨⟨⟨hrest.beta, hrest.logbeta, hrest.nhash, hrest.shash⟩, ?_, ?_, ?_⟩, ?_,
      hle₁.trans hle, ?_⟩
    · intro x hx
      by_cases hxy : x = y
      · rw [hxy]
        exact hy
      · have := hrest.past x ((List.mem_cons.1 hx).resolve_left hxy)
        rwa [touch_t, if_neg hxy] at this
    · intro x
      rw [hrest.t x, touch_t]
      by_cases hxy : x = y <;> simp [hxy]
    · intro x
      by_cases hxy : x = y
      · rw [hxy, hcy]
        simp
      · rw [hrest.c x, touch_t, touch_c]
        simp only [hxy, if_false, List.mem_cons, false_or]
        rfl
    · rcases hm with rfl | ⟨x, hx, rfl⟩
      · rcases hm₁ with rfl | rfl
        · exact .inl rfl
        · refine .inr ⟨y, List.mem_cons_self, ?_⟩
          rw [hcy, touch_c, if_pos rfl]
      · exact .inr ⟨x, List.mem_cons_of_mem _ hx, rfl⟩
    · exact List.forall_mem_cons.2 ⟨hle₁.trans hley, hlerest⟩

theorem decayLoop_isSome : ∀ {hs : List ℕ} {s : TewmaCounter F} (minctr : F),
    (∀ x ∈ hs, s.t x ≤ timestamp) → ∃ r, decayLoop timestamp hs s minctr = some r
  | [], s, minctr, _ => ⟨_, rfl⟩
  | y :: hs, s, minctr, h => by
    have hy := h y List.mem_cons_self
    have hrest : ∀ x ∈ hs, (s.touch timestamp y).t x ≤ timestamp := by
      intro x hx
      rw [touch_t]
      split_ifs
      · exact le_rfl
      · exact h x (List.mem_cons_of_mem _ hx)
    rw [decayLoop, decay]
    simp only [show ¬ timestamp - s.t y < 0 by omega, if_false]
    exact decayLoop_isSome _ hrest

omit [Field F] in
theorem raise_eq : ∀ {hs : List ℕ} {c : ℕ → F} {x : ℕ},
    raise m hs c x = if x ∈ hs then max (c x) m else c x
  | [], c, x => by simp [raise]
  | y :: hs, c, x => by
    rw [raise, raise_eq]
    by_cases hxy : x = y
    · subst hxy
      split_ifs <;> simp_all [le_of_lt]
    · split_ifs <;> simp_all [Function.update_of_ne]

/-! ### What the cells hold -/

variable [IsStrictOrderedRing F] [IReadBuffer K] [DecidableEq K] {ops : List (TewmaOp F K)}

/-- The cell counts no less than the key's sum, as of the cell's time. -/
structure Holds (s : TewmaCounter F) (ops : List (TewmaOp F K)) (key : K) (x : ℕ) : Prop where
  past : Until key (s.t x) ops
  le : sum s.logbeta s.beta key (s.t x) ops ≤ s.c x

/-- Every cell of every key holds the key's sum, and no time stamp is later than the calls. -/
structure Covers (s₀ s : TewmaCounter F) (ops : List (TewmaOp F K)) : Prop where
  same : Alike s₀ s
  beta_pos : 0 < s.beta
  beta_lt : s.beta < 1
  weight : 0 < s.logbeta
  nonneg : ∀ x, 0 ≤ s.c x
  stamps : ∀ time, 0 ≤ time → (∀ o ∈ ops, timeT o.args ≤ time) → ∀ x, s.t x ≤ time
  holds : ∀ key h hs, s.cells key = some (h, hs) → ∀ x ∈ h :: hs, Holds s ops key x

omit [Field F] [LinearOrder F] [IsStrictOrderedRing F] [DecidableEq K] in
theorem Alike.cells (h : Alike s s') (key : K) : s'.cells key = s.cells key := by
  rw [TewmaCounter.cells, TewmaCounter.cells, h.nhash, h.shash]

theorem Covers.decay_le (h : Covers s₀ s ops) (x : ℕ) (n : ℕ) : s.c x * s.beta ^ n ≤ s.c x :=
  mul_le_of_le_one_right (h.nonneg x) (pow_le_one₀ h.beta_pos.le h.beta_lt.le)

/-- Bringing the cells of one key up to date keeps what every cell holds. -/
theorem Covers.decayed (h : Covers s₀ s ops) {o : TewmaOp F K} (ho : timeT o.args = timestamp)
    (hd : Decayed timestamp hs s s') :
    (∀ x, 0 ≤ s'.c x) ∧
      (∀ time, 0 ≤ time → (∀ o' ∈ ops ++ [o], timeT o'.args ≤ time) → ∀ x, s'.t x ≤ time) ∧
      ∀ key h hs, s'.cells key = some (h, hs) → ∀ x ∈ h :: hs, Holds s' ops key x := by
  refine ⟨fun x => ?_, fun time h0 htime x => ?_, fun key h₁ hs₁ hcells x hx => ?_⟩
  · rw [hd.c]
    split_ifs
    · exact mul_nonneg (h.nonneg x) (pow_nonneg h.beta_pos.le _)
    · exact h.nonneg x
  · rw [hd.t]
    split_ifs
    · rw [← ho]
      exact htime o (by simp)
    · exact h.stamps time h0 (fun o' ho' => htime o' (by simp [ho'])) x
  · rw [hd.cells] at hcells
    obtain ⟨hpast, hle⟩ := h.holds key h₁ hs₁ hcells x hx
    rw [← hd.beta, ← hd.logbeta] at hle
    by_cases hmem : x ∈ hs
    · have ht : s'.t x = timestamp := by rw [hd.t, if_pos hmem]
      have hle' := hd.past x hmem
      refine ⟨fun q a ha => ?_, ?_⟩
      · rw [ht]
        exact (hpast q a ha).trans hle'
      · rw [ht, hpast.sum_decay hle', hd.c, if_pos hmem, ← hd.beta]
        exact mul_le_mul_of_nonneg_right hle (pow_nonneg (hd.beta ▸ h.beta_pos.le) _)
    · refine ⟨?_, ?_⟩
      · rw [hd.t, if_neg hmem]
        exact hpast
      · rw [hd.t, hd.c, if_neg hmem, if_neg hmem]
        exact hle

/-- The least cell of a key is no less than its sum. -/
theorem Covers.least (h : Covers s₀ s ops) {h₁ : ℕ} {hs₁ : List ℕ}
    (hcells : s.cells key = some (h₁, hs₁)) {r : TewmaCounter F × F}
    (hd : decayLoop timestamp (h₁ :: hs₁) s (s.c h₁) = some r) :
    sum s.logbeta s.beta key timestamp ops ≤ r.2 := by
  obtain ⟨s', m⟩ := r
  obtain ⟨hdec, hm, -⟩ := decayLoop_ok hd
  have hcell : ∀ x ∈ h₁ :: hs₁, sum s.logbeta s.beta key timestamp ops ≤ s'.c x := by
    intro x hx
    obtain ⟨hpast, hle⟩ := h.holds key h₁ hs₁ hcells x hx
    rw [hpast.sum_decay (hdec.past x hx), hdec.c, if_pos hx]
    exact mul_le_mul_of_nonneg_right hle (pow_nonneg h.beta_pos.le _)
  rcases hm with rfl | ⟨x, hx, rfl⟩
  · refine (hcell h₁ List.mem_cons_self).trans ?_
    rw [hdec.c, if_pos List.mem_cons_self]
    exact h.decay_le h₁ _
  · exact hcell x hx

omit [IsStrictOrderedRing F] [IReadBuffer K] in
theorem Holds.append {o : TewmaOp F K} (h : Holds s ops key x)
    (ho : ∀ quantity args, o ≠ .add key quantity args) : Holds s (ops ++ [o]) key x := by
  refine ⟨fun q a ha => ?_, ?_⟩
  · rcases List.mem_append.1 ha with ha | ha
    · exact h.past q a ha
    · exact absurd (List.mem_singleton.1 ha).symm (ho q a)
  · rw [TewmaOp.sum_append]
    have hzero : mass s.logbeta s.beta key (s.t x) o = 0 := by
      cases o with
      | get key' args => rfl
      | add key' quantity args =>
        have hne : key' ≠ key := fun e => ho quantity args (by rw [e])
        simp [mass, hne]
    rw [hzero, add_zero]
    exact h.le

theorem Covers.get (h : Covers s₀ s ops) {args : UInt64} {v : F}
    (hg : s.get key args = some (s', v)) :
    Covers s₀ s' (ops ++ [.get key args]) ∧ sum s.logbeta s.beta key (timeT args) ops ≤ v := by
  obtain ⟨⟨h₁, hs₁⟩, hcells, hg⟩ := Option.bind_eq_some_iff.1 hg
  obtain ⟨hdec, -⟩ := decayLoop_ok hg
  obtain ⟨hnonneg, hstamps, hholds⟩ := h.decayed (o := .get key args) rfl hdec
  refine ⟨⟨h.same.trans hdec.toAlike, hdec.beta ▸ h.beta_pos, hdec.beta ▸ h.beta_lt,
    hdec.logbeta ▸ h.weight, hnonneg, hstamps, fun key' h' hs' hc x hx => ?_⟩, h.least hcells hg⟩
  exact (hholds key' h' hs' hc x hx).append fun _ _ e => by cases e

theorem Covers.add (h : Covers s₀ s ops) {args : UInt64} {quantity v : F}
    (ha : s.add key quantity args = some (s', v)) :
    Covers s₀ s' (ops ++ [.add key quantity args]) := by
  obtain ⟨⟨h₁, hs₁⟩, hcells, ha⟩ := Option.bind_eq_some_iff.1 ha
  obtain ⟨⟨s₁, minctr⟩, hloop, ha⟩ := Option.bind_eq_some_iff.1 ha
  have hleast := h.least hcells hloop
  obtain ⟨hdec, -⟩ := decayLoop_ok hloop
  obtain ⟨hnonneg, hstamps, hholds⟩ := h.decayed (o := .add key quantity args) rfl hdec
  simp only at ha hleast
  split_ifs at ha
  cases ha
  have hraise : ∀ x, s₁.c x ≤ raise (minctr + quantity * s₁.logbeta) (h₁ :: hs₁) s₁.c x := by
    intro x
    rw [raise_eq]
    split_ifs
    · exact le_max_left _ _
    · exact le_rfl
  refine ⟨h.same.trans ⟨hdec.beta, hdec.logbeta, hdec.nhash, hdec.shash⟩, hdec.beta ▸ h.beta_pos,
    hdec.beta ▸ h.beta_lt, hdec.logbeta ▸ h.weight, fun x => (hnonneg x).trans (hraise x), hstamps,
    fun key' h' hs' hc x hx => ?_⟩
  have hold : Holds s₁ ops key' x := hholds key' h' hs' hc x hx
  have hraised : Holds { s₁ with c := raise (minctr + quantity * s₁.logbeta) (h₁ :: hs₁) s₁.c }
      ops key' x := ⟨hold.past, hold.le.trans (hraise x)⟩
  by_cases hkey : key' = key
  · subst hkey
    have hcells' : s₁.cells key' = some (h', hs') := hc
    rw [hdec.cells, hcells] at hcells'
    cases hcells'
    have ht : s₁.t x = timeT args := by rw [hdec.t, if_pos hx]
    refine ⟨fun q a ha => ?_, ?_⟩
    · rcases List.mem_append.1 ha with ha | ha
      · exact hold.past q a ha
      · cases List.mem_singleton.1 ha
        exact ht.ge
    · simp only
      rw [TewmaOp.sum_append, raise_eq, if_pos hx, ht]
      refine le_trans ?_ (le_max_right _ _)
      rw [hdec.logbeta, hdec.beta]
      refine add_le_add hleast (le_of_eq ?_)
      simp [mass]
  · exact hraised.append fun _ _ e => hkey (by cases e; rfl)

theorem Covers.step (h : Covers s₀ s ops) {o : TewmaOp F K} (hs : o.step s = some s') :
    Covers s₀ s' (ops ++ [o]) := by
  cases o with
  | add key quantity args =>
    obtain ⟨⟨s₁, v⟩, ha, rfl⟩ := Option.map_eq_some_iff.1 hs
    exact h.add ha
  | get key args =>
    obtain ⟨⟨s₁, v⟩, hg, rfl⟩ := Option.map_eq_some_iff.1 hs
    exact (h.get hg).1

theorem Covers.run : ∀ {ops' ops : List (TewmaOp F K)} {s s' : TewmaCounter F},
    Covers s₀ s ops → StepRun.run (fun s o => TewmaOp.step s o) s ops' = some s' →
      Covers s₀ s' (ops ++ ops')
  | [], ops, s, s', h, hr => by
    cases hr
    simpa using h
  | o :: ops', ops, s, s', h, hr => by
    obtain ⟨s₁, hs, hr⟩ := run_cons_some hr
    simpa using (h.step hs).run hr

omit [IsStrictOrderedRing F] in
theorem covers_new {log : F → F} {nhash shash : ℕ} {beta : F}
    (h : TewmaCounter.new log nhash shash beta = some s) (hw : 0 < -log beta) :
    Covers s s ([] : List (TewmaOp F K)) ∧ s.beta = beta ∧ s.logbeta = -log beta ∧
      s.nhash = nhash ∧ s.shash = shash := by
  unfold TewmaCounter.new at h
  split_ifs at h with hshape
  cases h
  refine ⟨⟨⟨rfl, rfl, rfl, rfl⟩, hshape.2.2.1, hshape.2.2.2, hw, fun _ => le_rfl,
    fun _ h0 _ _ => h0, fun key h hs _ x _ => ⟨fun q a ha => ?_, ?_⟩⟩, rfl, rfl, rfl, rfl⟩
  · cases ha
  · simp [sum]

/-! ### `get` returns -/

omit [Field F] [LinearOrder F] [IsStrictOrderedRing F] [DecidableEq K] in
theorem places_isSome (shash : ℕ) : ∀ (n : ℕ) (splitter : HashSplitter),
    splitter.ptr + n * shash ≤ splitter.length →
      ∃ l, places shash n splitter = some l ∧ l.length = n
  | 0, splitter, _ => ⟨[], rfl, rfl⟩
  | n + 1, splitter, h => by
    rw [Nat.succ_mul] at h
    obtain ⟨l, hl, hlen⟩ := places_isSome shash n { splitter with ptr := splitter.ptr + shash }
      (by simp only; omega)
    refine ⟨(extract splitter.buffer splitter.ptr shash).toNat :: l, ?_, by simp [hlen]⟩
    rw [places, HashSplitter.next, if_neg (by omega)]
    simp only [Option.bind_eq_bind, Option.bind_some, hl]

omit [Field F] [LinearOrder F] [IsStrictOrderedRing F] [DecidableEq K] in
theorem cells_isSome (s : TewmaCounter F) (key : K) (h1 : 1 ≤ s.nhash) (h8 : s.nhash ≤ 8)
    (hfit : s.nhash * s.shash ≤ (getHash key).size * 32) :
    ∃ h hs, s.cells key = some (h, hs) := by
  obtain ⟨l, hl, hlen⟩ := places_isSome s.shash s.nhash (.set (getHash key) 1)
    (by simpa [HashSplitter.set] using hfit)
  rw [cells, if_neg (by omega), hl]
  cases l with
  | nil => simp at hlen; omega
  | cons h hs => exact ⟨h, hs, rfl⟩

omit [IsStrictOrderedRing F] in
theorem Covers.get_isSome (h : Covers s₀ s ops) {args : UInt64} (hargs : args.toNat < 2 ^ 63)
    (hlast : ∀ o ∈ ops, o.args ≤ args) {h₁ : ℕ} {hs₁ : List ℕ}
    (hcells : s.cells key = some (h₁, hs₁)) : ∃ r, s.get key args = some r := by
  have h0 : 0 ≤ timeT args := by
    rw [timeT_of_lt hargs]
    positivity
  have hstamps := h.stamps _ h0 fun o ho => timeT_mono (hlast o ho) hargs
  obtain ⟨r, hr⟩ := decayLoop_isSome (s.c h₁) fun x (_ : x ∈ h₁ :: hs₁) => hstamps x
  refine ⟨r, ?_⟩
  rw [TewmaCounter.get, hcells]
  exact hr

end TewmaCounter

/-! ## The nodes of the exact counter -/

namespace TewmaFastCounter

variable {s s' : TewmaFastCounter F} {keys : Set K} {key k : K} {args : UInt64} {p : Slot}

variable [IReadBuffer K]

/-- What a call finds of a key: a key without a node is given one of time and value 0. -/
def node (s : TewmaFastCounter F) (key : K) : TewmaNode F := (s.data.entry key).getD ⟨0, 0⟩

theorem node_congr (h : s'.data.entry k = s.data.entry k) : s'.node k = s.node k := by
  rw [node, node, h]

/-- The key's node, brought up to date. -/
theorem getActualizedNode_ok (he : Exact keys s.data) (ht : Told keys) (hkey : key ∈ keys)
    (h : s.getActualizedNode key args = some (s', p)) :
    s'.beta = s.beta ∧ s'.logbeta = s.logbeta ∧ Exact keys s'.data ∧ fp s'.data p = fhash key ∧
      (s.node key).timestamp ≤ timeT args ∧
      s'.data.load p = ⟨timeT args,
        (s.node key).value * s.beta ^ (timeT args - (s.node key).timestamp).toNat⟩ ∧
      s'.data.entry key = some (s'.data.load p) ∧
      ∀ k ∈ keys, k ≠ key → s'.node k = s.node k := by
  obtain ⟨⟨d, q⟩, hd, h⟩ := Option.bind_eq_some_iff.1 h
  obtain ⟨he₁, hfp, hload, -, -, hother⟩ := he.getOrReserve ht hkey hd
  change d.load q = s.node key at hload
  simp only [hload] at h
  split_ifs at h with hlt
  cases h
  obtain ⟨he₂, hfp₂, hentry, hother₂⟩ := he₁.store ht hkey hfp
    ⟨timeT args, (s.node key).value * s.beta ^ (timeT args - (s.node key).timestamp).toNat⟩
  refine ⟨rfl, rfl, he₂, (hfp₂ p).trans hfp, by omega, ?_, ?_, fun k hk hne => ?_⟩
  · rw [load_store, if_pos rfl]
  · rw [load_store, if_pos rfl]
    exact hentry
  · exact node_congr ((hother₂ k hk hne).trans (hother k hk hne))

variable [DecidableEq K] {ops : List (TewmaOp F K)} {o : TewmaOp F K} {logbeta beta : F}

/-- The node of a key holds the key's sum, as of the node's time. -/
structure Sums (logbeta beta : F) (s : TewmaFastCounter F) (ops : List (TewmaOp F K)) (key : K) :
    Prop where
  past : Until key (s.node key).timestamp ops
  value : (s.node key).value = sum (-logbeta) beta key (s.node key).timestamp ops

/-- Every key's node does, and no time stamp is later than the calls. -/
structure Counts (logbeta beta : F) (keys : Set K) (s : TewmaFastCounter F)
    (ops : List (TewmaOp F K)) : Prop where
  exact : Exact keys s.data
  stamps : ∀ time, 0 ≤ time → (∀ o ∈ ops, timeT o.args ≤ time) →
    ∀ k ∈ keys, (s.node k).timestamp ≤ time
  sums : ∀ k ∈ keys, Sums logbeta beta s ops k
  logbeta : s.logbeta = logbeta
  beta : s.beta = beta

/-- A call writes the node of its key alone. -/
theorem Counts.write (h : Counts logbeta beta keys s ops) (hbeta : s'.beta = s.beta)
    (hlogbeta : s'.logbeta = s.logbeta) (he : Exact keys s'.data)
    (hle : (s.node o.key).timestamp ≤ timeT o.args)
    (hnode : s'.node o.key = ⟨timeT o.args, sum (-logbeta) beta o.key (timeT o.args) (ops ++ [o])⟩)
    (hother : ∀ k ∈ keys, k ≠ o.key → s'.node k = s.node k) :
    Counts logbeta beta keys s' (ops ++ [o]) := by
  refine ⟨he, fun time h0 htime k hk => ?_, fun k hk => ?_, hlogbeta.trans h.logbeta,
    hbeta.trans h.beta⟩
  · by_cases hko : k = o.key
    · rw [hko, hnode]
      exact htime o (by simp)
    · rw [hother k hk hko]
      exact h.stamps time h0 (fun o' ho' => htime o' (by simp [ho'])) k hk
  · obtain ⟨hpast, hvalue⟩ := h.sums k hk
    by_cases hko : k = o.key
    · subst hko
      refine ⟨fun q a ha => ?_, ?_⟩
      · rw [hnode]
        rcases List.mem_append.1 ha with ha | ha
        · exact (hpast q a ha).trans hle
        · rw [← List.mem_singleton.1 ha]
          exact le_rfl
      · rw [hnode]
    · have hnot : ∀ quantity args, o ≠ .add k quantity args := by
        rintro quantity args rfl
        exact hko rfl
      refine ⟨fun q a ha => ?_, ?_⟩
      · rw [hother k hk hko]
        rcases List.mem_append.1 ha with ha | ha
        · exact hpast q a ha
        · exact absurd (List.mem_singleton.1 ha).symm (hnot q a)
      · rw [hother k hk hko, hvalue, TewmaOp.sum_append]
        cases o with
        | get key' args => exact (add_zero _).symm
        | add key' quantity args =>
          have hne : key' ≠ k := fun e => hko e.symm
          simp [mass, hne]

/-- The key's sum is what its node decays to. -/
theorem Sums.decay (h : Sums logbeta beta s ops key) (hle : (s.node key).timestamp ≤ timeT args) :
    (s.node key).value * beta ^ (timeT args - (s.node key).timestamp).toNat =
      sum (-logbeta) beta key (timeT args) ops := by
  rw [h.past.sum_decay hle, h.value]

theorem Counts.get (h : Counts logbeta beta keys s ops) (ht : Told keys) (hkey : key ∈ keys) {v : F}
    (hg : s.get key args = some (s', v)) :
    Counts logbeta beta keys s' (ops ++ [.get key args]) ∧
      v = sum (-logbeta) beta key (timeT args) ops := by
  obtain ⟨⟨s₁, p⟩, hnode, hg⟩ := Option.bind_eq_some_iff.1 hg
  cases hg
  obtain ⟨hbeta, hlogbeta, he, -, hle, hload, hentry, hother⟩ :=
    getActualizedNode_ok h.exact ht hkey hnode
  rw [h.beta, (h.sums key hkey).decay hle] at hload
  refine ⟨h.write hbeta hlogbeta he hle ?_ hother, congrArg TewmaNode.value hload⟩
  rw [TewmaOp.sum_append]
  simp [node, TewmaOp.key, TewmaOp.args, hentry, hload, mass]

theorem Counts.add (h : Counts logbeta beta keys s ops) (ht : Told keys) (hkey : key ∈ keys)
    {quantity v : F} (ha : s.add key quantity args = some (s', v)) :
    Counts logbeta beta keys s' (ops ++ [.add key quantity args]) := by
  obtain ⟨⟨s₁, p⟩, hnode, ha⟩ := Option.bind_eq_some_iff.1 ha
  cases ha
  obtain ⟨hbeta, hlogbeta, he, hfp, hle, hload, -, hother⟩ :=
    getActualizedNode_ok h.exact ht hkey hnode
  rw [h.beta, (h.sums key hkey).decay hle] at hload
  obtain ⟨he', -, hentry, hother'⟩ := he.store ht hkey hfp
    ⟨(s₁.data.load p).timestamp, (s₁.data.load p).value + quantity * -s₁.logbeta⟩
  refine h.write hbeta hlogbeta he' hle ?_ fun k hk hne => ?_
  · refine (congrArg (Option.getD · _) hentry).trans ?_
    rw [Option.getD_some, hload, TewmaOp.sum_append]
    simp [TewmaOp.key, TewmaOp.args, mass, hlogbeta, h.logbeta]
  · exact (node_congr (hother' k hk hne)).trans (hother k hk hne)

theorem Counts.step (h : Counts logbeta beta keys s ops) (ht : Told keys) (hkey : o.key ∈ keys)
    (hs : o.step s = some s') : Counts logbeta beta keys s' (ops ++ [o]) := by
  cases o with
  | add key quantity args =>
    obtain ⟨⟨s₁, v⟩, ha, rfl⟩ := Option.map_eq_some_iff.1 hs
    exact h.add ht hkey ha
  | get key args =>
    obtain ⟨⟨s₁, v⟩, hg, rfl⟩ := Option.map_eq_some_iff.1 hs
    exact (h.get ht hkey hg).1

theorem Counts.run (ht : Told keys) : ∀ {ops' ops : List (TewmaOp F K)} {s s' : TewmaFastCounter F},
    Counts logbeta beta keys s ops → (∀ o ∈ ops', o.key ∈ keys) →
      StepRun.run (fun s o => TewmaOp.step s o) s ops' = some s' →
      Counts logbeta beta keys s' (ops ++ ops')
  | [], ops, s, s', h, _, hr => by
    cases hr
    simpa using h
  | o :: ops', ops, s, s', h, hkeys, hr => by
    obtain ⟨s₁, hs, hr⟩ := run_cons_some hr
    obtain ⟨ho, hkeys⟩ := List.forall_mem_cons.1 hkeys
    simpa using (h.step ht ho hs).run ht hkeys hr

theorem counts_new {log : F → F} {nhash shash : ℕ} :
    Counts (log beta) beta keys (new log nhash shash beta) ([] : List (TewmaOp F K)) := by
  have hnode : ∀ k ∈ keys, (new log nhash shash beta).node k = ⟨0, 0⟩ := by
    intro k hk
    rw [node]
    rcases hg : (new log nhash shash beta).data.get k with _ | p
    · rw [entry, hg]
      rfl
    · rw [entry, hg]
      rfl
  refine ⟨exact_new, fun time h0 _ k hk => ?_, fun k hk => ⟨fun q a ha => ?_, ?_⟩, rfl, rfl⟩
  · rw [hnode k hk]
    exact h0
  · cases ha
  · rw [hnode k hk]
    simp [sum]

/-- A key that has a node, or for which there is one. -/
theorem Counts.get_isSome (h : Counts logbeta beta keys s ops) (ht : Told keys) (hkey : key ∈ keys)
    (hargs : args.toNat < 2 ^ 63) (hlast : ∀ o ∈ ops, o.args ≤ args)
    (hroom : s.data.get key ≠ none ∨ (s.data.reserve key).2 ≠ none) :
    ∃ r, s.get key args = some r := by
  have h0 : 0 ≤ timeT args := by
    rw [timeT_of_lt hargs]
    positivity
  have hstamp := h.stamps _ h0 (fun o ho => timeT_mono (hlast o ho) hargs) key hkey
  have hres : ∃ d p, s.data.getOrReserve key ⟨0, 0⟩ = some (d, p) := by
    unfold DLeft.getOrReserve
    rcases hg : s.data.get key with _ | p
    · rcases hr : s.data.reserve key with ⟨d, _ | p⟩
      · simp [hg, hr] at hroom
      · exact ⟨_, _, rfl⟩
    · exact ⟨_, _, rfl⟩
  obtain ⟨d, p, hres⟩ := hres
  obtain ⟨-, -, hload, -⟩ := h.exact.getOrReserve ht hkey hres
  change d.load p = s.node key at hload
  unfold TewmaFastCounter.get getActualizedNode
  simp only [hres, Option.bind_eq_bind, Option.bind_some, hload]
  rw [if_neg (by omega)]
  exact ⟨_, rfl⟩

end TewmaFastCounter

/-! ## The two counters side by side -/

section

variable [LinearOrder F] [IsStrictOrderedRing F] [IReadBuffer K] [DecidableEq K]
  {ops : List (TewmaOp F K)}

/-- After the same calls the sketch answers no less than the key's decayed sum, and the exact
counter answers the sum, as long as its table has a node for the key. -/
theorem tewma_never_under {log : F → F} {nhash shash : ℕ} {beta : F} {s₀ s : TewmaCounter F}
    (key : K) (args : UInt64)
    (hnew : TewmaCounter.new log nhash shash beta = some s₀) (hweight : 0 < -log beta)
    (h8 : nhash ≤ 8) (hfit : nhash * shash ≤ (getHash key).size * 32)
    (hrun : run (fun s o => TewmaOp.step s o) s₀ ops = some s)
    (hlast : ∀ o ∈ ops, o.args ≤ args) (hargs : args.toNat < 2 ^ 63) :
    (∀ s' v, s.get key args = some (s', v) → sum (-log beta) beta key (timeT args) ops ≤ v) ∧
      (1 ≤ nhash → ∃ r, s.get key args = some r) ∧
      ∀ keys nhash' shash' fast, Told keys → (∀ o ∈ ops, o.key ∈ keys) → key ∈ keys →
        run (fun s o => TewmaOp.step s o) (TewmaFastCounter.new log nhash' shash' beta) ops =
          some fast →
        (fast.data.get key ≠ none ∨ (fast.data.reserve key).2 ≠ none) →
        ∃ fast', fast.get key args =
          some (fast', sum (-log beta) beta key (timeT args) ops) := by
  obtain ⟨hcovers, hbeta, hlogbeta, hnhash, hshash⟩ := TewmaCounter.covers_new (K := K) hnew hweight
  have hc := hcovers.run hrun
  rw [List.nil_append] at hc
  refine ⟨fun s' v hg => ?_, fun h1 => ?_,
    fun keys nhash' shash' fast ht hkeys hkey hfast hroom => ?_⟩
  · have hle := (hc.get hg).2
    rwa [hc.same.logbeta, hlogbeta, hc.same.beta, hbeta] at hle
  · obtain ⟨h, hs, hcells⟩ := TewmaCounter.cells_isSome s key
      (by rw [hc.same.nhash, hnhash]; exact h1) (by rw [hc.same.nhash, hnhash]; exact h8)
      (by rw [hc.same.nhash, hnhash, hc.same.shash, hshash]; exact hfit)
    exact hc.get_isSome hargs hlast hcells
  · have hf := TewmaFastCounter.counts_new.run ht hkeys hfast
    rw [List.nil_append] at hf
    obtain ⟨⟨fast', v⟩, hg⟩ := hf.get_isSome ht hkey hargs hlast hroom
    exact ⟨fast', by rw [hg, (hf.get ht hkey hg).2]⟩

/-- Two keys in turn, the second after the first has lost three quarters. -/
def twoKeys : List (TewmaOp ℚ HashedBuffer) :=
  [.add ⟨[1]⟩ 3 10, .add ⟨[2]⟩ 1 12, .get ⟨[1]⟩ 13]

/-- The logarithm of a half. -/
def logHalf (_ : ℚ) : ℚ := -6931471805599453 / 10 ^ 16

theorem told_twoKeys : Told {k : HashedBuffer | k ∈ [⟨[1]⟩, ⟨[2]⟩]} := by
  have hne : fhash (⟨[1]⟩ : HashedBuffer) ≠ fhash (⟨[2]⟩ : HashedBuffer) := by decide
  constructor
  · intro a ha b hb h
    simp only [Set.mem_ofPred_eq, List.mem_cons, List.not_mem_nil, or_false] at ha hb
    rcases ha with rfl | rfl <;> rcases hb with rfl | rfl
    · rfl
    · exact absurd h hne
    · exact absurd h.symm hne
    · rfl
  · simp only [Set.mem_ofPred_eq]
    decide

theorem tewma_never_under_twoKeys : ∃ s₀ s fast,
    TewmaCounter.new logHalf 2 8 (1 / 2) = some s₀ ∧
    run (fun s o => TewmaOp.step s o) s₀ twoKeys = some s ∧
    run (fun s o => TewmaOp.step s o) (TewmaFastCounter.new logHalf 2 8 (1 / 2)) twoKeys =
      some fast ∧
    (∀ s' v, s.get (⟨[1]⟩ : HashedBuffer) 14 = some (s', v) →
      sum (-logHalf (1 / 2)) (1 / 2) ⟨[1]⟩ (timeT 14) twoKeys ≤ v) ∧
    (∃ r, s.get (⟨[1]⟩ : HashedBuffer) 14 = some r) ∧
    ∃ fast', fast.get (⟨[1]⟩ : HashedBuffer) 14 =
      some (fast', sum (-logHalf (1 / 2)) (1 / 2) ⟨[1]⟩ (timeT 14) twoKeys) := by
  obtain ⟨s₀, hnew⟩ := Option.isSome_iff_exists.1
    (show (TewmaCounter.new logHalf 2 8 (1 / 2)).isSome by decide +kernel)
  have hall : ((TewmaCounter.new logHalf 2 8 (1 / 2)).bind fun s =>
      run (fun s o => TewmaOp.step s o) s twoKeys).isSome := by decide +kernel
  rw [hnew, Option.bind_some] at hall
  obtain ⟨s, hrun⟩ := Option.isSome_iff_exists.1 hall
  have hroom : (run (fun s o => TewmaOp.step s o) (TewmaFastCounter.new logHalf 2 8 (1 / 2))
      twoKeys).any fun s => s.data.get (⟨[1]⟩ : HashedBuffer) ≠ none := by decide +kernel
  obtain ⟨fast, hfast, hget⟩ := (Option.any_eq_true ..).1 hroom
  obtain ⟨hle, hget', hsum⟩ := tewma_never_under (⟨[1]⟩ : HashedBuffer) 14 hnew
    (by decide +kernel) (by decide) (by decide) hrun (by decide) (by decide)
  exact ⟨s₀, s, fast, hnew, hrun, hfast, hle, hget' (by decide), hsum _ 2 8 fast told_twoKeys
    (by decide) (by decide) hfast (.inl (of_decide_eq_true hget))⟩

end

end DStreamon
