import DStreamon.Threshold
import DStreamon.Proofs.BloomPair
import DStreamon.Proofs.DLeftMap
import DStreamon.Proofs.Khash
import Mathlib.Tactic.Linarith
import Mathlib.Tactic.FieldSimp

/-!
# The threshold stays between half the filter and the filter

The zeros of a filter are counted exactly, so the detecting filter never has more of them than the
learning filter, which has fewer than the threshold when the pair is swapped.  That keeps the
threshold above half the filter; it stays within the filter exactly as long as every swap finds
zeros enough.
-/

namespace DStreamon

open Function (update)
open BitArray (ones ones_set)

namespace Bloomfilter

/-! ## Zeros are counted -/

theorem markLoop_count {mmaxArr : ℕ} {H : ℕ → UInt32} :
    ∀ {n i : ℕ} {m m' : ℕ → BitVec 8} {e e' : ℕ}, markLoop mmaxArr H n i m e = .ok (m', e') →
      ones (8 * mmaxArr) m' + e = ones (8 * mmaxArr) m + e'
  | 0, i, m, m', e, e', h => by
    cases h
    rfl
  | n + 1, i, m, m', e, e', h => by
    simp only [markLoop, BitArray.test_eq_false_iff] at h
    split_ifs at h with hb hnew
    · have hcount := markLoop_count h
      rw [ones_set (by omega) hnew] at hcount
      omega
    · exact markLoop_count h

/-- A filter whose bits are digests, with its zeros counted. -/
structure Counted (f : Bloomfilter) : Prop where
  shash : f.shash < 32
  mmax : f.mmax = 2 ^ f.shash
  inside : ∀ p, f.Has p → p < f.mmax
  zeros : f.numZeros + ones (8 * f.mmaxArr) f.m = f.mmax

variable {f g f' : Bloomfilter} {H : ℕ → UInt32} {r : Bool}

theorem Counted.ones_le (h : Counted f) : ones (8 * f.mmaxArr) f.m ≤ f.mmax := by
  have := h.zeros
  omega

/-- More bits, fewer zeros. -/
theorem Counted.zeros_le (hf : Counted f) (hg : Counted g) (ha : Alike f g)
    (hsub : ∀ p, f.Has p → g.Has p) : g.numZeros ≤ f.numZeros := by
  have hle : ones (8 * f.mmaxArr) f.m ≤ ones (8 * g.mmaxArr) g.m := by
    rw [← ha.mmaxArr]
    exact BitArray.ones_mono fun p hp hset => (hsub p ⟨Nat.div_lt_of_lt_mul hp, hset⟩).2
  have hmmax : f.mmax = g.mmax := by rw [hf.mmax, hg.mmax, ha.shash]
  have := hf.zeros
  have := hg.zeros
  omega

theorem counted_clear (hs : f.shash < 32) (hm : f.mmax = 2 ^ f.shash) : Counted f.clear where
  shash := hs
  mmax := hm
  inside p hp := (not_has_clear f p hp).elim
  zeros := by
    have hones : ones (8 * f.mmaxArr) f.clear.m = 0 := by
      rw [ones, Finset.card_eq_zero, Finset.filter_eq_empty_iff]
      intro p hp hset
      exact not_has_clear f p ⟨Nat.div_lt_of_lt_mul (Finset.mem_range.1 hp), hset⟩
    simp [clear] at hones ⊢
    exact hones

theorem Counted.mark (hf : Counted f) (hH : ∀ j, (H j).toNat < 2 ^ f.shash)
    (h : f.mark H = .ok (f', r)) : Counted f' := by
  have hinside : ∀ p, f'.Has p → p < f.mmax := by
    intro p hp
    rcases ((mark_ok h).2.1 p).1 hp with hp | ⟨k, -, -, rfl⟩
    · exact hf.inside p hp
    · exact hf.mmax ▸ hH k
  obtain ⟨⟨m, extra⟩, hloop, h⟩ := bind_ok h
  have hcount := markLoop_count hloop
  simp only at h
  split_ifs at h with he
  · cases h
    exact hf
  · cases h
    refine ⟨hf.shash, hf.mmax, hinside, ?_⟩
    have hle : ones (8 * f.mmaxArr) m ≤ f.mmax := by
      refine BitArray.ones_le fun p hp hset => ?_
      exact hinside p ⟨Nat.div_lt_of_lt_mul hp, hset⟩
    have := hf.zeros
    simp only
    omega

end Bloomfilter

namespace BloomPair

/-! ## What a call does to the pair at a place -/

section Calls

variable {τ : Type} {T : Threshold τ} {i j fuel : ℕ} {w w' : DetInstances τ} {log : List ℕ}
  {r : Bool} {x : ℕ × Op}

/-- No pair has its slave at `i`. -/
def Free (i : ℕ) (w : DetInstances τ) : Prop := ∀ j p, w j = some p → p.slavePlace ≠ some i

/-- Both filters of a pair marked with digests of theirs. -/
def Marked (p q : BloomPair τ) : Prop :=
  ∃ H learning detecting resL resD,
    (p.learning.shash < 32 → ∀ k, (H k).toNat < 2 ^ p.learning.shash)
    ∧ p.learning.mark H = .ok (learning, resL) ∧ p.detecting.mark H = .ok (detecting, resD)
    ∧ q = { p with learning, detecting }

theorem Free.update (hfree : Free i w) {q : BloomPair τ} (q' : BloomPair τ) (hq : w j = some q)
    (hs : q'.slavePlace = q.slavePlace) : Free i (update w j (some q')) := by
  intro k p hp
  by_cases hkj : k = j
  · rw [hkj, Function.update_self] at hp
    cases hp
    rw [hs]
    exact hfree j q hq
  · rw [Function.update_of_ne hkj] at hp
    exact hfree k p hp

theorem swap_frame : ∀ {fuel j : ℕ} {w w' : DetInstances τ} {log : List ℕ},
    Free i w → j ≠ i → swap T fuel j w = .ok (w', log) → w' i = w i
  | 0, j, w, w', log, _, _, h => by cases h
  | fuel + 1, j, w, w', log, hfree, hji, h => by
    simp only [swap] at h
    split at h
    · cases h
    · next q hq =>
      have hi : update w j (some (q.exchange T)) i = w i := Function.update_of_ne hji.symm ..
      split at h
      · cases h
        exact hi
      · next s hs =>
        obtain ⟨⟨w₁, log₁⟩, hswap, h⟩ := bind_ok h
        cases h
        have hsi : s ≠ i := fun e => hfree j q hq (e ▸ hs)
        exact (swap_frame (hfree.update (q.exchange T) hq rfl) hsi hswap).trans hi

theorem swap_self {q : BloomPair τ} (hfree : Free i w) (hq : w i = some q)
    (h : swap T fuel i w = .ok (w', log)) : w' i = some (q.exchange T) := by
  cases fuel with
  | zero => cases h
  | succ fuel =>
    simp only [swap, hq] at h
    have hi : update w i (some (q.exchange T)) i = some (q.exchange T) := Function.update_self ..
    split at h
    · cases h
      exact hi
    · next s hs =>
      obtain ⟨⟨w₁, log₁⟩, hswap, h⟩ := bind_ok h
      cases h
      have hsi : s ≠ i := fun e => hfree i q hq (e ▸ hs)
      exact (swap_frame (hfree.update (q.exchange T) hq rfl) hsi hswap).trans hi

variable {upd : Bloomfilter → Except Fault (Bloomfilter × Bool)}

theorem update'_inv (h : update' T fuel j w upd = .ok (w', log, r)) :
    ∃ p learning resL detecting resD, w j = some p ∧ upd p.learning = .ok (learning, resL) ∧
      upd p.detecting = .ok (detecting, resD) ∧
      if T.above p.threshold learning.numZeros then
        swap T fuel j (update w j (some { p with learning, detecting })) = .ok (w', log)
      else w' = update w j (some { p with learning, detecting }) := by
  unfold update' at h
  split at h
  · cases h
  · next p hp =>
    obtain ⟨⟨learning, resL⟩, hl, h⟩ := bind_ok h
    obtain ⟨⟨detecting, resD⟩, hd, h⟩ := bind_ok h
    refine ⟨p, learning, resL, detecting, resD, hp, hl, hd, ?_⟩
    simp only at h
    split_ifs at h ⊢
    · obtain ⟨⟨w₁, log₁⟩, hswap, h⟩ := bind_ok h
      cases h
      exact hswap
    · cases h
      rfl

/-- The update of another pair leaves the pair at `i`. -/
theorem update'_frame (hfree : Free i w) (hji : j ≠ i)
    (h : update' T fuel j w upd = .ok (w', log, r)) : w' i = w i := by
  obtain ⟨p, learning, resL, detecting, resD, hp, -, -, h⟩ := update'_inv h
  have hi : update w j (some { p with learning, detecting }) i = w i :=
    Function.update_of_ne hji.symm ..
  split_ifs at h
  · exact (swap_frame (hfree.update { p with learning, detecting } hp rfl) hji h).trans hi
  · rw [h, hi]

/-! ### Digests of a filter -/

/-- What an element puts into a filter are places of the filter. -/
def Places (upd : Bloomfilter → Except Fault (Bloomfilter × Bool)) : Prop :=
  ∃ digests, Bloomfilter.Cuts digests upd ∧
    ∀ f H, f.shash < 32 → digests f = .ok H → ∀ k, (H k).toNat < 2 ^ f.shash

theorem places_insert (fuel : ℕ) (key : List UInt8) : Places (Bloomfilter.insert fuel · key) := by
  refine ⟨_, Bloomfilter.cuts_insert fuel key, fun f H hs h => ?_⟩
  unfold compute at h
  split_ifs at h
  exact computeLoop_lt hs (fun _ => Nat.two_pow_pos _) h

theorem places_setBits (bits : ℕ → UInt32) : Places (Bloomfilter.setBits · bits) :=
  ⟨_, Bloomfilter.cuts_setBits bits, fun _ _ hs h =>
    splitLoop_lt hs (fun _ => Nat.two_pow_pos _) h⟩

theorem places_upd? (h : upd? i x = some upd) : Places upd := by
  obtain ⟨fuel, o⟩ := x
  cases o with
  | add j key =>
    simp only [upd?] at h
    split_ifs at h
    cases h
    exact places_insert fuel key
  | setBits j bits =>
    simp only [upd?] at h
    split_ifs at h
    cases h
    exact places_setBits bits
  | _ => cases h

theorem Places.marked (hupd : Places upd) {p : BloomPair τ}
    (ha : Bloomfilter.Alike p.learning p.detecting) {learning detecting : Bloomfilter}
    {resL resD : Bool} (hl : upd p.learning = .ok (learning, resL))
    (hd : upd p.detecting = .ok (detecting, resD)) :
    Marked p { p with learning, detecting } := by
  obtain ⟨digests, hcut, hlt⟩ := hupd
  rw [hcut.1] at hl hd
  obtain ⟨H, hH, hl⟩ := bind_ok hl
  obtain ⟨H', hH', hd⟩ := bind_ok hd
  obtain rfl : H = H' := Except.ok.inj (hH.symm.trans ((hcut.2 _ _ ha).trans hH'))
  exact ⟨H, learning, detecting, resL, resD, fun hs => hlt _ H hs hH, hl, hd, rfl⟩

theorem toOption_eq_some {ε α : Type} {y : Except ε α} {a : α} (h : y.toOption = some a) :
    y = .ok a := by
  cases y with
  | error e => cases h
  | ok b =>
    cases h
    rfl

theorem due_cases (hw : AllNested w) {q : BloomPair τ} (h : due T i w x = some q) :
    ∃ p, w i = some p ∧ Marked p q ∧ T.above p.threshold q.learning.numZeros = true := by
  obtain ⟨upd, hupd, h⟩ := Option.bind_eq_some_iff.1 h
  obtain ⟨p, hp, h⟩ := Option.bind_eq_some_iff.1 h
  obtain ⟨⟨learning, resL⟩, hl, h⟩ := Option.bind_eq_some_iff.1 h
  obtain ⟨⟨detecting, resD⟩, hd, h⟩ := Option.bind_eq_some_iff.1 h
  simp only at h
  split_ifs at h with habove
  cases h
  exact ⟨p, hp, (places_upd? hupd).marked (hw i p hp).alike (toOption_eq_some hl)
    (toOption_eq_some hd), habove⟩

/-- The pair at `i` after a call on it that marks it. -/
theorem update'_self (hw : AllNested w) (hfree : Free i w) (hupd : upd? i x = some upd)
    (h : update' T fuel i w upd = .ok (w', log, r)) :
    (∃ q, due T i w x = some q ∧ w' i = some (q.exchange T)) ∨
      ∃ p q, w i = some p ∧ Marked p q ∧ w' i = some q := by
  obtain ⟨p, learning, resL, detecting, resD, hp, hl, hd, h⟩ := update'_inv h
  split_ifs at h with habove
  · refine .inl ⟨{ p with learning, detecting }, ?_, ?_⟩
    · simp only [due, hupd, hp, hl, hd, Except.toOption, habove, Option.bind_eq_bind,
        Option.bind_some, if_true]
    · exact swap_self (hfree.update { p with learning, detecting } hp rfl)
        (Function.update_self ..) h
  · refine .inr ⟨p, _, hp, (places_upd? hupd).marked (hw i p hp).alike hl hd, ?_⟩
    rw [h, Function.update_self]

/-- The pair at `i` after any call. -/
theorem call_cases (hw : AllNested w) (hfree : Free i w) (h : call T w x = some w')
    {p' : BloomPair τ} (hp' : w' i = some p') :
    w i = some p' ∨ (∃ nhash shash slavePlace, new T nhash shash slavePlace = .ok p') ∨
      (∃ p, w i = some p ∧ p' = p.blank T) ∨ (∃ p, w i = some p ∧ Marked p p') ∨
      ∃ q, due T i w x = some q ∧ p' = q.exchange T := by
  obtain ⟨fuel, o⟩ := x
  obtain ⟨⟨w₁, log, r⟩, hexec, rfl⟩ := Option.map_eq_some_iff.1 h
  replace h := toOption_eq_some hexec
  have hupdate : ∀ {j upd}, (∀ e : j = i, upd? i (fuel, o) = some upd) →
      update' T fuel j w upd = .ok (w₁, log, r) →
      w i = some p' ∨ (∃ nhash shash slavePlace, new T nhash shash slavePlace = .ok p') ∨
      (∃ p, w i = some p ∧ p' = p.blank T) ∨ (∃ p, w i = some p ∧ Marked p p') ∨
      ∃ q, due T i w (fuel, o) = some q ∧ p' = q.exchange T := by
    intro j upd hupd h
    by_cases hji : j = i
    · subst hji
      rcases update'_self hw hfree (hupd rfl) h with ⟨q, hq, hi⟩ | ⟨p, q, hp, hm, hi⟩
      · exact .inr (.inr (.inr (.inr ⟨q, hq, Option.some.inj (hp'.symm.trans hi)⟩)))
      · obtain rfl := Option.some.inj (hp'.symm.trans hi)
        exact .inr (.inr (.inr (.inl ⟨p, hp, hm⟩)))
    · exact .inl ((update'_frame hfree hji h).symm.trans hp')
  cases o with
  | create j nhash shash slavePlace =>
    simp only [exec] at h
    split at h
    · cases h
      exact .inl hp'
    · obtain ⟨q, hq, h⟩ := bind_ok h
      cases h
      simp only at hp'
      by_cases hij : i = j
      · rw [hij, Function.update_self] at hp'
        cases hp'
        exact .inr (.inl ⟨nhash, shash, slavePlace, hq⟩)
      · rw [Function.update_of_ne hij] at hp'
        exact .inl hp'
  | add j key => exact hupdate (fun e => if_pos e) h
  | setBits j bits => exact hupdate (fun e => if_pos e) h
  | check j key =>
    obtain ⟨b, -, h⟩ := bind_ok h
    cases h
    exact .inl hp'
  | checkBits j bits =>
    obtain ⟨b, -, h⟩ := bind_ok h
    cases h
    exact .inl hp'
  | clear j =>
    obtain ⟨w₂, hclear, h⟩ := bind_ok h
    cases h
    unfold clear at hclear
    split at hclear
    · cases hclear
    · next p hp =>
      cases hclear
      simp only at hp'
      by_cases hij : i = j
      · subst hij
        rw [Function.update_self] at hp'
        cases hp'
        exact .inr (.inr (.inl ⟨p, hp, rfl⟩))
      · rw [Function.update_of_ne hij] at hp'
        exact .inl hp'

end Calls

/-! ## Who has a slave where -/

theorem kept_slavePlace {τ : Type} (T : Threshold τ) (i : ℕ) :
    Kept T fun _ p => Nested (τ := τ) p ∧ p.slavePlace ≠ some i where
  alike hp := hp.1.alike
  exchange hp := ⟨(kept_nested (T := T)).exchange (c := 0) hp.1, hp.2⟩
  mark hp hl hd := ⟨(kept_nested (T := T)).mark (c := 0) hp.1 hl hd, hp.2⟩

/-- A pair comes to a place with the slave it is made with. -/
theorem exec_slave {τ : Type} {T : Threshold τ} {fuel j : ℕ} {w w' : DetInstances τ}
    {log : List ℕ} {r : Bool} {o : Op} {p : BloomPair τ} (hw : AllNested w)
    (h : exec T fuel w o = .ok (w', log, r)) (hj : w j = none) (hj' : w' j = some p) :
    p.slavePlace = slave? o := by
  have halike : ∀ k q, w k = some q → Bloomfilter.Alike q.learning q.detecting :=
    fun k q hq => (hw k q hq).alike
  cases o with
  | create k nhash shash slavePlace =>
    simp only [exec] at h
    split at h
    · cases h
      rw [hj] at hj'
      cases hj'
    · obtain ⟨q, hq, h⟩ := bind_ok h
      cases h
      by_cases hjk : j = k
      · rw [hjk, Function.update_self] at hj'
        cases hj'
        obtain ⟨f, -, hq⟩ := bind_ok hq
        cases hq
        rfl
      · rw [Function.update_of_ne hjk, hj] at hj'
        cases hj'
  | add k key =>
    rw [update'_none (Bloomfilter.cuts_insert fuel key) (halike k) h hj] at hj'
    cases hj'
  | setBits k bits =>
    rw [update'_none (Bloomfilter.cuts_setBits bits) (halike k) h hj] at hj'
    cases hj'
  | check k key =>
    obtain ⟨b, -, h⟩ := bind_ok h
    cases h
    rw [hj] at hj'
    cases hj'
  | checkBits k bits =>
    obtain ⟨b, -, h⟩ := bind_ok h
    cases h
    rw [hj] at hj'
    cases hj'
  | clear k =>
    obtain ⟨w₁, hclear, h⟩ := bind_ok h
    cases h
    unfold clear at hclear
    split at hclear
    · cases hclear
    · next q hq =>
      cases hclear
      have hjk : j ≠ k := by
        rintro rfl
        rw [hj] at hq
        cases hq
      rw [Function.update_of_ne hjk, hj] at hj'
      cases hj'

theorem Free.call {τ : Type} {T : Threshold τ} {i : ℕ} {w w' : DetInstances τ} {x : ℕ × Op}
    (hfree : Free i w) (hw : AllNested w) (hx : slave? x.2 ≠ some i) (h : call T w x = some w') :
    AllNested w' ∧ Free i w' := by
  obtain ⟨⟨w₁, log, r⟩, hexec, rfl⟩ := Option.map_eq_some_iff.1 h
  replace h := toOption_eq_some hexec
  refine ⟨hw.exec h, fun j p' hp' => ?_⟩
  rcases hj : w j with _ | p
  · rw [exec_slave hw h hj hp']
    exact hx
  · obtain ⟨p'', hp'', hkept⟩ := (kept_slavePlace T i).exec (c := 0)
      (fun k q hq => (hw k q hq).alike) (fun _ c q hq => ⟨nested_blank hq.1, hq.2⟩) h hj
      ⟨hw j p hj, hfree j p hj⟩
    obtain rfl := Option.some.inj (hp'.symm.trans hp'')
    exact hkept.2

/-! ## The threshold -/

/-- What keeps a pair's threshold fair. -/
structure Adapts (p : BloomPair (Option ℚ)) : Prop where
  nested : Nested p
  learning : p.learning.Counted
  detecting : p.detecting.Counted
  m : p.m = 2 ^ p.learning.shash
  fair : Fair p

theorem Adapts.m_pos {p : BloomPair (Option ℚ)} (hp : Adapts p) : (0 : ℚ) < p.m := by
  rw [hp.m]
  exact_mod_cast Nat.two_pow_pos _

/-- The learning filter has fewer zeros than the threshold, the detecting filter no more. -/
theorem rescale_bounds {t m dd dl : ℚ} (hm : 0 < m) (hlow : (m / 2) ^ 2 < t) (hdl : dl ^ 2 < t)
    (hdd : 0 < dd) (hle : dd ≤ dl) :
    (m / 2) ^ 2 < t * m / (2 * dd) ∧ (t * m / (2 * dd) ≤ m ^ 2 ↔ t ≤ 2 * m * dd) := by
  have ht : 0 < t := lt_of_le_of_lt (sq_nonneg _) hlow
  have hdd2 : dd ^ 2 < t := lt_of_le_of_lt (by nlinarith) hdl
  have hprod : m * dd < 2 * t := by
    by_contra hnot
    nlinarith [mul_pos hm hdd, sq_nonneg (m * dd), mul_pos ht ht]
  constructor
  · rw [lt_div_iff₀ (by linarith)]
    nlinarith
  · rw [div_le_iff₀ (by linarith)]
    constructor
    · intro h
      nlinarith
    · intro h
      nlinarith

theorem initial_bounds {m : ℚ} (hm : 0 < m) : (m / 2) ^ 2 < m ^ 2 / 2 ∧ m ^ 2 / 2 ≤ m ^ 2 := by
  constructor <;> nlinarith

theorem adapts_new {nhash shash : ℕ} {slavePlace : Option ℕ} {p : BloomPair (Option ℚ)}
    (h : new squared nhash shash slavePlace = .ok p) : Adapts p := by
  have hnested := nested_new h
  obtain ⟨f, hf, h⟩ := bind_ok h
  cases h
  unfold Bloomfilter.new at hf
  split at hf
  case isFalse => cases hf
  next hshape =>
  cases hf
  have hcounted : Bloomfilter.Counted ⟨nhash, shash, true, fun _ => 0#8, 2 ^ shash,
      if shash < 3 then 1 else 2 ^ (shash - 3), 2 ^ shash⟩ :=
    ⟨hshape.2.2.1, rfl, fun p hp => by simp [Bloomfilter.Has] at hp, by simp [ones]⟩
  have hm : (0 : ℚ) < (2 ^ shash : ℕ) := by exact_mod_cast Nat.two_pow_pos shash
  exact ⟨hnested, hcounted, hcounted, rfl, _, rfl, initial_bounds hm⟩

theorem Adapts.blank {p : BloomPair (Option ℚ)} (hp : Adapts p) : Adapts (p.blank squared) where
  nested := nested_blank hp.nested
  learning := Bloomfilter.counted_clear hp.learning.shash hp.learning.mmax
  detecting := Bloomfilter.counted_clear hp.detecting.shash hp.detecting.mmax
  m := hp.m
  fair := ⟨_, rfl, initial_bounds hp.m_pos⟩

theorem Adapts.marked {p q : BloomPair (Option ℚ)} (hp : Adapts p) (h : Marked p q) :
    Adapts q := by
  obtain ⟨H, learning, detecting, resL, resD, hlt, hl, hd, rfl⟩ := h
  have hlt := hlt hp.learning.shash
  have hlt' : ∀ k, (H k).toNat < 2 ^ p.detecting.shash := by
    rw [← hp.nested.alike.shash]
    exact hlt
  refine ⟨(kept_nested (T := squared)).mark (c := 0) hp.nested hl hd, hp.learning.mark hlt hl,
    hp.detecting.mark hlt' hd, ?_, hp.fair⟩
  rw [← (Bloomfilter.mark_ok hl).1.shash]
  exact hp.m

/-- A swap divides by no zero and leaves a fair threshold if the detecting filter has zeros
enough. -/
theorem Adapts.exchange_iff {q : BloomPair (Option ℚ)} (hq : Adapts q)
    (habove : squared.above q.threshold q.learning.numZeros = true) :
    (q.detecting.numZeros ≠ 0 ∧ Fair (q.exchange squared)) ↔
      ∀ t ∈ q.threshold, t ≤ 2 * q.m * q.detecting.numZeros := by
  obtain ⟨t, ht, hlow, -⟩ := hq.fair
  have hm := hq.m_pos
  have hle : (q.detecting.numZeros : ℚ) ≤ q.learning.numZeros := by
    exact_mod_cast hq.learning.zeros_le hq.detecting hq.nested.alike hq.nested.subset
  have hdl : (q.learning.numZeros : ℚ) ^ 2 < t := by
    simpa [squared, ht] using habove
  simp only [ht, Option.mem_def, Option.some.injEq, forall_eq']
  by_cases hdd : q.detecting.numZeros = 0
  · simp only [hdd, ne_eq, not_true_eq_false, false_and, false_iff, Nat.cast_zero, mul_zero]
    have := lt_of_le_of_lt (sq_nonneg _) hlow
    linarith
  · have hpos : (0 : ℚ) < q.detecting.numZeros := by
      exact_mod_cast Nat.pos_of_ne_zero hdd
    obtain ⟨hlow', hiff⟩ := rescale_bounds hm hlow hdl hpos hle
    have hfair : Fair (q.exchange squared) ↔
        t * q.m / (2 * q.detecting.numZeros) ≤ (q.m : ℚ) ^ 2 := by
      simp only [Fair, exchange, squared, ht, hdd, if_false, Option.map_some, Option.some.injEq]
      constructor
      · rintro ⟨t', rfl, -, h⟩
        exact h
      · intro h
        exact ⟨_, rfl, hlow', h⟩
    rw [hfair, hiff]
    exact and_iff_right hdd

theorem Adapts.exchange {q : BloomPair (Option ℚ)} (hq : Adapts q)
    (hfair : Fair (q.exchange squared)) : Adapts (q.exchange squared) where
  nested := (kept_nested (T := squared)).exchange (c := 0) hq.nested
  learning := Bloomfilter.counted_clear hq.detecting.shash hq.detecting.mmax
  detecting := hq.learning
  m := hq.m.trans (congrArg (2 ^ ·) hq.nested.alike.shash)
  fair := hfair

/-! ## Runs -/

/-- What keeps the threshold of the pair at `i` fair, if it is nobody's slave. -/
structure Sound (i : ℕ) (w : DetInstances (Option ℚ)) : Prop where
  nested : AllNested w
  free : Free i w
  adapts : ∀ p, w i = some p → Adapts p

variable {i : ℕ} {w w' : DetInstances (Option ℚ)} {x : ℕ × Op}

theorem sound_noPairs : Sound i noPairs :=
  ⟨allNested_noPairs, fun _ _ h => (nomatch h), fun _ h => (nomatch h)⟩

theorem Sound.due (hw : Sound i w) {q : BloomPair (Option ℚ)} (hq : due squared i w x = some q) :
    Adapts q ∧ squared.above q.threshold q.learning.numZeros = true := by
  obtain ⟨p, hp, hm, habove⟩ := due_cases hw.nested hq
  obtain ⟨H, learning, detecting, resL, resD, -, -, -, rfl⟩ := id hm
  exact ⟨(hw.adapts p hp).marked hm, habove⟩

theorem Sound.call (hw : Sound i w) (hx : slave? x.2 ≠ some i) (he : Enough i w x)
    (h : call squared w x = some w') : Sound i w' := by
  obtain ⟨hnested, hfree⟩ := hw.free.call hw.nested hx h
  refine ⟨hnested, hfree, fun p' hp' => ?_⟩
  rcases call_cases hw.nested hw.free h hp' with
    hp | ⟨nhash, shash, slavePlace, hnew⟩ | ⟨p, hp, rfl⟩ | ⟨p, hp, hm⟩ | ⟨q, hq, rfl⟩
  · exact hw.adapts p' hp
  · exact adapts_new hnew
  · exact (hw.adapts p hp).blank
  · exact (hw.adapts p hp).marked hm
  · obtain ⟨hadapts, habove⟩ := hw.due hq
    exact hadapts.exchange ((hadapts.exchange_iff habove).2 (he q hq)).2

theorem Sound.meaningful_iff (hw : Sound i w) (hx : slave? x.2 ≠ some i) :
    Meaningful i w x ↔ Enough i w x := by
  constructor
  · intro h q hq
    obtain ⟨hadapts, habove⟩ := hw.due hq
    exact (hadapts.exchange_iff habove).1 (h.swapped q hq)
  · intro he
    refine ⟨fun q hq => ?_, fun w' p hcall hp => ?_⟩
    · obtain ⟨hadapts, habove⟩ := hw.due hq
      exact (hadapts.exchange_iff habove).2 (he q hq)
    · exact ((hw.call hx he hcall).adapts p hp).fair

/-- In every run of calls on the pairs of a process, the threshold of a pair that is nobody's slave
stays above half the filter and within it, and no swap divides by zero, exactly if every swap finds
the detecting filter with zeros enough. -/
theorem threshold_meaningful {ops : List (ℕ × Op)} (hops : ∀ x ∈ ops, slave? x.2 ≠ some i) :
    StepRun.Meets (call squared) (Meaningful i) noPairs ops ↔
      StepRun.Meets (call squared) (Enough i) noPairs ops :=
  StepRun.meets_iff (fun _ _ _ hw hx he h => hw.call hx he h)
    (fun _ _ hw hx => hw.meaningful_iff hx) ops hops sound_noPairs

/-- One bit of two is marked, and the pair swapped. -/
def halfFull : List (ℕ × Op) := [(0, .create 0 1 1 none), (1, .setBits 0 fun _ => 0)]

theorem threshold_meaningful_halfFull :
    StepRun.Meets (call squared) (Meaningful 0) noPairs halfFull :=
  (threshold_meaningful (by decide)).2 (by decide +kernel)

/-- The other bit is marked too: the detecting filter has no zeros left. -/
theorem threshold_not_meaningful : ¬ ∀ (i : ℕ) (ops : List (ℕ × Op)),
    (∀ x ∈ ops, slave? x.2 ≠ some i) →
    StepRun.Meets (call squared) (Meaningful i) noPairs ops := by
  intro hall
  have hm := hall 0 (halfFull ++ [(1, .setBits 0 fun _ => 1)]) (by decide)
  have hrun : (StepRun.run (call squared) noPairs halfFull).any (fun w =>
      (due squared 0 w (1, .setBits 0 fun _ => 1)).any fun q => q.detecting.numZeros = 0) := by
    decide +kernel
  obtain ⟨w, hw, hdue⟩ := (Option.any_eq_true _ _).1 hrun
  obtain ⟨q, hq, hzero⟩ := (Option.any_eq_true _ _).1 hdue
  exact (StepRun.meets_last hm hw).swapped q hq |>.1 (by simpa using hzero)

end BloomPair

end DStreamon
