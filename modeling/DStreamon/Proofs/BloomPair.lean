import DStreamon.Proofs.Bloom

/-!
# The two filters of a pair

A property of a pair that survives marking both filters with one digest, and the exchange of their
roles, survives every call on any pair: swaps forced through a `slavePlace` are exchanges too.
The learning filter's bits stay among the detecting filter's, and an element once inserted is
found until its pair has been swapped twice.
-/

namespace DStreamon

open Function (update)

namespace BloomPair

variable {τ : Type} {T : Threshold τ}

/-- Calls in order, each with the fuel it is given, and all the places they swap. -/
def runs (T : Threshold τ) :
    DetInstances τ → List (ℕ × Op) → Except Fault (DetInstances τ × List ℕ)
  | w, [] => .ok (w, [])
  | w, (fuel, o) :: os => do
    let (w, log, _) ← exec T fuel w o
    let (w, log') ← runs T w os
    .ok (w, log ++ log')

/-- No pair is there before the blocks are configured. -/
def noPairs : DetInstances τ := fun _ => none

/-! ## What every call keeps -/

/-- A property of a pair, by the number of its swaps so far, that marking and swapping keep. -/
structure Kept (T : Threshold τ) (P : ℕ → BloomPair τ → Prop) : Prop where
  alike : ∀ {c p}, P c p → Bloomfilter.Alike p.learning p.detecting
  exchange : ∀ {c p}, P c p → P (c + 1) (p.exchange T)
  mark : ∀ {c p H learning detecting resL resD}, P c p →
    p.learning.mark H = .ok (learning, resL) → p.detecting.mark H = .ok (detecting, resD) →
    P c { p with learning, detecting }

variable {P : ℕ → BloomPair τ → Prop}

/-- The pair at `i` after a call that swaps the places of `log`. -/
theorem Kept.swap (hP : Kept T P) {i : ℕ} :
    ∀ {fuel j c : ℕ} {w w' : DetInstances τ} {log : List ℕ} {p : BloomPair τ},
      swap T fuel j w = .ok (w', log) → w i = some p → P c p →
      ∃ p', w' i = some p' ∧ P (c + log.count i) p'
  | 0, j, c, w, w', log, p, h, _, _ => by cases h
  | fuel + 1, j, c, w, w', log, p, h, hi, hp => by
    simp only [BloomPair.swap] at h
    split at h
    · cases h
    · next q hq =>
      have hstep : ∃ p', update w j (some (q.exchange T)) i = some p' ∧
          P (c + if j = i then 1 else 0) p' := by
        by_cases hji : j = i
        · subst hji
          obtain rfl : q = p := Option.some.inj (hq.symm.trans hi)
          exact ⟨_, Function.update_self .., by simpa using hP.exchange hp⟩
        · exact ⟨p, by rw [Function.update_of_ne (Ne.symm hji), hi], by simpa [hji] using hp⟩
      obtain ⟨p', hi', hp'⟩ := hstep
      split at h
      · cases h
        exact ⟨p', hi', by simpa [List.count_cons] using hp'⟩
      · obtain ⟨⟨w'', log'⟩, hs, h⟩ := bind_ok h
        cases h
        obtain ⟨p'', hi'', hp''⟩ := hP.swap hs hi' hp'
        refine ⟨p'', hi'', ?_⟩
        rw [List.count_cons]
        simpa [Nat.add_assoc, Nat.add_comm, Nat.add_left_comm] using hp''

variable {digests : Bloomfilter → Except Fault (ℕ → UInt32)}
  {upd : Bloomfilter → Except Fault (Bloomfilter × Bool)} {fuel i j : ℕ}
  {w w' : DetInstances τ} {log : List ℕ} {r : Bool}

/-- What the update of a pair does before the swap that may be due. -/
theorem update'_cases (hcut : Bloomfilter.Cuts digests upd)
    (halike : ∀ p, w j = some p → Bloomfilter.Alike p.learning p.detecting)
    (h : update' T fuel j w upd = .ok (w', log, r)) :
    ∃ p H learning detecting resL, w j = some p ∧ digests p.detecting = .ok H ∧
      p.learning.mark H = .ok (learning, resL) ∧ p.detecting.mark H = .ok (detecting, r) ∧
      (swap T fuel j (update w j (some { p with learning, detecting })) = .ok (w', log) ∨
        w' = update w j (some { p with learning, detecting }) ∧ log = []) := by
  unfold update' at h
  split at h
  · cases h
  · next p hp =>
    obtain ⟨⟨learning, resL⟩, hl, h⟩ := bind_ok h
    obtain ⟨⟨detecting, resD⟩, hd, h⟩ := bind_ok h
    rw [hcut.1] at hl hd
    obtain ⟨H, hH, hl⟩ := bind_ok hl
    obtain ⟨H', hH', hd⟩ := bind_ok hd
    obtain rfl : H = H' :=
      Except.ok.inj (hH.symm.trans ((hcut.2 _ _ (halike p hp)).trans hH'))
    simp only at h
    split_ifs at h
    · obtain ⟨⟨w'', log'⟩, hs, h⟩ := bind_ok h
      cases h
      exact ⟨p, H, learning, detecting, resL, hp, hH', hl, hd, .inl hs⟩
    · cases h
      exact ⟨p, H, learning, detecting, resL, hp, hH', hl, hd, .inr ⟨rfl, rfl⟩⟩

theorem Kept.update' (hP : Kept T P) (hcut : Bloomfilter.Cuts digests upd)
    (halike : ∀ p, w j = some p → Bloomfilter.Alike p.learning p.detecting)
    (h : update' T fuel j w upd = .ok (w', log, r)) {c : ℕ} {p : BloomPair τ} (hi : w i = some p)
    (hp : P c p) : ∃ p', w' i = some p' ∧ P (c + log.count i) p' := by
  obtain ⟨q, H, learning, detecting, resL, hq, -, hl, hd, h⟩ := update'_cases hcut halike h
  have hstep : ∃ p', update w j (some { q with learning, detecting }) i = some p' ∧ P c p' := by
    by_cases hij : i = j
    · subst hij
      obtain rfl : q = p := Option.some.inj (hq.symm.trans hi)
      exact ⟨_, Function.update_self .., hP.mark hp hl hd⟩
    · exact ⟨p, by rw [Function.update_of_ne hij, hi], hp⟩
  obtain ⟨p', hi', hp'⟩ := hstep
  rcases h with h | ⟨rfl, rfl⟩
  · exact hP.swap h hi' hp'
  · exact ⟨p', hi', hp'⟩

theorem Kept.exec (hP : Kept T P) {o : Op}
    (halike : ∀ j p, w j = some p → Bloomfilter.Alike p.learning p.detecting)
    (hclear : o = .clear i → ∀ c p, P c p → P c (p.blank T))
    (h : exec T fuel w o = .ok (w', log, r)) {c : ℕ} {p : BloomPair τ} (hi : w i = some p)
    (hp : P c p) : ∃ p', w' i = some p' ∧ P (c + log.count i) p' := by
  cases o with
  | create j nhash shash slavePlace =>
    simp only [BloomPair.exec] at h
    split at h
    · cases h
      exact ⟨p, hi, hp⟩
    · next hj =>
      obtain ⟨q, -, h⟩ := bind_ok h
      cases h
      have hij : i ≠ j := fun e => by simp [e, hj] at hi
      exact ⟨p, by rw [Function.update_of_ne hij, hi], hp⟩
  | add j key => exact hP.update' (Bloomfilter.cuts_insert fuel key) (halike j) h hi hp
  | setBits j bits => exact hP.update' (Bloomfilter.cuts_setBits bits) (halike j) h hi hp
  | check j key =>
    obtain ⟨b, -, h⟩ := bind_ok h
    cases h
    exact ⟨p, hi, hp⟩
  | checkBits j bits =>
    obtain ⟨b, -, h⟩ := bind_ok h
    cases h
    exact ⟨p, hi, hp⟩
  | clear j =>
    obtain ⟨w₁, hw, h⟩ := bind_ok h
    cases h
    simp only [BloomPair.clear] at hw
    split at hw
    · cases hw
    · next q hq =>
      cases hw
      by_cases hij : i = j
      · subst hij
        obtain rfl : q = p := Option.some.inj (hq.symm.trans hi)
        exact ⟨_, Function.update_self .., hclear rfl c q hp⟩
      · exact ⟨p, by rw [Function.update_of_ne hij, hi], hp⟩

/-! ## Places and the pairs made there -/

theorem swap_none :
    ∀ {fuel j : ℕ} {w w' : DetInstances τ} {log : List ℕ},
      swap T fuel j w = .ok (w', log) → w i = none → w' i = none
  | 0, j, w, w', log, h, _ => by cases h
  | fuel + 1, j, w, w', log, h, hi => by
    simp only [BloomPair.swap] at h
    split at h
    · cases h
    · next q hq =>
      have hij : i ≠ j := fun e => by simp [e, hq] at hi
      have hi' : update w j (some (q.exchange T)) i = none := by
        rw [Function.update_of_ne hij, hi]
      split at h
      · cases h
        exact hi'
      · obtain ⟨⟨w'', log'⟩, hs, h⟩ := bind_ok h
        cases h
        exact swap_none hs hi'

theorem update'_none (hcut : Bloomfilter.Cuts digests upd)
    (halike : ∀ p, w j = some p → Bloomfilter.Alike p.learning p.detecting)
    (h : BloomPair.update' T fuel j w upd = .ok (w', log, r)) (hi : w i = none) :
    w' i = none := by
  obtain ⟨q, H, learning, detecting, resL, hq, -, -, -, h⟩ := update'_cases hcut halike h
  have hij : i ≠ j := fun e => by simp [e, hq] at hi
  rcases h with h | ⟨rfl, rfl⟩
  · exact swap_none h (by rw [Function.update_of_ne hij, hi])
  · rw [Function.update_of_ne hij, hi]

/-- A pair comes to a place by its constructor only. -/
theorem exec_new {o : Op}
    (halike : ∀ j p, w j = some p → Bloomfilter.Alike p.learning p.detecting)
    (h : exec T fuel w o = .ok (w', log, r)) {p : BloomPair τ} (hi : w i = none)
    (hi' : w' i = some p) : ∃ nhash shash slavePlace, new T nhash shash slavePlace = .ok p := by
  cases o with
  | create j nhash shash slavePlace =>
    simp only [BloomPair.exec] at h
    split at h
    · cases h
      simp [hi] at hi'
    · obtain ⟨q, hq, h⟩ := bind_ok h
      cases h
      by_cases hij : i = j
      · subst hij
        rw [Function.update_self] at hi'
        exact ⟨nhash, shash, slavePlace, Option.some.inj hi' ▸ hq⟩
      · rw [Function.update_of_ne hij, hi] at hi'
        cases hi'
  | add j key =>
    rw [update'_none (Bloomfilter.cuts_insert fuel key) (halike j) h hi] at hi'
    cases hi'
  | setBits j bits =>
    rw [update'_none (Bloomfilter.cuts_setBits bits) (halike j) h hi] at hi'
    cases hi'
  | check j key =>
    obtain ⟨b, -, h⟩ := bind_ok h
    cases h
    simp [hi] at hi'
  | checkBits j bits =>
    obtain ⟨b, -, h⟩ := bind_ok h
    cases h
    simp [hi] at hi'
  | clear j =>
    obtain ⟨w₁, hw, h⟩ := bind_ok h
    cases h
    simp only [BloomPair.clear] at hw
    split at hw
    · cases hw
    · next q hq =>
      cases hw
      have hij : i ≠ j := fun e => by simp [e, hq] at hi
      rw [Function.update_of_ne hij, hi] at hi'
      cases hi'

/-! ## The learning filter's bits are among the detecting filter's -/

/-- The bits of the learning filter are among those of the detecting filter, which has its
shape. -/
structure Nested (p : BloomPair τ) : Prop where
  alike : Bloomfilter.Alike p.learning p.detecting
  subset : ∀ b, p.learning.Has b → p.detecting.Has b

theorem kept_nested : Kept T fun _ => Nested (τ := τ) where
  alike hp := hp.alike
  exchange {_ p} hp :=
    ⟨(Bloomfilter.alike_clear _).symm.trans hp.alike.symm,
      fun b hb => (p.detecting.not_has_clear b hb).elim⟩
  mark hp hl hd :=
    ⟨(Bloomfilter.mark_ok hl).1.symm.trans (hp.alike.trans (Bloomfilter.mark_ok hd).1),
      Bloomfilter.has_mark_mono hp.alike hp.subset hl hd⟩

theorem nested_blank {p : BloomPair τ} (hp : Nested p) : Nested (p.blank T) :=
  ⟨(Bloomfilter.alike_clear _).symm.trans (hp.alike.trans (Bloomfilter.alike_clear _)),
    fun b hb => (p.learning.not_has_clear b hb).elim⟩

theorem nested_new {nhash shash : ℕ} {slavePlace : Option ℕ} {p : BloomPair τ}
    (h : new T nhash shash slavePlace = .ok p) : Nested p := by
  obtain ⟨f, -, h⟩ := bind_ok h
  cases h
  exact ⟨⟨rfl, rfl, rfl, rfl⟩, fun _ hb => hb⟩

/-- Every pair of a process is nested. -/
def AllNested (w : DetInstances τ) : Prop := ∀ i p, w i = some p → Nested p

theorem AllNested.exec {o : Op} (hw : AllNested w) (h : exec T fuel w o = .ok (w', log, r)) :
    AllNested w' := by
  intro i p hi'
  have halike := fun j p hj => (hw j p hj).alike
  cases hi : w i with
  | none =>
    obtain ⟨nhash, shash, slavePlace, hnew⟩ := exec_new halike h hi hi'
    exact nested_new hnew
  | some q =>
    obtain ⟨q', hq', hq⟩ := kept_nested.exec halike
      (fun _ _ _ => nested_blank) h (c := 0) hi (hw i q hi)
    exact Option.some.inj (hq'.symm.trans hi') ▸ hq

theorem AllNested.runs :
    ∀ {ops : List (ℕ × Op)} {w w' : DetInstances τ} {log : List ℕ},
      AllNested w → runs T w ops = .ok (w', log) → AllNested w'
  | [], w, w', log, hw, h => by
    cases h
    exact hw
  | (fuel, o) :: os, w, w', log, hw, h => by
    obtain ⟨⟨w₁, log₁, r⟩, ho, h⟩ := bind_ok h
    obtain ⟨⟨w₂, log₂⟩, hos, h⟩ := bind_ok h
    cases h
    exact (hw.exec ho).runs hos

theorem allNested_noPairs : AllNested (noPairs (τ := τ)) := fun _ _ h => by cases h

/-! ### The assert -/

/-- A computation that does not fail the assert on the two filters' answers. -/
def Asserted {α : Type} (x : Except Fault α) : Prop := x ≠ .error .detectingOnly

theorem Asserted.bind {α β : Type} {x : Except Fault α} {f : α → Except Fault β}
    (hx : Asserted x) (hf : ∀ a, x = .ok a → Asserted (f a)) : Asserted (x >>= f) := by
  cases x with
  | error e => exact fun h => hx (congrArg Except.error (Except.error.inj h))
  | ok a => exact hf a rfl

theorem asserted_ok {α : Type} (a : α) : Asserted (.ok a) := fun h => by cases h

theorem asserted_computeLoop {nhash shash : ℕ} {norep : Bool} {key : List UInt8} {fuel ptr k : ℕ}
    {msgdig res : ℕ → UInt32} :
    Asserted (computeLoop nhash shash norep key fuel ptr k msgdig res) := by
  induction fuel generalizing ptr k msgdig res with
  | zero =>
    unfold computeLoop
    split_ifs
    · exact asserted_ok _
    · exact fun h => by cases h
  | succ fuel ih =>
    unfold computeLoop
    split_ifs
    · exact asserted_ok _
    · dsimp -zeta only
      extract_lets
      split_ifs
      · exact fun h => by cases h
      · exact ih

theorem asserted_compute {nhash shash : ℕ} {norep : Bool} {key : List UInt8} :
    Asserted (compute fuel nhash shash norep key) := by
  unfold compute
  split_ifs
  · exact fun h => by cases h
  · exact asserted_computeLoop

theorem asserted_splitLoop {nhash shash : ℕ} {norep : Bool} {fuel ptr k : ℕ}
    {msgdig res : ℕ → UInt32} :
    Asserted (splitLoop nhash shash norep msgdig fuel ptr k res) := by
  induction fuel generalizing ptr k res with
  | zero =>
    unfold splitLoop
    by_cases hk : nhash < k
    · exact (if_pos hk).symm ▸ asserted_ok _
    · exact (if_neg hk).symm ▸ fun h => by cases h
  | succ fuel ih =>
    unfold splitLoop
    by_cases hk : nhash < k
    · exact (if_pos hk).symm ▸ asserted_ok _
    · rw [if_neg hk]
      dsimp only
      by_cases hover : hashBits < ptr + shash
      · exact (if_pos hover).symm ▸ fun h => by cases h
      · exact (if_neg hover).symm ▸ ih

theorem asserted_markLoop {mmaxArr : ℕ} {H : ℕ → UInt32} :
    ∀ {n i : ℕ} {m : ℕ → BitVec 8} {e : ℕ},
      Asserted (Bloomfilter.markLoop mmaxArr H n i m e)
  | 0, _, _, _ => asserted_ok _
  | n + 1, i, m, e => by
    simp only [Bloomfilter.markLoop]
    split_ifs
    · exact asserted_markLoop
    · exact asserted_markLoop
    · exact fun h => by cases h

theorem asserted_mark {f : Bloomfilter} {H : ℕ → UInt32} : Asserted (f.mark H) := by
  refine Asserted.bind asserted_markLoop fun ⟨m, extraOnes⟩ _ => ?_
  simp only
  split_ifs
  · exact asserted_ok _
  · exact asserted_ok _

theorem asserted_checkLoop {f : Bloomfilter} {H : ℕ → UInt32} :
    ∀ {n i : ℕ}, Asserted (f.checkLoop H n i)
  | 0, _ => asserted_ok _
  | n + 1, i => by
    simp only [Bloomfilter.checkLoop]
    split_ifs
    · exact asserted_ok _
    · exact asserted_checkLoop
    · exact fun h => by cases h

theorem asserted_swap : ∀ {fuel j : ℕ} {w : DetInstances τ}, Asserted (swap T fuel j w)
  | 0, _, _ => fun h => by cases h
  | fuel + 1, j, w => by
    simp only [BloomPair.swap]
    split
    · exact fun h => by cases h
    · split
      · exact asserted_ok _
      · exact asserted_swap.bind fun a _ => asserted_ok _

/-- A new bit in the detecting filter is new in the learning filter too. -/
theorem asserted_update' (hcut : Bloomfilter.Cuts digests upd)
    (hdig : ∀ f, Asserted (digests f)) (hw : AllNested w) :
    Asserted (BloomPair.update' T fuel j w upd) := by
  have hupd : ∀ f, Asserted (upd f) := fun f => by
    rw [hcut.1]
    exact (hdig f).bind fun H _ => asserted_mark
  unfold BloomPair.update'
  split
  · exact fun h => by cases h
  · next p hp =>
    have hn := hw j p hp
    refine (hupd _).bind fun ⟨learning, resL⟩ hl => (hupd _).bind fun ⟨detecting, resD⟩ hd => ?_
    rw [hcut.1] at hl hd
    obtain ⟨H, hH, hl⟩ := bind_ok hl
    obtain ⟨H', hH', hd⟩ := bind_ok hd
    obtain rfl : H = H' := Except.ok.inj (hH.symm.trans ((hcut.2 _ _ hn.alike).trans hH'))
    simp only
    split_ifs with hres
    · have hall := (Bloomfilter.mark_ok hl).2.2.1 hres.2
      have := (Bloomfilter.mark_ok hd).2.2.2 (hall.congr hn.alike hn.subset)
      simp [this] at hres
    · exact asserted_swap.bind fun a _ => asserted_ok _
    · exact asserted_ok _

theorem AllNested.asserted_exec (hw : AllNested w) (o : Op) :
    Asserted (BloomPair.exec T fuel w o) := by
  cases o with
  | create j nhash shash slavePlace =>
    simp only [BloomPair.exec]
    split
    · exact asserted_ok _
    · refine Asserted.bind (Asserted.bind ?_ fun f _ => asserted_ok _) fun p _ => asserted_ok _
      unfold Bloomfilter.new
      split
      · exact asserted_ok _
      · exact fun h => by cases h
  | add j key =>
    exact asserted_update' (Bloomfilter.cuts_insert fuel key) (fun _ => asserted_compute) hw
  | setBits j bits =>
    exact asserted_update' (Bloomfilter.cuts_setBits bits) (fun _ => asserted_splitLoop) hw
  | check j key =>
    refine Asserted.bind ?_ fun b _ => asserted_ok _
    unfold BloomPair.check
    split
    · exact fun h => by cases h
    · exact asserted_compute.bind fun H _ => asserted_checkLoop
  | checkBits j bits =>
    refine Asserted.bind ?_ fun b _ => asserted_ok _
    unfold BloomPair.checkBits
    split
    · exact fun h => by cases h
    · exact Asserted.bind asserted_splitLoop fun H _ => asserted_checkLoop
  | clear j =>
    refine Asserted.bind ?_ fun b _ => asserted_ok _
    unfold BloomPair.clear
    split
    · exact fun h => by cases h
    · exact asserted_ok _

/-- Whatever the calls, the learning filter's bits are among the detecting filter's, and no call
fails the assert that both answers a new element alike. -/
theorem learning_among_detecting (T : Threshold τ) (ops : List (ℕ × Op)) {w : DetInstances τ}
    {log : List ℕ} (h : BloomPair.runs T noPairs ops = .ok (w, log)) :
    (∀ i p, w i = some p → ∀ b, p.learning.Has b → p.detecting.Has b) ∧
      ∀ fuel o, exec T fuel w o ≠ .error .detectingOnly := by
  have hw := allNested_noPairs.runs h
  exact ⟨fun i p hp => (hw i p hp).subset, fun fuel o => hw.asserted_exec o⟩

/-- The thresholds in units of `1/10000`. -/
def fixedPoint : Threshold ℕ where
  initial m := 7071 * m
  rescale threshold m dd := threshold * (m * 10 ^ 8 / 2 / dd).sqrt / 10 ^ 4
  above threshold numZeros := decide (10000 * numZeros < threshold)

/-- A pair of 16 bits, and four keys put into it. -/
def fourKeys : List (ℕ × Op) :=
  (0, .create 0 2 4 none) :: [40, 41, 42, 43].map fun host =>
    (1, .setBits 0 fun i => (bufferHash [192, 168, 3, host]).value (i + 1))

/-- The pair is swapped at the third key. -/
theorem learning_among_detecting_swap : ∃ w, BloomPair.runs fixedPoint noPairs fourKeys =
    .ok (w, [0]) ∧ (∀ i p, w i = some p → ∀ b, p.learning.Has b → p.detecting.Has b) ∧
      ∀ fuel o, exec fixedPoint fuel w o ≠ .error .detectingOnly := by
  have hswap : (BloomPair.runs fixedPoint noPairs fourKeys).toOption.map Prod.snd = some [0] := by
    decide +kernel
  cases hruns : BloomPair.runs fixedPoint noPairs fourKeys with
  | error e => rw [hruns] at hswap; cases hswap
  | ok wl =>
    obtain ⟨w, log⟩ := wl
    rw [hruns] at hswap
    obtain rfl : log = [0] := Option.some.inj hswap
    exact ⟨w, rfl, learning_among_detecting fixedPoint fourKeys hruns⟩

/-! ## A generation -/

/-- The call that inserts an element into the pair at a place, and the one that asks for it. -/
inductive Asks : ℕ → Op → Op → Prop where
  | key {i : ℕ} (key : List UInt8) : Asks i (.add i key) (.check i key)
  | bits {i : ℕ} (bits : ℕ → UInt32) : Asks i (.setBits i bits) (.checkBits i bits)

/-- `c` swaps after its insertion a digest is in the learning filter if `c < 1` and in the
detecting filter if `c < 2`. -/
structure Remembers (f : Bloomfilter) (H : ℕ → UInt32) (c : ℕ) (p : BloomPair τ) : Prop where
  shape : Bloomfilter.Alike f p.detecting
  alike : Bloomfilter.Alike p.learning p.detecting
  learning : c < 1 → p.learning.HasAll H
  detecting : c < 2 → p.detecting.HasAll H

section Query

variable {f : Bloomfilter} {H : ℕ → UInt32} {c : ℕ} {p : BloomPair τ}

theorem Remembers.checkBits (hp : Remembers f H c p) (hi : w i = some p)
    (hall : p.detecting.HasAll H) {bits : ℕ → UInt32}
    (hH : split f.nhash f.shash f.norep bits = .ok H) :
    BloomPair.checkBits i w bits = .ok true := by
  rw [hp.shape.nhash, hp.shape.shash, hp.shape.norep] at hH
  simp only [BloomPair.checkBits, hi, Bloomfilter.checkBits, hH]
  exact hall.checkLoop

theorem Remembers.check (hp : Remembers f H c p) (hi : w i = some p)
    (hall : p.detecting.HasAll H) {key : List UInt8}
    (hH : compute fuel f.nhash f.shash f.norep key = .ok H) :
    BloomPair.check fuel i w key = .ok true := by
  rw [hp.shape.nhash, hp.shape.shash, hp.shape.norep] at hH
  simp only [BloomPair.check, hi, Bloomfilter.check, hH]
  exact hall.checkLoop

theorem Remembers.check_unique (hp : Remembers f H c p) (hi : w i = some p)
    (hall : p.detecting.HasAll H) {key : List UInt8}
    (hH : compute fuel f.nhash f.shash f.norep key = .ok H) {fuel' : ℕ} {b : Bool}
    (hb : BloomPair.check fuel' i w key = .ok b) : b = true := by
  rw [hp.shape.nhash, hp.shape.shash, hp.shape.norep] at hH
  simp only [BloomPair.check, hi, Bloomfilter.check] at hb
  obtain ⟨H', hH', hb⟩ := bind_ok hb
  rw [compute_unique hH' hH, hall.checkLoop] at hb
  exact (Except.ok.inj hb).symm

end Query

theorem kept_remembers (f : Bloomfilter) (H : ℕ → UInt32) :
    Kept T (Remembers (τ := τ) f H) where
  alike hp := hp.alike
  exchange {_ p} hp :=
    ⟨hp.shape.trans hp.alike.symm, (Bloomfilter.alike_clear _).symm.trans hp.alike.symm,
      fun h => by omega, fun h => hp.learning (by omega)⟩
  mark hp hl hd :=
    ⟨hp.shape.trans (Bloomfilter.mark_ok hd).1,
      (Bloomfilter.mark_ok hl).1.symm.trans (hp.alike.trans (Bloomfilter.mark_ok hd).1),
      fun h => (hp.learning h).mark hl, fun h => (hp.detecting h).mark hd⟩

theorem Kept.runs (hP : Kept T P) {i : ℕ} :
    ∀ {ops : List (ℕ × Op)} {w w' : DetInstances τ} {log : List ℕ},
      AllNested w → (∀ o ∈ ops, o.2 ≠ .clear i) → BloomPair.runs T w ops = .ok (w', log) →
      ∀ {c : ℕ} {p : BloomPair τ}, w i = some p → P c p →
      ∃ p', w' i = some p' ∧ P (c + log.count i) p'
  | [], w, w', log, _, _, h, c, p, hi, hp => by
    cases h
    exact ⟨p, hi, hp⟩
  | (fuel, o) :: os, w, w', log, hw, hclear, h, c, p, hi, hp => by
    obtain ⟨⟨w₁, log₁, r⟩, ho, h⟩ := bind_ok h
    obtain ⟨⟨w₂, log₂⟩, hos, h⟩ := bind_ok h
    cases h
    obtain ⟨p₁, hi₁, hp₁⟩ := hP.exec (fun j p hj => (hw j p hj).alike)
      (fun e => absurd e (hclear _ List.mem_cons_self)) ho hi hp
    obtain ⟨p₂, hi₂, hp₂⟩ := Kept.runs hP (hw.exec ho)
      (fun o' ho' => hclear o' (List.mem_cons_of_mem _ ho')) hos hi₁ hp₁
    exact ⟨p₂, hi₂, by rw [List.count_append, ← Nat.add_assoc]; exact hp₂⟩

/-- An insertion leaves the digest in the pair, in both filters unless it swapped them. -/
theorem update'_remembers (hcut : Bloomfilter.Cuts digests upd) (hw : AllNested w)
    (h : BloomPair.update' T fuel i w upd = .ok (w', log, r)) :
    ∃ f H p, digests f = .ok H ∧ w' i = some p ∧ Remembers f H (log.count i) p := by
  obtain ⟨q, H, learning, detecting, resL, hq, hH, hl, hd, h⟩ :=
    update'_cases hcut (fun p hp => (hw i p hp).alike) h
  have hd' := Bloomfilter.mark_ok hd
  have hp : Remembers q.detecting H 0 { q with learning, detecting } :=
    ⟨hd'.1, (Bloomfilter.mark_ok hl).1.symm.trans ((hw i q hq).alike.trans hd'.1),
      fun _ => Bloomfilter.hasAll_of_mark hl, fun _ => Bloomfilter.hasAll_of_mark hd⟩
  rcases h with h | ⟨rfl, rfl⟩
  · obtain ⟨p, hi, hp⟩ :=
      (kept_remembers q.detecting H).swap h (Function.update_self ..) hp
    exact ⟨q.detecting, H, p, hH, hi, by simpa using hp⟩
  · exact ⟨q.detecting, H, _, hH, Function.update_self .., hp⟩

/-- An element inserted is found until its pair has been swapped twice, the swap its own insertion
may call for and those forced on the pair included. -/
theorem remembered_for_a_generation (T : Threshold τ) (before after : List (ℕ × Op))
    {w₀ w₁ w₂ : DetInstances τ} {log₀ log₁ log₂ : List ℕ} {fuel i : ℕ} {insertion query : Op}
    {r : Bool} (hasks : Asks i insertion query)
    (hbefore : BloomPair.runs T noPairs before = .ok (w₀, log₀))
    (hins : exec T fuel w₀ insertion = .ok (w₁, log₁, r))
    (hafter : BloomPair.runs T w₁ after = .ok (w₂, log₂))
    (hclear : ∀ o ∈ after, o.2 ≠ .clear i) (hswaps : (log₁ ++ log₂).count i < 2) :
    (∃ fuel', exec T fuel' w₂ query = .ok (w₂, [], true)) ∧
      ∀ fuel' a, exec T fuel' w₂ query = .ok a → a = (w₂, [], true) := by
  have hw₀ := allNested_noPairs.runs hbefore
  have hw₁ := hw₀.exec hins
  rw [List.count_append] at hswaps
  cases hasks with
  | key key =>
    obtain ⟨f, H, p, hH, hi, hp⟩ := update'_remembers (Bloomfilter.cuts_insert fuel key) hw₀ hins
    obtain ⟨p₂, hi₂, hp₂⟩ := (kept_remembers f H).runs hw₁ hclear hafter hi hp
    have hq := hp₂.check hi₂ (hp₂.detecting hswaps) hH
    refine ⟨⟨fuel, congrArg (· >>= fun b => Except.ok (w₂, [], b)) hq⟩, fun fuel' a ha => ?_⟩
    obtain ⟨b, hb, ha⟩ := bind_ok ha
    obtain rfl := hp₂.check_unique hi₂ (hp₂.detecting hswaps) hH hb
    exact (Except.ok.inj ha).symm
  | bits bits =>
    obtain ⟨f, H, p, hH, hi, hp⟩ := update'_remembers (Bloomfilter.cuts_setBits bits) hw₀ hins
    obtain ⟨p₂, hi₂, hp₂⟩ := (kept_remembers f H).runs hw₁ hclear hafter hi hp
    have hq := hp₂.checkBits hi₂ (hp₂.detecting hswaps) hH
    have hexec : ∀ fuel', exec T fuel' w₂ (.checkBits i bits) = .ok (w₂, [], true) := fun fuel' =>
      congrArg (· >>= fun b => Except.ok (w₂, [], b)) hq
    exact ⟨⟨fuel, hexec fuel⟩, fun fuel' a ha => Except.ok.inj (ha.symm.trans (hexec fuel'))⟩

/-- The only bit of a two-bit filter's digest: its insertion swaps the pair. -/
theorem remembered_for_a_generation_swapped :
    ∃ w₀ w₁ log₁ r w₂ log₂,
      BloomPair.runs fixedPoint noPairs [(0, .create 0 1 1 none)] = .ok (w₀, []) ∧
      exec fixedPoint 1 w₀ (.setBits 0 fun _ => 1) = .ok (w₁, log₁, r) ∧
      BloomPair.runs fixedPoint w₁ [(0, .checkBits 0 fun _ => 0)] = .ok (w₂, log₂) ∧
      log₁ ++ log₂ = [0] ∧
      (∃ fuel', exec fixedPoint fuel' w₂ (.checkBits 0 fun _ => 1) = .ok (w₂, [], true)) ∧
      ∀ fuel' a, exec fixedPoint fuel' w₂ (.checkBits 0 fun _ => 1) = .ok a →
        a = (w₂, [], true) := by
  obtain ⟨w₀, w₁, log₁, r, w₂, log₂, hbefore, hins, hafter, hlog⟩ :
      ∃ w₀ w₁ log₁ r w₂ log₂,
        BloomPair.runs fixedPoint noPairs [(0, .create 0 1 1 none)] = .ok (w₀, []) ∧
        exec fixedPoint 1 w₀ (.setBits 0 fun _ => 1) = .ok (w₁, log₁, r) ∧
        BloomPair.runs fixedPoint w₁ [(0, .checkBits 0 fun _ => 0)] = .ok (w₂, log₂) ∧
        log₁ ++ log₂ = [0] :=
    ⟨_, _, _, _, _, _, rfl, rfl, rfl, rfl⟩
  exact ⟨w₀, w₁, log₁, r, w₂, log₂, hbefore, hins, hafter, hlog,
    remembered_for_a_generation fixedPoint _ _ (.bits _) hbefore hins hafter (by simp)
      (by rw [hlog]; decide)⟩

end BloomPair

end DStreamon
