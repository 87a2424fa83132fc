import DStreamon.Bloom

/-!
# What a Bloom filter holds

Marking a digest's bits adds exactly those, and reports whether one of them was new.  Filters of
one shape cut the same bits from an element, whatever turns the hashing takes.
-/

namespace DStreamon

theorem bind_ok {ε α β : Type} {x : Except ε α} {f : α → Except ε β} {b : β}
    (h : x >>= f = .ok b) : ∃ a, x = .ok a ∧ f a = .ok b := by
  cases x with
  | error e => cases h
  | ok a => exact ⟨a, rfl, h⟩

/-! ## `compute` and its fuel -/

theorem computeLoop_mono {nhash shash : ℕ} {norep : Bool} {key : List UInt8} {fuel fuel' : ℕ}
    {H : ℕ → UInt32} (hle : fuel ≤ fuel') {ptr k : ℕ} {msgdig res : ℕ → UInt32}
    (h : computeLoop nhash shash norep key fuel ptr k msgdig res = .ok H) :
    computeLoop nhash shash norep key fuel' ptr k msgdig res = .ok H := by
  induction fuel generalizing fuel' ptr k msgdig res with
  | zero =>
    unfold computeLoop at h ⊢
    split_ifs at h ⊢
    exact h
  | succ fuel ih =>
    obtain ⟨fuel', rfl⟩ : ∃ n, fuel' = n + 1 := ⟨fuel' - 1, by omega⟩
    unfold computeLoop at h ⊢
    by_cases hk : nhash < k
    · rw [if_pos hk] at h ⊢
      exact h
    · rw [if_neg hk] at h ⊢
      dsimp -zeta only at h ⊢
      extract_lets at h ⊢
      split at h
      · cases h
      · next hover =>
        rw [if_neg hover]
        exact ih (by omega) h

/-- The digests of an input do not depend on the fuel that was enough for them. -/
theorem compute_unique {fuel fuel' nhash shash : ℕ} {norep : Bool} {key : List UInt8}
    {H H' : ℕ → UInt32} (h : compute fuel nhash shash norep key = .ok H)
    (h' : compute fuel' nhash shash norep key = .ok H') : H = H' := by
  unfold compute at h h'
  split_ifs at h with hlen
  rw [if_neg hlen] at h'
  rcases Nat.le_total fuel fuel' with hle | hle
  · exact Except.ok.inj ((computeLoop_mono hle h).symm.trans h')
  · exact Except.ok.inj (h.symm.trans (computeLoop_mono hle h'))

namespace Bloomfilter

/-! ## The bits of a filter -/

/-- Bit `p` of the array is set. -/
def Has (f : Bloomfilter) (p : ℕ) : Prop := p / 8 < f.mmaxArr ∧ BitArray.test f.m p = true

/-- Every bit of the digests `H(1)` to `H(nhash)` is set. -/
def HasAll (f : Bloomfilter) (H : ℕ → UInt32) : Prop :=
  ∀ k, 1 ≤ k → k ≤ f.nhash → f.Has (H k).toNat

/-- Filters of one constructor call's arguments. -/
structure Alike (f g : Bloomfilter) : Prop where
  nhash : f.nhash = g.nhash
  shash : f.shash = g.shash
  norep : f.norep = g.norep
  mmaxArr : f.mmaxArr = g.mmaxArr

theorem Alike.symm {f g : Bloomfilter} (h : Alike f g) : Alike g f :=
  ⟨h.nhash.symm, h.shash.symm, h.norep.symm, h.mmaxArr.symm⟩

theorem Alike.trans {f g k : Bloomfilter} (h : Alike f g) (h' : Alike g k) : Alike f k :=
  ⟨h.nhash.trans h'.nhash, h.shash.trans h'.shash, h.norep.trans h'.norep,
    h.mmaxArr.trans h'.mmaxArr⟩

theorem alike_clear (f : Bloomfilter) : Alike f f.clear := ⟨rfl, rfl, rfl, rfl⟩

theorem not_has_clear (f : Bloomfilter) (p : ℕ) : ¬ f.clear.Has p := by
  rintro ⟨hp, h⟩
  have hp : p / 8 < f.mmaxArr := hp
  simp [clear, BitArray.test, hp] at h

/-! ## Marking -/

variable {mmaxArr : ℕ} {H : ℕ → UInt32}

theorem markLoop_ok :
    ∀ {n i : ℕ} {m m' : ℕ → BitVec 8} {e e' : ℕ},
      markLoop mmaxArr H n i m e = .ok (m', e') →
      (∀ k, i ≤ k → k < i + n → (H k).toNat / 8 < mmaxArr) ∧
      (∀ p, BitArray.test m' p = true ↔
        BitArray.test m p = true ∨ ∃ k, i ≤ k ∧ k < i + n ∧ p = (H k).toNat) ∧
      e ≤ e' ∧
      (e' = e ↔ ∀ k, i ≤ k → k < i + n → BitArray.test m (H k).toNat = true)
  | 0, i, m, m', e, e', h => by
    obtain ⟨rfl, rfl⟩ := Prod.mk.inj (Except.ok.inj h)
    refine ⟨fun k _ _ => by omega, fun p => ⟨.inl, ?_⟩, Nat.le_refl _, ?_⟩
    · rintro (hp | ⟨k, _, _, _⟩)
      · exact hp
      · omega
    · exact ⟨fun _ k _ _ => by omega, fun _ => rfl⟩
  | n + 1, i, m, m', e, e', h => by
    simp only [markLoop, BitArray.test_eq_false_iff] at h
    split_ifs at h with hb hset
    · obtain ⟨hlt, hbits, hle, hnew⟩ := markLoop_ok h
      simp only [BitArray.test_set, Bool.or_eq_true, decide_eq_true_eq] at hbits hnew
      refine ⟨fun k hk hkn => ?_, fun p => ?_, by omega, ?_⟩
      · rcases Nat.eq_or_lt_of_le hk with rfl | hk
        · exact hb
        · exact hlt k hk (by omega)
      · rw [hbits]
        constructor
        · rintro ((hp | rfl) | ⟨k, hk, hkn, rfl⟩)
          · exact .inl hp
          · exact .inr ⟨i, Nat.le_refl _, by omega, rfl⟩
          · exact .inr ⟨k, by omega, by omega, rfl⟩
        · rintro (hp | ⟨k, hk, hkn, rfl⟩)
          · exact .inl (.inl hp)
          · rcases Nat.eq_or_lt_of_le hk with rfl | hk
            · exact .inl (.inr rfl)
            · exact .inr ⟨k, hk, by omega, rfl⟩
      · refine ⟨fun he => by omega, fun hall => ?_⟩
        have := hall i (Nat.le_refl _) (by omega)
        rw [hset] at this
        cases this
    · obtain ⟨hlt, hbits, hle, hnew⟩ := markLoop_ok h
      have hset : BitArray.test m (H i).toNat = true := by simpa using hset
      refine ⟨fun k hk hkn => ?_, fun p => ?_, hle, ?_⟩
      · rcases Nat.eq_or_lt_of_le hk with rfl | hk
        · exact hb
        · exact hlt k hk (by omega)
      · rw [hbits]
        constructor
        · rintro (hp | ⟨k, hk, hkn, rfl⟩)
          · exact .inl hp
          · exact .inr ⟨k, by omega, by omega, rfl⟩
        · rintro (hp | ⟨k, hk, hkn, rfl⟩)
          · exact .inl hp
          · rcases Nat.eq_or_lt_of_le hk with rfl | hk
            · exact .inl hset
            · exact .inr ⟨k, hk, by omega, rfl⟩
      · rw [hnew]
        constructor
        · intro hall k hk hkn
          rcases Nat.eq_or_lt_of_le hk with rfl | hk
          · exact hset
          · exact hall k hk (by omega)
        · intro hall k hk hkn
          exact hall k (by omega) (by omega)

variable {f f' g g' : Bloomfilter} {r s : Bool}

/-- Marking sets the digest's bits and no others, and answers whether one of them was new. -/
theorem mark_ok (h : f.mark H = .ok (f', r)) :
    Alike f f' ∧
      (∀ p, f'.Has p ↔ f.Has p ∨ ∃ k, 1 ≤ k ∧ k ≤ f.nhash ∧ p = (H k).toNat) ∧
      (r = false ↔ f.HasAll H) := by
  obtain ⟨⟨m, extra⟩, hloop, h⟩ := bind_ok h
  obtain ⟨hlt, hbits, -, hnew⟩ := markLoop_ok hloop
  have hin : ∀ k, 1 ≤ k → k ≤ f.nhash → (H k).toNat / 8 < f.mmaxArr := fun k hk hkn =>
    hlt k hk (by omega)
  have hall : extra = 0 ↔ f.HasAll H := by
    rw [hnew]
    exact ⟨fun h k hk hkn => ⟨hin k hk hkn, h k hk (by omega)⟩,
      fun h k hk hkn => (h k hk (by omega)).2⟩
  simp only at h
  split_ifs at h with he
  · obtain ⟨rfl, rfl⟩ := Prod.mk.inj (Except.ok.inj h)
    refine ⟨⟨rfl, rfl, rfl, rfl⟩, fun p => ⟨.inl, ?_⟩, iff_of_true rfl (hall.1 he)⟩
    rintro (hp | ⟨k, hk, hkn, rfl⟩)
    · exact hp
    · exact hall.1 he k hk hkn
  · obtain ⟨rfl, rfl⟩ := Prod.mk.inj (Except.ok.inj h)
    refine ⟨⟨rfl, rfl, rfl, rfl⟩, fun p => ?_, iff_of_false (by simp) fun h => he (hall.2 h)⟩
    unfold Has
    simp only [hbits]
    constructor
    · rintro ⟨hp, hp' | ⟨k, hk, hkn, rfl⟩⟩
      · exact .inl ⟨hp, hp'⟩
      · exact .inr ⟨k, hk, by omega, rfl⟩
    · rintro (⟨hp, hp'⟩ | ⟨k, hk, hkn, rfl⟩)
      · exact ⟨hp, .inl hp'⟩
      · exact ⟨hin k hk hkn, .inr ⟨k, hk, by omega, rfl⟩⟩

theorem HasAll.congr (ha : Alike f g) (hsub : ∀ p, f.Has p → g.Has p) (h : f.HasAll H) :
    g.HasAll H :=
  fun k hk hkn => hsub _ (h k hk (ha.nhash ▸ hkn))

theorem hasAll_of_mark (h : f.mark H = .ok (f', r)) : f'.HasAll H := fun k hk hkn =>
  ((mark_ok h).2.1 _).2 (.inr ⟨k, hk, (mark_ok h).1.nhash ▸ hkn, rfl⟩)

theorem HasAll.mark {H' : ℕ → UInt32} (hall : f.HasAll H) (h : f.mark H' = .ok (f', r)) :
    f'.HasAll H :=
  hall.congr (mark_ok h).1 fun p hp => ((mark_ok h).2.1 p).2 (.inl hp)

/-- The same marks keep one filter's bits among another's. -/
theorem has_mark_mono (ha : Alike f g) (hsub : ∀ p, f.Has p → g.Has p)
    (hf : f.mark H = .ok (f', r)) (hg : g.mark H = .ok (g', s)) (p : ℕ) (hp : f'.Has p) :
    g'.Has p := by
  rw [(mark_ok hg).2.1]
  rcases ((mark_ok hf).2.1 p).1 hp with hp | ⟨k, hk, hkn, rfl⟩
  · exact .inl (hsub p hp)
  · exact .inr ⟨k, hk, ha.nhash ▸ hkn, rfl⟩

/-! ## Asking -/

theorem checkLoop_of_has :
    ∀ {n i : ℕ}, (∀ k, i ≤ k → k < i + n → f.Has (H k).toNat) → f.checkLoop H n i = .ok true
  | 0, _, _ => rfl
  | n + 1, i, h => by
    have hi := h i (Nat.le_refl _) (by omega)
    simp only [checkLoop, BitArray.test_eq_false_iff]
    rw [if_neg (not_not.2 hi.1), if_neg (by simp [hi.2])]
    exact checkLoop_of_has fun k hk hkn => h k (by omega) (by omega)

theorem HasAll.checkLoop (h : f.HasAll H) : f.checkLoop H f.nhash 1 = .ok true :=
  checkLoop_of_has fun k hk hkn => h k hk (by omega)

/-! ## Elements -/

/-- What an element puts into a filter: the digests cut from it by a filter of that shape. -/
def Cuts (digests : Bloomfilter → Except Fault (ℕ → UInt32))
    (upd : Bloomfilter → Except Fault (Bloomfilter × Bool)) : Prop :=
  (∀ f, upd f = do f.mark (← digests f)) ∧ ∀ f g, Alike f g → digests f = digests g

theorem cuts_insert (fuel : ℕ) (key : List UInt8) :
    Cuts (fun f => compute fuel f.nhash f.shash f.norep key) (Bloomfilter.insert fuel · key) :=
  ⟨fun _ => rfl, fun _ _ h => by simp only [h.nhash, h.shash, h.norep]⟩

theorem cuts_setBits (bits : ℕ → UInt32) :
    Cuts (fun f => split f.nhash f.shash f.norep bits) (Bloomfilter.setBits · bits) :=
  ⟨fun _ => rfl, fun _ _ h => by simp only [h.nhash, h.shash, h.norep]⟩

end Bloomfilter

end DStreamon
