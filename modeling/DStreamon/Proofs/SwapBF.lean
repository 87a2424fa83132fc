import DStreamon.Proofs.SubDigests
import DStreamon.SwapBF

/-!
# What `SwapBF` and `BLOOMFILTER` remember

A `SwapBF` never clears the filter it answers from in the insertion that finds the key there, since
the other filter was below the fill before.
-/

namespace DStreamon

namespace BLOOMFILTER

variable {f f' : BLOOMFILTER} {H : ℕ → ℕ} {n i : ℕ} {b b' : ℕ → Bool}

theorem insertLoop_some : ∀ {n i : ℕ} {b : ℕ → Bool}, insertLoop f H n i b = some b' →
    ∀ p, (b p = true → b' p = true) ∧
      ∀ j, i ≤ j → j < i + n → f.pos H j < f.size ∧ (f.pos H j = p → b' p = true)
  | 0, i, b, hloop, p => by
    obtain rfl := Option.some.inj hloop
    exact ⟨id, fun j _ _ => by omega⟩
  | n + 1, i, b, hloop, p => by
    rw [insertLoop] at hloop
    split at hloop
    · next hlt =>
      obtain ⟨hkeep, hset⟩ := insertLoop_some hloop p
      have hmark : Function.update b (f.pos H i) true p = true ↔ f.pos H i = p ∨ b p = true := by
        by_cases hp : p = f.pos H i
        · simp [hp]
        · simp [hp, Ne.symm hp]
      refine ⟨fun hb => hkeep (hmark.2 (.inr hb)), fun j hj hjn => ?_⟩
      rcases Nat.eq_or_lt_of_le hj with rfl | hj
      · exact ⟨hlt, fun hp => hkeep (hmark.2 (.inl hp))⟩
      · exact hset j hj (by omega)
    · cases hloop

theorem insertLoop_run : ∀ {n i : ℕ} {b : ℕ → Bool}, (∀ j, i ≤ j → j < i + n → f.pos H j < f.size) →
    ∃ b', insertLoop f H n i b = some b'
  | 0, _, b, _ => ⟨b, rfl⟩
  | n + 1, i, b, hlt => by
    rw [insertLoop, if_pos (hlt i (Nat.le_refl i) (by omega))]
    exact insertLoop_run fun j hj hjn => hlt j (by omega) (by omega)

theorem presentLoop_true : ∀ {n i : ℕ}, (∀ j, i ≤ j → j < i + n → f.pos H j < f.size) →
    (∀ j, i ≤ j → j < i + n → f.bitset (f.pos H j) = true) → presentLoop f H n i = some true
  | 0, _, _, _ => rfl
  | n + 1, i, hlt, hset => by
    rw [presentLoop, if_pos (hlt i (Nat.le_refl i) (by omega)),
      if_pos (hset i (Nat.le_refl i) (by omega))]
    exact presentLoop_true (fun j hj hjn => hlt j (by omega) (by omega))
      fun j hj hjn => hset j (by omega) (by omega)

theorem presentLoop_run : ∀ {n i : ℕ}, (∀ j, i ≤ j → j < i + n → f.pos H j < f.size) →
    ∃ present, presentLoop f H n i = some present
  | 0, _, _ => ⟨true, rfl⟩
  | n + 1, i, hlt => by
    rw [presentLoop, if_pos (hlt i (Nat.le_refl i) (by omega))]
    split
    · exact presentLoop_run fun j hj hjn => hlt j (by omega) (by omega)
    · exact ⟨false, rfl⟩

/-- The digests of a key have all their bits in the filter, and set. -/
structure Has (f : BLOOMFILTER) (H : ℕ → ℕ) : Prop where
  inside : ∀ i < f.nhash, f.pos H i < f.size
  marked : ∀ i < f.nhash, f.bitset (f.pos H i) = true

/-- The same filter with perhaps more bits set. -/
structure Grows (f f' : BLOOMFILTER) : Prop where
  size : f'.size = f.size
  nhash : f'.nhash = f.nhash
  hashsize : f'.hashsize = f.hashsize
  div : f'.div = f.div
  bits : ∀ p, f.bitset p = true → f'.bitset p = true

theorem Grows.pos_eq (hg : Grows f f') (i : ℕ) : f'.pos H i = f.pos H i := by
  unfold pos
  rw [hg.div, hg.hashsize]

theorem Has.mono (hg : Grows f f') (hf : Has f H) : Has f' H where
  inside i hi := by
    rw [hg.pos_eq, hg.size]
    exact hf.inside i (hg.nhash ▸ hi)
  marked i hi := by
    rw [hg.pos_eq]
    exact hg.bits _ (hf.marked i (hg.nhash ▸ hi))

theorem Has.isPresent (hf : Has f H) : f.isPresent H = some true :=
  presentLoop_true (fun j _ hj => hf.inside j (by omega)) fun j _ hj => hf.marked j (by omega)

theorem insert_some (hins : f.insert H = some f') : Grows f f' ∧ Has f' H := by
  obtain ⟨b, hloop, rfl⟩ := Option.map_eq_some_iff.1 hins
  have hset := insertLoop_some hloop
  refine ⟨⟨rfl, rfl, rfl, rfl, fun p => (hset p).1⟩, fun i hi => ?_, fun i hi => ?_⟩
  · exact ((hset 0).2 i (Nat.zero_le i) (by simpa using hi)).1
  · exact ((hset _).2 i (Nat.zero_le i) (by simpa using hi)).2 rfl

theorem presentLoop_some_true : ∀ {n i : ℕ}, presentLoop f H n i = some true →
    ∀ j, i ≤ j → j < i + n → f.pos H j < f.size ∧ f.bitset (f.pos H j) = true
  | 0, _, _, j, _, _ => by omega
  | n + 1, i, hloop, j, hj, hjn => by
    rw [presentLoop] at hloop
    split at hloop
    · next hlt =>
      split at hloop
      · next hset =>
        rcases Nat.eq_or_lt_of_le hj with rfl | hj
        · exact ⟨hlt, hset⟩
        · exact presentLoop_some_true hloop j hj (by omega)
      · simp at hloop
    · cases hloop

theorem has_of_isPresent (hf : f.isPresent H = some true) : Has f H where
  inside i hi := (presentLoop_some_true hf i (Nat.zero_le i) (by simpa using hi)).1
  marked i hi := (presentLoop_some_true hf i (Nat.zero_le i) (by simpa using hi)).2

/-! ## Zeros -/

theorem zeros_of_clear (hclear : ∀ p < f.size, f.bitset p = false) : f.zeros = f.size := by
  unfold zeros
  rw [List.countP_eq_length.2 fun p hp => decide_eq_true (hclear p (List.mem_range.1 hp)),
    List.length_range]

theorem not_statsSbf (hsize : 0 < f.size) (hclear : ∀ p < f.size, f.bitset p = false) :
    ¬ f.statsSbf := by
  have hpos : 0 < f.size ^ 2 := Nat.pow_pos hsize
  unfold statsSbf
  rw [zeros_of_clear hclear]
  omega

end BLOOMFILTER

/-! ## `SwapBF` -/

namespace SwapBF

open BLOOMFILTER

variable {f f' : BLOOMFILTER} {s s' : SwapBF} {H : ℕ → ℕ} {size nhash : ℕ}

/-- A filter over all of its bits, `size` of them. -/
structure Whole (size nhash : ℕ) (f : BLOOMFILTER) : Prop where
  size_eq : f.size = size
  nhash_eq : f.nhash = nhash
  div_eq : f.div = false

theorem Whole.pos_lt (hf : Whole size nhash f) (hH : ∀ i, H i < size) (i : ℕ) :
    f.pos H i < f.size := by
  rw [BLOOMFILTER.pos, hf.div_eq, hf.size_eq]
  exact hH i

theorem Whole.insert (hf : Whole size nhash f) (hH : ∀ i, H i < size) :
    ∃ f', f.insert H = some f' ∧ Whole size nhash f' ∧ Has f' H := by
  obtain ⟨b, hb⟩ := insertLoop_run (n := f.nhash) (i := 0) (b := f.bitset)
    fun j _ _ => hf.pos_lt hH j
  have hins : f.insert H = some { f with bitset := b } := by rw [BLOOMFILTER.insert, hb]; rfl
  exact ⟨_, hins, ⟨hf.size_eq, hf.nhash_eq, hf.div_eq⟩, (insert_some hins).2⟩

theorem Whole.isPresent (hf : Whole size nhash f) (hH : ∀ i, H i < size) :
    ∃ present, f.isPresent H = some present :=
  presentLoop_run fun j _ _ => hf.pos_lt hH j

theorem Whole.reset (hf : Whole size nhash f) (hsize : 0 < size) :
    Whole size nhash f.reset ∧ ¬ f.reset.statsSbf :=
  ⟨⟨hf.size_eq, hf.nhash_eq, hf.div_eq⟩,
    not_statsSbf (f := f.reset) (hf.size_eq ▸ hsize) fun _ hp => if_pos hp⟩

/-- Between the calls. -/
structure Inv (size nhash : ℕ) (s : SwapBF) : Prop where
  sbf1 : Whole size nhash s.sbf1
  sbf2 : Whole size nhash s.sbf2
  below : BelowFill s

/-- The active filter has the key then, and the other has it too or is as it was. -/
theorem insertBoth_run (h1 : Whole size nhash s.sbf1) (h2 : Whole size nhash s.sbf2)
    (hH : ∀ i, H i < size) (present : Bool) :
    ∃ s', s.insertBoth present H = some s' ∧ Whole size nhash s'.sbf1 ∧ Whole size nhash s'.sbf2 ∧
      s'.activeBF = s.activeBF ∧ (present = true → s' = s) ∧
      (present = false → Has s'.sbf1 H ∧ Has s'.sbf2 H) := by
  rcases present with _ | _
  · obtain ⟨f₁, hf₁, hw₁, hhas₁⟩ := h1.insert hH
    obtain ⟨f₂, hf₂, hw₂, hhas₂⟩ := h2.insert hH
    exact ⟨{ s with sbf1 := f₁, sbf2 := f₂ }, by simp [insertBoth, hf₁, hf₂], hw₁, hw₂, rfl, nofun,
      fun _ => ⟨hhas₁, hhas₂⟩⟩
  · exact ⟨s, rfl, h1, h2, rfl, fun _ => rfl, nofun⟩

theorem isPresent_of_has (h1 : Whole size nhash s.sbf1) (hH : ∀ i, H i < size)
    (hhas : Has s.sbf1 H ∨ Has s.sbf2 H) : s.isPresent H = some true := by
  unfold isPresent
  rcases hhas with hhas | hhas
  · simp [hhas.isPresent]
  · obtain ⟨present, hp⟩ := h1.isPresent hH
    rcases present with _ | _
    · simp [hp, hhas.isPresent]
    · simp [hp]

theorem insert_run (hs : Inv size nhash s) (hsize : 0 < size) (hH : ∀ i, H i < size) :
    ∃ s', s.insert H = some s' ∧ Inv size nhash s' ∧ s'.isPresent H = some true := by
  obtain ⟨h1, h2, hbelow⟩ := hs
  rcases hbelow with ⟨hactive, hbelow⟩ | ⟨hactive, hbelow⟩
  · obtain ⟨present, hp⟩ := h1.isPresent hH
    obtain ⟨s₁, hs₁, hw₁, hw₂, hactive₁, hsame, hboth⟩ := insertBoth_run h1 h2 hH present
    have hins : s.insert H = some (if s₁.sbf2.statsSbf then
        { s₁ with activeBF := 2, sbf1 := s₁.sbf1.reset } else s₁) := by
      simp [insert, hactive, hp, hs₁]
    refine ⟨_, hins, ?_⟩
    split
    · next hfull =>
      have hnew : present = false := by
        rw [← Bool.not_eq_true]
        intro htrue
        rw [hsame htrue] at hfull
        exact hbelow hfull
      obtain ⟨hw₁', hclear⟩ := hw₁.reset hsize
      exact ⟨⟨hw₁', hw₂, .inr ⟨rfl, hclear⟩⟩, isPresent_of_has hw₁' hH (.inr (hboth hnew).2)⟩
    · next hroom =>
      refine ⟨⟨hw₁, hw₂, .inl ⟨hactive₁.trans hactive, hroom⟩⟩, isPresent_of_has hw₁ hH ?_⟩
      rcases present with _ | _
      · exact .inl (hboth rfl).1
      · rw [hsame rfl]
        exact .inl (has_of_isPresent hp)
  · obtain ⟨present, hp⟩ := h2.isPresent hH
    obtain ⟨s₁, hs₁, hw₁, hw₂, hactive₁, hsame, hboth⟩ := insertBoth_run h1 h2 hH present
    have hins : s.insert H = some (if s₁.sbf1.statsSbf then
        { s₁ with activeBF := 1, sbf2 := s₁.sbf2.reset } else s₁) := by
      simp [insert, hactive, hp, hs₁]
    refine ⟨_, hins, ?_⟩
    split
    · next hfull =>
      have hnew : present = false := by
        rw [← Bool.not_eq_true]
        intro htrue
        rw [hsame htrue] at hfull
        exact hbelow hfull
      obtain ⟨hw₂', hclear⟩ := hw₂.reset hsize
      exact ⟨⟨hw₁, hw₂', .inl ⟨rfl, hclear⟩⟩, isPresent_of_has hw₁ hH (.inl (hboth hnew).1)⟩
    · next hroom =>
      refine ⟨⟨hw₁, hw₂, .inr ⟨hactive₁.trans hactive, hroom⟩⟩, isPresent_of_has hw₁ hH ?_⟩
      rcases present with _ | _
      · exact .inl (hboth rfl).1
      · rw [hsame rfl]
        exact .inr (has_of_isPresent hp)

theorem inv_new (hnew : new size nhash = some s) : 0 < size ∧ Inv size nhash s := by
  obtain ⟨f, hf, hs⟩ := Option.bind_eq_some_iff.1 hnew
  have hfilter : 0 < size ∧ Whole size nhash f ∧ ∀ p, f.bitset p = false := by
    unfold BLOOMFILTER.new at hf
    simp only at hf
    split at hf
    · next hok =>
      obtain rfl := Option.some.inj hf
      exact ⟨hok.1, ⟨rfl, rfl, rfl⟩, fun _ => rfl⟩
    · cases hf
  obtain ⟨hsize, hf, hclear⟩ := hfilter
  split at hs
  · obtain rfl := Option.some.inj hs
    exact ⟨hsize, hf, hf, .inl ⟨rfl, not_statsSbf (hf.size_eq ▸ hsize) fun p _ => hclear p⟩⟩
  · cases hs

theorem run_inv {K : Type} {H : K → ℕ → ℕ} (hsize : 0 < size) (hH : ∀ x i, H x i < size) :
    ∀ (keys : List K) {s : SwapBF}, Inv size nhash s →
      ∃ s', run H s keys = some s' ∧ Inv size nhash s'
  | [], s, hs => ⟨s, rfl, hs⟩
  | x :: keys, s, hs => by
    obtain ⟨s₁, hins, hs₁, -⟩ := insert_run hs hsize (hH x)
    obtain ⟨s', hrun, hs'⟩ := run_inv hsize hH keys hs₁
    exact ⟨s', by simpa [run, hins] using hrun, hs'⟩

/-- With digests of as many bits as address the filter. -/
theorem isPresent_insert {K : Type} (size nhash : ℕ) (H : K → ℕ → Fin size)
    (hnew : new size nhash = some s)
    (keys : List K) (x : K) : ∃ s₁ s₂, run (fun x i => H x i) s keys = some s₁ ∧ BelowFill s₁ ∧
      s₁.insert (fun i => H x i) = some s₂ ∧ BelowFill s₂ ∧
      s₂.isPresent (fun i => H x i) = some true := by
  obtain ⟨hsize, hs⟩ := inv_new hnew
  obtain ⟨s₁, hrun, hs₁⟩ := run_inv hsize (fun x i => (H x i).isLt) keys hs
  obtain ⟨s₂, hins, hs₂, hpresent⟩ := insert_run hs₁ hsize fun i => (H x i).isLt
  exact ⟨s₁, s₂, hrun, hs₁.below, hins, hs₂.below, hpresent⟩

/-- Keys that are their own digests, in filters of four bits. -/
theorem isPresent_insert_three : ∃ s₁ s₂,
    run (fun (x : Fin 4) _ => x)
      ⟨⟨fun _ => false, 4, 1, 2, false⟩, ⟨fun _ => false, 4, 1, 2, false⟩, 1⟩
      [0, 1] = some s₁ ∧ BelowFill s₁ ∧ s₁.insert (fun _ => 3) = some s₂ ∧ BelowFill s₂ ∧
        s₂.isPresent (fun _ => 3) = some true :=
  isPresent_insert 4 1 (fun (x : Fin 4) _ => x) rfl [0, 1] 3

end SwapBF

end DStreamon
