import DStreamon.Proofs.Bloom
import DStreamon.Proofs.Khash

/-!
# The bookkeeping of a Bloom filter

Every digest is below `2 ^ shash`, so each bit counted as new is one of the bits there are, and the
number of zeros stays exact whatever positions coincide.
-/

namespace DStreamon

namespace Bloomfilter

/-- What is inserted and asked for: an input to be hashed, or a digest already cached. -/
inductive Element where
  | key (key : List UInt8)
  | bits (bits : ℕ → UInt32)

namespace Element

/-- `H(1)` to `H(nhash)` of an element. -/
def digests (fuel : ℕ) (f : Bloomfilter) : Element → Except Fault (ℕ → UInt32)
  | key k => compute fuel f.nhash f.shash f.norep k
  | bits b => split f.nhash f.shash f.norep b

end Element

/-- `insert` or `set_bits`. -/
def insertElement (fuel : ℕ) (f : Bloomfilter) : Element → Except Fault (Bloomfilter × Bool)
  | .key k => f.insert fuel k
  | .bits b => f.setBits b

/-- `check` or `check_bits`. -/
def checkElement (fuel : ℕ) (f : Bloomfilter) : Element → Except Fault Bool
  | .key k => f.check fuel k
  | .bits b => f.checkBits b

inductive Op where
  | insert (e : Element)
  | check (e : Element)
  | clear

def exec (fuel : ℕ) (f : Bloomfilter) : Op → Except Fault (Bloomfilter × Bool)
  | .insert e => f.insertElement fuel e
  | .check e => do .ok (f, ← f.checkElement fuel e)
  | .clear => .ok (f.clear, true)

/-- Calls in order, each with the fuel it is given. -/
def runs : Bloomfilter → List (ℕ × Op) → Except Fault Bloomfilter
  | f, [] => .ok f
  | f, (fuel, o) :: os => do
    let (f, _) ← f.exec fuel o
    f.runs os

/-- The shape the constructor gives a filter, and an exact count. -/
structure Booked (f : Bloomfilter) : Prop where
  small : f.shash < 32
  mmax : f.mmax = 2 ^ f.shash
  room : 2 ^ f.shash ≤ 8 * f.mmaxArr
  zeros : f.numZeros = BitArray.zeros (2 ^ f.shash) f.m

variable {f f' : Bloomfilter} {H : ℕ → UInt32} {fuel : ℕ} {e : Element} {r : Bool}

theorem new_booked {nhash shash : ℕ} {norep : Bool} (h : new nhash shash norep = .ok f) :
    f.Booked := by
  unfold new at h
  by_cases hshape : 1 ≤ nhash ∧ 1 ≤ shash ∧ shash < 32 ∧ (norep = true → nhash ≤ 2 ^ shash)
  swap
  · rw [if_neg hshape] at h
    cases h
  rw [if_pos hshape] at h
  obtain rfl := Except.ok.inj h
  refine ⟨hshape.2.2.1, rfl, ?_, ?_⟩
  · dsimp only
    split_ifs with hs
    · calc 2 ^ shash ≤ 2 ^ 3 := Nat.pow_le_pow_right (by decide) hs.le
        _ = 8 * 1 := rfl
    · rw [show (8 : ℕ) = 2 ^ 3 by rfl, ← Nat.pow_add, show 3 + (shash - 3) = shash by omega]
  · exact (BitArray.zeros_of_clear fun p _ => BitArray.test_zero p).symm

theorem Booked.clear (hf : f.Booked) : f.clear.Booked where
  small := hf.small
  mmax := hf.mmax
  room := hf.room
  zeros := by
    have hroom := hf.room
    refine hf.mmax.trans (BitArray.zeros_of_clear fun p hp => ?_).symm
    have hp : p < 2 ^ f.shash := hp
    have hb : p / 8 < f.mmaxArr := by omega
    simp [Bloomfilter.clear, BitArray.test, hb]

/-! ## The count -/

/-- Each digest counted as new sets one bit more. -/
theorem markLoop_ones {mmaxArr size : ℕ} (hH : ∀ k, (H k).toNat < size) :
    ∀ (n i : ℕ) {m m' : ℕ → BitVec 8} {extra extra' : ℕ},
      markLoop mmaxArr H n i m extra = .ok (m', extra') →
      BitArray.ones size m' + extra = BitArray.ones size m + extra'
  | 0, i, m, m', extra, extra', h => by
    obtain ⟨rfl, rfl⟩ := Prod.mk.inj (Except.ok.inj h)
    rfl
  | n + 1, i, m, m', extra, extra', h => by
    simp only [markLoop, BitArray.test_eq_false_iff] at h
    split_ifs at h with hb hset
    · have hrest := markLoop_ones hH n (i + 1) h
      rw [BitArray.ones_set (hH i) hset] at hrest
      omega
    · exact markLoop_ones hH n (i + 1) h

theorem Booked.mark (hf : f.Booked) (hH : ∀ k, (H k).toNat < 2 ^ f.shash)
    (h : f.mark H = .ok (f', r)) : f'.Booked := by
  obtain ⟨⟨m, extra⟩, hloop, h⟩ := bind_ok h
  have hones := markLoop_ones hH f.nhash 1 hloop
  dsimp only at h
  split_ifs at h with he
  · obtain ⟨rfl, -⟩ := Prod.mk.inj (Except.ok.inj h)
    exact hf
  · obtain ⟨rfl, -⟩ := Prod.mk.inj (Except.ok.inj h)
    refine ⟨hf.small, hf.mmax, hf.room, ?_⟩
    have hold := BitArray.ones_add_zeros (2 ^ f.shash) f.m
    have hnew := BitArray.ones_add_zeros (2 ^ f.shash) m
    have hz := hf.zeros
    dsimp only
    omega

/-! ## The answers -/

/-- `check` stops at the first zero, and says whether there is one. -/
theorem checkLoop_ok : ∀ (n i : ℕ), (∀ k, i ≤ k → k < i + n → (H k).toNat / 8 < f.mmaxArr) →
    ∃ b, f.checkLoop H n i = .ok b ∧
      (b = true ↔ ∀ k, i ≤ k → k < i + n → BitArray.test f.m (H k).toNat = true)
  | 0, i, _ => ⟨true, rfl, iff_of_true rfl fun k _ _ => by omega⟩
  | n + 1, i, hlt => by
    simp only [checkLoop, BitArray.test_eq_false_iff]
    rw [if_neg (not_not.2 (hlt i le_rfl (by omega)))]
    by_cases hset : BitArray.test f.m (H i).toNat = false
    · rw [if_pos hset]
      refine ⟨false, rfl, iff_of_false (by simp) fun hall => ?_⟩
      have := hall i le_rfl (by omega)
      rw [hset] at this
      cases this
    · rw [if_neg hset]
      obtain ⟨b, hb, hiff⟩ := checkLoop_ok n (i + 1) fun k hk hkn => hlt k (by omega) (by omega)
      refine ⟨b, hb, hiff.trans ⟨fun hall k hk hkn => ?_, fun hall k hk hkn =>
        hall k (by omega) (by omega)⟩⟩
      rcases Nat.eq_or_lt_of_le hk with rfl | hk
      · simpa using hset
      · exact hall k hk (by omega)

theorem Booked.index (hf : f.Booked) {k : ℕ} (hH : (H k).toNat < 2 ^ f.shash) :
    (H k).toNat / 8 < f.mmaxArr := by
  have := hf.room
  omega

/-- Marking answers whether the digest was missing. -/
theorem Booked.check_of_mark (hf : f.Booked) (hH : ∀ k, (H k).toNat < 2 ^ f.shash)
    (h : f.mark H = .ok (f', r)) : f.checkLoop H f.nhash 1 = .ok (!r) := by
  obtain ⟨b, hb, hiff⟩ := checkLoop_ok (f := f) f.nhash 1 fun k _ _ => hf.index (hH k)
  have hall : b = true ↔ f.HasAll H :=
    hiff.trans ⟨fun h k hk hkn => ⟨hf.index (hH k), h k hk (by omega)⟩,
      fun h k hk hkn => (h k hk (by omega)).2⟩
  rw [← (mark_ok h).2.2] at hall
  rw [hb]
  cases b <;> cases r <;> simp_all

/-! ## Elements -/

theorem insertElement_eq (f : Bloomfilter) (e : Element) :
    f.insertElement fuel e = e.digests fuel f >>= f.mark := by
  cases e <;> rfl

theorem checkElement_eq (f : Bloomfilter) (e : Element) :
    f.checkElement fuel e = e.digests fuel f >>= fun H => f.checkLoop H f.nhash 1 := by
  cases e <;> rfl

theorem Alike.digests {g : Bloomfilter} (h : Alike f g) (e : Element) :
    e.digests fuel f = e.digests fuel g := by
  cases e <;> simp only [Element.digests, h.nhash, h.shash, h.norep]

theorem Element.digests_unique {fuel' : ℕ} {H' : ℕ → UInt32} (h : e.digests fuel f = .ok H)
    (h' : e.digests fuel' f = .ok H') : H = H' := by
  cases e with
  | key k => exact compute_unique h h'
  | bits b => exact Except.ok.inj (h.symm.trans h')

theorem Element.digests_lt (hf : f.Booked) (h : e.digests fuel f = .ok H) (k : ℕ) :
    (H k).toNat < 2 ^ f.shash := by
  have hzero : ∀ i : ℕ, ((fun _ => 0 : ℕ → UInt32) i).toNat < 2 ^ f.shash :=
    fun _ => Nat.two_pow_pos _
  cases e with
  | key key =>
    simp only [Element.digests, compute] at h
    split_ifs at h
    exact computeLoop_lt hf.small hzero h k
  | bits b => exact splitLoop_lt hf.small hzero h k

theorem checkElement_unique {fuel' : ℕ} {b b' : Bool} (h : f.checkElement fuel e = .ok b)
    (h' : f.checkElement fuel' e = .ok b') : b = b' := by
  rw [checkElement_eq] at h h'
  obtain ⟨H, hH, h⟩ := bind_ok h
  obtain ⟨H', hH', h'⟩ := bind_ok h'
  obtain rfl := Element.digests_unique hH hH'
  exact Except.ok.inj (h.symm.trans h')

/-- An insertion that ends answers whether a check just before would have said no. -/
theorem Booked.check_of_insert (hf : f.Booked) (h : f.insertElement fuel e = .ok (f', r)) :
    f.checkElement fuel e = .ok (!r) := by
  rw [insertElement_eq] at h
  obtain ⟨H, hH, h⟩ := bind_ok h
  rw [checkElement_eq, hH]
  exact hf.check_of_mark (Element.digests_lt hf hH) h

/-! ## Runs -/

theorem Booked.insert (hf : f.Booked) (h : f.insertElement fuel e = .ok (f', r)) : f'.Booked := by
  rw [insertElement_eq] at h
  obtain ⟨H, hH, h⟩ := bind_ok h
  exact hf.mark (Element.digests_lt hf hH) h

theorem exec_keeps {P : Bloomfilter → Prop} {o : Op} (hclear : o = .clear → P f.clear)
    (hmark : ∀ H f' r, P f → f.mark H = .ok (f', r) → (∀ k, (H k).toNat < 2 ^ f.shash) → P f')
    (hf : f.Booked) (hP : P f) (h : f.exec fuel o = .ok (f', r)) : P f' := by
  cases o with
  | insert e =>
    simp only [exec, insertElement_eq] at h
    obtain ⟨H, hH, h⟩ := bind_ok h
    exact hmark H f' r hP h (Element.digests_lt hf hH)
  | check e =>
    obtain ⟨b, -, h⟩ := bind_ok h
    obtain ⟨rfl, -⟩ := Prod.mk.inj (Except.ok.inj h)
    exact hP
  | clear =>
    obtain ⟨rfl, -⟩ := Prod.mk.inj (Except.ok.inj h)
    exact hclear rfl

theorem Booked.exec {o : Op} (hf : f.Booked) (h : f.exec fuel o = .ok (f', r)) : f'.Booked :=
  exec_keeps (P := Booked) (fun _ => hf.clear) (fun _ _ _ hf h hH => hf.mark hH h) hf hf h

theorem Booked.runs : ∀ {ops : List (ℕ × Op)} {f f' : Bloomfilter}, f.Booked →
    f.runs ops = .ok f' → f'.Booked
  | [], f, f', hf, h => Except.ok.inj h ▸ hf
  | (fuel, o) :: ops, f, f', hf, h => by
    obtain ⟨⟨g, b⟩, hg, h⟩ := bind_ok h
    exact (hf.exec hg).runs h

theorem runs_append : ∀ {ops ops' : List (ℕ × Op)} {f f' : Bloomfilter},
    f.runs (ops ++ ops') = .ok f' → ∃ g, f.runs ops = .ok g ∧ g.runs ops' = .ok f'
  | [], ops', f, f', h => ⟨f, rfl, h⟩
  | (fuel, o) :: ops, ops', f, f', h => by
    obtain ⟨⟨g, b⟩, hg, h⟩ := bind_ok h
    obtain ⟨g', hg', h⟩ := runs_append h
    refine ⟨g', ?_, h⟩
    rw [Bloomfilter.runs, hg]
    exact hg'

/-- Until the next `clear` a filter keeps a digest's bits. -/
theorem HasAll.runs {f₀ : Bloomfilter} : ∀ {ops : List (ℕ × Op)} {f f' : Bloomfilter},
    (∀ o ∈ ops, o.2 ≠ .clear) → f.Booked → Alike f₀ f → f.HasAll H → f.runs ops = .ok f' →
      Alike f₀ f' ∧ f'.HasAll H
  | [], f, f', _, _, ha, hall, h => Except.ok.inj h ▸ ⟨ha, hall⟩
  | (fuel, o) :: ops, f, f', hno, hf, ha, hall, h => by
    obtain ⟨⟨g, b⟩, hg, h⟩ := bind_ok h
    have hkeep : Alike f₀ g ∧ g.HasAll H :=
      exec_keeps (P := fun g => Alike f₀ g ∧ g.HasAll H)
        (fun hclear => absurd hclear (hno _ List.mem_cons_self))
        (fun _ _ _ hP h _ => ⟨hP.1.trans (mark_ok h).1, hP.2.mark h⟩) hf ⟨ha, hall⟩ hg
    exact HasAll.runs (fun o ho => hno o (List.mem_cons_of_mem _ ho)) (hf.exec hg) hkeep.1 hkeep.2 h

/-- After any calls the count of zeros is exact, an insertion answers whether a check just before
would have said no, and what was inserted since the last `clear` is found. -/
theorem bookkeeping_exact (nhash shash : ℕ) (norep : Bool) (ops : List (ℕ × Op))
    {f₀ f : Bloomfilter} (hnew : new nhash shash norep = .ok f₀) (h : f₀.runs ops = .ok f) :
    f.numZeros = BitArray.zeros (2 ^ f.shash) f.m ∧
    (∀ fuel e f' r, f.insertElement fuel e = .ok (f', r) → f.checkElement fuel e = .ok (!r) ∧
      ∀ fuel' b, f.checkElement fuel' e = .ok b → b = !r) ∧
    ∀ before after fuel e, ops = before ++ (fuel, .insert e) :: after →
      (∀ o ∈ after, o.2 ≠ .clear) → f.checkElement fuel e = .ok true ∧
        ∀ fuel' b, f.checkElement fuel' e = .ok b → b = true := by
  have hf₀ := new_booked hnew
  have hf := hf₀.runs h
  refine ⟨hf.zeros, fun fuel e f' r hins => ?_, ?_⟩
  · have hcheck := hf.check_of_insert hins
    exact ⟨hcheck, fun fuel' b hb => checkElement_unique hb hcheck⟩
  · rintro before after fuel e rfl hno
    obtain ⟨g, hg, hrest⟩ := runs_append h
    obtain ⟨⟨g', r⟩, hins, hrest⟩ := bind_ok hrest
    have hgb := hf₀.runs hg
    have hins : g.insertElement fuel e = .ok (g', r) := hins
    have hg' := hgb.insert hins
    rw [insertElement_eq] at hins
    obtain ⟨H, hH, hins⟩ := bind_ok hins
    obtain ⟨ha, hall⟩ := HasAll.runs hno hg' (mark_ok hins).1 (hasAll_of_mark hins) hrest
    have hcheck : f.checkElement fuel e = .ok true := by
      rw [checkElement_eq, ← ha.digests e, hH]
      exact hall.checkLoop
    exact ⟨hcheck, fun fuel' b hb => checkElement_unique hb hcheck⟩

/-- One element before a `clear`, and two with a bit in common after it. -/
def insertions : List (ℕ × Op) :=
  [(0, .insert (.bits fun _ => 0x5A)), (0, .clear), (0, .insert (.bits fun _ => 0x21)),
    (0, .check (.bits fun _ => 0x5A)), (0, .insert (.bits fun _ => 0x31))]

/-- The element before is new again, and the first one after is found. -/
theorem bookkeeping_exact_insertions : ∃ f₀ f, new 2 4 false = .ok f₀ ∧
    f₀.runs insertions = .ok f ∧ f.numZeros = BitArray.zeros (2 ^ f.shash) f.m ∧
    f.checkElement 0 (.bits fun _ => 0x5A) = .ok false ∧
    f.checkElement 0 (.bits fun _ => 0x21) = .ok true := by
  have hrun : (do
      let f₀ ← new 2 4 false
      let f ← f₀.runs insertions
      let (_, r) ← f.insertElement 0 (.bits fun _ => 0x5A)
      .ok r) = Except.ok true := by decide +kernel
  obtain ⟨f₀, hnew, hrun⟩ := bind_ok hrun
  obtain ⟨f, hruns, hrun⟩ := bind_ok hrun
  obtain ⟨⟨f', r⟩, hins, hrun⟩ := bind_ok hrun
  obtain rfl : r = true := Except.ok.inj hrun
  obtain ⟨hzeros, hanswer, hfound⟩ := bookkeeping_exact 2 4 false insertions hnew hruns
  refine ⟨f₀, f, hnew, hruns, hzeros, (hanswer 0 (.bits fun _ => 0x5A) f' true hins).1, ?_⟩
  exact (hfound [(0, .insert (.bits fun _ => 0x5A)), (0, .clear)] _ 0 (.bits fun _ => 0x21) rfl
    (by simp)).1

end Bloomfilter

end DStreamon
