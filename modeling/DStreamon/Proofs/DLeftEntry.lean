import DStreamon.ICounter
import DStreamon.Proofs.DLeftMap

/-!
# The d-left table without holes

Where a key is looked for before a node is reserved for it, no key gets two nodes.  Then the table
is a map of the keys' entries (`entry`), whatever was removed before.
-/

namespace DStreamon

open FirstFit

namespace DLeft

variable {V K : Type} [IReadBuffer K]

/-- The object of a key. -/
def entry (d : DLeft V) (key : K) : Option V := (d.get key).map d.load

/-- Every marked slot is a key's, and no key has two. -/
structure Exact (keys : Set K) (d : DLeft V) : Prop where
  owned : Owned (fp d) (path d.shash) fhash keys
  single : Single (fp d)

/-- Keys that their fingerprints tell from each other and from free nodes. -/
structure Told (keys : Set K) : Prop where
  inj : Set.InjOn (fhash (K := K)) keys
  marks : ∀ k ∈ keys, fhash k ≠ 0

variable {keys : Set K} {d d' : DLeft V} {key k : K} {p : Slot}

theorem exact_new [Inhabited V] {nodeSize nhash shash : ℕ} :
    Exact keys (new nodeSize nhash shash : DLeft V) := by
  constructor
  · rw [fp_new]
    exact owned_zero
  · rw [fp_new]
    exact single_zero

theorem Exact.get_iff (h : Exact keys d) (ht : Told keys) (hk : k ∈ keys) :
    d.get k = some p ↔ fp d p = fhash k := by
  constructor
  · intro hg
    exact (find_hit hg).1
  · intro hp
    exact (find_eq_some_iff (ht.marks k hk)).2 (h.owned.first h.single ht.inj hk (ht.marks k hk) hp)

theorem Exact.get_congr (h : Exact keys d) (h' : Exact keys d') (ht : Told keys) (hk : k ∈ keys)
    (hfp : ∀ p, fp d' p = fhash k ↔ fp d p = fhash k) : d'.get k = d.get k := by
  refine Option.ext fun p => ?_
  rw [h.get_iff ht hk, h'.get_iff ht hk, hfp]

/-- What another key does leaves the entry of a key. -/
theorem Exact.entry_congr (h : Exact keys d) (h' : Exact keys d') (ht : Told keys) (hk : k ∈ keys)
    (hfp : ∀ p, fp d' p = fhash k ↔ fp d p = fhash k)
    (hload : ∀ p, fp d p = fhash k → d'.load p = d.load p) : d'.entry k = d.entry k := by
  unfold entry
  rw [h.get_congr h' ht hk hfp]
  rcases hg : d.get k with _ | p
  · rfl
  · rw [Option.map_some, Option.map_some, hload p ((h.get_iff ht hk).1 hg)]

theorem Told.fp_ne (ht : Told keys) (hkey : key ∈ keys) (hk : k ∈ keys) (hne : k ≠ key)
    (hp : fp d p = fhash key) : fp d p ≠ fhash k :=
  fun e => hne (ht.inj hk hkey (e.symm.trans hp))

theorem Exact.store (h : Exact keys d) (ht : Told keys) (hkey : key ∈ keys)
    (hp : fp d p = fhash key) (v : V) :
    Exact keys (d.store p v) ∧ (∀ q, fp (d.store p v) q = fp d q) ∧
      (d.store p v).entry key = some v ∧
      ∀ k ∈ keys, k ≠ key → (d.store p v).entry k = d.entry k := by
  have hfp : fp (d.store p v) = fp d := fp_store d p v
  have h' : Exact keys (d.store p v) := ⟨hfp ▸ h.owned, hfp ▸ h.single⟩
  refine ⟨h', fun q => by rw [hfp], ?_, fun k hk hne => ?_⟩
  · rw [entry, (h'.get_iff ht hkey).2 (by rw [hfp, hp]), Option.map_some, load_store, if_pos rfl]
  · refine h.entry_congr h' ht hk (fun q => by rw [hfp]) fun q hq => ?_
    rw [load_store, if_neg]
    rintro rfl
    exact ht.fp_ne hkey hk hne hp hq

/-- A free node that a key without a node takes. -/
theorem Exact.reserve [Inhabited V] (h : Exact keys d) (ht : Told keys) (hkey : key ∈ keys)
    (hg : d.get key = none) (hr : d.reserve key = (d', some p)) :
    Exact keys d' ∧ fp d' p = fhash key ∧ Grows d d' ∧
      ∀ k ∈ keys, k ≠ key → d'.entry k = d.entry k := by
  have hnone : ∀ q, fp d q ≠ fhash key := by
    intro q hq
    rw [(h.get_iff ht hkey).2 hq] at hg
    cases hg
  rcases d.reserve_cases key with ⟨d₁, p₁, hr₁, hfirst, hgrows, -, hfp⟩ | ⟨d₁, hr₁, -, -⟩
  · rw [hr] at hr₁
    cases hr₁
    have h' : Exact keys d' := by
      constructor
      · rw [hfp, hgrows.shash]
        exact h.owned.take hkey hfirst.on
      · rw [hfp]
        exact h.single.take fun q hq => absurd hq (hnone q)
    refine ⟨h', by rw [hfp, Function.update_self], hgrows, fun k hk hne => ?_⟩
    have hkk : fhash key ≠ fhash k := fun e => hne (ht.inj hk hkey e.symm)
    have hpk : fp d p ≠ fhash k := by
      rcases hfirst.mem with hz | hz
      · rw [hz]
        exact (ht.marks k hk).symm
      · exact absurd hz (hnone p)
    refine h.entry_congr h' ht hk (fun q => by rw [hfp, fp_update_iff hpk hkk]) fun q hq => ?_
    exact hgrows.load q (lt_of_fp (hq ▸ ht.marks k hk))
  · rw [hr] at hr₁
    cases hr₁

/-- A key's node keeps the object it has; a new one has the object `init`. -/
theorem Exact.getOrReserve [Inhabited V] (h : Exact keys d) (ht : Told keys) (hkey : key ∈ keys)
    {init : V} (hr : d.getOrReserve key init = some (d', p)) :
    Exact keys d' ∧ fp d' p = fhash key ∧ d'.load p = (d.entry key).getD init ∧
      d'.nodeSize = d.nodeSize ∧ d'.shash = d.shash ∧
      ∀ k ∈ keys, k ≠ key → d'.entry k = d.entry k := by
  unfold DLeft.getOrReserve at hr
  rcases hg : d.get key with _ | q
  · rw [hg] at hr
    rcases hres : d.reserve key with ⟨d₁, _ | p₁⟩
    · rw [hres] at hr
      cases hr
    · rw [hres] at hr
      cases hr
      obtain ⟨h₁, hp, hgrows, hother⟩ := h.reserve ht hkey hg hres
      obtain ⟨h₂, hfp, hentry, hother'⟩ := h₁.store ht hkey hp init
      refine ⟨h₂, by rw [hfp, hp], ?_, hgrows.nodeSize, hgrows.shash, fun k hk hne => ?_⟩
      · rw [load_store, if_pos rfl, entry, hg]
        rfl
      · rw [hother' k hk hne, hother k hk hne]
  · rw [hg] at hr
    cases hr
    refine ⟨h, (h.get_iff ht hkey).1 hg, ?_, rfl, rfl, fun _ _ _ => rfl⟩
    rw [entry, hg]
    rfl

theorem Exact.remove (h : Exact keys d) (ht : Told keys) (hkey : key ∈ keys) :
    Exact keys (d.remove key).1 ∧ (d.remove key).1.entry key = none ∧
      (d.remove key).1.nodeSize = d.nodeSize ∧ (d.remove key).1.shash = d.shash ∧
      ∀ k ∈ keys, k ≠ key → (d.remove key).1.entry k = d.entry k := by
  unfold DLeft.remove
  rcases hf : d.find key with _ | p
  · refine ⟨h, ?_, rfl, rfl, fun _ _ _ => rfl⟩
    rw [entry, get, hf]
    rfl
  · obtain ⟨hp, hlt⟩ := find_hit hf
    have hfp := fp_setHashKey hlt 0
    have h' : Exact keys (d.setHashKey p 0) := by
      constructor
      · rw [hfp]
        exact h.owned.free p
      · rw [hfp]
        exact h.single.free p
    refine ⟨h', ?_, rfl, rfl, fun k hk hne => ?_⟩
    · rcases hg : (d.setHashKey p 0).get key with _ | q
      · rw [entry, hg]
        rfl
      · have hq := (h'.get_iff ht hkey).1 hg
        rw [hfp] at hq
        by_cases hqp : q = p
        · rw [hqp, Function.update_self] at hq
          exact absurd hq.symm (ht.marks key hkey)
        · rw [Function.update_of_ne hqp] at hq
          have := h.single q p (hq.trans hp.symm) (hq ▸ ht.marks key hkey)
          exact absurd this hqp
    · refine h.entry_congr h' ht hk (fun q => ?_) fun q _ => load_setHashKey ..
      rw [hfp]
      exact fp_update_iff (ht.fp_ne hkey hk hne hp) (ht.marks k hk).symm q

theorem Exact.clear [Inhabited V] (h : Exact keys d) (ht : Told keys)
    (hfit : 2 ^ d.shash * d.nodeSize < 2 ^ 32) (hsize : 0 < d.nodeSize) :
    Exact keys d.clear ∧ ∀ k ∈ keys, d.clear.entry k = none := by
  have hs : d.shash < 32 := by
    by_contra hge
    have h32 : 2 ^ 32 ≤ 2 ^ d.shash := Nat.pow_le_pow_right (by omega) (by omega)
    have := Nat.le_mul_of_pos_right (2 ^ d.shash) hsize
    omega
  have hfp : fp d.clear = fun _ => 0 := by
    refine fp_clear hfit fun q hq => ?_
    obtain ⟨k, -, -, j, hj⟩ := h.owned q hq
    exact cellAt_place hs hj
  have h' : Exact keys d.clear := ⟨hfp ▸ owned_zero, hfp ▸ single_zero⟩
  refine ⟨h', fun k hk => ?_⟩
  rcases hg : d.clear.get k with _ | q
  · rw [entry, hg]
    rfl
  · have hq := (h'.get_iff ht hk).1 hg
    rw [hfp] at hq
    exact absurd hq.symm (ht.marks k hk)

end DLeft

namespace DLeftCounter

open DLeft

variable {F K : Type} [Field F] [LinearOrder F] [FloorRing F] [IReadBuffer K] {keys : Set K}
  {s s' : DLeftCounter} {key : K}

/-- `add` writes the sum to the entry of its key and returns it. -/
theorem add_entry {quantity x : F} (h : Exact keys s.table) (ht : Told keys) (hkey : key ∈ keys)
    (ha : s.add key quantity = some (s', x)) : ∃ n : UInt32,
      n = toUInt32 (ofUInt32 ((s.table.entry key).getD 0) + quantity) ∧ x = ofUInt32 n ∧
      Exact keys s'.table ∧ s'.table.nodeSize = s.table.nodeSize ∧
      s'.table.shash = s.table.shash ∧ s'.table.entry key = some n ∧
      ∀ k ∈ keys, k ≠ key → s'.table.entry k = s.table.entry k := by
  obtain ⟨⟨d, p⟩, hd, ha⟩ := Option.bind_eq_some_iff.1 ha
  cases ha
  obtain ⟨hexact, hfp, hload, hsize, hshash, hother⟩ := h.getOrReserve ht hkey hd
  obtain ⟨hexact', -, hentry, hother'⟩ := hexact.store ht hkey hfp
    (toUInt32 (ofUInt32 (d.load p) + quantity))
  refine ⟨_, by rw [hload], rfl, hexact', hsize, hshash, hentry, fun k hk hne => ?_⟩
  rw [hother' k hk hne, hother k hk hne]

end DLeftCounter

end DStreamon
