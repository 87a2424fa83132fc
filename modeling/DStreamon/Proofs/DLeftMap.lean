import DStreamon.Lib.StepRun
import DStreamon.Proofs.DLeft

/-!
# The d-left table refines a finite map

Over keys with distinct non-zero fingerprints, the slots with a key's fingerprint are the key's, and
`get` finds the first of them.  `add` writes that one, so `get` finds what the last `add` of the
key stored, and nothing once the key is removed from its only slot.

`reserve` takes the first free node it meets without looking for the key behind it, so a key added
behind a hole gets a second node, and removing it brings its old value back (`dleft_map_fails`).
-/

namespace DStreamon

open IReadBuffer FirstFit

namespace DLeft

variable {V K : Type*}

/-! ## Runs -/

inductive Op (K V : Type*) where
  | add (key : K) (value : V)
  | reserve (key : K)
  | remove (key : K)
  | clear

def Op.key? : Op K V → Option K
  | .add key _ | .reserve key | .remove key => some key
  | .clear => none

/-- One call, and whether it answered with a non-null pointer or `true`. -/
def exec [IReadBuffer K] [Inhabited V] (d : DLeft V) : Op K V → DLeft V × Bool
  | .add key value => ((d.add key value).1, (d.add key value).2.isSome)
  | .reserve key => ((d.reserve key).1, (d.reserve key).2.isSome)
  | .remove key => d.remove key
  | .clear => (d.clear, true)

/-- The calls made so far, the last one first, with their answers. -/
abbrev History (K V : Type*) := List (Op K V × Bool)

def call [IReadBuffer K] [Inhabited V] (s : DLeft V × History K V) (op : Op K V) :
    Option (DLeft V × History K V) :=
  some ((s.1.exec op).1, (op, (s.1.exec op).2) :: s.2)

/-! ## The map -/

/-- The entry of a key: none, one that was only reserved, or a value. -/
inductive Entry (V : Type*) where
  | absent
  | reserved
  | holds (value : V)

/-- What a call that answered `ok` does to the entry of a key. -/
def Entry.after [DecidableEq K] (key : K) (op : Op K V) (ok : Bool) (e : Entry V) : Entry V :=
  match op with
  | .add key' value => if key' = key ∧ ok then .holds value else e
  | .reserve key' =>
    if key' = key ∧ ok then
      match e with
      | .absent => .reserved
      | e => e
    else e
  | .remove key' => if key' = key then .absent else e
  | .clear => .absent

/-- The entry of a key after the calls of a history. -/
def stored [DecidableEq K] (key : K) : History K V → Entry V
  | [] => .absent
  | (op, ok) :: h => (stored key h).after key op ok

/-- `get` answers with the entry. -/
def Reads [IReadBuffer K] (d : DLeft V) (key : K) : Entry V → Prop
  | .absent => d.get key = none
  | .reserved => d.get key ≠ none
  | .holds value => ∃ p, d.get key = some p ∧ d.load p = value

/-- The call does not reserve the key behind a free node, nor remove it from one of two, nor zero
sub-tables whose bytes it cannot count. -/
def Sole [IReadBuffer K] (key : K) (s : DLeft V × History K V) : Op K V → Prop
  | .add _ _ => True
  | .reserve key' => key' = key → ¬ HoleBefore (fp s.1) (path s.1.shash key) (fhash key)
  | .remove key' => key' = key → ∀ p q, fp s.1 p = fhash key → fp s.1 q = fhash key → p = q
  | .clear => 2 ^ s.1.shash * s.1.nodeSize < 2 ^ 32

/-! ## `clear` -/

variable [IReadBuffer K]

/-- Every place on a path is in its sub-table. -/
theorem cellAt_place {shash i : ℕ} (h : shash < 32) {key : K} {p : Slot}
    (hp : cellAt shash key i = some p) : p.2 < 2 ^ shash := by
  unfold cellAt at hp
  split_ifs at hp
  cases hp
  change (extract _ _ shash).toNat < _
  rw [extract_eq_slice _ h]
  exact Words.slice_lt _ _ _

theorem fp_clear [Inhabited V] {d : DLeft V} (hfit : 2 ^ d.shash * d.nodeSize < 2 ^ 32)
    (hpl : ∀ p, fp d p ≠ 0 → p.2 < 2 ^ d.shash) : fp d.clear = fun _ => 0 := by
  funext p
  by_contra h
  have hlt : p.1 < d.tableCount := lt_of_fp (d := d.clear) h
  have hd : fp d p ≠ 0 ∧ ¬ (p.2 + 1) * d.nodeSize ≤ d.tableSizeBytes := by
    unfold fp clear hashKey at h
    simp only [hlt, if_true, true_and] at h
    split_ifs at h with hc
    · exact absurd rfl h
    · exact ⟨by rw [fp_of_lt hlt]; exact h, hc⟩
  apply hd.2
  rw [tableSizeBytes, Nat.mod_eq_of_lt hfit]
  exact Nat.mul_le_mul_right _ (hpl p hd.1)

/-! ## The table holds the map -/

/-- Where the slots stand for the entry of `k`: each marked slot is its key's, `k` has an entry if
it has a slot, and a value held is the object of the first one. -/
structure Holds [DecidableEq K] (keys : Set K) (k : K) (d : DLeft V) (h : History K V) :
    Prop where
  size : 0 < d.nodeSize
  owned : Owned (fp d) (path d.shash) fhash keys
  present : stored k h ≠ .absent ↔ ∃ p, fp d p = fhash k
  value : ∀ v, stored k h = .holds v →
    ∀ p, (path d.shash k).First (fun q => fp d q = fhash k) p → d.load p = v

section Refinement

variable [DecidableEq K] {keys : Set K} {k : K} {d d' : DLeft V} {h h' : History K V}

theorem Holds.place_lt (H : Holds keys k d h) (hfit : 2 ^ d.shash * d.nodeSize < 2 ^ 32) :
    ∀ p, fp d p ≠ 0 → p.2 < 2 ^ d.shash := by
  intro p hp
  obtain ⟨k, -, -, j, hj⟩ := H.owned p hp
  refine cellAt_place ?_ hj
  by_contra hge
  have h32 : 2 ^ 32 ≤ 2 ^ d.shash := Nat.pow_le_pow_right (by omega) (by omega)
  have := Nat.le_mul_of_pos_right (2 ^ d.shash) H.size
  omega

theorem Holds.reads (H : Holds keys k d h) (hinj : Set.InjOn fhash keys) (hk : k ∈ keys)
    (h0 : fhash k ≠ 0) : d.Reads k (stored k h) := by
  have hp := H.present
  rcases hs : stored k h with _ | _ | v
  · rcases hg : d.get k with _ | p
    · exact hg
    · exact absurd hs (hp.2 ⟨p, ((find_eq_some_iff h0).1 hg).mem⟩)
  · obtain ⟨p, hfp⟩ := hp.1 (by rw [hs]; simp)
    obtain ⟨q, hq⟩ := H.owned.exists_first hinj hk h0 hfp
    show d.find k ≠ none
    rw [(find_eq_some_iff h0).2 hq]
    simp
  · obtain ⟨p, hfp⟩ := hp.1 (by rw [hs]; simp)
    obtain ⟨q, hq⟩ := H.owned.exists_first hinj hk h0 hfp
    exact ⟨q, (find_eq_some_iff h0).2 hq, H.value v hs q hq⟩

omit [DecidableEq K] in
theorem run_total [Inhabited V] : ∀ (ops : List (Op K V)) (s : DLeft V × History K V),
    ∃ s', StepRun.run DLeft.call s ops = some s'
  | [], s => ⟨s, rfl⟩
  | op :: ops, s => run_total ops ((s.1.exec op).1, (op, (s.1.exec op).2) :: s.2)

omit [DecidableEq K] in
theorem run_history [Inhabited V] : ∀ (ops : List (Op K V)) {s s' : DLeft V × History K V},
    StepRun.run DLeft.call s ops = some s' →
      s'.2.map Prod.fst = ops.reverse ++ s.2.map Prod.fst
  | [], s, s', h => by
    cases h
    rfl
  | op :: ops, s, s', h => by
    rw [run_history ops (s := ((s.1.exec op).1, (op, (s.1.exec op).2) :: s.2)) h]
    simp

theorem holds_new [Inhabited V] {nodeSize nhash shash : ℕ} (hsize : 0 < nodeSize)
    (h0 : fhash k ≠ 0) : Holds keys k (new nodeSize nhash shash : DLeft V) [] where
  size := hsize
  owned := by rw [fp_new]; exact owned_zero
  present := by
    rw [fp_new]
    simp only [stored, ne_eq, not_true_eq_false, false_iff, not_exists]
    exact fun _ e => h0 e.symm
  value v hv := by simp [stored] at hv

/-- A call that leaves the slots of `k`, their objects and its entry as they are. -/
theorem Holds.of_same (H : Holds keys k d h) (hsize : d'.nodeSize = d.nodeSize)
    (hshash : d'.shash = d.shash) (howned : Owned (fp d') (path d'.shash) fhash keys)
    (hfp : ∀ q, fp d' q = fhash k ↔ fp d q = fhash k)
    (hload : ∀ q, fp d q = fhash k → d'.load q = d.load q) (hst : stored k h' = stored k h) :
    Holds keys k d' h' where
  size := hsize ▸ H.size
  owned := howned
  present := by
    rw [hst, H.present]
    exact exists_congr fun q => (hfp q).symm
  value v hv p hp := by
    have hp' := hp.congr hfp
    rw [hshash] at hp'
    rw [hload p hp'.mem]
    exact H.value v (by rw [← hst]; exact hv) p hp'

/-- A call that gives `k` the slot `p`, the first on its path that is free or the key's own, and an
entry that `p` holds. -/
theorem Holds.of_slot (H : Holds keys k d h) {p : Slot} (hsize : d'.nodeSize = d.nodeSize)
    (hshash : d'.shash = d.shash) (hk : k ∈ keys)
    (hfirst : (path d.shash k).First (fun q => fp d q = 0 ∨ fp d q = fhash k) p)
    (hfp : fp d' = Function.update (fp d) p (fhash k)) (hpres : stored k h' ≠ .absent)
    (hval : ∀ v, stored k h' = .holds v → d'.load p = v) : Holds keys k d' h' where
  size := hsize ▸ H.size
  owned := by
    rw [hfp, hshash]
    exact H.owned.take hk hfirst.on
  present := ⟨fun _ => ⟨p, by rw [hfp, Function.update_self]⟩, fun _ => hpres⟩
  value v hv q hq := by
    rw [hfp, hshash] at hq
    rw [hq.unique hfirst.take]
    exact hval v hv

omit [DecidableEq K] in
/-- A node another key takes or frees is none of `k`'s, before or after. -/
theorem fp_update_iff {f : UInt32} {p : Slot} (hp : fp d p ≠ fhash k) (hf : f ≠ fhash k)
    (q : Slot) : Function.update (fp d) p f q = fhash k ↔ fp d q = fhash k := by
  by_cases hq : q = p
  · subst hq
    rw [Function.update_self]
    exact ⟨fun e => absurd e hf, fun e => absurd e hp⟩
  · rw [Function.update_of_ne hq]

/-- A `reserve` of another key. -/
theorem Holds.reserve_other [Inhabited V] (H : Holds keys k d h) (hinj : Set.InjOn fhash keys)
    (h0 : ∀ k ∈ keys, fhash k ≠ 0) (hk : k ∈ keys) {k' : K} (hk' : k' ∈ keys) (hne : k' ≠ k) :
    (d.reserve k').1.nodeSize = d.nodeSize ∧ (d.reserve k').1.shash = d.shash
      ∧ Owned (fp (d.reserve k').1) (path d.shash) fhash keys
      ∧ (∀ q, fp (d.reserve k').1 q = fhash k ↔ fp d q = fhash k)
      ∧ (∀ q, fp d q = fhash k → (d.reserve k').1.load q = d.load q)
      ∧ ∀ p, (d.reserve k').2 = some p → fp d p ≠ fhash k := by
  have hload : ∀ d' : DLeft V, Grows d d' → ∀ q, fp d q = fhash k → d'.load q = d.load q :=
    fun d' hg q hq => hg.load q (lt_of_fp (hq ▸ h0 k hk))
  rcases d.reserve_cases k' with ⟨d', p, hr, hfirst, hg, -, hfp⟩ | ⟨d', hr, hg, hfp⟩
  · have hpk : fp d p ≠ fhash k := by
      rcases hfirst.mem with hz | hf
      · exact fun e => h0 k hk (e.symm.trans hz)
      · exact fun e => hne (hinj hk' hk (hf.symm.trans e))
    rw [hr]
    refine ⟨hg.nodeSize, hg.shash, ?_, ?_, hload d' hg, fun q hq => ?_⟩
    · rw [hfp]
      exact H.owned.take hk' hfirst.on
    · rw [hfp]
      exact fp_update_iff hpk fun e => hne (hinj hk' hk e)
    · cases hq
      exact hpk
  · rw [hr]
    exact ⟨hg.nodeSize, hg.shash, hfp ▸ H.owned, fun q => by rw [hfp], hload d' hg,
      fun q hq => by cases hq⟩

/-- A `reserve` of `k` that fails changes nothing for it. -/
theorem Holds.reserve_none (H : Holds keys k d h) (h0 : fhash k ≠ 0) (hg : Grows d d')
    (hfp : fp d' = fp d) (hst : stored k h' = stored k h) : Holds keys k d' h' :=
  H.of_same hg.nodeSize hg.shash (by rw [hfp, hg.shash]; exact H.owned) (fun q => by rw [hfp])
    (fun q hq => hg.load q (lt_of_fp (hq ▸ h0))) hst

theorem Holds.call_add [Inhabited V] (H : Holds keys k d h) (hinj : Set.InjOn fhash keys)
    (h0 : ∀ k ∈ keys, fhash k ≠ 0) (hk : k ∈ keys) {k' : K} (hk' : k' ∈ keys) (v : V) :
    Holds keys k (d.exec (.add k' v)).1 ((.add k' v, (d.exec (.add k' v)).2) :: h) := by
  by_cases hne : k' = k
  · subst hne
    rcases d.reserve_cases k' with ⟨d', p, hr, hfirst, hg, -, hfp⟩ | ⟨d', hr, hg, hfp⟩
    · have ha : d.add k' v = (d'.store p v, some p) := by rw [add, hr]
      simp only [exec, ha, Option.isSome_some]
      have hsize : (d'.store p v).nodeSize = d.nodeSize := hg.nodeSize
      have hshash : (d'.store p v).shash = d.shash := hg.shash
      refine H.of_slot hsize hshash hk hfirst
        (by rw [fp_store, hfp]) (by simp [stored, Entry.after]) fun w hw => ?_
      simp only [stored, Entry.after, and_self, if_true, Entry.holds.injEq] at hw
      rw [load_store, if_pos rfl, hw]
    · have ha : d.add k' v = (d', none) := by rw [add, hr]
      simp only [exec, ha, Option.isSome_none]
      exact H.reserve_none (h0 k' hk) hg hfp (by simp [stored, Entry.after])
  · obtain ⟨hsize, hshash, howned, hfp, hload, hp⟩ := H.reserve_other hinj h0 hk hk' hne
    have hst : ∀ b, stored k ((.add k' v, b) :: h) = stored k h := fun b => by
      simp [stored, Entry.after, hne]
    rcases hr : d.reserve k' with ⟨d', _ | p⟩ <;> rw [hr] at hsize hshash howned hfp hload hp
    · have ha : d.add k' v = (d', none) := by rw [add, hr]
      simp only [exec, ha]
      exact H.of_same hsize hshash (hshash ▸ howned) hfp hload (hst _)
    · have ha : d.add k' v = (d'.store p v, some p) := by rw [add, hr]
      simp only [exec, ha]
      have hsize' : (d'.store p v).nodeSize = d.nodeSize := hsize
      have hshash' : (d'.store p v).shash = d.shash := hshash
      refine H.of_same hsize' hshash' ?_ ?_ (fun q hq => ?_) (hst _)
      · rw [fp_store]
        exact hshash ▸ howned
      · rw [fp_store]
        exact hfp
      · have hqp : q ≠ p := fun e => hp p rfl (e ▸ hq)
        rw [load_store, if_neg hqp]
        exact hload q hq

theorem Holds.call_reserve [Inhabited V] (H : Holds keys k d h) (hinj : Set.InjOn fhash keys)
    (h0 : ∀ k ∈ keys, fhash k ≠ 0) (hk : k ∈ keys) {k' : K} (hk' : k' ∈ keys)
    (hno : k' = k → ¬ HoleBefore (fp d) (path d.shash k) (fhash k)) :
    Holds keys k (d.exec (.reserve k')).1 ((.reserve k', (d.exec (.reserve k')).2) :: h) := by
  by_cases hne : k' = k
  · subst hne
    rcases d.reserve_cases k' with ⟨d', p, hr, hfirst, hg, -, hfp⟩ | ⟨d', hr, hg, hfp⟩
    · simp only [exec, hr, Option.isSome_some]
      refine H.of_slot hg.nodeSize hg.shash hk hfirst hfp ?_ fun w hw => ?_
      · simp only [stored, Entry.after, and_self, if_true]
        split <;> simp_all
      · have hw' : stored k' h = .holds w := by
          simp only [stored, Entry.after, and_self, if_true] at hw
          split at hw
          · cases hw
          · exact hw
        obtain ⟨r, hr⟩ := H.present.1 (by rw [hw']; simp)
        obtain ⟨q, hq⟩ := H.owned.exists_first hinj hk (h0 k' hk) hr
        obtain rfl : p = q := hfirst.of_not_hole hq (hno rfl)
        rw [hg.load p (lt_of_fp (hq.mem ▸ h0 k' hk))]
        exact H.value w hw' p hq
    · simp only [exec, hr, Option.isSome_none]
      exact H.reserve_none (h0 k' hk) hg hfp (by simp [stored, Entry.after])
  · obtain ⟨hsize, hshash, howned, hfp, hload, -⟩ := H.reserve_other hinj h0 hk hk' hne
    exact H.of_same hsize hshash (hshash ▸ howned) hfp hload (by simp [stored, Entry.after, hne])

theorem Holds.call_remove [Inhabited V] (H : Holds keys k d h) (hinj : Set.InjOn fhash keys)
    (h0 : ∀ k ∈ keys, fhash k ≠ 0) (hk : k ∈ keys) {k' : K} (hk' : k' ∈ keys)
    (hone : k' = k → ∀ p q, fp d p = fhash k → fp d q = fhash k → p = q) :
    Holds keys k (d.exec (.remove k')).1 ((.remove k', (d.exec (.remove k')).2) :: h) := by
  have hst : k' ≠ k → ∀ b, stored k ((.remove k', b) :: h) = stored k h := fun hne b => by
    simp [stored, Entry.after, hne]
  rcases hf : d.find k' with _ | p
  · have hr : d.remove k' = (d, false) := by rw [remove, hf]
    simp only [exec, hr]
    refine H.of_same rfl rfl H.owned (fun _ => Iff.rfl) (fun _ _ => rfl) ?_
    by_cases hne : k' = k
    · subst hne
      have : stored k' h = .absent := by
        by_contra hpres
        obtain ⟨r, hr⟩ := H.present.1 hpres
        obtain ⟨q, hq⟩ := H.owned.exists_first hinj hk (h0 k' hk) hr
        rw [(find_eq_some_iff (h0 k' hk)).2 hq] at hf
        cases hf
      simp [stored, Entry.after, this]
    · exact hst hne _
  · have hr : d.remove k' = (d.setHashKey p 0, true) := by rw [remove, hf]
    have hfpp : fp d p = fhash k' := ((find_eq_some_iff (h0 k' hk')).1 hf).mem
    have hfp := fp_setHashKey (lt_of_fp (hfpp ▸ h0 k' hk')) 0
    have howned : Owned (fp (d.setHashKey p 0)) (path d.shash) fhash keys := by
      rw [hfp]
      exact H.owned.free p
    simp only [exec, hr]
    by_cases hne : k' = k
    · subst hne
      have hgone : ¬ ∃ q, fp (d.setHashKey p 0) q = fhash k' := by
        rintro ⟨q, hq⟩
        rw [hfp] at hq
        by_cases hqp : q = p
        · rw [hqp, Function.update_self] at hq
          exact h0 k' hk hq.symm
        · rw [Function.update_of_ne hqp] at hq
          exact hqp (hone rfl q p hq hfpp)
      exact
        { size := H.size
          owned := howned
          present := by simpa [stored, Entry.after] using hgone
          value := fun v _ q hq => absurd ⟨q, hq.mem⟩ hgone }
    · refine H.of_same rfl rfl howned ?_ (fun q _ => load_setHashKey d p q 0) (hst hne _)
      rw [hfp]
      exact fp_update_iff (fun e => hne (hinj hk' hk (hfpp.symm.trans e))) (h0 k hk).symm

theorem Holds.call_clear [Inhabited V] (H : Holds keys k d h) (h0 : fhash k ≠ 0)
    (hfit : 2 ^ d.shash * d.nodeSize < 2 ^ 32) :
    Holds keys k (d.exec (.clear : Op K V)).1 ((.clear, (d.exec (.clear : Op K V)).2) :: h) := by
  have hfp := fp_clear hfit (H.place_lt hfit)
  exact
    { size := H.size
      owned := by rw [exec, hfp]; exact owned_zero
      present := by
        simp only [exec, hfp, stored, Entry.after, ne_eq, not_true_eq_false, false_iff,
          not_exists]
        exact fun _ e => h0 e.symm
      value := by
        intro v hv
        simp [stored, Entry.after] at hv }

/-- One call keeps the correspondence. -/
theorem Holds.call [Inhabited V] (hinj : Set.InjOn fhash keys) (h0 : ∀ k ∈ keys, fhash k ≠ 0)
    (hk : k ∈ keys) (s : DLeft V × History K V) (op : Op K V) (s' : DLeft V × History K V)
    (H : Holds keys k s.1 s.2) (hC : (∀ k ∈ op.key?, k ∈ keys) ∧ Sole k s op)
    (h : DLeft.call s op = some s') : Holds keys k s'.1 s'.2 := by
  obtain ⟨hop, hsole⟩ := hC
  simp only [DLeft.call, Option.some.injEq] at h
  subst h
  cases op with
  | add k' v => exact H.call_add hinj h0 hk (hop k' rfl) v
  | reserve k' => exact H.call_reserve hinj h0 hk (hop k' rfl) hsole
  | remove k' => exact H.call_remove hinj h0 hk (hop k' rfl) hsole
  | clear => exact H.call_clear (h0 k hk) hsole

/-- **The table is a map.**  Over keys with distinct non-zero fingerprints, after any calls that
do not reserve a key behind a free node, nor remove it from one of two nodes, `get` answers with
what the answered calls left the key. -/
theorem dleft_refines_map [Inhabited V] (hinj : Set.InjOn fhash keys)
    (h0 : ∀ k ∈ keys, fhash k ≠ 0) {nodeSize nhash shash : ℕ} (hsize : 0 < nodeSize)
    (ops : List (Op K V)) (hkeys : ∀ op ∈ ops, ∀ k ∈ op.key?, k ∈ keys) :
    ∃ s, StepRun.run DLeft.call (new nodeSize nhash shash, []) ops = some s
      ∧ s.2.map Prod.fst = ops.reverse
      ∧ ∀ k ∈ keys, StepRun.Meets DLeft.call (Sole k) (new nodeSize nhash shash, []) ops →
          s.1.Reads k (stored k s.2) := by
  obtain ⟨s, hs⟩ := run_total ops (new nodeSize nhash shash, ([] : History K V))
  refine ⟨s, hs, by simpa using run_history ops hs, fun k hk hsole => ?_⟩
  have hmeets := StepRun.meets_and
    (StepRun.meets_of_forall_mem (C := fun _ op => ∀ k ∈ op.key?, k ∈ keys) (fun _ _ h => h) ops _
      hkeys) hsole
  have H : Holds keys k s.1 s.2 :=
    @StepRun.run_keeps _ _ _ _ (fun s : DLeft V × History K V => Holds keys k s.1 s.2)
      (fun s op s' hH hC h => Holds.call hinj h0 hk s op s' hH hC h) ops _ _
      (holds_new hsize (h0 k hk)) hmeets hs
  exact H.reads hinj hk (h0 k hk)

end Refinement

/-! ## Two hosts that share a place -/

/-- The table a list of calls leads to from a new one. -/
def after (nodeSize nhash shash : ℕ) (ops : List (Op HashedBuffer ℕ)) : DLeft ℕ :=
  ops.foldl (fun d op => (d.exec op).1) (new nodeSize nhash shash)

def hostA : HashedBuffer := ⟨[192, 168, 3, 40]⟩

def hostB : HashedBuffer := ⟨[192, 168, 8, 112]⟩

theorem fp_add [Inhabited V] (d : DLeft V) (key : K) (value : V) :
    fp (d.add key value).1 = fp d ∨
      ∃ p, fp (d.add key value).1 = Function.update (fp d) p (fhash key) := by
  rcases d.reserve_cases key with ⟨d', p, hr, -, -, -, hfp⟩ | ⟨d', hr, -, hfp⟩
  · exact .inr ⟨p, by rw [add, hr, fp_store, hfp]⟩
  · exact .inl (by rw [add, hr, hfp])

/-- The second host is added again behind the hole that the first one leaves. -/
def hostCalls : List (Op HashedBuffer ℕ) :=
  [.add hostA 0, .add hostB 7, .remove hostA, .add hostB 8]

/-- The first host has one node, whatever became of the second one. -/
theorem sole_hostA (p q : Slot)
    (hp : fp (((new 24 8 20 : DLeft ℕ).add hostA 0).1.add hostB 7).1 p = fhash hostA)
    (hq : fp (((new 24 8 20 : DLeft ℕ).add hostA 0).1.add hostB 7).1 q = fhash hostA) : p = q := by
  have h0 : fhash hostA ≠ 0 := by decide
  have hne : fhash hostB ≠ fhash hostA := by decide
  have hnew : ∀ x, fp (new 24 8 20 : DLeft ℕ) x ≠ fhash hostA := fun x hx => by
    rw [fp_new] at hx
    exact h0 hx.symm
  have hone : ∀ x y, fp ((new 24 8 20 : DLeft ℕ).add hostA 0).1 x = fhash hostA →
      fp ((new 24 8 20 : DLeft ℕ).add hostA 0).1 y = fhash hostA → x = y := by
    intro x y hx hy
    obtain hfp | ⟨r, hfp⟩ := fp_add (new 24 8 20 : DLeft ℕ) hostA 0
    · exact absurd (hfp ▸ hx) (hnew x)
    · rw [hfp, Function.update_apply] at hx hy
      split_ifs at hx hy with hxr hyr hyr
      · exact hxr.trans hyr.symm
      all_goals exact absurd ‹_› (hnew _)
  obtain hfp | ⟨r, hfp⟩ := fp_add ((new 24 8 20 : DLeft ℕ).add hostA 0).1 hostB 7
  · rw [hfp] at hp hq
    exact hone p q hp hq
  · rw [hfp, Function.update_apply] at hp hq
    split_ifs at hp hq
    all_goals first | exact absurd ‹_› hne | exact hone p q hp hq

theorem dleft_refines_map_host : ∃ s, StepRun.run DLeft.call (new 24 8 20, []) hostCalls = some s ∧
    s.1.Reads hostA .absent ∧ s.1.Reads hostB (.holds 8) := by
  have hne : fhash hostB ≠ fhash hostA := by decide
  have h0 : fhash hostA ≠ 0 ∧ fhash hostB ≠ 0 := by decide
  have hinj : Set.InjOn fhash ({hostA, hostB} : Set HashedBuffer) := by
    rintro x (rfl | rfl) y (rfl | rfl) hxy
    · rfl
    · exact absurd hxy.symm hne
    · exact absurd hxy hne
    · rfl
  obtain ⟨s, hs, -, hreads⟩ : ∃ s, StepRun.run DLeft.call (new 24 8 20, []) hostCalls = some s ∧
      s.2.map Prod.fst = hostCalls.reverse ∧ ∀ k ∈ ({hostA, hostB} : Set HashedBuffer),
        StepRun.Meets DLeft.call (Sole k) (new 24 8 20, []) hostCalls →
          s.1.Reads k (stored k s.2) :=
    dleft_refines_map hinj (by rintro k (rfl | rfl); exacts [h0.1, h0.2]) (by decide) hostCalls
      (by simp [hostCalls, Op.key?])
  have hanswers : (StepRun.run DLeft.call (new 24 8 20, []) hostCalls).map Prod.snd =
      some [(.add hostB 8, true), (.remove hostA, true), (.add hostB 7, true),
        (.add hostA 0, true)] := rfl
  rw [hs] at hanswers
  have hhistory := Option.some.inj hanswers
  refine ⟨s, hs, ?_, ?_⟩
  · have hread := hreads hostA (by simp) ⟨trivial, fun s₁ h₁ => ⟨trivial, fun s₂ h₂ =>
      ⟨fun _ p q hp hq => ?_, fun _ _ => ⟨trivial, fun _ _ => trivial⟩⟩⟩⟩
    · rw [hhistory] at hread
      exact hread
    · cases h₁
      cases h₂
      exact sole_hostA p q hp hq
  · have hread := hreads hostB (by simp) ⟨trivial, fun _ _ => ⟨trivial, fun _ _ =>
      ⟨fun h => absurd h (by decide), fun _ _ => ⟨trivial, fun _ _ => trivial⟩⟩⟩⟩
    rw [hhistory] at hread
    exact hread

/-- A key only reserved is found; a key added again behind the hole of a removed one is found with
its old value after its own removal; and a sub-table of `2 ^ 32` bytes keeps its keys through a
`clear`. -/
theorem dleft_map_fails :
    fhash hostA ≠ 0 ∧ fhash hostB ≠ 0 ∧ fhash hostA ≠ fhash hostB
    ∧ ((after 24 8 20 [.reserve hostA]).get hostA).isSome = true
    ∧ ((after 24 8 20 [.add hostA 0, .add hostB 7, .remove hostA, .add hostB 8]).remove hostB).2
        = true
    ∧ ((after 24 8 20 [.add hostA 0, .add hostB 7, .remove hostA, .add hostB 8,
          .remove hostB]).get hostB).map
        (after 24 8 20 [.add hostA 0, .add hostB 7, .remove hostA, .add hostB 8,
          .remove hostB]).load = some 7
    ∧ ((after 16 1 28 [.add hostA 7, .clear]).get hostA).isSome = true := by
  decide

end DLeft

end DStreamon
