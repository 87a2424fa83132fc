import DStreamon.Lib.Lockstep
import DStreamon.Proofs.Contract

/-!
# The d-left counter against the sums

The counter follows the sums of the quantities as long as they fit in a word.  `clear` ends them
all, where the bytes of a sub-table are less than 2 ^ 32.
-/

namespace DStreamon

open DLeft Lockstep
open IReadBuffer
open Function (update)

/-- A call, an `add` of a natural quantity. -/
inductive CountOp (K : Type) where
  | add (key : K) (quantity : ℕ)
  | get (key : K)
  | reset (key : K)
  | clear

/-- What a call returns; `full` is the failed assert of an `add` without a node. -/
inductive CountAnswer (F : Type) where
  | value (x : F)
  | found (b : Bool)
  | done
  | full
  deriving DecidableEq

variable {F K : Type} [Field F] [LinearOrder F] [FloorRing F] [IReadBuffer K]

namespace CountOp

def key? : CountOp K → Option K
  | add key _ | get key | reset key => some key
  | clear => none

def run (s : DLeftCounter) : CountOp K → DLeftCounter × CountAnswer F
  | add key quantity =>
    match s.add key (quantity : F) with
    | some (s, x) => (s, .value x)
    | none => (s, .full)
  | get key => (s, .value (s.get key))
  | reset key => (⟨(s.table.remove key).1⟩, .found (s.table.remove key).2)
  | clear => (⟨s.table.clear⟩, .done)

variable [DecidableEq K]

/-- The sums of the keys with an entry. -/
def sums (t : K → Option ℕ) : CountOp K → (K → Option ℕ) × CountAnswer F
  | add key quantity =>
    let sum := (t key).getD 0 + quantity
    (update t key (some sum), .value (sum : F))
  | get key => (t, .value (((t key).getD 0 : ℕ) : F))
  | reset key => (update t key none, .found (t key).isSome)
  | clear => (fun _ => none, .done)

/-- A sum fits in a word, and a table to clear is not too large to be. -/
def Fits (keys : Set K) (shash : ℕ) (t : K → Option ℕ) : CountOp K → Prop
  | add key quantity => (t key).getD 0 + quantity < 2 ^ 32
  | clear => shash < 29 ∨ ∀ k ∈ keys, t k = none
  | _ => True

end CountOp

namespace DLeftCounter

variable {keys : Set K} {s : DLeftCounter} {t : K → Option ℕ} {key : K} {shash : ℕ}

/-- To every key `get` is its sum, and `reset` would find it if it has one. -/
def Agrees (F : Type) [Field F] (keys : Set K) (s : DLeftCounter) (t : K → Option ℕ) : Prop :=
  ∀ k ∈ keys, (s.get k : F) = ((t k).getD 0 : ℕ) ∧ (s.table.remove k).2 = (t k).isSome

/-- The table as its constructor makes it, and without a key in two nodes. -/
structure Sized (keys : Set K) (shash : ℕ) (s : DLeftCounter) : Prop where
  exact : Exact keys s.table
  nodeSize : s.table.nodeSize = 8
  shash_eq : s.table.shash = shash

omit [LinearOrder F] [FloorRing F] in
theorem get_eq (s : DLeftCounter) (key : K) :
    (s.get key : F) = (((s.table.entry key).getD 0).toNat : F) := by
  rw [DLeftCounter.get, entry]
  cases s.table.get key with
  | none => simp
  | some p => rfl

theorem remove_found (s : DLeftCounter) (key : K) :
    (s.table.remove key).2 = (s.table.entry key).isSome := by
  rw [entry, DLeft.get, DLeft.remove]
  cases s.table.find key <;> rfl

variable [IsStrictOrderedRing F]

omit [FloorRing F] in
theorem agrees_iff : Agrees F keys s t ↔
    ∀ k ∈ keys, (s.table.entry k).map UInt32.toNat = t k := by
  refine forall₂_congr fun k _ => ?_
  rw [get_eq, remove_found, Nat.cast_inj]
  cases s.table.entry k <;> cases t k <;> simp

/-- A natural sum as a word. -/
theorem toUInt32_add (n : UInt32) (quantity : ℕ) :
    (toUInt32 (ofUInt32 n + quantity : F)).toNat = (n.toNat + quantity) % 2 ^ 32 := by
  have hcast : (ofUInt32 n + quantity : F) = ((n.toNat + quantity : ℕ) : F) := by
    rw [ofUInt32, Nat.cast_add]
  have hmod : ((n.toNat + quantity : ℕ) % 2 ^ 32 : ℤ).toNat = (n.toNat + quantity) % 2 ^ 32 := by
    omega
  rw [hcast, toUInt32, if_pos (Nat.cast_nonneg _), Int.floor_natCast, UInt32.ofInt, hmod,
    UInt32.toNat_ofNat', Nat.mod_mod]

omit [LinearOrder F] [FloorRing F] [IsStrictOrderedRing F] in
theorem sized_new {nhash : ℕ} (h : DLeftCounter.new nhash shash = some s) :
    Sized keys shash s := by
  unfold DLeftCounter.new at h
  split_ifs at h
  cases h
  exact ⟨exact_new, rfl, rfl⟩

omit [FloorRing F] in
theorem agrees_new {nhash : ℕ} (ht : Told keys) (h : DLeftCounter.new nhash shash = some s) :
    Agrees F keys s fun _ => none := by
  unfold DLeftCounter.new at h
  split_ifs at h
  cases h
  refine agrees_iff.2 fun k hk => ?_
  have hnone : (DLeft.new 8 nhash shash : DLeft UInt32).get k = none := by
    refine Option.eq_none_iff_forall_ne_some.2 fun p hp => ?_
    have hmark := (find_hit hp).1
    rw [fp_new] at hmark
    exact ht.marks k hk hmark.symm
  rw [entry, hnone]
  rfl

/-! ## Each call -/

theorem Sized.add {s' : DLeftCounter} {quantity : ℕ} {x : F} (h : Sized keys shash s)
    (ht : Told keys) (hkey : key ∈ keys) (ha : s.add key (quantity : F) = some (s', x)) :
    Sized keys shash s' ∧ ∃ n : UInt32,
      n.toNat = (((s.table.entry key).getD 0).toNat + quantity) % 2 ^ 32 ∧ x = (n.toNat : F) ∧
      s'.table.entry key = some n ∧
      ∀ k ∈ keys, k ≠ key → s'.table.entry k = s.table.entry k := by
  obtain ⟨n, rfl, rfl, hexact, hsize, hshash, hentry, hother⟩ := add_entry h.exact ht hkey ha
  exact ⟨⟨hexact, hsize.trans h.nodeSize, hshash.trans h.shash_eq⟩, _, toUInt32_add _ quantity, rfl,
    hentry, hother⟩

omit [Field F] [LinearOrder F] [FloorRing F] [IsStrictOrderedRing F] in
theorem Sized.remove (h : Sized keys shash s) (ht : Told keys) (hkey : key ∈ keys) :
    Sized keys shash ⟨(s.table.remove key).1⟩ := by
  obtain ⟨hexact, -, hsize, hshash, -⟩ := h.exact.remove ht hkey
  exact ⟨hexact, hsize.trans h.nodeSize, hshash.trans h.shash_eq⟩

/-- The entries are gone, but with sub-tables of 2 ^ 32 bytes and more all are left. -/
theorem Sized.clear (h : Sized keys shash s) (ht : Told keys) :
    Sized keys shash ⟨s.table.clear⟩ ∧
      ∀ k ∈ keys, s.table.clear.entry k = if shash < 29 then none else s.table.entry k := by
  split_ifs with hlt
  · have hpow : 2 ^ s.table.shash ≤ 2 ^ 28 :=
      Nat.pow_le_pow_right (by omega) (by rw [h.shash_eq]; omega)
    have hsize := h.nodeSize
    obtain ⟨hexact, hnone⟩ := h.exact.clear ht (by rw [hsize]; omega) (by omega)
    exact ⟨⟨hexact, h.nodeSize, h.shash_eq⟩, hnone⟩
  · rw [clear_eq (by rw [h.shash_eq]; omega) h.nodeSize]
    exact ⟨h, fun _ _ => rfl⟩

end DLeftCounter

namespace CountOp

open DLeftCounter

variable {keys : Set K} {shash : ℕ} {s : DLeftCounter} {t : K → Option ℕ} {o : CountOp K}
  [IsStrictOrderedRing F]

theorem run_sized (ht : Told keys) (h : Sized keys shash s) (ho : ∀ k ∈ o.key?, k ∈ keys) :
    Sized keys shash (run (F := F) s o).1 := by
  cases o with
  | add key quantity =>
    rw [run]
    cases ha : s.add key (quantity : F) with
    | none => exact h
    | some r => exact (h.add ht (ho key rfl) ha).1
  | get key => exact h
  | reset key => exact h.remove ht (ho key rfl)
  | clear => exact (h.clear ht).1

variable [DecidableEq K]

/-- An `add` agrees with the sums if and only if the sum fits. -/
theorem add_agrees_iff {key : K} {quantity : ℕ} (ht : Told keys) (h : Sized keys shash s)
    (hkey : key ∈ keys) (hroom : (run (F := F) s (add key quantity)).2 ≠ .full)
    (hs : Agrees F keys s t) :
    (run (F := F) s (add key quantity)).2 = (sums t (add key quantity)).2 ∧
        Agrees F keys (run (F := F) s (add key quantity)).1 (sums (F := F) t (add key quantity)).1 ↔
      (t key).getD 0 + quantity < 2 ^ 32 := by
  rw [run] at hroom ⊢
  rw [agrees_iff] at hs ⊢
  cases ha : s.add key (quantity : F) with
  | none =>
    rw [ha] at hroom
    exact absurd rfl hroom
  | some r =>
    obtain ⟨s', x⟩ := r
    obtain ⟨-, n, hn, rfl, hentry, hother⟩ := h.add ht hkey ha
    have hold : ((s.table.entry key).getD 0).toNat = (t key).getD 0 := by
      rw [← hs key hkey]
      cases s.table.entry key <;> rfl
    rw [hold] at hn
    have hlt := n.toNat_lt
    simp only [sums, CountAnswer.value.injEq, Nat.cast_inj]
    constructor
    · rintro ⟨hsum, -⟩
      omega
    · intro hfit
      rw [Nat.mod_eq_of_lt hfit] at hn
      refine ⟨hn, fun k hk => ?_⟩
      by_cases hkk : k = key
      · rw [hkk, hentry, Function.update_self, ← hn]
        rfl
      · rw [hother k hk hkk, Function.update_of_ne hkk, hs k hk]

theorem run_agrees_iff (ht : Told keys) (h : Sized keys shash s) (ho : ∀ k ∈ o.key?, k ∈ keys)
    (hroom : (run (F := F) s o).2 ≠ .full) (hs : Agrees F keys s t) :
    (run (F := F) s o).2 = (sums t o).2 ∧
        Agrees F keys (run (F := F) s o).1 (sums (F := F) t o).1 ↔ Fits keys shash t o := by
  cases o with
  | add key quantity => exact add_agrees_iff ht h (ho key rfl) hroom hs
  | get key =>
    have hget := (hs key (ho key rfl)).1
    exact iff_of_true ⟨by rw [run, sums, hget], hs⟩ trivial
  | reset key =>
    have hkey := ho key rfl
    have hfound := (hs key hkey).2
    refine iff_of_true ⟨by rw [run, sums, hfound], ?_⟩ trivial
    rw [agrees_iff] at hs ⊢
    obtain ⟨-, hnone, -, -, hother⟩ := h.exact.remove ht hkey
    intro k hk
    change ((s.table.remove key).1.entry k).map UInt32.toNat = update t key none k
    by_cases hkk : k = key
    · rw [hkk, hnone, Function.update_self]
      rfl
    · rw [hother k hk hkk, Function.update_of_ne hkk, hs k hk]
  | clear =>
    rw [agrees_iff] at hs ⊢
    obtain ⟨-, hentry⟩ := h.clear ht
    refine (and_iff_right rfl).trans ?_
    change (∀ k ∈ keys, (s.table.clear.entry k).map UInt32.toNat = none) ↔ _
    rw [Fits]
    by_cases hlt : shash < 29
    · refine iff_of_true (fun k hk => ?_) (.inl hlt)
      rw [hentry k hk, if_pos hlt]
      rfl
    · rw [or_iff_right hlt]
      refine forall₂_congr fun k hk => ?_
      rw [hentry k hk, if_neg hlt, hs k hk]

/-- In every run in which no `add` finds the table full the counter agrees with the sums at every
call, if and only if each sum fits in a word and no entry is left by a `clear`. -/
theorem counts_exactly_iff {nhash : ℕ} {ops : List (CountOp K)} (ht : Told keys)
    (hnew : DLeftCounter.new nhash shash = some s) (hkeys : ∀ o ∈ ops, ∀ k ∈ o.key?, k ∈ keys)
    (hroom : Meets (run (F := F)) (fun s o => (run (F := F) s o).2 ≠ .full) s ops) :
    Follows (run (F := F)) sums (Agrees F keys) s (fun _ => none) ops ↔
      Meets (sums (F := F)) (Fits keys shash) (fun _ => none) ops :=
  follows_iff_of_meets (fun _ _ h ho => run_sized ht h ho)
    (fun _ _ _ h ho hroom hs => run_agrees_iff ht h ho hroom hs) ops hkeys (sized_new hnew) hroom
    (agrees_new ht hnew)

/-- Two keys counted, one of them reset, and the table cleared. -/
def twoKeys : List (CountOp HashedBuffer) :=
  [.add ⟨[1]⟩ 3, .add ⟨[2]⟩ 4, .add ⟨[1]⟩ 5, .reset ⟨[1]⟩, .get ⟨[2]⟩, .clear, .get ⟨[2]⟩]

theorem counts_exactly_twoKeys : ∃ s, DLeftCounter.new 2 4 = some s ∧
    Follows (run (F := ℚ)) sums (Agrees ℚ {k : HashedBuffer | k ∈ [⟨[1]⟩, ⟨[2]⟩]}) s
      (fun _ => none) twoKeys := by
  refine ⟨⟨.new 8 2 4⟩, rfl, ?_⟩
  refine (counts_exactly_iff (K := HashedBuffer) told_twoKeys (rfl : DLeftCounter.new 2 4 = _)
    (by decide) (by decide +kernel)).2 ?_
  exact ⟨(by decide : 0 + 3 < 2 ^ 32), (by decide : 0 + 4 < 2 ^ 32), (by decide : 3 + 5 < 2 ^ 32),
    trivial, trivial, .inl (by decide), trivial, trivial⟩

/-- The word of a key wraps. -/
theorem counts_not_exactly : ¬ ∀ (keys : Set HashedBuffer) (nhash shash : ℕ) (s : DLeftCounter)
    (ops : List (CountOp HashedBuffer)), Told keys → DLeftCounter.new nhash shash = some s →
    (∀ o ∈ ops, ∀ k ∈ o.key?, k ∈ keys) →
    Meets (run (F := ℚ)) (fun s o => (run (F := ℚ) s o).2 ≠ .full) s ops →
    Follows (run (F := ℚ)) sums (Agrees ℚ keys) s (fun _ => none) ops := by
  intro hall
  have hfollows := hall _ 2 4 ⟨.new 8 2 4⟩ [.add ⟨[1]⟩ (2 ^ 32 - 1), .add ⟨[1]⟩ 1] told_twoKeys
    rfl (by decide) (by decide +kernel)
  exact absurd hfollows.2.2.2.1 (by decide +kernel)

end CountOp

end DStreamon
