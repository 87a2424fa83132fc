import DStreamon.Proofs.DLeft

/-!
# The slots of a d-left table are exclusive

A slot is free where its fingerprint field is zero.  With keys whose own fingerprint is not, a slot
taken stays its key's until it is freed, and what was never added is not found; a key whose
fingerprint is zero leaves the slot it takes free, and finds every free one.
-/

namespace DStreamon

open IReadBuffer FirstFit

namespace DLeft

variable {V K : Type*} [IReadBuffer K]

/-- A call on a table. -/
inductive Call (K V : Type*) where
  | reserve (key : K)
  | add (key : K) (value : V)
  | get (key : K)
  | remove (key : K)
  | removeNode (element : Slot)
  | clear

namespace Call

/-- The key a call is made with. -/
def key? : Call K V → Option K
  | reserve key | add key _ | get key | remove key => some key
  | removeNode _ | clear => none

/-- The call gives a key with this fingerprint a slot. -/
def Adds (f : UInt32) : Call K V → Prop
  | reserve key | add key _ => fhash key = f
  | _ => False

/-- The call removes a key with this fingerprint, the element at `p`, or everything. -/
def Frees (f : UInt32) (p : Slot) : Call K V → Prop
  | remove key => fhash key = f
  | removeNode element => element = p
  | clear => True
  | _ => False

end Call

variable [Inhabited V]

/-- The table after a call; what `remove(V*)` throws is caught. -/
def called (d : DLeft V) : Call K V → DLeft V
  | .reserve key => (d.reserve key).1
  | .add key value => (d.add key value).1
  | .get _ => d
  | .remove key => (d.remove key).1
  | .removeNode element => (d.removeNode element).getD d
  | .clear => d.clear

def afterCalls (d : DLeft V) (calls : List (Call K V)) : DLeft V := calls.foldl called d

/-- The slot of a `reserve` is not given to a key with another fingerprint before it is freed. -/
def Exclusive (d : DLeft V) (calls : List (Call K V)) : Prop :=
  ∀ before between rest k k' p, calls = before ++ .reserve k :: (between ++ .reserve k' :: rest) →
    ((d.afterCalls before).reserve k).2 = some p →
    ((d.afterCalls (before ++ .reserve k :: between)).reserve k').2 = some p →
    fhash k ≠ fhash k' → ∃ c ∈ between, c.Frees (fhash k) p

/-- A key none of whose fingerprint was added is neither found nor removed. -/
def NeverFound (d : DLeft V) (calls : List (Call K V)) (j : K) : Prop :=
  (∀ c ∈ calls, ¬ c.Adds (fhash j)) →
    (d.afterCalls calls).get j = none ∧ ((d.afterCalls calls).remove j).2 = false

variable {d d' : DLeft V} {f : UInt32} {p : Slot} {c : Call K V}

/-! ## What a call can do to the marks -/

/-- A key takes a slot that is free or its own. -/
theorem reserve_fp (d : DLeft V) (key : K) : fp (d.reserve key).1 = fp d ∨
    ∃ q, (d.reserve key).2 = some q ∧ (fp d q = 0 ∨ fp d q = fhash key) ∧
      fp (d.reserve key).1 = Function.update (fp d) q (fhash key) := by
  rcases d.reserve_cases key with ⟨d', q, hr, hfirst, -, -, hfp⟩ | ⟨d', hr, -, hfp⟩
  · rw [hr]
    exact .inr ⟨q, rfl, hfirst.mem, hfp⟩
  · rw [hr]
    exact .inl hfp

theorem add_fp (d : DLeft V) (key : K) (value : V) :
    fp (d.add key value).1 = fp (d.reserve key).1 := by
  unfold add
  split
  · next d' slot hr => rw [hr, fp_store]
  · next d' hr => rw [hr]

omit [Inhabited V] in
theorem remove_fp (d : DLeft V) (key : K) : fp (d.remove key).1 = fp d ∨
    ∃ q, fp d q = fhash key ∧ fp (d.remove key).1 = Function.update (fp d) q 0 := by
  unfold remove
  split
  · next q hq =>
    obtain ⟨hmark, hlt⟩ := find_hit hq
    exact .inr ⟨q, hmark, fp_setHashKey hlt 0⟩
  · exact .inl rfl

omit [Inhabited V] in
theorem removeNode_fp (d : DLeft V) (element : Slot) : fp ((d.removeNode element).getD d) = fp d ∨
    fp ((d.removeNode element).getD d) = Function.update (fp d) element 0 := by
  unfold removeNode
  split_ifs with h
  · exact .inr (fp_setHashKey h.1 0)
  · exact .inl rfl

theorem clear_fp (d : DLeft V) (q : Slot) : fp d.clear q = fp d q ∨ fp d.clear q = 0 := by
  unfold fp clear hashKey
  dsimp only
  split_ifs
  · exact .inr rfl
  · exact .inl rfl
  · exact .inl rfl

/-- The mark of a key stays until a call frees it. -/
theorem called_keeps (h0 : ∀ k ∈ c.key?, fhash k ≠ 0) (hf : f ≠ 0) (hp : fp d p = f)
    (hc : ¬ c.Frees f p) : fp (d.called c) p = f := by
  have htake : ∀ key : K, fhash key ≠ 0 → fp (d.reserve key).1 p = f := by
    intro key hkey
    rcases reserve_fp d key with h | ⟨q, -, hq, h⟩
    · rw [h, hp]
    · rw [h]
      by_cases hqp : p = q
      · subst hqp
        rw [Function.update_self]
        rcases hq with hq | hq
        · exact absurd (hp.symm.trans hq) hf
        · exact hq.symm.trans hp
      · rw [Function.update_of_ne hqp, hp]
  cases c with
  | reserve key => exact htake key (h0 key rfl)
  | add key value => exact (congrFun (add_fp d key value) p).trans (htake key (h0 key rfl))
  | get key => exact hp
  | remove key =>
    rcases remove_fp d key with h | ⟨q, hq, h⟩
    · exact (congrFun h p).trans hp
    · refine (congrFun h p).trans ?_
      have hqp : p ≠ q := fun e => hc ((e ▸ hq).symm.trans hp)
      rw [Function.update_of_ne hqp, hp]
  | removeNode element =>
    rcases removeNode_fp d element with h | h
    · exact (congrFun h p).trans hp
    · refine (congrFun h p).trans ?_
      have hne : p ≠ element := fun e => hc e.symm
      rw [Function.update_of_ne hne, hp]
  | clear => exact absurd trivial hc

theorem afterCalls_keeps : ∀ (calls : List (Call K V)) {d : DLeft V},
    (∀ c ∈ calls, ∀ k ∈ c.key?, fhash k ≠ 0) → f ≠ 0 → fp d p = f →
      (∀ c ∈ calls, ¬ c.Frees f p) → fp (d.afterCalls calls) p = f
  | [], _, _, _, hp, _ => hp
  | c :: calls, d, h0, hf, hp, hno => by
    obtain ⟨hc0, h0⟩ := List.forall_mem_cons.1 h0
    obtain ⟨hc, hno⟩ := List.forall_mem_cons.1 hno
    exact afterCalls_keeps calls h0 hf (called_keeps hc0 hf hp hc) hno

/-- No mark comes from nothing. -/
theorem called_new (hf : f ≠ 0) (hp : ∀ p, fp d p ≠ f) (hc : ¬ c.Adds f) (p : Slot) :
    fp (d.called c) p ≠ f := by
  have hfree : ∀ q, Function.update (fp d) q 0 p ≠ f := by
    intro q
    by_cases hqp : p = q
    · rw [hqp, Function.update_self]
      exact hf.symm
    · rw [Function.update_of_ne hqp]
      exact hp p
  have htake : ∀ key : K, fhash key ≠ f → fp (d.reserve key).1 p ≠ f := by
    intro key hkey
    rcases reserve_fp d key with h | ⟨q, -, -, h⟩
    · exact fun e => hp p ((congrFun h p).symm.trans e)
    · rw [h]
      by_cases hqp : p = q
      · rw [hqp, Function.update_self]
        exact hkey
      · rw [Function.update_of_ne hqp]
        exact hp p
  cases c with
  | reserve key => exact htake key hc
  | add key value => exact fun e => htake key hc ((congrFun (add_fp d key value) p).symm.trans e)
  | get key => exact hp p
  | remove key =>
    rcases remove_fp d key with h | ⟨q, -, h⟩
    · exact fun e => hp p ((congrFun h p).symm.trans e)
    · exact fun e => hfree q ((congrFun h p).symm.trans e)
  | removeNode element =>
    rcases removeNode_fp d element with h | h
    · exact fun e => hp p ((congrFun h p).symm.trans e)
    · exact fun e => hfree element ((congrFun h p).symm.trans e)
  | clear =>
    rcases clear_fp d p with h | h
    · exact fun e => hp p (h.symm.trans e)
    · exact fun e => hf (e.symm.trans h)

theorem afterCalls_new : ∀ (calls : List (Call K V)) {d : DLeft V}, f ≠ 0 → (∀ p, fp d p ≠ f) →
    (∀ c ∈ calls, ¬ c.Adds f) → ∀ p, fp (d.afterCalls calls) p ≠ f
  | [], _, _, hp, _ => hp
  | c :: calls, d, hf, hp, hno => by
    obtain ⟨hc, hno⟩ := List.forall_mem_cons.1 hno
    exact afterCalls_new calls hf (called_new hf hp hc) hno

/-! ## Runs -/

theorem exclusive_of_ne_zero (d : DLeft V) {calls : List (Call K V)}
    (h0 : ∀ c ∈ calls, ∀ k ∈ c.key?, fhash k ≠ 0) : Exclusive d calls := by
  rintro before between rest k k' p rfl hk hk' hne
  by_contra hno
  have hk0 : fhash k ≠ 0 := h0 (.reserve k) (by simp) k rfl
  have hmark : fp ((d.afterCalls before).reserve k).1 p = fhash k := by
    rcases (d.afterCalls before).reserve_cases k with ⟨d', q, hr, -, -, -, hfp⟩ | ⟨d', hr, -, -⟩
    · rw [hr, Option.some.injEq] at hk
      rw [hr, ← hk, hfp, Function.update_self]
    · rw [hr] at hk
      cases hk
  have hkept : fp (d.afterCalls (before ++ .reserve k :: between)) p = fhash k := by
    have happ : d.afterCalls (before ++ .reserve k :: between) =
        ((d.afterCalls before).called (.reserve k)).afterCalls between := by
      simp [afterCalls]
    rw [happ]
    exact afterCalls_keeps between (fun c hc => h0 c (by simp [hc])) hk0 hmark
      fun c hc hfree => hno ⟨c, hc, hfree⟩
  rcases (d.afterCalls (before ++ .reserve k :: between)).reserve_cases k' with
    ⟨d', q, hr, hfirst, -, -, -⟩ | ⟨d', hr, -, -⟩
  · rw [hr, Option.some.injEq] at hk'
    subst hk'
    rcases hfirst.mem with h | h
    · exact hk0 (hkept.symm.trans h)
    · exact hne (hkept.symm.trans h)
  · rw [hr] at hk'
    cases hk'

theorem neverFound_of_ne_zero (nodeSize nhash shash : ℕ) (calls : List (Call K V)) {j : K}
    (hj : fhash j ≠ 0) : NeverFound (new nodeSize nhash shash) calls j := by
  intro hno
  have hnew : ∀ p, fp (new nodeSize nhash shash : DLeft V) p ≠ fhash j := fun p => by
    rw [fp_new]
    exact hj.symm
  have hfind : ((new nodeSize nhash shash : DLeft V).afterCalls calls).find j = none := by
    refine Option.eq_none_iff_forall_ne_some.2 fun p hp => ?_
    exact afterCalls_new calls hj hnew hno p (find_hit hp).1
  refine ⟨hfind, ?_⟩
  unfold remove
  rw [hfind]

/-- A key with the fingerprint of a free slot is found in a new table. -/
theorem found_of_zero (nodeSize nhash shash : ℕ) {j : K} (hj : fhash j = 0) :
    (new nodeSize nhash shash : DLeft V).find j ≠ none := by
  have hcell : cellAt shash j 0 = some (0, place shash j 0) := if_neg (by omega)
  have hfirst : (path shash j).First
      (fun q => fp (new nodeSize nhash shash : DLeft V) q = fhash j) (0, place shash j 0) :=
    ⟨0, hcell, by rw [fp_new, hj], fun i hi => absurd hi (Nat.not_lt_zero i)⟩
  rw [find_iff.2 ⟨hfirst, Nat.zero_lt_one⟩]
  simp

/-- The slots are exclusive in every run of calls with these keys iff no key's fingerprint is
zero. -/
theorem slots_exclusive_iff (nodeSize nhash shash : ℕ) (keys : Set K) :
    (∀ calls : List (Call K V), (∀ c ∈ calls, ∀ k ∈ c.key?, k ∈ keys) →
      Exclusive (new nodeSize nhash shash) calls ∧
        ∀ j ∈ keys, NeverFound (new nodeSize nhash shash) calls j) ↔
    ∀ k ∈ keys, fhash k ≠ 0 := by
  constructor
  · intro h k hk hz
    obtain ⟨-, hnever⟩ := h [] (by simp)
    obtain ⟨hget, -⟩ := hnever k hk (by simp)
    exact found_of_zero nodeSize nhash shash hz hget
  · intro h calls hkeys
    exact ⟨exclusive_of_ne_zero _ fun c hc k hk => h k (hkeys c hc k hk),
      fun j hj => neverFound_of_ne_zero nodeSize nhash shash calls (h j hj)⟩

/-- Four bytes whose fingerprint is zero. -/
def unmarked : HashedBuffer := ⟨[0xcc, 0x24, 0x31, 0xc4]⟩

/-- They are found in a new table, and the slot they take is given to the next key probed there. -/
theorem slots_not_exclusive : ¬ NeverFound (new 8 1 1 : DLeft UInt32) [] unmarked ∧
    ¬ Exclusive (new 8 1 1 : DLeft UInt32) [.reserve unmarked, .reserve ⟨[2]⟩] := by
  constructor
  · intro h
    exact absurd (h (by simp)).1 (by decide)
  · intro h
    obtain ⟨c, hc, -⟩ := h [] [] [] unmarked ⟨[2]⟩ (0, 0) rfl (by decide) (by decide) (by decide)
    cases hc

end DLeft

end DStreamon
