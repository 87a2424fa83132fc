import DStreamon.Proofs.Entries
import DStreamon.TableUpdate

/-!
# Table updates mean what they say

The tables write what they are asked to, so the generated function does, but for a number that is
zero: the entry is then added anew, whatever the operator is.
-/

namespace DStreamon

namespace TableUpdate

open Objects (load store)
open Dictionary (get add)

/-! ## The tables -/

section DLeftTable

open DLeft

variable {K V : Type} [IReadBuffer K]

theorem inUse_iff {d : DLeft V} {q : Slot} : InUse.inUse d q ↔ fp d q ≠ 0 := by
  constructor
  · rintro ⟨hlt, hq⟩
    rwa [fp_of_lt hlt]
  · intro h
    have hlt := lt_of_fp h
    exact ⟨hlt, by rwa [← fp_of_lt hlt]⟩

variable [Inhabited V] {d d' : DLeft V} {key k : K} {p : Slot} {v : V}

/-- A key told apart finds what it found where only a free node, or one of another fingerprint, is
marked. -/
theorem entry_of_fp (hsh : d'.shash = d.shash) (hapart : Apart.apart (DLeft V) key k)
    (hfree : fp d p = 0 ∨ fp d p = fhash key)
    (hfp : fp d' = Function.update (fp d) p (fhash key))
    (hload : ∀ q : Slot, q.1 < d.tableCount → q ≠ p → d'.load q = d.load q) :
    TableUpdate.entry d' k = TableUpdate.entry d k := by
  obtain ⟨hne, h0⟩ := hapart
  have hold : fp d p ≠ fhash k := by
    rcases hfree with h | h
    · exact fun h' => h0 (h'.symm.trans h)
    · exact fun h' => hne (h'.symm.trans h)
  have hmark : ∀ q, fp d q = fhash k ↔ fp d' q = fhash k := by
    intro q
    rw [hfp]
    by_cases hq : q = p
    · subst hq
      rw [Function.update_self]
      exact iff_of_false hold fun h => hne h.symm
    · rw [Function.update_of_ne hq]
  have hget : d'.get k = d.get k := by
    refine Option.ext fun q =>
      ⟨get_congr h0 hsh.symm fun q => (hmark q).symm, get_congr h0 hsh hmark⟩
  show (d'.get k).map d'.load = (d.get k).map d.load
  rw [hget]
  rcases hg : d.get k with _ | q
  · rfl
  · obtain ⟨hq, hlt⟩ := get_hit hg
    rw [Option.map_some, Option.map_some, hload q hlt fun h => hold (h ▸ hq)]

instance : LawfulTable (DLeft V) K where
  add_some := by
    intro d d' k p v h
    obtain ⟨hget, hload, hsh, hfree, hfp, hother⟩ := DLeft.add_some h
    refine ⟨hget, hload, fun q hq hne => ?_, fun k' hk' => entry_of_fp hsh hk' hfree hfp hother⟩
    have hq := inUse_iff.1 hq
    refine ⟨inUse_iff.2 ?_, hother q (lt_of_fp hq) hne⟩
    rwa [hfp, Function.update_of_ne hne]
  add_fresh := by
    intro d d' k p v hg h huse
    have hp := inUse_iff.1 huse
    rcases d.reserve_cases k with ⟨d₁, p₁, hr, hfirst, -⟩ | ⟨d₁, hr, -⟩
    · have hadd : d.add k v = (d', some p) := h
      simp only [DLeft.add, hr, Prod.mk.injEq, Option.some.injEq] at hadd
      obtain ⟨-, rfl⟩ := hadd
      have hown : fp d p₁ = fhash k := hfirst.mem.resolve_left hp
      obtain ⟨j, hj, -, hlow⟩ := hfirst
      have hfound : d.get k = some p₁ := find_iff.2
        ⟨⟨j, hj, hown, fun i hi q hq hfq => hlow i hi q hq (.inr hfq)⟩, lt_of_fp hp⟩
      exact absurd (hfound.symm.trans hg) (by simp)
    · have hadd : d.add k v = (d', some p) := h
      simp only [DLeft.add, hr, Prod.mk.injEq, reduceCtorEq, and_false] at hadd
  add_none := by
    intro d d' k v h
    have hadd : d.add k v = (d', none) := h
    obtain ⟨hgrow, hfp⟩ := DLeft.add_none hadd
    have hnone : d.reserve k = (d', none) := by
      rcases hr : d.reserve k with ⟨d₁, _ | q⟩ <;> simp only [DLeft.add, hr] at hadd <;>
        simp_all
    have hclash := reserve_none hnone
    refine ⟨?_, ?_⟩
    · refine Option.eq_none_iff_forall_ne_some.2 fun q hq => ?_
      obtain ⟨hfirst, hlt⟩ := find_iff.1 hq
      exact hclash q hfirst.on (hlt.trans_le hgrow.tableCount) (.inr hfirst.mem)
    · refine Option.eq_none_iff_forall_ne_some.2 fun q hq => ?_
      obtain ⟨hfirst, hlt⟩ := find_iff.1 hq
      rw [hgrow.shash, hfp] at hfirst
      exact hclash q hfirst.on hlt (.inr hfirst.mem)
  store_get := by
    intro d k p v h
    have hp := (get_hit h).1
    have hfp : fp (d.store p v) = fp d := fp_store ..
    refine ⟨(get_store d p v k).trans h, (load_store ..).trans (if_pos rfl), fun q hq hne => ?_,
      fun k' hk' => entry_of_fp rfl hk' (.inr hp) ?_ fun q _ hne => ?_⟩
    · refine ⟨inUse_iff.2 ?_, (load_store ..).trans (if_neg hne)⟩
      rw [show fp (Objects.store d p v) = fp d from hfp]
      exact inUse_iff.1 hq
    · rw [show fp (Objects.store d p v) = fp d from hfp, ← hp, Function.update_eq_self]
    · exact (load_store ..).trans (if_neg hne)

end DLeftTable

section MapTables

variable {K V : Type} [DecidableEq K] [Inhabited V] {d d' : MapTable K V} {key k p : K} {v : V}

theorem mapTable_get : get d k = some p ↔ p = k ∧ (d.dict k).isSome := by
  show (if (d.dict k).isSome then some k else none) = some p ↔ _
  split_ifs with h <;> simp [h, eq_comm]

/-- `dict[key] = v`. -/
theorem wrote_dict (key : K) (v : V) (d : MapTable K V) :
    Wrote d (⟨Function.update d.dict key (some v)⟩ : MapTable K V) key key v where
  get := mapTable_get.2 ⟨rfl, by simp⟩
  load := by
    show (Function.update d.dict key (some v) key).getD default = v
    rw [Function.update_self, Option.getD_some]
  objects q hq hne := by
    refine ⟨?_, ?_⟩
    · show (Function.update d.dict key (some v) q).isSome
      rwa [Function.update_of_ne hne]
    · show (Function.update d.dict key (some v) q).getD default = (d.dict q).getD default
      rw [Function.update_of_ne hne]
  entries k hne := by
    have hk : Function.update d.dict key (some v) k = d.dict k := Function.update_of_ne hne ..
    show Option.map (fun q => (Function.update d.dict key (some v) q).getD default)
        (if (Function.update d.dict key (some v) k).isSome then some k else none) =
      Option.map (fun q => (d.dict q).getD default) (if (d.dict k).isSome then some k else none)
    rw [hk]
    split_ifs
    · simp only [Option.map_some, hk]
    · rfl

instance : LawfulTable (MapTable K V) K where
  add_some := by
    rintro d d' k p v h
    obtain ⟨rfl, hp⟩ := Prod.mk.inj h
    obtain rfl := Option.some.inj hp
    exact wrote_dict k v d
  add_fresh := by
    rintro d d' k p v hg h huse
    obtain rfl := Option.some.inj (Prod.mk.inj h).2
    exact absurd ((mapTable_get.2 ⟨rfl, huse⟩).symm.trans hg) (by simp)
  add_none h := absurd (Prod.mk.inj h).2 (by simp)
  store_get := by
    rintro d k p v h
    obtain ⟨rfl, -⟩ := mapTable_get.1 h
    exact wrote_dict p v d

end MapTables

/-! ## The function -/

section

variable {D K V W P : Type} [Objects D V P] [Dictionary D K] [InUse D P] [Apart D K]
variable {A : Arith V W} {val : Val D W} {w : W} {op : UpdateOp} {key : K} {d d₁ d₂ : D} {p : P}
  {v v' : V}

theorem Wrote.trans (h : Wrote d d₁ key p v) (h' : Wrote d₁ d₂ key p v') : Wrote d d₂ key p v' where
  get := h'.get
  load := h'.load
  objects q hq hne := by
    obtain ⟨hq₁, hl₁⟩ := h.objects q hq hne
    obtain ⟨hq₂, hl₂⟩ := h'.objects q hq₁ hne
    exact ⟨hq₂, hl₂.trans hl₁⟩
  entries k hk := (h'.entries k hk).trans (h.entries k hk)

theorem Wrote.unique (h : Wrote d d₁ key p v) {q : P} (h' : Wrote d d₁ key q v') : v' = v := by
  have hpq : p = q := Option.some.inj (h.get.symm.trans h'.get)
  exact h'.load.symm.trans (hpq ▸ h.load)

omit [Apart D K] in
theorem Denotes.read (h : Denotes K d A val w) : val.read d = some w := by
  cases h with
  | number => rfl
  | other A e k q hq => simp only [Val.other, hq, Option.map_some]
  | own A k q hq => simp only [Val.own, hq, Option.map_some]

/-- The right-hand side is the same after the key is added at an object that was free. -/
theorem Denotes.read_of_wrote (h : Denotes K d A val w) (hw : Wrote d d₁ key p v)
    (hp : ¬ InUse.inUse d p) : val.read d₁ = some w := by
  cases h with
  | number => rfl
  | other A e k q hq => simp only [Val.other, hq, Option.map_some]
  | own A k q hq huse =>
    have hne : q ≠ p := fun hqp => hp (hqp ▸ huse)
    simp only [Val.own, hq, Option.map_some, (hw.objects q huse hne).2]

variable [LawfulTable D K]

theorem hasRoom_of_get (h : get d key = some p) : HasRoom A key d := by
  rcases ha : add d key (A.convert A.init) with ⟨d', _ | q⟩
  · exact absurd (h.symm.trans (LawfulTable.add_none ha).1) (by simp)
  · simp only [HasRoom, ha, Option.isSome_some]

omit [Apart D K] [InUse D P] [LawfulTable D K] in
theorem update_of_not_isTrue (hv : ¬ val.isTrue = true) :
    update A op val key d = some (add d key (A.convert A.init)).1 := by
  simp [update, hv]

/-- Where the key is added and nothing is done to it then. -/
theorem meant_added_iff : Meant A op w key d (some (add d key (A.convert A.init)).1) ↔
    HasRoom A key d ∧ A.apply op (base A key d) w = A.convert A.init := by
  rcases ha : add d key (A.convert A.init) with ⟨d', _ | p⟩ <;> rw [HasRoom, ha]
  · refine iff_of_false ?_ (by simp)
    rintro ⟨d₂, p, hd, hw⟩
    obtain rfl := Option.some.inj hd
    exact absurd (hw.get.symm.trans (LawfulTable.add_none ha).2) (by simp)
  · have hadd : Wrote d d' key p (A.convert A.init) := LawfulTable.add_some ha
    constructor
    · rintro ⟨d₂, q, hd, hw⟩
      obtain rfl := Option.some.inj hd
      exact ⟨rfl, hadd.unique hw⟩
    · rintro ⟨-, heq⟩
      exact ⟨d', p, rfl, heq ▸ hadd⟩

/-- With a value that is not zero the entry is made if it is missing, and then written. -/
theorem meant_of_isTrue (h : Denotes K d A val w) (hv : val.isTrue = true) :
    Meant A op w key d (update A op val key d) ↔ HasRoom A key d := by
  rcases hg : get d key with _ | p
  · rcases ha : add d key (A.convert A.init) with ⟨d', _ | p⟩ <;> rw [HasRoom, ha]
    · refine iff_of_false ?_ (by simp)
      rintro ⟨d₂, p, hd, -⟩
      simp [update, hg, ha, hv] at hd
    · have hadd : Wrote d d' key p (A.convert A.init) := LawfulTable.add_some ha
      have hread : val.read d' = some w := h.read_of_wrote hadd (LawfulTable.add_fresh hg ha)
      have hbase : base A key d = load d' p := by
        rw [hadd.load, base, entry, hg, Option.map_none, Option.getD_none]
      refine iff_of_true ⟨store d' p (A.apply op (load d' p) w), p, ?_, ?_⟩ rfl
      · simp [update, hg, ha, hv, hread]
      · rw [hbase]
        exact hadd.trans (LawfulTable.store_get _ hadd.get)
  · have hbase : base A key d = load d p := by
      rw [base, entry, hg, Option.map_some, Option.getD_some]
    refine iff_of_true ⟨store d p (A.apply op (load d p) w), p, ?_, ?_⟩ (hasRoom_of_get hg)
    · simp [update, hg, hv, h.read]
    · rw [hbase]
      exact LawfulTable.store_get _ hg

/-- The function does what is meant exactly if there is a place for the key and, where the right
side is zero, the default value is what the operator comes to. -/
theorem update_meant_iff (h : Denotes K d A val w) (op : UpdateOp) (key : K) :
    Meant A op w key d (update A op val key d) ↔ HasRoom A key d ∧
      (val.isTrue = true ∨ A.apply op (base A key d) w = A.convert A.init) := by
  by_cases hv : val.isTrue = true
  · rw [meant_of_isTrue h hv, and_iff_left (.inl hv)]
  · rw [update_of_not_isTrue hv, meant_added_iff, or_iff_right hv]

end

/-! ## In a ring -/

section

variable {D K R P : Type} [CommRing R] [DecidableEq R] [Objects D R P] [Dictionary D K]
  [InUse D P] [Apart D K] [LawfulTable D K]

omit [Apart D K] [LawfulTable D K] in
theorem Denotes.eq_zero {d : D} {val : Val D R} {w : R} (h : Denotes K d (.ofRing R) val w)
    (hv : ¬ val.isTrue = true) : w = 0 := by
  cases h with
  | number => simpa [Val.number, Arith.ofRing] using hv
  | other A e k q hq => simp [Val.other, hq] at hv
  | own A k q hq => simp [Val.own, hq] at hv

/-- Only adding zero to an entry that is there and not zero goes wrong. -/
theorem update_ofRing_iff {d : D} {val : Val D R} {w : R} (h : Denotes K d (.ofRing R) val w)
    (op : UpdateOp) (key : K) :
    Meant (.ofRing R) op w key d (update (.ofRing R) op val key d) ↔
      HasRoom (.ofRing R) key d ∧
        (op = .plus → val.isTrue = true ∨ base (.ofRing R) key d = 0) := by
  rw [update_meant_iff h]
  refine and_congr_right fun _ => ?_
  by_cases hv : val.isTrue = true
  · simp only [hv, true_or, implies_true]
  · obtain rfl := h.eq_zero hv
    cases op <;> simp [Arith.ofRing, hv]

end

/-! ## A client's counter -/

def client : HashedBuffer := ⟨[10, 0, 0, 7]⟩

def uint32 : Arith (BitVec 32) (BitVec 32) := .ofRing _

def counters : DLeft (BitVec 32) := ((DLeft.new 8 8 20).add client 5).1

theorem update_meant_plus : Meant uint32 .plus 2 client counters
    (update uint32 .plus (.number uint32 2) client counters) :=
  (update_meant_iff (.number uint32 2) .plus client).2 ⟨by decide, .inl (by decide)⟩

/-- A counter that stands at 5 is 0 after `+= 0`. -/
theorem not_update_meant : HasRoom uint32 client counters ∧ entry counters client = some 5 ∧
    ¬ Meant uint32 .plus 0 client counters
      (update uint32 .plus (.number uint32 0) client counters) := by
  refine ⟨by decide, by decide, ?_⟩
  rw [update_of_not_isTrue (by decide), meant_added_iff]
  decide

end TableUpdate

end DStreamon
