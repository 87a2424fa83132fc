import Mathlib.Data.List.Basic
import Mathlib.Data.Nat.Basic
import Mathlib.Order.Lattice

/-!
# Ordered maps, greatest key first

A map is the list of its entries by descending keys, as an iterator passes over them.
-/

structure DescMap (κ ν : Type) [LinearOrder κ] where
  entries : List (κ × ν)
  sorted : entries.Pairwise fun a b => b.1 < a.1

namespace DescMap

variable {κ ν : Type} [LinearOrder κ]

def empty : DescMap κ ν := ⟨[], List.Pairwise.nil⟩

/-- Put an entry in its place, instead of one with its key. -/
def insertEntry (k : κ) (v : ν) : List (κ × ν) → List (κ × ν)
  | [] => [(k, v)]
  | e :: es =>
    if e.1 < k then (k, v) :: e :: es
    else if e.1 = k then (k, v) :: es
    else e :: insertEntry k v es

theorem mem_insertEntry {k : κ} {v : ν} {e : κ × ν} : ∀ {es : List (κ × ν)},
    es.Pairwise (fun a b => b.1 < a.1) → (e ∈ insertEntry k v es ↔ e = (k, v) ∨ e ∈ es ∧ e.1 ≠ k)
  | [], _ => by simp [insertEntry]
  | d :: es, h => by
    obtain ⟨hd, hes⟩ := List.pairwise_cons.1 h
    rw [insertEntry]
    split_ifs with hlt heq
    · have hne : ∀ e ∈ d :: es, e.1 ≠ k := by
        intro e he
        obtain rfl | he := List.mem_cons.1 he
        · exact hlt.ne
        · exact ((hd e he).trans hlt).ne
      rw [List.mem_cons]
      exact or_congr_right ⟨fun he => ⟨he, hne e he⟩, And.left⟩
    · have hne : ∀ e ∈ es, e.1 ≠ k := fun e he => heq ▸ (hd e he).ne
      rw [List.mem_cons, List.mem_cons]
      refine or_congr_right ⟨fun he => ⟨.inr he, hne e he⟩, fun he => ?_⟩
      exact he.1.resolve_left fun h => he.2 (h ▸ heq)
    · rw [List.mem_cons, mem_insertEntry hes, List.mem_cons]
      constructor
      · rintro (rfl | rfl | he)
        · exact .inr ⟨.inl rfl, heq⟩
        · exact .inl rfl
        · exact .inr ⟨.inr he.1, he.2⟩
      · rintro (rfl | ⟨rfl | he, hk⟩)
        · exact .inr (.inl rfl)
        · exact .inl rfl
        · exact .inr (.inr ⟨he, hk⟩)

theorem insertEntry_sorted {k : κ} {v : ν} : ∀ {es : List (κ × ν)},
    es.Pairwise (fun a b => b.1 < a.1) → (insertEntry k v es).Pairwise fun a b => b.1 < a.1
  | [], _ => List.pairwise_singleton _ _
  | d :: es, h => by
    obtain ⟨hd, hes⟩ := List.pairwise_cons.1 h
    rw [insertEntry]
    split_ifs with hlt heq
    · refine List.pairwise_cons.2 ⟨fun e he => ?_, h⟩
      obtain rfl | he := List.mem_cons.1 he
      · exact hlt
      · exact (hd e he).trans hlt
    · exact List.pairwise_cons.2 ⟨fun e he => heq ▸ hd e he, hes⟩
    · refine List.pairwise_cons.2 ⟨fun e he => ?_, insertEntry_sorted hes⟩
      obtain rfl | he := (mem_insertEntry hes).1 he
      · exact lt_of_le_of_ne (not_lt.1 hlt) (Ne.symm heq)
      · exact hd e he.1

theorem insertEntry_insertEntry (k : κ) (v v' : ν) : ∀ es : List (κ × ν),
    insertEntry k v' (insertEntry k v es) = insertEntry k v' es
  | [] => by simp [insertEntry]
  | d :: es => by
    rw [insertEntry, insertEntry]
    split_ifs with hlt heq
    · simp [insertEntry]
    · simp [insertEntry]
    · rw [insertEntry, if_neg hlt, if_neg heq, insertEntry_insertEntry k v v' es]

def insert (m : DescMap κ ν) (k : κ) (v : ν) : DescMap κ ν :=
  ⟨insertEntry k v m.entries, insertEntry_sorted m.sorted⟩

/-- The entry of a key. -/
def find (m : DescMap κ ν) (k : κ) : Option (κ × ν) := m.entries.find? fun e => e.1 = k

/-- The entry of the greatest key that is not above. -/
def lowerBound (m : DescMap κ ν) (k : κ) : Option (κ × ν) := m.entries.find? fun e => e.1 ≤ k

/-- The entry of the least key. -/
def last (m : DescMap κ ν) : Option (κ × ν) := m.entries.getLast?

variable {m : DescMap κ ν} {k : κ} {v : ν} {e : κ × ν}

theorem mem_insert : e ∈ (m.insert k v).entries ↔ e = (k, v) ∨ e ∈ m.entries ∧ e.1 ≠ k :=
  mem_insertEntry m.sorted

theorem unique {e' : κ × ν} (he : e ∈ m.entries) (he' : e' ∈ m.entries) (h : e.1 = e'.1) :
    e = e' := by
  obtain ⟨i, hi, rfl⟩ := List.getElem_of_mem he
  obtain ⟨j, hj, rfl⟩ := List.getElem_of_mem he'
  obtain hij | rfl | hij := Nat.lt_trichotomy i j
  · exact absurd h.symm (List.pairwise_iff_getElem.1 m.sorted i j hi hj hij).ne
  · rfl
  · exact absurd h (List.pairwise_iff_getElem.1 m.sorted j i hj hi hij).ne

theorem find_eq_some_iff : m.find k = some e ↔ e ∈ m.entries ∧ e.1 = k := by
  unfold find
  constructor
  · intro h
    have hkey := List.find?_some h
    exact ⟨List.mem_of_find?_eq_some h, of_decide_eq_true hkey⟩
  · rintro ⟨he, rfl⟩
    obtain ⟨d, hd⟩ : ∃ d, (m.entries.find? fun d => d.1 = e.1) = some d :=
      Option.isSome_iff_exists.1 (List.find?_isSome.2 ⟨e, he, decide_eq_true rfl⟩)
    have hkey := List.find?_some hd
    rw [hd, unique (List.mem_of_find?_eq_some hd) he (of_decide_eq_true hkey)]

theorem find_insert : (m.insert k v).find k = some (k, v) :=
  find_eq_some_iff.2 ⟨mem_insert.2 (.inl rfl), rfl⟩

/-- The last entry of a key is the one that stays. -/
theorem insert_insert (m : DescMap κ ν) (k : κ) (v v' : ν) :
    (m.insert k v).insert k v' = m.insert k v' := by
  unfold insert
  simp only [insertEntry_insertEntry]

theorem lowerBound_eq_some_iff : m.lowerBound k = some e ↔
    e ∈ m.entries ∧ e.1 ≤ k ∧ ∀ d ∈ m.entries, d.1 ≤ k → d.1 ≤ e.1 := by
  constructor
  · intro h
    obtain ⟨hle, as, bs, heq, has⟩ := List.find?_eq_some_iff_append.1 h
    have hle : e.1 ≤ k := of_decide_eq_true hle
    refine ⟨heq ▸ List.mem_append_right _ List.mem_cons_self, hle, fun d hd hdk => ?_⟩
    have hsorted := m.sorted
    rw [heq] at hd hsorted
    obtain hd | hd := List.mem_append.1 hd
    · have := has d hd
      simp [hdk] at this
    · obtain rfl | hd := List.mem_cons.1 hd
      · exact le_rfl
      · exact ((List.pairwise_cons.1 (List.pairwise_append.1 hsorted).2.1).1 d hd).le
  · rintro ⟨he, hle, hmax⟩
    obtain ⟨e', he'⟩ : ∃ e', m.lowerBound k = some e' :=
      Option.isSome_iff_exists.1 (List.find?_isSome.2 ⟨e, he, decide_eq_true hle⟩)
    obtain ⟨hle', as, bs, heq, has⟩ := List.find?_eq_some_iff_append.1 he'
    have hmem : e' ∈ m.entries := heq ▸ List.mem_append_right _ List.mem_cons_self
    have hsorted := m.sorted
    rw [he']
    have h₁ := hmax e' hmem (of_decide_eq_true hle')
    rw [heq] at he hsorted
    obtain h | h := List.mem_append.1 he
    · have := has e h
      simp [hle] at this
    · obtain rfl | h := List.mem_cons.1 h
      · rfl
      · have := (List.pairwise_cons.1 (List.pairwise_append.1 hsorted).2.1).1 e h
        exact absurd h₁ (not_le.2 this)

theorem lowerBound_le (h : m.lowerBound k = some e) : e.1 ≤ k := (lowerBound_eq_some_iff.1 h).2.1

/-- An entry above is not looked at. -/
theorem lowerBound_insert {k' : κ} (h : k < k') :
    (m.insert k' v).lowerBound k = m.lowerBound k := by
  refine Option.ext fun e => ?_
  rw [lowerBound_eq_some_iff, lowerBound_eq_some_iff]
  have hmem : ∀ d : κ × ν, d.1 ≤ k → (d ∈ (m.insert k' v).entries ↔ d ∈ m.entries) := by
    intro d hd
    rw [mem_insert]
    have hne : d.1 ≠ k' := (hd.trans_lt h).ne
    constructor
    · rintro (rfl | hd)
      · exact absurd rfl hne
      · exact hd.1
    · exact fun hd => .inr ⟨hd, hne⟩
  constructor
  · rintro ⟨he, hle, hmax⟩
    exact ⟨(hmem e hle).1 he, hle, fun d hd hdk => hmax d ((hmem d hdk).2 hd) hdk⟩
  · rintro ⟨he, hle, hmax⟩
    exact ⟨(hmem e hle).2 he, hle, fun d hd hdk => hmax d ((hmem d hdk).1 hd) hdk⟩

theorem find_insert_of_ne {k' : κ} (h : k ≠ k') : (m.insert k' v).find k = m.find k := by
  refine Option.ext fun e => ?_
  rw [find_eq_some_iff, find_eq_some_iff, mem_insert]
  constructor
  · rintro ⟨rfl | he, hk⟩
    · exact absurd hk.symm h
    · exact ⟨he.1, hk⟩
  · rintro ⟨he, rfl⟩
    exact ⟨.inr ⟨he, h⟩, rfl⟩

theorem last_eq_some (h : m.last = some e) : e ∈ m.entries ∧ ∀ d ∈ m.entries, e.1 ≤ d.1 := by
  obtain ⟨ys, hys⟩ := List.getLast?_eq_some_iff.1 h
  refine ⟨hys ▸ List.mem_append_right _ List.mem_cons_self, fun d hd => ?_⟩
  have hsorted := m.sorted
  rw [hys] at hd hsorted
  obtain hd | hd := List.mem_append.1 hd
  · exact ((List.pairwise_append.1 hsorted).2.2 d hd e List.mem_cons_self).le
  · rw [List.mem_singleton.1 hd]

end DescMap
