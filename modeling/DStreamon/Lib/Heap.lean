import Mathlib.Data.List.Basic
import Mathlib.Data.Nat.Basic
import Mathlib.Order.Lattice
import Mathlib.Tactic.SplitIfs

/-!
# Binary heaps on a list

The children of position `i` are `2 * i + 1` and `2 * i + 2`; a heap has no element before its
parent in the order of a key.  An element is pushed at the end and carried up.  A pop carries the
last element from the root down to a leaf, always to the child of the lesser key, and up again.
-/

namespace BinHeap

variable {α κ : Type*}

def parent (i : ℕ) : ℕ := (i - 1) / 2

def swap (l : List α) (i j : ℕ) : List α :=
  match l[i]?, l[j]? with
  | some x, some y => (l.set i y).set j x
  | _, _ => l

section Order

variable [LinearOrder κ] (key : α → κ)

/-- Of the elements at two positions, the first is not after the second. -/
def Le (l : List α) (i j : ℕ) : Prop := ∀ x ∈ l[i]?, ∀ y ∈ l[j]?, key x ≤ key y

instance (l : List α) (i j : ℕ) : Decidable (Le key l i j) := by
  unfold Le
  infer_instance

def IsHeap (l : List α) : Prop := ∀ i < l.length, 0 < i → Le key l (parent i) i

instance (l : List α) : Decidable (IsHeap key l) := by
  unfold IsHeap
  infer_instance

def siftUp : ℕ → List α → ℕ → List α
  | 0, l, _ => l
  | n + 1, l, i =>
    if 0 < i ∧ ¬Le key l (parent i) i then siftUp n (swap l i (parent i)) (parent i) else l

/-- The child of the lesser key, the second one of two with the same. -/
def child (l : List α) (h : ℕ) : ℕ :=
  if 2 * h + 2 < l.length ∧ Le key l (2 * h + 2) (2 * h + 1) then 2 * h + 2 else 2 * h + 1

/-- The element carried to a leaf, and where it ends. -/
def sink : ℕ → List α → ℕ → List α × ℕ
  | 0, l, h => (l, h)
  | n + 1, l, h =>
    if 2 * h + 1 < l.length then sink n (swap l h (child key l h)) (child key l h) else (l, h)

def adjustHeap (l : List α) : List α :=
  let s := sink key l.length l 0
  siftUp key l.length s.1 s.2

def pushHeap (l : List α) (x : α) : List α := siftUp key (l ++ [x]).length (l ++ [x]) l.length

/-- The root moved to the end, the others a heap again. -/
def popHeap : List α → List α
  | [] => []
  | x :: rest =>
    match rest.getLast? with
    | none => [x]
    | some v => adjustHeap key (v :: rest.dropLast) ++ [x]

end Order

/-! ## Swaps -/

theorem parent_lt {i : ℕ} (h : 0 < i) : parent i < i := by
  unfold parent
  omega

theorem swap_eq {l : List α} {i j : ℕ} (hi : i < l.length) (hj : j < l.length) :
    swap l i j = (l.set i l[j]).set j l[i] := by
  simp [swap, hi, hj]

theorem swap_perm (l : List α) (i j : ℕ) : (swap l i j).Perm l := by
  by_cases hi : i < l.length
  · by_cases hj : j < l.length
    · rw [swap_eq hi hj]
      exact List.set_set_perm hi hj
    · simp [swap, List.getElem?_eq_none (not_lt.1 hj)]
  · simp [swap, List.getElem?_eq_none (not_lt.1 hi)]

@[simp] theorem length_swap (l : List α) (i j : ℕ) : (swap l i j).length = l.length :=
  (swap_perm l i j).length_eq

section Lookup

variable {l : List α} {i j k : ℕ} (hi : i < l.length) (hj : j < l.length)
include hi hj

theorem swap_left : (swap l i j)[i]? = l[j]? := by
  rw [swap_eq hi hj]
  by_cases h : i = j
  · subst h
    simp [hi]
  · simp [Ne.symm h, hi, hj]

theorem swap_right : (swap l i j)[j]? = l[i]? := by
  rw [swap_eq hi hj]
  simp [hi, hj]

theorem swap_other (hki : k ≠ i) (hkj : k ≠ j) : (swap l i j)[k]? = l[k]? := by
  rw [swap_eq hi hj]
  simp [Ne.symm hki, Ne.symm hkj]

end Lookup

section Order

variable [LinearOrder κ] {key : α → κ} {l : List α} {i j k h : ℕ}

theorem le_refl (l : List α) (i : ℕ) : Le key l i i := by
  intro x hx y hy
  rw [Option.mem_unique hx hy]

theorem Le.trans (hij : Le key l i j) (hjk : Le key l j k) (hj : j < l.length) :
    Le key l i k := fun x hx y hy =>
  (hij x hx l[j] (by simp [hj])).trans (hjk l[j] (by simp [hj]) y hy)

theorem le_of_not_le (h : ¬Le key l i j) : Le key l j i := by
  intro y hy x hx
  by_contra hxy
  refine h fun x' hx' y' hy' => ?_
  rw [Option.mem_unique hx' hx, Option.mem_unique hy' hy]
  exact (not_le.1 hxy).le

theorem le_of_length_le (h : l.length ≤ j) : Le key l i j := fun x _ y hy => by
  rw [List.getElem?_eq_none h] at hy
  cases hy

theorem lt_of_not_le (h : ¬Le key l i j) : i < l.length ∧ j < l.length := by
  constructor
  · by_contra hi
    exact h fun x hx => by
      rw [List.getElem?_eq_none (not_lt.1 hi)] at hx
      cases hx
  · by_contra hj
    exact h (le_of_length_le (not_lt.1 hj))

theorem Le.congr {l' : List α} {i' j' : ℕ} (h : Le key l i j) (hi : l'[i']? = l[i]?)
    (hj : l'[j']? = l[j]?) : Le key l' i' j' := by
  unfold Le
  rwa [hi, hj]

theorem IsHeap.parent_le (hl : IsHeap key l) (h : 0 < i) : Le key l (parent i) i := by
  by_cases hi : i < l.length
  · exact hl i hi h
  · exact le_of_length_le (not_lt.1 hi)

theorem isHeap_nil : IsHeap key [] := fun i hi => by simp at hi

/-- The root is not after any element. -/
theorem IsHeap.root_le (hl : IsHeap key l) (i : ℕ) : Le key l 0 i := by
  induction i using Nat.strongRecOn with
  | ind i ih =>
    rcases Nat.eq_zero_or_pos i with rfl | hi
    · exact le_refl l 0
    · by_cases hlt : i < l.length
      · have hp := parent_lt hi
        exact (ih _ hp).trans (hl.parent_le hi) (hp.trans hlt)
      · exact le_of_length_le (not_lt.1 hlt)

theorem IsHeap.root_le_mem (hl : IsHeap key l) {x y : α} (hx : l[0]? = some x) (hy : y ∈ l) :
    key x ≤ key y := by
  obtain ⟨i, hi⟩ := List.mem_iff_getElem?.1 hy
  exact hl.root_le i x hx y hi

/-! ## Up -/

/-- Every element but the one at `h` is not before its parent; the children of `h` are not before
the parent of `h`. -/
structure UpOrder (key : α → κ) (l : List α) (h : ℕ) : Prop where
  except : ∀ i, 0 < i → i ≠ h → Le key l (parent i) i
  grand : ∀ i, 0 < i → parent i = h → 0 < h → Le key l (parent h) i

theorem UpOrder.move (o : UpOrder key l h) (h0 : 0 < h) (hh : ¬Le key l (parent h) h) :
    UpOrder key (swap l h (parent h)) (parent h) := by
  obtain ⟨hp, hlt⟩ := lt_of_not_le hh
  have hph := parent_lt h0
  have hfix : ∀ {k}, k ≠ h → k ≠ parent h → (swap l h (parent h))[k]? = l[k]? :=
    fun hk hk' => swap_other hlt hp hk hk'
  have hup : ∀ i, 0 < i → i ≠ h → parent i = parent h → Le key l h i := fun i hi hih hpi =>
    (le_of_not_le hh).trans (hpi ▸ o.except i hi hih) hp
  constructor
  · intro i hi hip
    by_cases hih : i = h
    · subst hih
      exact (le_of_not_le hh).congr (swap_right hlt hp) (swap_left hlt hp)
    · by_cases hpi : parent i = h
      · exact (o.grand i hi hpi h0).congr (by rw [hpi, swap_left hlt hp]) (hfix hih hip)
      · by_cases hpp : parent i = parent h
        · exact (hup i hi hih hpp).congr (by rw [hpp, swap_right hlt hp]) (hfix hih hip)
        · exact (o.except i hi hih).congr (hfix hpi hpp) (hfix hih hip)
  · intro i hi hpi hp0
    have hpp := parent_lt hp0
    have habove : Le key l (parent (parent h)) (parent h) :=
      o.except _ hp0 (Nat.ne_of_lt hph)
    by_cases hih : i = h
    · subst hih
      exact habove.congr (hfix (by omega) (Nat.ne_of_lt hpp)) (swap_left hlt hp)
    · refine (habove.trans (hpi ▸ o.except i hi hih) hp).congr (hfix (by omega) (Nat.ne_of_lt hpp))
        (hfix hih ?_)
      have := parent_lt hi
      omega

theorem siftUp_isHeap : ∀ {n h : ℕ} {l : List α}, UpOrder key l h → h ≤ n →
    IsHeap key (siftUp key n l h)
  | 0, h, l, o, hn => fun i _ hi => o.except i hi (by omega)
  | n + 1, h, l, o, hn => by
    rw [siftUp]
    split_ifs with hc
    · have := parent_lt hc.1
      exact siftUp_isHeap (o.move hc.1 hc.2) (by omega)
    · intro i _ hi
      by_cases hih : i = h
      · subst hih
        by_contra hle
        exact hc ⟨hi, hle⟩
      · exact o.except i hi hih

theorem siftUp_perm : ∀ (n : ℕ) (l : List α) (h : ℕ), (siftUp key n l h).Perm l
  | 0, l, _ => List.Perm.refl l
  | n + 1, l, h => by
    rw [siftUp]
    split_ifs
    · exact (siftUp_perm n _ _).trans (swap_perm _ _ _)
    · exact List.Perm.refl l

/-! ## Down -/

/-- The pairs that do not touch `h` are in order; the children of `h` are not before its parent. -/
structure DownOrder (key : α → κ) (l : List α) (h : ℕ) : Prop where
  except : ∀ i, 0 < i → i ≠ h → parent i ≠ h → Le key l (parent i) i
  grand : ∀ i, 0 < i → parent i = h → 0 < h → Le key l (parent h) i

/-- At a leaf nothing more is missing. -/
theorem DownOrder.up (o : DownOrder key l h) (hleaf : l.length ≤ 2 * h + 1) :
    UpOrder key l h where
  except i hi hih := by
    by_cases hp : parent i = h
    · refine le_of_length_le ?_
      unfold parent at hp
      omega
    · exact o.except i hi hih hp
  grand := o.grand

theorem child_cases (key : α → κ) (l : List α) (h : ℕ) :
    child key l h = 2 * h + 1 ∨ child key l h = 2 * h + 2 ∧ 2 * h + 2 < l.length := by
  unfold child
  split_ifs with hc
  · exact .inr ⟨rfl, hc.1⟩
  · exact .inl rfl

theorem child_lt (key : α → κ) (hlt : 2 * h + 1 < l.length) : child key l h < l.length := by
  rcases child_cases key l h with hc | ⟨hc, _⟩ <;> omega

theorem parent_child (key : α → κ) (l : List α) (h : ℕ) : parent (child key l h) = h := by
  unfold parent
  rcases child_cases key l h with hc | ⟨hc, _⟩ <;> omega

theorem lt_child (key : α → κ) (l : List α) (h : ℕ) : h < child key l h := by
  rcases child_cases key l h with hc | ⟨hc, _⟩ <;> omega

theorem child_le (hi : 0 < i) (hp : parent i = h) : Le key l (child key l h) i := by
  have hi : i = 2 * h + 1 ∨ i = 2 * h + 2 := by
    unfold parent at hp
    omega
  unfold child
  split_ifs with hc
  · rcases hi with rfl | rfl
    · exact hc.2
    · exact le_refl _ _
  · rcases hi with rfl | rfl
    · exact le_refl _ _
    · by_cases hlt : 2 * h + 2 < l.length
      · exact le_of_not_le fun hle => hc ⟨hlt, hle⟩
      · exact le_of_length_le (not_lt.1 hlt)

theorem DownOrder.move (o : DownOrder key l h) (hlt : 2 * h + 1 < l.length) :
    DownOrder key (swap l h (child key l h)) (child key l h) := by
  have hmin : ∀ i, 0 < i → parent i = h → Le key l (child key l h) i := fun i hi hp =>
    child_le hi hp
  have hc := child_lt key hlt
  have hpc := parent_child key l h
  have hhc := lt_child key l h
  generalize child key l h = c at hmin hc hpc hhc ⊢
  have hh : h < l.length := hhc.trans hc
  have hfix : ∀ {k}, k ≠ h → k ≠ c → (swap l h c)[k]? = l[k]? :=
    fun hk hk' => swap_other hh hc hk hk'
  constructor
  · intro i hi hic hpi
    by_cases hih : i = h
    · subst hih
      have := parent_lt hi
      exact (o.grand c (by omega) hpc hi).congr (hfix (by omega) hpi) (swap_left hh hc)
    · by_cases hph : parent i = h
      · exact (hmin i hi hph).congr (by rw [hph, swap_left hh hc]) (hfix hih hic)
      · exact (o.except i hi hih hph).congr (hfix hph hpi) (hfix hih hic)
  · intro i hi hpi hc0
    have := parent_lt hi
    rw [hpc]
    have hci : Le key l c i := hpi ▸ o.except i hi (by omega) (by omega)
    exact hci.congr (swap_left hh hc) (hfix (by omega) (by omega))

theorem sink_spec : ∀ {n h : ℕ} {l : List α}, DownOrder key l h → l.length ≤ h + n →
    UpOrder key (sink key n l h).1 (sink key n l h).2
  | 0, h, l, o, hn => o.up (by omega)
  | n + 1, h, l, o, hn => by
    rw [sink]
    split_ifs with hlt
    · have := lt_child key l h
      exact sink_spec (o.move hlt) (by simp; omega)
    · exact o.up (by omega)

theorem sink_perm : ∀ (n : ℕ) (l : List α) (h : ℕ), (sink key n l h).1.Perm l
  | 0, l, _ => List.Perm.refl l
  | n + 1, l, h => by
    rw [sink]
    split_ifs
    · exact (sink_perm n _ _).trans (swap_perm _ _ _)
    · exact List.Perm.refl l

theorem sink_lt : ∀ {n h : ℕ} {l : List α}, h < l.length → (sink key n l h).2 < l.length
  | 0, _, _, hh => hh
  | n + 1, h, l, hh => by
    rw [sink]
    split_ifs with hlt
    · have := sink_lt (n := n) (l := swap l h (child key l h)) (h := child key l h)
        (by simpa using child_lt key hlt)
      simpa using this
    · exact hh

/-! ## Push and pop -/

theorem pushHeap_perm (l : List α) (x : α) : (pushHeap key l x).Perm (x :: l) :=
  (siftUp_perm _ _ _).trans List.perm_append_comm

theorem IsHeap.push (hl : IsHeap key l) (x : α) : IsHeap key (pushHeap key l x) := by
  refine siftUp_isHeap ⟨fun i hi hne => ?_, fun i hi hp h0 => ?_⟩ (by simp)
  · by_cases hlt : i < l.length
    · have := parent_lt hi
      exact (hl.parent_le hi).congr (List.getElem?_append_left (by omega))
        (List.getElem?_append_left hlt)
    · exact le_of_length_le (by simp; omega)
  · have := parent_lt hi
    exact le_of_length_le (by simp; omega)

theorem adjustHeap_perm (l : List α) : (adjustHeap key l).Perm l :=
  (siftUp_perm _ _ _).trans (sink_perm _ _ _)

theorem adjustHeap_isHeap (hl : l ≠ []) (o : DownOrder key l 0) : IsHeap key (adjustHeap key l) :=
  siftUp_isHeap (sink_spec o (by omega)) (sink_lt (List.length_pos_iff.2 hl)).le

variable {x : α} {rest : List α}

theorem popHeap_cons (key : α → κ) (x : α) (rest : List α) :
    ∃ l, popHeap key (x :: rest) = l ++ [x] ∧ l.Perm rest ∧
      (IsHeap key (x :: rest) → IsHeap key l) := by
  rw [popHeap]
  rcases hv : rest.getLast? with _ | v
  · rw [List.getLast?_eq_none_iff] at hv
    subst hv
    exact ⟨[], rfl, List.Perm.refl _, fun _ => isHeap_nil⟩
  · obtain ⟨init, rfl⟩ := List.getLast?_eq_some_iff.1 hv
    rw [List.dropLast_concat]
    refine ⟨_, rfl, (adjustHeap_perm _).trans (List.perm_append_singleton v init).symm,
      fun hl => ?_⟩
    have hget : ∀ {i}, 0 < i → i < (v :: init).length →
        (v :: init)[i]? = (x :: (init ++ [v]))[i]? := fun {i} hi hlt => by
      obtain ⟨i, rfl⟩ := Nat.exists_eq_add_of_lt hi
      simp at hlt
      simp [List.getElem?_append_left, hlt]
    refine adjustHeap_isHeap (by simp) ⟨fun i hi _ hp => ?_, fun _ _ _ h0 => absurd h0 (by simp)⟩
    have := parent_lt hi
    by_cases hlt : i < (v :: init).length
    · exact (hl.parent_le hi).congr (hget (by omega) (by omega)) (hget hi hlt)
    · exact le_of_length_le (not_lt.1 hlt)

/-! ## Erasing -/

/-- How many of the elements before a position are kept. -/
def rank (p : α → Bool) (l : List α) (i : ℕ) : ℕ := (l.take i).countP p

theorem getElem?_filter {p : α → Bool} {x : α} : ∀ {l : List α} {k : ℕ},
    (l.filter p)[k]? = some x ↔ ∃ i, l[i]? = some x ∧ p x ∧ rank p l i = k
  | [], k => by simp
  | y :: l, k => by
    constructor
    · intro h
      by_cases hy : p y
      · rw [List.filter_cons_of_pos hy] at h
        rcases k with _ | k
        · obtain rfl : y = x := by simpa using h
          exact ⟨0, rfl, hy, rfl⟩
        · obtain ⟨i, hi, hx, rfl⟩ := getElem?_filter.1 (by simpa using h)
          exact ⟨i + 1, by simpa using hi, hx, by simp [rank, hy]⟩
      · rw [List.filter_cons_of_neg hy] at h
        obtain ⟨i, hi, hx, rfl⟩ := getElem?_filter.1 h
        exact ⟨i + 1, by simpa using hi, hx, by simp [rank, hy]⟩
    · rintro ⟨i, hi, hx, rfl⟩
      rcases i with _ | i
      · obtain rfl : y = x := by simpa using hi
        simp [rank, hx]
      · have hrec := getElem?_filter.2 ⟨i, by simpa using hi, hx, rfl⟩
        by_cases hy : p y <;> simpa [rank, hy] using hrec

/-- What is kept of a list is a heap when each element kept is not before the one that becomes its
parent. -/
theorem isHeap_filter_iff {p : α → Bool} : IsHeap key (l.filter p) ↔
    ∀ i < l.length, ∀ j < l.length, 0 < rank p l j → rank p l i = parent (rank p l j) →
      ∀ x ∈ l[i]?, ∀ y ∈ l[j]?, p x → p y → key x ≤ key y := by
  constructor
  · intro h i _ j _ h0 hr x hx y hy hpx hpy
    exact h.parent_le h0 x (hr ▸ getElem?_filter.2 ⟨i, hx, hpx, rfl⟩) y
      (getElem?_filter.2 ⟨j, hy, hpy, rfl⟩)
  · intro h k _ h0 x hx y hy
    obtain ⟨i, hi, hpx, hri⟩ := getElem?_filter.1 hx
    obtain ⟨j, hj, hpy, rfl⟩ := getElem?_filter.1 hy
    exact h i (List.getElem?_eq_some_iff.1 hi).1 j (List.getElem?_eq_some_iff.1 hj).1 h0 hri x hi y
      hj hpx hpy

end Order

end BinHeap
