import Mathlib.Data.List.MinMax
import Mathlib.Data.List.Nodup
import Mathlib.Data.Nat.Notation

/-!
# Mutable priority queues

A queue hands out a handle for each element pushed, through which the element is read and written
until it is popped.  A cell is ordered by the rank its value had when it was pushed or last
updated, so a write that changes the rank takes effect with the next `update`.

Which handle a new element gets, and which cell of least rank is on top, is the implementation's
choice, made anew after every call.
-/

namespace MutableQueue

variable {H α : Type*}

structure Cell (H α : Type*) where
  handle : H
  value : α
  rank : ℕ

/-- The cells, no two of one handle, and how many calls have changed the queue. -/
structure Queue (H α : Type*) where
  cells : List (Cell H α)
  nodup : (cells.map Cell.handle).Nodup
  calls : ℕ

structure Choice (H α : Type*) where
  fresh : ℕ → List (Cell H α) → H
  fresh_ne : ∀ {n cells}, ∀ c ∈ cells, c.handle ≠ fresh n cells
  top : ℕ → List (Cell H α) → Option (Cell H α)
  top_none : ∀ {n cells}, top n cells = none → cells = []
  top_mem : ∀ {n cells c}, top n cells = some c → c ∈ cells
  top_le : ∀ {n cells c}, top n cells = some c → ∀ c' ∈ cells, c.rank ≤ c'.rank

namespace Queue

def empty : Queue H α := ⟨[], List.nodup_nil, 0⟩

def top (C : Choice H α) (q : Queue H α) : Option (Cell H α) := C.top q.calls q.cells

/-- The element of a handle; `none` for a handle of no cell. -/
def deref [DecidableEq H] (q : Queue H α) (h : H) : Option α :=
  (q.cells.find? fun c => c.handle = h).map Cell.value

def push (C : Choice H α) (rank : α → ℕ) (q : Queue H α) (v : α) : Queue H α × H :=
  let h := C.fresh q.calls q.cells
  (⟨⟨h, v, rank v⟩ :: q.cells,
    List.nodup_cons.2 ⟨fun hm => by
      obtain ⟨c, hc, he⟩ := List.mem_map.1 hm
      exact C.fresh_ne c hc he, q.nodup⟩, q.calls + 1⟩, h)

/-- The cells rewritten, each under its own handle. -/
def mapCells (q : Queue H α) (g : Cell H α → Cell H α) (hg : ∀ c, (g c).handle = c.handle)
    (calls : ℕ) : Queue H α :=
  ⟨q.cells.map g, by
    rw [List.map_map, show Cell.handle ∘ g = Cell.handle from funext hg]
    exact q.nodup, calls⟩

/-- A write through a handle. -/
def modify [DecidableEq H] (q : Queue H α) (h : H) (f : α → α) : Queue H α :=
  q.mapCells (fun c => if c.handle = h then { c with value := f c.value } else c)
    (fun c => by split <;> rfl) q.calls

/-- The cell of a handle is ordered by its value's rank again. -/
def update [DecidableEq H] (rank : α → ℕ) (q : Queue H α) (h : H) : Queue H α :=
  q.mapCells (fun c => if c.handle = h then { c with rank := rank c.value } else c)
    (fun c => by split <;> rfl) (q.calls + 1)

def erase [DecidableEq H] (q : Queue H α) (h : H) : Queue H α :=
  ⟨q.cells.filter fun c => c.handle ≠ h,
    (q.nodup.sublist (List.filter_sublist.map Cell.handle)), q.calls + 1⟩

/-- The cell on top is removed. -/
def pop [DecidableEq H] (C : Choice H α) (q : Queue H α) : Queue H α :=
  match q.top C with
  | none => q
  | some c => q.erase c.handle

/-- Every cell is ordered by its own value's rank. -/
def Settled (rank : α → ℕ) (q : Queue H α) : Prop := ∀ c ∈ q.cells, c.rank = rank c.value

/-! ## Cells and handles -/

variable {C : Choice H α} {rank : α → ℕ} {q : Queue H α} {c c' : Cell H α} {h : H} {v : α}

theorem eq_of_handle (hc : c ∈ q.cells) (hc' : c' ∈ q.cells) (h : c.handle = c'.handle) :
    c = c' :=
  List.inj_on_of_nodup_map q.nodup hc hc' h

theorem mem_push : c ∈ (q.push C rank v).1.cells ↔
    c = ⟨(q.push C rank v).2, v, rank v⟩ ∨ c ∈ q.cells :=
  List.mem_cons

theorem settled_empty : Settled rank (empty : Queue H α) := fun c hc => by cases hc

theorem Settled.push (hq : Settled rank q) : Settled rank (q.push C rank v).1 := fun c hc => by
  rcases mem_push.1 hc with rfl | hc
  · rfl
  · exact hq c hc

theorem Settled.top_le (hq : Settled rank q) (ht : q.top C = some c) (hc : c' ∈ q.cells) :
    rank c.value ≤ rank c'.value := by
  rw [← hq c (C.top_mem ht), ← hq c' hc]
  exact C.top_le ht c' hc

section Handles

variable [DecidableEq H] {f : α → α}

theorem deref_eq_some_iff : q.deref h = some v ↔ ∃ c ∈ q.cells, c.handle = h ∧ c.value = v := by
  unfold deref
  rw [Option.map_eq_some_iff]
  constructor
  · rintro ⟨c, hc, rfl⟩
    exact ⟨c, List.mem_of_find?_eq_some hc, by simpa using List.find?_some hc, rfl⟩
  · rintro ⟨c, hc, rfl, rfl⟩
    refine ⟨c, ?_, rfl⟩
    obtain ⟨c', hc'⟩ : ∃ c', q.cells.find? (fun d => d.handle = c.handle) = some c' :=
      Option.isSome_iff_exists.1 (List.find?_isSome.2 ⟨c, hc, by simp⟩)
    rw [hc', eq_of_handle (List.mem_of_find?_eq_some hc') hc
      (by simpa using List.find?_some hc')]

theorem deref_of_mem (hc : c ∈ q.cells) : q.deref c.handle = some c.value :=
  deref_eq_some_iff.2 ⟨c, hc, rfl, rfl⟩

theorem mem_modify : c' ∈ (q.modify h f).cells ↔
    ∃ c ∈ q.cells, c' = if c.handle = h then { c with value := f c.value } else c := by
  simp only [modify, mapCells, List.mem_map, eq_comm]

theorem mem_update : c' ∈ (q.update rank h).cells ↔
    ∃ c ∈ q.cells, c' = if c.handle = h then { c with rank := rank c.value } else c := by
  simp only [update, mapCells, List.mem_map, eq_comm]

theorem mem_erase : c ∈ (q.erase h).cells ↔ c ∈ q.cells ∧ c.handle ≠ h := by
  simp [erase]

theorem Settled.modify (hq : Settled rank q) (hf : ∀ v, rank (f v) = rank v) :
    Settled rank (q.modify h f) := fun c hc => by
  obtain ⟨d, hd, rfl⟩ := mem_modify.1 hc
  split
  · exact (hq d hd).trans (hf _).symm
  · exact hq d hd

/-- A write, and the update that makes it count. -/
theorem mem_modify_update : c' ∈ ((q.modify h f).update rank h).cells ↔
    ∃ c ∈ q.cells, c' = if c.handle = h then ⟨h, f c.value, rank (f c.value)⟩ else c := by
  have hcell : ∀ c : Cell H α, (let d := if c.handle = h then { c with value := f c.value } else c
      if d.handle = h then { d with rank := rank d.value } else d)
        = if c.handle = h then ⟨h, f c.value, rank (f c.value)⟩ else c := by
    intro c
    by_cases hc : c.handle = h
    · simp [hc]
    · simp [hc]
  rw [mem_update]
  constructor
  · rintro ⟨d, hd, rfl⟩
    obtain ⟨c, hc, rfl⟩ := mem_modify.1 hd
    exact ⟨c, hc, hcell c⟩
  · rintro ⟨c, hc, rfl⟩
    exact ⟨_, mem_modify.2 ⟨c, hc, rfl⟩, (hcell c).symm⟩

theorem Settled.modify_update (hq : Settled rank q) :
    Settled rank ((q.modify h f).update rank h) := fun c hc => by
  obtain ⟨d, hd, rfl⟩ := mem_modify_update.1 hc
  split_ifs
  · rfl
  · exact hq d hd

theorem Settled.erase (hq : Settled rank q) : Settled rank (q.erase h) := fun c hc =>
  hq c (mem_erase.1 hc).1

theorem pop_of_top (ht : q.top C = some c) : q.pop C = q.erase c.handle := by
  rw [pop, ht]

end Handles

end Queue

/-! ## A list for a queue -/

/-- The first cell of least rank. -/
def least : List (Cell H α) → Option (Cell H α)
  | [] => none
  | c :: cells =>
    match least cells with
    | none => some c
    | some d => if c.rank ≤ d.rank then some c else some d

theorem least_none : ∀ {cells : List (Cell H α)}, least cells = none → cells = []
  | [], _ => rfl
  | c :: cells, h => by
    simp only [least] at h
    split at h
    · cases h
    · split at h <;> cases h

theorem least_spec : ∀ {cells : List (Cell H α)} {c : Cell H α}, least cells = some c →
    c ∈ cells ∧ ∀ c' ∈ cells, c.rank ≤ c'.rank
  | c :: cells, c₀, h => by
    simp only [least] at h
    split at h
    · next hl =>
      cases h
      rw [least_none hl]
      simp
    · next d hd =>
      obtain ⟨hmem, hle⟩ := least_spec hd
      split at h <;> cases h
      · refine ⟨List.mem_cons_self, fun c' hc' => ?_⟩
        rcases List.mem_cons.1 hc' with rfl | hc'
        · exact Nat.le_refl _
        · exact Nat.le_trans ‹_› (hle c' hc')
      · refine ⟨List.mem_cons_of_mem _ hmem, fun c' hc' => ?_⟩
        rcases List.mem_cons.1 hc' with rfl | hc'
        · exact Nat.le_of_not_le ‹_›
        · exact hle c' hc'

/-- Handles counted up, the first cell of least rank on top. -/
def counted (α : Type*) : Choice ℕ α where
  fresh _ cells := (cells.map Cell.handle).foldr max 0 + 1
  fresh_ne {_ cells} c hc := by
    have : c.handle ≤ (cells.map Cell.handle).foldr max 0 :=
      List.le_max_of_le' 0 (List.mem_map_of_mem hc) le_rfl
    omega
  top _ := least
  top_none := least_none
  top_mem h := (least_spec h).1
  top_le h := (least_spec h).2

end MutableQueue
