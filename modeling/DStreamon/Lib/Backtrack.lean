import Mathlib.Data.List.Basic

/-!
# Backtracking patterns

A pattern lists the ways in which it takes the front of a list, in the order a backtracking matcher
tries them; the first is the one it settles on.  Repetition is greedy (`many`: the longest way comes
first) or lazy (`few`: the shortest does).
-/

namespace Backtrack

variable {α β γ : Type*}

/-- The ways to take a front: what it gives and what is left. -/
def Pattern (α β : Type*) := List α → List (β × List α)

namespace Pattern

def give (b : β) : Pattern α β := fun l => [(b, l)]

def andThen (p : Pattern α β) (q : β → Pattern α γ) : Pattern α γ := fun l =>
  (p l).flatMap fun x => q x.1 x.2

def alt (p q : Pattern α β) : Pattern α β := fun l => p l ++ q l

def optional (p : Pattern α (List α)) : Pattern α (List α) := p.alt (give [])

def one (f : α → Bool) : Pattern α (List α)
  | [] => []
  | a :: l => if f a then [([a], l)] else []

def many (f : α → Bool) : Pattern α (List α)
  | [] => [([], [])]
  | a :: l => if f a then ((many f l).map fun x => (a :: x.1, x.2)) ++ [([], a :: l)]
    else [([], a :: l)]

def many1 (f : α → Bool) : Pattern α (List α) := fun l =>
  (many f l).filter fun x => ¬ x.1.isEmpty

def few (f : α → Bool) : Pattern α (List α)
  | [] => [([], [])]
  | a :: l => ([], a :: l) :: if f a then (few f l).map fun x => (a :: x.1, x.2) else []

def word [BEq α] (w : List α) : Pattern α (List α) := fun l =>
  if w.isPrefixOf l then [(w, l.drop w.length)] else []

def append (p q : Pattern α (List α)) : Pattern α (List α) :=
  p.andThen fun a => q.andThen fun b => give (a ++ b)

def few1 (f : α → Bool) : Pattern α (List α) := (one f).append (few f)

/-- One of some words; without any it takes nothing. -/
def anyOf [BEq α] : List (List α) → Pattern α (List α)
  | [] => word []
  | [w] => word w
  | w :: ws => (word w).alt (anyOf ws)

/-- What the successive matches give, those after the first `skip` elements. -/
def scan (p : Pattern α β) : ℕ → List α → List β
  | _, [] => []
  | skip + 1, _ :: l => p.scan skip l
  | 0, a :: l =>
    match (p (a :: l)).head? with
    | none => p.scan 0 l
    | some (b, rest) => b :: p.scan (l.length - rest.length) l

/-- The matches from left to right, none overlapping another, of a pattern that takes at least one
element. -/
def findAll (p : Pattern α β) (l : List α) : List β := p.scan 0 l

/-- A list, less its first `skip` elements, cut at the successive matches. -/
def cutFrom (p : Pattern α β) : ℕ → List α → List (α ⊕ β)
  | _, [] => []
  | skip + 1, _ :: l => p.cutFrom skip l
  | 0, a :: l =>
    match (p (a :: l)).head? with
    | none => .inl a :: p.cutFrom 0 l
    | some (b, rest) => .inr b :: p.cutFrom (l.length - rest.length) l

/-- The elements outside of matches, and what the matches give. -/
def cut (p : Pattern α β) (l : List α) : List (α ⊕ β) := p.cutFrom 0 l

/-- Every match replaced. -/
def sub (p : Pattern α β) (g : β → List α) (l : List α) : List α :=
  (p.cut l).flatMap (Sum.elim (fun a => [a]) g)

/-! ## The first way -/

/-- The way the matcher settles on. -/
def Takes (p : Pattern α β) (l : List α) (b : β) (rest : List α) : Prop :=
  (p l).head? = some (b, rest)

variable {p : Pattern α β} {q : β → Pattern α γ} {p' p'' : Pattern α (List α)} {f : α → Bool}
  {l rest rest' w : List α} {b : β} {c : γ}

@[simp] theorem takes_give {b' : β} : Takes (give b) l b' rest ↔ b = b' ∧ l = rest := by
  simp [Takes, give]

theorem Takes.andThen (hp : Takes p l b rest) (hq : Takes (q b) rest c rest') :
    Takes (p.andThen q) l c rest' := by
  obtain ⟨ways, hways⟩ := List.head?_eq_some_iff.1 hp
  obtain ⟨ways', hways'⟩ := List.head?_eq_some_iff.1 hq
  simp [Takes, Pattern.andThen, hways, hways']

theorem andThen_nil (hp : p l = []) : p.andThen q l = [] := by
  rw [Pattern.andThen, hp]
  rfl

theorem andThen_single (hp : p l = [(b, rest)]) : p.andThen q l = q b rest := by
  rw [Pattern.andThen, hp, List.flatMap_cons, List.flatMap_nil, List.append_nil]

theorem andThen_assoc (p : Pattern α β) (q : β → Pattern α γ) {δ : Type*}
    (r : γ → Pattern α δ) :
    (p.andThen q).andThen r = p.andThen fun b => (q b).andThen r :=
  funext fun _ => List.flatMap_assoc

theorem give_andThen (b : β) (q : β → Pattern α γ) : (give b).andThen q = q b :=
  funext fun _ => andThen_single rfl

theorem Takes.alt_left {p₂ : Pattern α β} (hp : Takes p l b rest) : Takes (p.alt p₂) l b rest := by
  obtain ⟨ways, hways⟩ := List.head?_eq_some_iff.1 hp
  simp [Takes, alt, hways]

theorem Takes.alt_right {p₂ : Pattern α β} (hnone : p l = []) (hp : Takes p₂ l b rest) :
    Takes (p.alt p₂) l b rest := by
  rw [Takes, alt, hnone, List.nil_append]
  exact hp

theorem Takes.optional {a : List α} (hp : Takes p' l a rest) : Takes p'.optional l a rest :=
  hp.alt_left

theorem takes_optional_nil (hnone : p' l = []) : Takes p'.optional l [] l :=
  Takes.alt_right hnone (takes_give.2 ⟨rfl, rfl⟩)

/-- An optional part always takes something. -/
theorem exists_takes_optional (p' : Pattern α (List α)) (l : List α) :
    ∃ a rest, Takes p'.optional l a rest := by
  rcases h : p' l with _ | ⟨⟨a, rest⟩, ways⟩
  · exact ⟨_, _, takes_optional_nil h⟩
  · exact ⟨a, rest, Takes.optional (by simp [Takes, h])⟩

theorem takes_one {a : α} (ha : f a) : Takes (one f) (a :: l) [a] l := by
  simp [Takes, one, ha]

theorem one_nil (h : ∀ a ∈ l.head?, ¬ f a) : one f l = [] := by
  rcases l with _ | ⟨a, l⟩
  · rfl
  · simp [one, h a rfl]

/-- A repetition takes the run of members in front, where no member follows. -/
theorem takes_many : ∀ {w : List α}, (∀ a ∈ w, f a) → (∀ a ∈ rest.head?, ¬ f a) →
    Takes (many f) (w ++ rest) w rest
  | [], _, h => by
    rcases rest with _ | ⟨a, rest⟩
    · rfl
    · simp [Takes, many, h a rfl]
  | a :: w, hw, h => by
    simp only [List.forall_mem_cons] at hw
    obtain ⟨ways, hways⟩ := List.head?_eq_some_iff.1 (takes_many hw.2 h)
    simp [Takes, many, hw.1, hways]

theorem few_head (f : α → Bool) : ∀ l : List α, (few f l).head? = some ([], l)
  | [] => rfl
  | _ :: _ => rfl

/-- A lazy repetition goes on as long as what follows it fails. -/
theorem takes_few {q : List α → Pattern α γ} : ∀ {w : List α}, (∀ a ∈ w, f a) →
    (∀ u v, w = u ++ v → v ≠ [] → q u (v ++ rest) = []) → Takes (q w) rest c rest' →
    Takes ((few f).andThen q) (w ++ rest) c rest'
  | [], _, _, hq => by
    obtain ⟨ways, hways⟩ := List.head?_eq_some_iff.1 (few_head f rest)
    obtain ⟨ways', hways'⟩ := List.head?_eq_some_iff.1 hq
    simp [Takes, Pattern.andThen, hways, hways']
  | a :: w, hw, hfail, hq => by
    simp only [List.forall_mem_cons] at hw
    have hnil : q [] (a :: (w ++ rest)) = [] := hfail [] (a :: w) rfl (List.cons_ne_nil a w)
    have hrest := takes_few (q := fun u => q (a :: u)) hw.2
      (fun u v huv hv => hfail (a :: u) v (by rw [huv, List.cons_append]) hv) hq
    unfold Takes Pattern.andThen at hrest ⊢
    rw [List.cons_append, few, if_pos hw.1, List.flatMap_cons, hnil, List.nil_append,
      List.flatMap_map]
    exact hrest

theorem few_nil {q : List α → Pattern α γ} : ∀ {l : List α},
    (∀ u v, l = u ++ v → q u v = []) → (few f).andThen q l = []
  | [], h => by
    rw [Pattern.andThen, few, List.flatMap_cons, h [] [] rfl]
    rfl
  | a :: l, h => by
    have hrest : (few f).andThen (fun u => q (a :: u)) l = [] := few_nil fun u v huv =>
      h (a :: u) v (by rw [huv, List.cons_append])
    unfold Pattern.andThen at hrest ⊢
    rw [few, List.flatMap_cons, h [] (a :: l) rfl, List.nil_append]
    split_ifs
    · rw [List.flatMap_map]
      exact hrest
    · rfl

theorem takes_many1 (hne : w ≠ []) (hw : ∀ a ∈ w, f a) (h : ∀ a ∈ rest.head?, ¬ f a) :
    Takes (many1 f) (w ++ rest) w rest := by
  obtain ⟨ways, hways⟩ := List.head?_eq_some_iff.1 (takes_many hw h)
  simp [Takes, many1, hways, hne]

theorem many1_nil (h : ∀ a ∈ l.head?, ¬ f a) : many1 f l = [] := by
  rcases l with _ | ⟨a, l⟩
  · rfl
  · simp [many1, many, h a rfl]

theorem takes_word [BEq α] [LawfulBEq α] : Takes (word w) (w ++ rest) w rest := by
  have hprefix : w.isPrefixOf (w ++ rest) = true := by simp
  simp [Takes, word, hprefix]

theorem word_nil [BEq α] [LawfulBEq α] (h : ¬ w <+: l) : word w l = [] := by
  simp [word, h]

theorem Takes.append {a a' : List α} (hp : Takes p' l a rest) (hq : Takes p'' rest a' rest') :
    Takes (p'.append p'') l (a ++ a') rest' :=
  hp.andThen (hq.andThen (takes_give.2 ⟨rfl, rfl⟩))

theorem append_nil_left (hp : p' l = []) : p'.append p'' l = [] := andThen_nil hp

theorem append_nil_right {a : List α} (hp : p' l = [(a, rest)]) (hq : p'' rest = []) :
    p'.append p'' l = [] := (andThen_single hp).trans (andThen_nil hq)

/-! ## All ways -/

section Ways

variable {x : List α × List α} {y : γ × List α}

theorem mem_andThen : y ∈ p.andThen q l ↔ ∃ z ∈ p l, y ∈ q z.1 z.2 := List.mem_flatMap

theorem mem_word [BEq α] [LawfulBEq α] : x ∈ word w l ↔ x.1 = w ∧ l = x.1 ++ x.2 := by
  obtain ⟨u, v⟩ := x
  rw [word]
  split_ifs with h
  · obtain ⟨t, rfl⟩ := List.isPrefixOf_iff_prefix.1 h
    rw [List.drop_left, List.mem_singleton, Prod.mk.injEq]
    refine and_congr_right fun hu => ?_
    rw [hu, List.append_cancel_left_eq]
    exact eq_comm
  · refine iff_of_false List.not_mem_nil ?_
    rintro ⟨rfl, hl⟩
    rw [show l = u ++ v from hl] at h
    exact h (List.isPrefixOf_iff_prefix.2 (List.prefix_append u v))

theorem mem_anyOf [BEq α] [LawfulBEq α] : ∀ {ws : List (List α)},
    x ∈ anyOf ws l ↔ (x.1 ∈ ws ∨ ws = [] ∧ x.1 = []) ∧ l = x.1 ++ x.2
  | [] => by simp [anyOf, mem_word]
  | [w] => by simp [anyOf, mem_word]
  | w :: v :: ws => by
    rw [anyOf, alt, List.mem_append, mem_word, mem_anyOf, ← or_and_right]
    · simp only [List.mem_cons, reduceCtorEq, false_and, or_false]
    · exact fun h => by cases h

theorem mem_many : ∀ {l : List α} {x : List α × List α},
    x ∈ many f l ↔ l = x.1 ++ x.2 ∧ ∀ a ∈ x.1, f a
  | [], (u, v) => by
    cases u <;> simp [many]
  | a :: l, (u, v) => by
    rw [many]
    cases u with
    | nil =>
      have hmem : ([], v) ∈ [(([] : List α), a :: l)] ↔ a :: l = v := by
        rw [List.mem_singleton, Prod.mk.injEq, eq_self, true_and]
        exact eq_comm
      have hmap : ∀ ways : List (List α × List α), ([], v) ∉ ways.map fun x => (a :: x.1, x.2) := by
        simp
      split_ifs <;> simp [hmap, hmem]
    | cons b u =>
      split_ifs with h
      · simp only [List.mem_append, List.mem_map, List.mem_singleton, Prod.mk.injEq,
          List.cons_ne_nil, false_and, or_false, List.cons.injEq, List.cons_append]
        constructor
        · rintro ⟨z, hz, ⟨rfl, rfl⟩, rfl⟩
          obtain ⟨hl, hf⟩ := mem_many.1 hz
          exact ⟨⟨rfl, hl⟩, List.forall_mem_cons.2 ⟨h, hf⟩⟩
        · rintro ⟨⟨rfl, hl⟩, hf⟩
          exact ⟨(u, v), mem_many.2 ⟨hl, (List.forall_mem_cons.1 hf).2⟩, ⟨rfl, rfl⟩, rfl⟩
      · refine iff_of_false (by simp) ?_
        rintro ⟨hl, hf⟩
        obtain ⟨rfl, -⟩ := List.cons.inj hl
        exact h (hf a List.mem_cons_self)

theorem mem_many1 : x ∈ many1 f l ↔ x.1 ≠ [] ∧ l = x.1 ++ x.2 ∧ ∀ a ∈ x.1, f a := by
  rw [many1, List.mem_filter, mem_many, and_comm]
  simp

/-- The only way there is. -/
theorem takes_of_unique (hmem : (b, rest) ∈ p l) (h : ∀ x ∈ p l, x = (b, rest)) :
    Takes p l b rest := by
  obtain ⟨x, ways, hways⟩ := List.exists_cons_of_ne_nil (List.ne_nil_of_mem hmem)
  rw [Takes, hways, List.head?_cons, h x (hways ▸ List.mem_cons_self)]

end Ways

/-! ## Successive matches -/

theorem scan_eq : ∀ {skip : ℕ} {l : List α}, p.scan skip l = p.findAll (l.drop skip)
  | 0, l => by rw [List.drop_zero, findAll]
  | skip + 1, [] => by simp [scan, findAll]
  | skip + 1, a :: l => by
    rw [scan, List.drop_succ_cons]
    exact scan_eq

theorem findAll_takes (hne : w ≠ []) (hp : Takes p (w ++ rest) b rest) :
    p.findAll (w ++ rest) = b :: p.findAll rest := by
  obtain ⟨a, w, rfl⟩ := List.exists_cons_of_ne_nil hne
  rw [List.cons_append, Takes] at hp
  have hdrop : (w ++ rest).drop ((w ++ rest).length - rest.length) = rest := by simp
  rw [List.cons_append, findAll, scan, hp]
  dsimp only
  rw [scan_eq, hdrop]

theorem exists_findAll_takes {a : α} (hp : Takes p (a :: l) b rest) :
    ∃ more, p.findAll (a :: l) = b :: more := by
  rw [findAll, scan, hp]
  exact ⟨_, rfl⟩

theorem findAll_cons {a : α} (h : p (a :: l) = []) : p.findAll (a :: l) = p.findAll l := by
  rw [findAll, scan, h]
  rfl

theorem findAll_skip (h : ∀ a ∈ w, ∀ l, p (a :: l) = []) :
    p.findAll (w ++ rest) = p.findAll rest := by
  induction w with
  | nil => rfl
  | cons a w ih =>
    simp only [List.forall_mem_cons] at h
    rw [List.cons_append, findAll_cons (h.1 _)]
    exact ih h.2

/-! ## Lists cut at the matches -/

theorem cutFrom_eq : ∀ {skip : ℕ} {l : List α}, p.cutFrom skip l = p.cut (l.drop skip)
  | 0, l => by rw [List.drop_zero, cut]
  | skip + 1, [] => by simp [cutFrom, cut]
  | skip + 1, a :: l => by
    rw [cutFrom, List.drop_succ_cons]
    exact cutFrom_eq

@[simp] theorem cut_nil : p.cut [] = [] := rfl

theorem cut_takes (hne : w ≠ []) (hp : Takes p (w ++ rest) b rest) :
    p.cut (w ++ rest) = .inr b :: p.cut rest := by
  obtain ⟨a, w, rfl⟩ := List.exists_cons_of_ne_nil hne
  rw [List.cons_append, Takes] at hp
  have hdrop : (w ++ rest).drop ((w ++ rest).length - rest.length) = rest := by simp
  rw [List.cons_append, cut, cutFrom, hp]
  dsimp only
  rw [cutFrom_eq, hdrop]

theorem cut_skip {a : α} (h : p (a :: l) = []) : p.cut (a :: l) = .inl a :: p.cut l := by
  rw [cut, cutFrom, h]
  rfl

theorem scan_eq_cutFrom : ∀ (skip : ℕ) (l : List α),
    p.scan skip l = (p.cutFrom skip l).filterMap Sum.getRight?
  | _, [] => by simp [scan, cutFrom]
  | skip + 1, a :: l => by
    rw [scan, cutFrom]
    exact scan_eq_cutFrom skip l
  | 0, a :: l => by
    rw [scan, cutFrom]
    cases (p (a :: l)).head? with
    | none =>
      dsimp only
      rw [scan_eq_cutFrom 0 l, List.filterMap_cons_none rfl]
    | some x => simp [scan_eq_cutFrom (l.length - x.2.length) l]

/-- The matches are what a list is cut at. -/
theorem findAll_eq_cut (p : Pattern α β) (l : List α) :
    p.findAll l = (p.cut l).filterMap Sum.getRight? :=
  scan_eq_cutFrom 0 l

end Pattern

end Backtrack
