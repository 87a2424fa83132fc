import Mathlib.Data.List.Infix
import Mathlib.Tactic.Common

/-!
# Substring replacement and words

A text is a list.  `replace old new` puts `new` for every occurrence of `old` that the search from
the left meets.  The words of a text are its longest runs of elements that meet `p`, with an empty
run where two elements that do not are next to each other.

What takes a text apart at each element outside of words (`Splits`) works word by word.
-/

namespace Replace

variable {α : Type*}

/-! ## Occurrences -/

section Infix

variable {c : α} {n a b : List α}

theorem prefix_of_notMem (hc : c ∉ n) (h : n <+: a ++ c :: b) : n <+: a := by
  refine List.prefix_of_prefix_length_le h (List.prefix_append a _) (Nat.not_lt.1 fun hlt => hc ?_)
  have hget : n[a.length]? = some c := by
    obtain ⟨t, ht⟩ := h
    have hn : (n ++ t)[a.length]? = n[a.length]? := List.getElem?_append_left hlt
    rw [← hn, ht]
    simp
  exact List.mem_of_getElem? hget

/-- An occurrence without the element `c` lies on one side of it. -/
theorem infix_append_cons (hc : c ∉ n) : n <:+: a ++ c :: b ↔ n <:+: a ∨ n <:+: b := by
  induction a with
  | nil =>
    rw [List.nil_append, List.infix_cons_iff]
    refine or_congr_left ⟨fun h => ?_, fun h => ?_⟩
    · exact (prefix_of_notMem (a := []) hc h).isInfix
    · rw [List.infix_nil.1 h]
      exact List.nil_prefix
  | cons x a ih =>
    rw [List.cons_append, List.infix_cons_iff, List.infix_cons_iff, ih, or_assoc]
    exact or_congr_left ⟨prefix_of_notMem (a := x :: a) hc,
      fun h => h.trans (List.prefix_append (x :: a) _)⟩

end Infix

/-! ## Replacement -/

section Replacement

variable [DecidableEq α] (old new : List α)

/-- `replace` where the next `skip` elements belong to an occurrence. -/
def replaceFrom : ℕ → List α → List α
  | _, [] => []
  | skip + 1, _ :: cs => replaceFrom skip cs
  | 0, c :: cs =>
    if old <+: c :: cs then new ++ replaceFrom (old.length - 1) cs else c :: replaceFrom 0 cs

/-- For an `old` that is not empty. -/
def replace (text : List α) : List α := replaceFrom old new 0 text

variable {old} {new} {a b l : List α} {c x : α}

@[simp] theorem replace_nil : replace old new [] = [] := rfl

theorem replaceFrom_eq : ∀ (skip : ℕ) (l : List α),
    replaceFrom old new skip l = replace old new (l.drop skip)
  | 0, _ => rfl
  | _ + 1, [] => rfl
  | skip + 1, _ :: cs => replaceFrom_eq skip cs

theorem replace_hit (hold : old ≠ []) (b : List α) :
    replace old new (old ++ b) = new ++ replace old new b := by
  obtain ⟨c, cs, rfl⟩ := List.exists_cons_of_ne_nil hold
  have h : c :: cs <+: c :: (cs ++ b) := List.prefix_append (c :: cs) b
  rw [List.cons_append, replace, replaceFrom, if_pos h, replaceFrom_eq]
  simp

theorem replace_cons (h : ¬ old <+: c :: b) :
    replace old new (c :: b) = c :: replace old new b := by
  rw [replace, replaceFrom, if_neg h]
  rfl

theorem replace_self (hold : old ≠ []) : replace old new old = new := by
  have h : replace old new (old ++ []) = new ++ replace old new [] := replace_hit hold []
  simpa using h

/-- A text begins with an occurrence, or its first element is passed over. -/
theorem replace_induction (hold : old ≠ []) {motive : List α → Prop} (nil : motive [])
    (hit : ∀ b, motive b → motive (old ++ b))
    (miss : ∀ c b, ¬ old <+: c :: b → motive b → motive (c :: b)) (l : List α) : motive l := by
  induction hn : l.length using Nat.strong_induction_on generalizing l with
  | _ n ih =>
    cases l with
    | nil => exact nil
    | cons c b =>
      by_cases h : old <+: c :: b
      · obtain ⟨rest, hrest⟩ := h
        have hpos : 0 < old.length := List.length_pos_iff.2 hold
        have hlen := congrArg List.length hrest
        rw [List.length_append] at hlen
        exact hrest ▸ hit rest (ih _ (by omega) rest rfl)
      · exact miss c b h (ih _ (by rw [← hn, List.length_cons]; omega) b rfl)

theorem replace_of_not_infix (h : ¬ old <:+: l) : replace old new l = l := by
  induction l with
  | nil => rfl
  | cons c b ih =>
    rw [List.infix_cons_iff, not_or] at h
    rw [replace_cons h.1, ih h.2]

/-- An occurrence that is the only one is all that is replaced. -/
theorem replace_once (hold : old ≠ []) : ∀ {a : List α},
    (∀ a' b', a ++ old ++ b = a' ++ old ++ b' → a' = a) →
      replace old new (a ++ old ++ b) = a ++ new ++ b
  | [], hunique => by
    rw [List.nil_append, replace_hit hold, replace_of_not_infix]
    · rfl
    · rintro ⟨s, t, rfl⟩
      have hnil := hunique (old ++ s) t (by simp)
      exact hold (List.append_eq_nil_iff.1 hnil).1
  | c :: a, hunique => by
    have hno : ¬ old <+: c :: (a ++ old ++ b) := by
      rintro ⟨t, ht⟩
      exact absurd (hunique [] t (by simpa using ht.symm)) (List.cons_ne_nil c a).symm
    rw [List.cons_append, List.cons_append, replace_cons hno, replace_once hold]
    · rfl
    · intro a' b' h
      have := hunique (c :: a') b' (by rw [List.cons_append, List.cons_append, h]; rfl)
      exact (List.cons.inj this).2

/-- An element that no occurrence has separates the text. -/
theorem replace_append_cons (hold : old ≠ []) (hc : c ∉ old) (a b : List α) :
    replace old new (a ++ c :: b) = replace old new a ++ c :: replace old new b := by
  induction a using replace_induction hold with
  | nil =>
    refine replace_cons fun h => hold ?_
    exact List.prefix_nil.1 (prefix_of_notMem (a := []) hc h)
  | hit a ih => rw [List.append_assoc, replace_hit hold, replace_hit hold, ih,
      List.append_assoc]
  | miss x a hx ih =>
    have hx' : ¬ old <+: x :: (a ++ c :: b) := fun h =>
      hx (prefix_of_notMem (a := x :: a) hc h)
    rw [List.cons_append, replace_cons hx', ih, replace_cons hx, List.cons_append]

/-- An element that is not replaced stays as often as it was. -/
theorem count_le_replace (hold : old ≠ []) (hx : x ∉ old) (l : List α) :
    l.count x ≤ (replace old new l).count x := by
  induction l using replace_induction hold with
  | nil => exact Nat.le_refl _
  | hit b ih =>
    rw [replace_hit hold, List.count_append, List.count_append, List.count_eq_zero.2 hx]
    omega
  | miss c b h ih =>
    rw [replace_cons h, List.count_cons, List.count_cons]
    omega

/-- What is put in adds to it. -/
theorem count_add_le_replace (hold : old ≠ []) (hx : x ∉ old) {l : List α} (h : old <:+: l) :
    l.count x + new.count x ≤ (replace old new l).count x := by
  induction l using replace_induction hold with
  | nil => exact absurd (List.infix_nil.1 h) hold
  | hit b ih =>
    have hb : b.count x ≤ (replace old new b).count x := count_le_replace hold hx b
    rw [replace_hit hold, List.count_append, List.count_append, List.count_eq_zero.2 hx]
    omega
  | miss c b hc ih =>
    have := ih ((List.infix_cons_iff.1 h).resolve_left hc)
    rw [replace_cons hc, List.count_cons, List.count_cons]
    omega

end Replacement

/-! ## Words -/

section Words

variable (p : α → Bool)

/-- The words of a text that begins with `run`. -/
def runs : List α → List α → List (List α)
  | run, [] => [run]
  | run, c :: cs => if p c then runs (run ++ [c]) cs else run :: runs [] cs

def words (text : List α) : List (List α) := runs p [] text

def mapRuns (f : List α → List α) : List α → List α → List α
  | run, [] => f run
  | run, c :: cs => if p c then mapRuns f (run ++ [c]) cs else f run ++ c :: mapRuns f [] cs

/-- Each word replaced by its image. -/
def mapWords (f : List α → List α) (text : List α) : List α := mapRuns p f [] text

/-- Elements outside of words are kept, and what lies before them has no effect on what lies
behind. -/
def Splits (F : List α → List α) : Prop :=
  ∀ a c b, p c = false → F (a ++ c :: b) = F a ++ c :: F b

variable {p} {f g F G : List α → List α} {run text w n : List α} {x : α}

theorem splits_replace [DecidableEq α] {old new : List α} (hold : old ≠ [])
    (hp : ∀ c ∈ old, p c = true) : Splits p (replace old new) := fun a c b hc =>
  replace_append_cons hold (fun h => Bool.false_ne_true (hc.symm.trans (hp c h))) a b

theorem Splits.comp (hF : Splits p F) (hG : Splits p G) : Splits p (F ∘ G) := fun a c b hc => by
  rw [Function.comp_apply, hG a c b hc, hF _ c _ hc]
  rfl

theorem splits_id : Splits p id := fun _ _ _ _ => rfl

theorem Splits.mapRuns_eq (hF : Splits p F) :
    ∀ (text run : List α), F (run ++ text) = mapRuns p F run text
  | [], run => by rw [List.append_nil, mapRuns]
  | c :: cs, run => by
    rw [mapRuns]
    split_ifs with hc
    · rw [← hF.mapRuns_eq cs, List.append_assoc]
      rfl
    · rw [hF run c cs (Bool.not_eq_true _ ▸ hc), ← hF.mapRuns_eq cs []]
      rfl

/-- What splits a text maps its words. -/
theorem Splits.eq_mapWords (hF : Splits p F) (text : List α) : F text = mapWords p F text :=
  hF.mapRuns_eq text []

theorem mapRuns_congr : ∀ {text run : List α}, (∀ w ∈ runs p run text, f w = g w) →
    mapRuns p f run text = mapRuns p g run text
  | [], run, h => h run (List.mem_singleton_self run)
  | c :: cs, run, h => by
    rw [runs] at h
    rw [mapRuns, mapRuns]
    split_ifs at h ⊢ with hc
    · exact mapRuns_congr h
    · rw [h run List.mem_cons_self, mapRuns_congr fun w hw => h w (List.mem_cons_of_mem _ hw)]

theorem mapWords_congr (h : ∀ w ∈ words p text, f w = g w) :
    mapWords p f text = mapWords p g text :=
  mapRuns_congr h

theorem count_mapRuns_le [DecidableEq α] : ∀ {text run : List α},
    (∀ w ∈ runs p run text, (g w).count x ≤ (f w).count x) →
    (mapRuns p g run text).count x ≤ (mapRuns p f run text).count x ∧
      ((mapRuns p f run text).count x = (mapRuns p g run text).count x →
        ∀ w ∈ runs p run text, (f w).count x = (g w).count x)
  | [], run, h => by
    refine ⟨h run (List.mem_singleton_self run), fun heq w hw => ?_⟩
    rw [List.mem_singleton.1 hw]
    exact heq
  | c :: cs, run, h => by
    rw [runs] at h ⊢
    rw [mapRuns, mapRuns]
    split_ifs at h ⊢ with hc
    · exact count_mapRuns_le h
    · obtain ⟨hle, heq⟩ := count_mapRuns_le fun w hw => h w (List.mem_cons_of_mem _ hw)
      have hrun := h run List.mem_cons_self
      simp only [List.count_append, List.count_cons]
      refine ⟨by omega, fun hcount w hw => ?_⟩
      rcases List.mem_cons.1 hw with rfl | hw
      · omega
      · exact heq (by omega) w hw

/-- Where one map leaves at least as many of an element in each word, and more where it differs, the
texts are the same only if the words are. -/
theorem mapWords_inj [DecidableEq α] (hle : ∀ w ∈ words p text, (g w).count x ≤ (f w).count x)
    (heq : ∀ w ∈ words p text, (f w).count x = (g w).count x → f w = g w) :
    mapWords p f text = mapWords p g text ↔ ∀ w ∈ words p text, f w = g w :=
  ⟨fun h w hw => heq w hw ((count_mapRuns_le hle).2 (congrArg _ h) w hw), mapWords_congr⟩

theorem infix_mapRuns (hn : ∀ c ∈ n, p c = true) : ∀ {text run : List α},
    n <:+: mapRuns p g run text ↔ ∃ w ∈ runs p run text, n <:+: g w
  | [], run => by
    rw [mapRuns, runs]
    simp
  | c :: cs, run => by
    rw [mapRuns, runs]
    split_ifs with hc
    · exact infix_mapRuns hn
    · rw [infix_append_cons fun h => hc (hn c h), infix_mapRuns hn, List.exists_mem_cons_iff]

/-- A word occurs in a mapped text where it occurs in an image. -/
theorem infix_mapWords (hn : ∀ c ∈ n, p c = true) :
    n <:+: mapWords p g text ↔ ∃ w ∈ words p text, n <:+: g w :=
  infix_mapRuns hn

theorem infix_iff (hn : ∀ c ∈ n, p c = true) : n <:+: text ↔ ∃ w ∈ words p text, n <:+: w := by
  have h := splits_id.eq_mapWords (p := p) text
  rw [id_eq] at h
  refine Iff.trans ?_ (infix_mapWords (g := id) hn)
  rw [← h]

end Words

end Replace
