import DStreamon.Substitution

/-!
# Replacing one name after the other

Names have only the characters of words, so each word of a text is replaced on its own.  Every
replacement adds a bracket: the texts are as they should be just where no word has been replaced in
that should not, and no name a second time.
-/

namespace DStreamon.Substitution

open Replace (replace words mapWords Splits)

variable {table t t₁ t₂ : NameTable} {e e' : Identifier × ℕ} {text w : List Char}
  {n m : Identifier} {i : ℕ} {action : List Char}

/-! ## Names -/

theorem Identifier.text_ne_nil (n : Identifier) : n.text ≠ [] := List.cons_ne_nil _ _

theorem Identifier.ext_text (h : n.text = m.text) : n = m := by
  obtain ⟨c, cs, _, _⟩ := n
  obtain ⟨d, ds, _, _⟩ := m
  obtain ⟨rfl, rfl⟩ := List.cons.inj h
  rfl

theorem Identifier.isWord_text (n : Identifier) : ∀ c ∈ n.text, isWord c = true := by
  intro c hc
  rcases List.mem_cons.1 hc with rfl | hc
  · have := n.isFirst
    unfold isWord Char.isAlphanum
    simp only [Bool.or_eq_true] at this ⊢
    tauto
  · exact List.all_eq_true.1 n.isRest c hc

theorem bracket_notMem_text (n : Identifier) : '[' ∉ n.text := fun h =>
  absurd (n.isWord_text _ h) (by decide)

theorem close_notMem_text (n : Identifier) : ']' ∉ n.text := fun h =>
  absurd (n.isWord_text _ h) (by decide)

theorem count_input (i : ℕ) : (input i).count '[' = 1 := by
  have hdigits : '[' ∉ Nat.toDigits 10 i := fun h =>
    absurd (Nat.isDigit_of_mem_toDigits (by decide) (by decide) h) (by decide)
  unfold input
  rw [List.count_append, List.count_cons, List.count_append, List.count_eq_zero.2 hdigits]
  decide

theorem not_isDigit_first (n : Identifier) : ¬ n.first.isDigit = true := by
  intro hdigit
  have hfirst := n.isFirst
  rw [Bool.or_eq_true, beq_iff_eq] at hfirst
  rcases hfirst with halpha | hline
  · unfold Char.isDigit at hdigit
    unfold Char.isAlpha Char.isUpper Char.isLower at halpha
    simp only [Bool.or_eq_true, Bool.and_eq_true, decide_eq_true_eq, ge_iff_le,
      UInt32.le_iff_toNat_le] at hdigit halpha
    have h9 : '9'.val.toNat = 57 := rfl
    have hA : 'A'.val.toNat = 65 := rfl
    have ha : 'a'.val.toNat = 97 := rfl
    omega
  · rw [hline] at hdigit
    exact absurd hdigit (by decide)

/-- Within what is inserted, a name can only occur in the word. -/
theorem infix_input (n : Identifier) (i : ℕ) : n.text <:+: input i ↔ n.text <:+: inputWord := by
  have hdigits : ¬ n.text <:+: Nat.toDigits 10 i := by
    intro h
    have hdigit := Nat.isDigit_of_mem_toDigits (b := 10) (by decide) (by decide)
      (h.subset List.mem_cons_self)
    exact not_isDigit_first n hdigit
  have hnil : ¬ n.text <:+: [] := fun h => n.text_ne_nil (List.infix_nil.1 h)
  rw [input, Replace.infix_append_cons (bracket_notMem_text n),
    Replace.infix_append_cons (close_notMem_text n)]
  tauto

/-! ## One name after the other -/

/-- The replacements of some names, in their order. -/
def inOrder (t : NameTable) (text : List Char) : List Char :=
  t.foldl (fun text e => replace e.1.text (input e.2) text) text

theorem inOrder_cons : inOrder (e :: t) text = inOrder t (replace e.1.text (input e.2) text) := rfl

theorem inOrder_append : inOrder (t₁ ++ t₂) text = inOrder t₂ (inOrder t₁ text) :=
  List.foldl_append

theorem splits_inOrder : ∀ t : NameTable, Splits isWord (inOrder t)
  | [] => Replace.splits_id
  | e :: t => (splits_inOrder t).comp
    (Replace.splits_replace e.1.text_ne_nil e.1.isWord_text)

theorem count_le_inOrder : ∀ (t : NameTable) (text : List Char),
    text.count '[' ≤ (inOrder t text).count '['
  | [], _ => Nat.le_refl _
  | e :: t, text => (Replace.count_le_replace e.1.text_ne_nil (bracket_notMem_text e.1) text).trans
    (count_le_inOrder t _)

/-- A text is left as it is where no name occurs in it, and has one more bracket where one does. -/
theorem inOrder_cases : ∀ (t : NameTable) (text : List Char),
    ((∀ e ∈ t, ¬ e.1.text <:+: text) ∧ inOrder t text = text) ∨
      ((∃ e ∈ t, e.1.text <:+: text) ∧ text.count '[' < (inOrder t text).count '[')
  | [], text => .inl ⟨fun _ h => absurd h List.not_mem_nil, rfl⟩
  | e :: t, text => by
    rw [inOrder_cons]
    by_cases h : e.1.text <:+: text
    · refine .inr ⟨⟨e, List.mem_cons_self, h⟩, ?_⟩
      have hcount : text.count '[' + (input e.2).count '[' ≤
          (replace e.1.text (input e.2) text).count '[' :=
        Replace.count_add_le_replace e.1.text_ne_nil (bracket_notMem_text e.1) h
      rw [count_input] at hcount
      have := count_le_inOrder t (replace e.1.text (input e.2) text)
      omega
    · rw [Replace.replace_of_not_infix h]
      obtain ⟨hno, heq⟩ | ⟨⟨e', he', hin⟩, hlt⟩ := inOrder_cases t text
      · exact .inl ⟨List.forall_mem_cons.2 ⟨h, hno⟩, heq⟩
      · exact .inr ⟨⟨e', List.mem_cons_of_mem _ he', hin⟩, hlt⟩

theorem inOrder_eq_self_iff : inOrder t text = text ↔ ∀ e ∈ t, ¬ e.1.text <:+: text := by
  obtain ⟨hno, heq⟩ | ⟨⟨e, he, hin⟩, hlt⟩ := inOrder_cases t text
  · exact iff_of_true heq hno
  · exact iff_of_false (fun h => absurd (congrArg (List.count '[') h) (Nat.ne_of_gt hlt))
      fun h => h e he hin

theorem inOrder_eq_of_count (h : (inOrder t text).count '[' = text.count '[') :
    inOrder t text = text := by
  obtain ⟨-, heq⟩ | ⟨-, hlt⟩ := inOrder_cases t text
  · exact heq
  · exact absurd h (Nat.ne_of_gt hlt)

/-! ## The order -/

theorem mem_sortNames : e ∈ sortNames table ↔ e ∈ table := List.mem_insertionSort _

theorem nodup_sortNames (hnames : (table.map Prod.fst).Nodup) :
    ((sortNames table).map Prod.fst).Nodup :=
  ((List.perm_insertionSort _ table).map Prod.fst).nodup_iff.2 hnames

theorem pairwise_sortNames (table : NameTable) :
    (sortNames table).Pairwise fun a b => b.1.text.length ≤ a.1.text.length :=
  haveI : Std.Total fun a b : Identifier × ℕ => b.1.text.length ≤ a.1.text.length :=
    ⟨fun _ _ => Nat.le_total _ _⟩
  haveI : IsTrans (Identifier × ℕ) fun a b => b.1.text.length ≤ a.1.text.length :=
    ⟨fun _ _ _ hab hbc => Nat.le_trans hbc hab⟩
  List.pairwise_insertionSort _ table

/-- Of two members of a list, one comes first. -/
theorem pair_or {α : Type*} {a b : α} : ∀ {l : List α}, a ≠ b → a ∈ l → b ∈ l →
    [a, b].Sublist l ∨ [b, a].Sublist l
  | x :: l, hab, ha, hb => by
    rcases List.mem_cons.1 ha with rfl | ha'
    · have hb' := (List.mem_cons.1 hb).resolve_left fun h => hab h.symm
      exact .inl ((List.singleton_sublist.2 hb').cons_cons a)
    · rcases List.mem_cons.1 hb with rfl | hb'
      · exact .inr ((List.singleton_sublist.2 ha').cons_cons b)
      · exact (pair_or hab ha' hb').imp (.cons x) (.cons x)

theorem not_pair_swap {α : Type*} {a b : α} : ∀ {l : List α}, l.Nodup → [a, b].Sublist l →
    ¬ [b, a].Sublist l
  | x :: l, hl, h, h' => by
    obtain ⟨hx, hl⟩ := List.nodup_cons.1 hl
    cases h with
    | cons _ h =>
      cases h' with
      | cons _ h' => exact not_pair_swap hl h h'
      | cons_cons _ h' => exact hx (h.subset (List.mem_cons_of_mem _ List.mem_cons_self))
    | cons_cons _ h =>
      cases h' with
      | cons _ h' => exact hx (h'.subset (List.mem_cons_of_mem _ List.mem_cons_self))
      | cons_cons _ h' => exact hx (h.subset List.mem_cons_self)

section Sorted

variable (hnames : (table.map Prod.fst).Nodup) (hT : sortNames table = t₁ ++ e :: t₂)

include hT

theorem mem_of_split : e ∈ table :=
  mem_sortNames.1 (hT ▸ List.mem_append_right _ List.mem_cons_self)

/-- The names before one are at least as long, those behind it at most. -/
theorem length_of_split : (∀ e' ∈ t₁, e.1.text.length ≤ e'.1.text.length) ∧
    ∀ e' ∈ t₂, e'.1.text.length ≤ e.1.text.length := by
  have h := pairwise_sortNames table
  rw [hT, List.pairwise_append] at h
  exact ⟨fun e' he' => h.2.2 e' he' e List.mem_cons_self,
    fun e' he' => (List.pairwise_cons.1 h.2.1).1 e' he'⟩

include hnames

theorem ne_of_split : (∀ e' ∈ t₁, e'.1 ≠ e.1) ∧ ∀ e' ∈ t₂, e'.1 ≠ e.1 := by
  have h := nodup_sortNames hnames
  rw [hT, List.map_append, List.map_cons, List.nodup_append] at h
  refine ⟨fun e' he' => h.2.2 _ (List.mem_map_of_mem he') _ List.mem_cons_self,
    fun e' he' heq => ?_⟩
  exact (List.nodup_cons.1 h.2.1).1 (heq ▸ List.mem_map_of_mem he')

/-- What is replaced after a name. -/
theorem mem_split_iff (he' : e' ∈ table) : e' ∈ t₂ ↔ After table e.1 e'.1 := by
  obtain ⟨hlong, hshort⟩ := length_of_split hT
  obtain ⟨hne₁, hne₂⟩ := ne_of_split hnames hT
  have he := mem_of_split hT
  constructor
  · intro h
    rcases (hshort e' h).lt_or_eq with hlt | heq
    · exact .inl hlt
    · refine .inr ⟨heq, ?_⟩
      rcases pair_or (fun h' => hne₂ e' h (congrArg Prod.fst h'.symm)) he he' with hpair | hpair
      · exact hpair.map Prod.fst
      · have hsorted : [e', e].Sublist (sortNames table) :=
          List.pair_sublist_insertionSort (Nat.le_of_eq heq.symm) hpair
        have hpair' : [e, e'].Sublist (sortNames table) := by
          rw [hT]
          exact ((List.singleton_sublist.2 h).cons_cons e).trans (List.sublist_append_right _ _)
        exact absurd hsorted (not_pair_swap (nodup_sortNames hnames).of_map hpair')
  · intro h
    have hmem : e' ∈ t₁ ++ e :: t₂ := hT ▸ mem_sortNames.2 he'
    have hne : e'.1 ≠ e.1 := by
      rintro heq
      rcases h with hlt | ⟨-, hpair⟩
      · exact absurd (heq ▸ hlt) (Nat.lt_irrefl _)
      · rw [heq] at hpair
        exact absurd (hnames.sublist hpair) (by simp)
    rcases List.mem_append.1 hmem with hbefore | hmem
    · rcases h with hlt | ⟨heq, hpair⟩
      · exact absurd hlt (Nat.not_lt.2 (hlong e' hbefore))
      · have hpair' : [e', e].Sublist (sortNames table) := by
          rw [hT]
          exact (List.singleton_sublist.2 hbefore).append
            (List.singleton_sublist.2 List.mem_cons_self)
        rcases pair_or (fun h' => hne (congrArg Prod.fst h'.symm)) he he' with hpair₁ | hpair₁
        · have hsorted : [e, e'].Sublist (sortNames table) :=
            List.pair_sublist_insertionSort (Nat.le_of_eq heq) hpair₁
          exact absurd hsorted (not_pair_swap (nodup_sortNames hnames).of_map hpair')
        · exact absurd (hpair₁.map Prod.fst) (not_pair_swap hnames hpair)
    · exact (List.mem_cons.1 hmem).resolve_left fun h => hne (h ▸ rfl)

end Sorted

/-! ## One word -/

theorem lookup_of_mem : ∀ {table : NameTable}, (table.map Prod.fst).Nodup → e ∈ table →
    lookup table e.1.text = some e.2
  | x :: table, hnames, he => by
    obtain ⟨hx, hnames⟩ := List.nodup_cons.1 hnames
    rw [lookup, List.find?_cons]
    rcases List.mem_cons.1 he with rfl | he
    · simp
    · have hne : (x.1.text == e.1.text) = false := by
        rw [beq_eq_false_iff_ne]
        intro h
        exact hx (Identifier.ext_text h ▸ List.mem_map_of_mem he)
      rw [hne]
      exact lookup_of_mem hnames he

theorem lookup_eq_none (h : ∀ e ∈ table, e.1.text ≠ w) : lookup table w = none := by
  rw [lookup, List.find?_eq_none.2 fun e he => by simpa using h e he]
  rfl

/-- What becomes of a word. -/
def image (table : NameTable) (w : List Char) : List Char := ((lookup table w).map input).getD w

section Words

variable (hnames : (table.map Prod.fst).Nodup)

include hnames

/-- A name does not occur in one that is replaced after it. -/
theorem not_infix_before (hT : sortNames table = t₁ ++ e :: t₂) (he' : e' ∈ t₁) :
    ¬ e'.1.text <:+: e.1.text := by
  intro hin
  have hlong := (length_of_split hT).1 e' he'
  exact (ne_of_split hnames hT).1 e' he'
    (Identifier.ext_text (hin.eq_of_length (Nat.le_antisymm hin.length_le hlong)))

theorem inOrder_before (hT : sortNames table = t₁ ++ e :: t₂) :
    inOrder t₁ e.1.text = e.1.text :=
  inOrder_eq_self_iff.2 fun _ he' => not_infix_before hnames hT he'

/-- A name is left until its turn, and what is inserted for it is up to the names that follow. -/
theorem inOrder_declared (hT : sortNames table = t₁ ++ e :: t₂) :
    inOrder (sortNames table) e.1.text = inOrder t₂ (input e.2) := by
  rw [hT, inOrder_append, inOrder_before hnames hT, inOrder_cons,
    Replace.replace_self e.1.text_ne_nil]

/-- Either the word is declared, or it stands for itself. -/
theorem image_cases (w : List Char) :
    (∃ e t₁ t₂, e.1.text = w ∧ sortNames table = t₁ ++ e :: t₂ ∧ image table w = input e.2) ∨
      ((∀ e ∈ table, e.1.text ≠ w) ∧ image table w = w) := by
  by_cases h : ∃ e ∈ table, e.1.text = w
  · obtain ⟨e, he, rfl⟩ := h
    obtain ⟨t₁, t₂, hT⟩ := List.append_of_mem (mem_sortNames.2 he)
    refine .inl ⟨e, t₁, t₂, rfl, hT, ?_⟩
    rw [image, lookup_of_mem hnames he]
    rfl
  · have h : ∀ e ∈ table, e.1.text ≠ w := fun e he heq => h ⟨e, he, heq⟩
    refine .inr ⟨h, ?_⟩
    rw [image, lookup_eq_none h]
    rfl

theorem count_image_le (w : List Char) :
    (image table w).count '[' ≤ (inOrder (sortNames table) w).count '[' ∧
      ((inOrder (sortNames table) w).count '[' = (image table w).count '[' →
        inOrder (sortNames table) w = image table w) := by
  obtain ⟨e, t₁, t₂, rfl, hT, himage⟩ | ⟨-, himage⟩ := image_cases hnames w
  · rw [himage, inOrder_declared hnames hT]
    exact ⟨count_le_inOrder _ _, inOrder_eq_of_count⟩
  · rw [himage]
    exact ⟨count_le_inOrder _ _, inOrder_eq_of_count⟩

theorem inOrder_eq_image_iff (w : List Char) : inOrder (sortNames table) w = image table w ↔
    ((∀ e ∈ table, e.1.text ≠ w) → ∀ e ∈ table, ¬ e.1.text <:+: w) ∧
      ∀ e ∈ table, e.1.text = w → ∀ e' ∈ table, After table e.1 e'.1 →
        ¬ e'.1.text <:+: inputWord := by
  obtain ⟨e, t₁, t₂, rfl, hT, himage⟩ | ⟨hno, himage⟩ := image_cases hnames w
  · have he := mem_of_split hT
    rw [himage, inOrder_declared hnames hT, inOrder_eq_self_iff]
    constructor
    · intro h
      refine ⟨fun hno => absurd rfl (hno e he), fun d hd heq e' he' hafter => ?_⟩
      rw [Identifier.ext_text heq] at hafter
      rw [← infix_input _ e.2]
      exact h e' ((mem_split_iff hnames hT he').2 hafter)
    · rintro ⟨-, h⟩ e' he'
      have hmem : e' ∈ table :=
        mem_sortNames.1 (hT ▸ List.mem_append_right _ (List.mem_cons_of_mem _ he'))
      rw [infix_input]
      exact h e he rfl e' hmem ((mem_split_iff hnames hT hmem).1 he')
  · rw [himage, inOrder_eq_self_iff]
    constructor
    · exact fun h => ⟨fun _ e he => h e (mem_sortNames.2 he),
        fun e he heq => absurd heq (hno e he)⟩
    · exact fun h e he => h.1 hno e (mem_sortNames.1 he)

/-! ## Texts -/

theorem featureBody_eq_iff (text : List Char) :
    featureBody table text = simultaneous table text ↔ Apart table text := by
  have hsplit := (splits_inOrder (sortNames table)).eq_mapWords text
  have hword : mapWords isWord (inOrder (sortNames table)) text = simultaneous table text ↔
      ∀ w ∈ words isWord text, inOrder (sortNames table) w = image table w :=
    Replace.mapWords_inj (x := '[') (fun w _ => (count_image_le hnames w).1)
      fun w _ => (count_image_le hnames w).2
  rw [← hsplit] at hword
  refine hword.trans ⟨fun h => ⟨fun w hw => ?_, fun e he hocc => ?_⟩, fun h w hw => ?_⟩
  · exact ((inOrder_eq_image_iff hnames w).1 (h w hw)).1
  · exact ((inOrder_eq_image_iff hnames _).1 (h _ hocc)).2 e he rfl
  · refine (inOrder_eq_image_iff hnames w).2 ⟨h.other w hw, fun e he heq => ?_⟩
    exact h.inserted e he (show e.1.text ∈ words isWord text from heq ▸ hw)

/-! ## Conditions -/

omit hnames in
/-- The features a condition puts in the list. -/
def listed (action : List Char) : NameTable → List Char → List (ℕ × Identifier)
  | [], _ => []
  | e :: t, text =>
    (if e.1.text <:+: text ∨ e.1.text <:+: action then [(e.2, e.1)] else []) ++
      listed action t (replace e.1.text (input e.2) text)

omit hnames in
theorem foldl_conditionStep : ∀ (t : NameTable) (s : State),
    t.foldl (conditionStep action) s =
      ⟨inOrder t s.body, s.featureSet ++ listed action t s.body⟩
  | [], s => by rw [listed, List.append_nil]; rfl
  | e :: t, s => by
    have hbody : (conditionStep action s e).body = replace e.1.text (input e.2) s.body := by
      rw [conditionStep]
      dsimp only
      split_ifs with h
      · rfl
      · exact (Replace.replace_of_not_infix h).symm
    rw [List.foldl_cons, foldl_conditionStep t, hbody, inOrder_cons, listed, conditionStep]
    dsimp only
    split_ifs <;> simp

omit hnames in
theorem mem_listed : ∀ {t : NameTable} {text : List Char} {f : ℕ × Identifier},
    f ∈ listed action t text ↔ ∃ t₁ t₂, t = t₁ ++ (f.2, f.1) :: t₂ ∧
      (f.2.text <:+: inOrder t₁ text ∨ f.2.text <:+: action)
  | [], text, f => by simp [listed]
  | e :: t, text, f => by
    rw [listed, List.mem_append, mem_listed]
    constructor
    · rintro (h | ⟨t₁, t₂, rfl, h⟩)
      · split_ifs at h with hin
        · obtain rfl := List.mem_singleton.1 h
          exact ⟨[], t, rfl, hin⟩
        · exact absurd h List.not_mem_nil
      · exact ⟨e :: t₁, t₂, rfl, h⟩
    · rintro ⟨t₁, t₂, heq, h⟩
      cases t₁ with
      | nil =>
        obtain ⟨rfl, rfl⟩ := List.cons.inj heq
        have hin : f.2.text <:+: text ∨ f.2.text <:+: action := h
        refine .inl ?_
        dsimp only
        rw [if_pos hin]
        exact List.mem_singleton_self f
      | cons d t₁ =>
        obtain ⟨rfl, rfl⟩ := List.cons.inj heq
        exact .inr ⟨t₁, t₂, rfl, h⟩

/-- At its turn a name occurs in the text just where it stood in it from the start. -/
theorem infix_inOrder_iff (h : Apart table text) (hT : sortNames table = t₁ ++ e :: t₂) :
    e.1.text <:+: inOrder t₁ text ↔ Occurs e.1 text := by
  have he := mem_of_split hT
  rw [(splits_inOrder t₁).eq_mapWords text, Replace.infix_mapWords e.1.isWord_text]
  constructor
  · rintro ⟨w, hw, hin⟩
    obtain ⟨d, s₁, s₂, rfl, hS, -⟩ | ⟨hno, -⟩ := image_cases hnames w
    · have hd := mem_of_split hS
      rcases List.mem_append.1 (hT ▸ mem_sortNames.2 hd) with hbefore | hbehind
      · obtain ⟨u₁, u₂, rfl⟩ := List.append_of_mem hbefore
        have hT' : sortNames table = u₁ ++ d :: (u₂ ++ e :: t₂) := by
          rw [hT, List.append_assoc, List.cons_append]
        have hlater : ∀ e' ∈ u₂ ++ e :: t₂, ¬ e'.1.text <:+: input d.2 := by
          intro e' he'
          have hmem : e' ∈ table := mem_sortNames.1 (hT' ▸ List.mem_append_right _
            (List.mem_cons_of_mem _ he'))
          rw [infix_input]
          exact h.inserted d hd hw e' hmem ((mem_split_iff hnames hT' hmem).1 he')
        rw [inOrder_append, inOrder_before hnames hT', inOrder_cons,
          Replace.replace_self d.1.text_ne_nil, inOrder_eq_self_iff.2 fun e' he' =>
            hlater e' (List.mem_append_left _ he')] at hin
        exact absurd hin (hlater e (List.mem_append_right _ List.mem_cons_self))
      · rcases List.mem_cons.1 hbehind with rfl | hbehind
        · exact hw
        · obtain ⟨u₁, u₂, rfl⟩ := List.append_of_mem hbehind
          have hT' : sortNames table = (t₁ ++ e :: u₁) ++ d :: u₂ := by
            rw [hT, List.append_assoc, List.cons_append]
          rw [inOrder_eq_self_iff.2 fun e' he' =>
            not_infix_before hnames hT' (List.mem_append_left _ he')] at hin
          exact absurd hin (not_infix_before hnames hT'
            (List.mem_append_right _ List.mem_cons_self))
    · have hkeep : inOrder t₁ w = w := inOrder_eq_self_iff.2 fun e' he' =>
        h.other w hw hno e' (mem_sortNames.1 (hT ▸ List.mem_append_left _ he'))
      rw [hkeep] at hin
      exact absurd hin (h.other w hw hno e he)
  · intro hocc
    refine ⟨e.1.text, hocc, ?_⟩
    rw [inOrder_before hnames hT]

theorem hygienic_iff (text action : List Char) (set : List (ℕ × Identifier)) :
    Hygienic table text action set ↔ Apart table text ∧ ActionApart table text action := by
  have hbody : (condition table text action set).body = featureBody table text := by
    rw [condition, foldl_conditionStep]
    rfl
  have hset : (condition table text action set).featureSet =
      set ++ listed action (sortNames table) text := by
    rw [condition, foldl_conditionStep]
  unfold Hygienic
  dsimp only
  rw [hbody, hset, featureBody_eq_iff hnames]
  refine and_congr_right fun hapart => ?_
  have hlisted : ∀ f : ℕ × Identifier, f ∈ listed action (sortNames table) text ↔
      (f.2, f.1) ∈ table ∧ (Occurs f.2 text ∨ f.2.text <:+: action) := by
    intro f
    rw [mem_listed]
    constructor
    · rintro ⟨t₁, t₂, hT, h⟩
      exact ⟨mem_of_split hT, h.imp_left (infix_inOrder_iff hnames hapart hT).1⟩
    · rintro ⟨hf, h⟩
      obtain ⟨t₁, t₂, hT⟩ := List.append_of_mem (mem_sortNames.2 hf)
      exact ⟨t₁, t₂, hT, h.imp_left (infix_inOrder_iff hnames hapart hT).2⟩
  constructor
  · rintro ⟨added, hadded, h⟩ e he hin
    obtain rfl := List.append_cancel_left hadded
    exact ((h (e.2, e.1)).1 ((hlisted _).2 ⟨he, .inr hin⟩)).2
  · intro h
    refine ⟨_, rfl, fun f => (hlisted f).trans (and_congr_right fun hf => ?_)⟩
    constructor
    · rintro (hocc | hin)
      · exact .inl hocc
      · exact h _ hf hin
    · refine Or.imp_right fun hocc => ?_
      exact (Replace.infix_iff f.2.isWord_text).2 ⟨_, hocc, List.infix_refl _⟩

/-- The texts are those of a simultaneous replacement, and the list that of the features named, just
where no name lies within another identifier, or within what is inserted before its turn. -/
theorem substitution_hygienic_iff (text action : List Char) (set : List (ℕ × Identifier)) :
    (featureBody table text = simultaneous table text ↔ Apart table text) ∧
      (Hygienic table text action set ↔ Apart table text ∧ ActionApart table text action) :=
  ⟨featureBody_eq_iff hnames text, hygienic_iff hnames text action set⟩

def rate : Identifier := ⟨'r', ['a', 't', 'e'], rfl, rfl⟩

def tot : Identifier := ⟨'t', ['o', 't'], rfl, rfl⟩

def rateTable : NameTable := [(rate, 0), (tot, 1)]

omit hnames in
/-- As metrics in the body `rate/tot`, and as features of which the condition `rate > 2` names the
one and the action `print(tot)` the other. -/
theorem substitution_hygienic_rate :
    featureBody rateTable ['r', 'a', 't', 'e', '/', 't', 'o', 't'] =
        simultaneous rateTable ['r', 'a', 't', 'e', '/', 't', 'o', 't'] ∧
      Hygienic rateTable ['r', 'a', 't', 'e', ' ', '>', ' ', '2']
        ['p', 'r', 'i', 'n', 't', '(', 't', 'o', 't', ')'] [] :=
  ⟨(substitution_hygienic_iff (by decide) ['r', 'a', 't', 'e', '/', 't', 'o', 't'] [] []).1.2
      ⟨by decide, by decide⟩,
    (substitution_hygienic_iff (by decide) ['r', 'a', 't', 'e', ' ', '>', ' ', '2']
      ['p', 'r', 'i', 'n', 't', '(', 't', 'o', 't', ')'] []).2.2
      ⟨⟨by decide, by decide⟩, by decide⟩⟩

omit hnames in
/-- The metrics `x1` and `t` in the body `x1/t`: the second is replaced in `Input` as well. -/
theorem not_substitution_hygienic : ¬ ∀ (table : NameTable) (text action : List Char)
    (set : List (ℕ × Identifier)), (table.map Prod.fst).Nodup →
    featureBody table text = simultaneous table text ∧ Hygienic table text action set := by
  intro h
  have hbody := (h [(⟨'x', ['1'], rfl, rfl⟩, 0), (⟨'t', [], rfl, rfl⟩, 1)] ['x', '1', '/', 't'] []
    [] (by decide)).1
  exact absurd hbody (by decide)

end Words

end DStreamon.Substitution
