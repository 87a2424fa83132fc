import DStreamon.Lib.Forall2
import DStreamon.Selector
import Mathlib.Data.Finset.Attr
import Mathlib.Tactic.Common

/-!
# What a selector compiles to

A selector whose statements use comparisons only is cut into just these statements.  A function is
never taken for an operator: its name is cut out as the value of a statement without one.  And a
value that is no symbol of its field is replaced by that of the statement before, if there is one.
-/

namespace DStreamon.Selector

open Backtrack Pattern

/-! ## The grammar -/

inductive Comparison where
  | lt | gt | eq | ge | le | ne

def Comparison.text : Comparison → String
  | lt => "<"
  | gt => ">"
  | eq => "=="
  | ge => ">="
  | le => "<="
  | ne => "!="

inductive Function where
  | isIn | range

def Function.text : Function → String
  | isIn => "in"
  | range => "range"

inductive Op where
  | comparison (c : Comparison)
  | function (f : Function)

inductive Connective where
  | or | and

def Connective.text : Connective → String
  | or => "or"
  | and => "and"

/-- A word without white space. -/
def Word (w : String) : Prop := w ≠ "" ∧ ∀ c ∈ w.toList, ¬ isSpace c

instance (w : String) : Decidable (Word w) := inferInstanceAs (Decidable (_ ∧ _))

/-- `field [op] value [ or | and ]`; no value starts like a comparison. -/
structure Stmt where
  field : String
  op : Option Op
  value : String
  more : Option Connective
  fieldWord : Word field
  valueWord : Word value
  valuePlain : ∀ c ∈ value.toList.head?, c ∉ ['<', '>', '!', '=']

namespace Stmt

def opText (s : Stmt) : String :=
  match s.op with
  | none => ""
  | some (.comparison c) => c.text
  | some (.function f) => f.text

def moreText (s : Stmt) : String := (s.more.map Connective.text).getD ""

def IsFunction (s : Stmt) : Prop := ∃ f, s.op = some (.function f)

end Stmt

def Blank (l : List Char) : Prop := ∀ c ∈ l, c = ' '

/-- The text of a statement, blanks between its words; a comparison may touch its value. -/
structure Written (s : Stmt) (text : List Char) : Prop where
  blanks : ∃ g₁ g₂ g₃, Blank g₁ ∧ Blank g₂ ∧ Blank g₃ ∧ g₁ ≠ [] ∧ (s.IsFunction → g₂ ≠ []) ∧
    (s.more ≠ none → g₃ ≠ []) ∧ text = s.field.toList ++ (g₁ ++ (s.opText.toList ++ (g₂ ++
      (s.value.toList ++ (g₃ ++ s.moreText.toList)))))

/-- The text of a selector: statements, each but the last with a connective. -/
inductive Derives : List Stmt → List Char → Prop
  | nil {g : List Char} : Blank g → Derives [] g
  | cons {s : Stmt} {ss : List Stmt} {g text rest : List Char} : Blank g → Written s text →
      Derives ss rest → (s.more = none → ss = []) → (∀ c ∈ rest.head?, c = ' ') →
      Derives (s :: ss) (g ++ (text ++ rest))

/-! ## Cutting -/

/-- What is found of a statement that has no function. -/
def Stmt.found (s : Stmt) : Found := ⟨s.field, s.opText, s.value, s.moreText⟩

section Cut

variable {s : Stmt} {g text rest : List Char} {w : String}

theorem isSpace_blank : isSpace ' ' = true := by decide

theorem Word.head (h : Word w) : ∀ c ∈ (w.toList ++ rest).head?, ¬ isSpace c := by
  rcases hw : w.toList with _ | ⟨c, cs⟩
  · exact absurd (String.toList_eq_nil_iff.1 hw) h.1
  · intro c' hc'
    obtain rfl : c = c' := by simpa using hc'
    exact h.2 c (by simp [hw])

theorem takes_blanks (hg : Blank g) (h : ∀ c ∈ rest.head?, c ≠ ' ') :
    Takes blanks (g ++ rest) g rest :=
  takes_many (by simpa [Blank] using hg) (by simpa using h)

theorem takes_wordGroup (hw : Word w) (h : ∀ c ∈ rest.head?, isSpace c) :
    Takes wordGroup (w.toList ++ rest) w.toList rest :=
  takes_many1 (by simpa using hw.1) (by simpa using hw.2) (by simpa using h)

theorem takes_opGroup_none (h : ∀ c ∈ rest.head?, c ∉ ['<', '>', '!', '=']) :
    Takes opGroup rest [] rest :=
  takes_optional_nil (andThen_nil (one_nil (by simpa using h)))

theorem takes_opGroup (c : Comparison) (h : ∀ a ∈ rest.head?, a ∉ ['<', '>', '!', '=']) :
    Takes opGroup (c.text.toList ++ rest) c.text.toList rest := by
  have heq : one (α := Char) (· = '=') rest = [] := by
    refine one_nil fun a ha hmem => h a ha ?_
    simp [of_decide_eq_true hmem]
  have hsingle : ∀ a, a ∈ ['<', '>', '!', '='] → Takes opGroup (a :: rest) [a] rest := fun a ha =>
    (Takes.append (takes_one (by simpa using ha)) (takes_optional_nil heq)).optional
  have hpair : ∀ a, a ∈ ['<', '>', '!', '='] →
      Takes opGroup (a :: '=' :: rest) [a, '='] rest := fun a ha =>
    (Takes.append (takes_one (by simpa using ha)) (takes_one (by simp)).optional).optional
  cases c with
  | lt => exact hsingle '<' (by simp)
  | gt => exact hsingle '>' (by simp)
  | eq => exact hpair '=' (by simp)
  | ge => exact hpair '>' (by simp)
  | le => exact hpair '<' (by simp)
  | ne => exact hpair '!' (by simp)

theorem takes_moreGroup (m : Connective) :
    Takes moreGroup (m.text.toList ++ rest) m.text.toList rest := by
  cases m with
  | or => exact (Takes.alt_left takes_word).optional
  | and => exact (Takes.alt_right (word_nil (by simp)) takes_word).optional

theorem takes_moreGroup_nil : Takes moreGroup [] [] [] :=
  takes_optional_nil rfl

theorem Blank.append {g' : List Char} (hg : Blank g) (hg' : Blank g') : Blank (g ++ g') := by
  simpa [Blank, or_imp, forall_and] using ⟨hg, hg'⟩

theorem Blank.head (hg : Blank g) (hne : g ≠ []) : ∀ c ∈ (g ++ rest).head?, c = ' ' := by
  rcases g with _ | ⟨c, g⟩
  · exact absurd rfl hne
  · intro c' hc'
    obtain rfl : c = c' := by simpa using hc'
    exact hg c List.mem_cons_self

theorem ne_blank_of_not_isSpace {l : List Char} (h : ∀ c ∈ l.head?, ¬ isSpace c) :
    ∀ c ∈ l.head?, c ≠ ' ' := by
  rintro c hc rfl
  exact h _ hc isSpace_blank

theorem isSpace_of_blank {l : List Char} (h : ∀ c ∈ l.head?, c = ' ') :
    ∀ c ∈ l.head?, isSpace c := by
  intro c hc
  rw [h c hc]
  exact isSpace_blank

/-- What is left after the value and connective of a statement, `rest` following it. -/
def Stmt.Leaves (s : Stmt) (rest rest' : List Char) : Prop :=
  match s.more with
  | none => Blank rest ∧ rest' = []
  | some _ => rest' = rest

theorem takes_valueGroups (field op : List Char) {g₃ rest' : List Char} (hg : Blank g₃)
    (hne : s.more ≠ none → g₃ ≠ []) (hleaves : s.Leaves rest rest') :
    Takes (valueGroups field op) (s.value.toList ++ (g₃ ++ (s.moreText.toList ++ rest)))
      ⟨.ofList field, .ofList op, s.value, s.moreText⟩ rest' := by
  unfold Stmt.Leaves at hleaves
  unfold Stmt.moreText
  rcases hm : s.more with _ | m
  · rw [hm] at hleaves
    obtain ⟨hrest, rfl⟩ := hleaves
    have hblank := hg.append hrest
    have hhead : ∀ c ∈ (g₃ ++ rest).head?, c = ' ' := fun c hc =>
      hblank c (List.mem_of_head? hc)
    have hall : Takes blanks (g₃ ++ rest ++ []) (g₃ ++ rest) [] := takes_blanks hblank (by simp)
    rw [List.append_nil] at hall
    refine (takes_wordGroup s.valueWord (isSpace_of_blank hhead)).andThen (hall.andThen ?_)
    exact takes_moreGroup_nil.andThen (takes_give.2 (by simp))
  · rw [hm] at hleaves
    subst hleaves
    have hword : ∀ c ∈ (m.text.toList ++ rest').head?, c ≠ ' ' := by
      cases m <;> simp [Connective.text]
    refine (takes_wordGroup s.valueWord
      (isSpace_of_blank (hg.head (hne (by simp [hm]))))).andThen ?_
    refine (takes_blanks hg hword).andThen ((takes_moreGroup m).andThen (takes_give.2 ?_))
    simp

/-- A field and no operator. -/
theorem takes_field {b : Found} {rest' : List Char} (hw : Word w) (hg : Blank g) (hne : g ≠ [])
    (hspace : ∀ c ∈ rest.head?, ¬ isSpace c) (hplain : ∀ c ∈ rest.head?, c ∉ ['<', '>', '!', '='])
    (h : Takes (valueGroups w.toList []) rest b rest') :
    Takes selectorRegex (w.toList ++ (g ++ rest)) b rest' := by
  have hhead := ne_blank_of_not_isSpace hspace
  refine (takes_wordGroup hw (isSpace_of_blank (hg.head hne))).andThen ?_
  refine (takes_blanks hg hhead).andThen ((takes_opGroup_none hplain).andThen ?_)
  exact (takes_blanks (g := []) (by simp [Blank]) hhead).andThen h

/-- A field and a comparison. -/
theorem takes_field_comparison {b : Found} {g' rest' : List Char} {c : Comparison} (hw : Word w)
    (hg : Blank g) (hne : g ≠ []) (hg' : Blank g') (hspace : ∀ a ∈ rest.head?, ¬ isSpace a)
    (hplain : ∀ a ∈ rest.head?, a ∉ ['<', '>', '!', '='])
    (h : Takes (valueGroups w.toList c.text.toList) rest b rest') :
    Takes selectorRegex (w.toList ++ (g ++ (c.text.toList ++ (g' ++ rest)))) b rest' := by
  have hop : ∀ a ∈ (c.text.toList ++ (g' ++ rest)).head?, a ≠ ' ' := by
    cases c <;> simp [Comparison.text]
  have hplain' : ∀ a ∈ (g' ++ rest).head?, a ∉ ['<', '>', '!', '='] := by
    rcases eq_or_ne g' [] with rfl | hne'
    · exact hplain
    · intro a ha
      rw [hg'.head hne' a ha]
      simp
  refine (takes_wordGroup hw (isSpace_of_blank (hg.head hne))).andThen ?_
  refine (takes_blanks hg hop).andThen ((takes_opGroup c hplain').andThen ?_)
  exact (takes_blanks hg' (ne_blank_of_not_isSpace hspace)).andThen h

theorem Stmt.value_head_plain (s : Stmt) :
    ∀ c ∈ (s.value.toList ++ rest).head?, c ∉ ['<', '>', '!', '='] := by
  rcases hv : s.value.toList with _ | ⟨c, cs⟩
  · exact absurd (String.toList_eq_nil_iff.1 hv) s.valueWord.1
  · intro c' hc'
    obtain rfl : c = c' := by simpa using hc'
    exact s.valuePlain c (by simp [hv])

/-- A statement without a function is found as it is. -/
theorem Written.takes {rest' : List Char} (hs : Written s text) (hfun : ¬ s.IsFunction)
    (hleaves : s.Leaves rest rest') : Takes selectorRegex (text ++ rest) s.found rest' := by
  obtain ⟨g₁, g₂, g₃, hg₁, hg₂, hg₃, hne₁, -, hne₃, rfl⟩ := hs.blanks
  have hvalue : ∀ op, Takes (valueGroups s.field.toList op)
      (s.value.toList ++ (g₃ ++ (s.moreText.toList ++ rest)))
      ⟨s.field, .ofList op, s.value, s.moreText⟩ rest' := by
    intro op
    have := takes_valueGroups s.field.toList op hg₃ hne₃ hleaves
    rwa [String.ofList_toList] at this
  simp only [List.append_assoc]
  unfold Stmt.found
  rcases hop : s.op with _ | c | f
  · have htext : s.opText = "" := by simp [Stmt.opText, hop]
    rw [htext]
    have := takes_field s.fieldWord (hg₁.append hg₂) (by simp [hne₁]) s.valueWord.head
      s.value_head_plain (hvalue [])
    simpa using this
  · have htext : s.opText = c.text := by simp [Stmt.opText, hop]
    rw [htext]
    have := takes_field_comparison (c := c) s.fieldWord hg₁ hne₁ hg₂ s.valueWord.head
      s.value_head_plain (hvalue c.text.toList)
    simpa using this
  · exact absurd ⟨f, hop⟩ hfun

theorem Function.text_word (f : Function) : Word f.text ∧
    ∀ c ∈ f.text.toList.head?, c ∉ ['<', '>', '!', '='] := by
  cases f <;> simp [Word, Function.text, isSpace]

/-- The name of a function is found as a value. -/
theorem Written.takes_function {f : Function} (hs : Written s text) (rest : List Char)
    (hop : s.op = some (.function f)) :
    ∃ more rest', Takes selectorRegex (text ++ rest) ⟨s.field, "", f.text, more⟩ rest' := by
  obtain ⟨g₁, g₂, g₃, hg₁, hg₂, -, hne₁, hne₂, -, rfl⟩ := hs.blanks
  have htext : s.opText = f.text := by simp [Stmt.opText, hop]
  obtain ⟨hword, hplain⟩ := f.text_word
  obtain ⟨more, rest', hmore⟩ := exists_takes_optional
    ((word ['o', 'r']).alt (word ['a', 'n', 'd']))
    (s.value.toList ++ (g₃ ++ (s.moreText.toList ++ rest)))
  have hplain' : ∀ (l : List Char), ∀ c ∈ (f.text.toList ++ l).head?,
      c ∉ ['<', '>', '!', '='] := by
    cases f <;> simp [Function.text]
  have hhead : ∀ c ∈ (s.value.toList ++ (g₃ ++ (s.moreText.toList ++ rest))).head?, c ≠ ' ' :=
    ne_blank_of_not_isSpace s.valueWord.head
  refine ⟨.ofList more, rest', ?_⟩
  simp only [List.append_assoc, htext]
  refine takes_field s.fieldWord hg₁ hne₁ hword.head (hplain' _) ?_
  refine (takes_wordGroup hword (isSpace_of_blank (hg₂.head (hne₂ ⟨f, hop⟩)))).andThen ?_
  exact (takes_blanks hg₂ hhead).andThen (hmore.andThen (takes_give.2 (by simp)))

theorem findAll_blank (hg : Blank g) (rest : List Char) :
    selectorRegex.findAll (g ++ rest) = selectorRegex.findAll rest := by
  refine findAll_skip fun c hc l => andThen_nil (many1_nil ?_)
  intro c' hc'
  obtain rfl : c = c' := by simpa using hc'
  simp [hg c hc, isSpace]

theorem Written.ne_nil (hs : Written s text) : text ≠ [] := by
  obtain ⟨g₁, g₂, g₃, -, -, -, -, -, -, rfl⟩ := hs.blanks
  simpa using fun h => absurd h s.fieldWord.1

theorem Written.findAll {rest' : List Char} (hs : Written s text) (hfun : ¬ s.IsFunction)
    (hleaves : s.Leaves rest rest') :
    selectorRegex.findAll (text ++ rest) = s.found :: selectorRegex.findAll rest' := by
  have htakes := hs.takes hfun hleaves
  unfold Stmt.Leaves at hleaves
  split at hleaves
  · obtain ⟨hblank, rfl⟩ := hleaves
    rw [← List.append_nil (text ++ rest)] at htakes
    have := findAll_takes (by simp [hs.ne_nil]) htakes
    rwa [List.append_nil] at this
  · subst hleaves
    exact findAll_takes hs.ne_nil htakes

/-- What is found of a selector: its statements, at least up to the first with a function. -/
theorem Derives.found {stmts : List Stmt} (h : Derives stmts text) :
    ((∀ s ∈ stmts, ¬ s.IsFunction) ∧ selectorRegex.findAll text = stmts.map Stmt.found) ∨
      ∃ pre s post f more found, stmts = pre ++ s :: post ∧ (∀ s ∈ pre, ¬ s.IsFunction) ∧
        s.op = some (.function f) ∧
        selectorRegex.findAll text =
          pre.map Stmt.found ++ ⟨s.field, "", f.text, more⟩ :: found := by
  induction h with
  | nil hg =>
    refine .inl ⟨by simp, ?_⟩
    have := findAll_blank hg []
    rw [List.append_nil] at this
    rw [this]
    rfl
  | @cons s ss g text rest hg hs hss hmore hrest ih =>
    rw [findAll_blank hg]
    by_cases hfun : s.IsFunction
    · obtain ⟨f, hop⟩ := hfun
      obtain ⟨more, rest', htakes⟩ := hs.takes_function rest hop
      obtain ⟨c, cs, hcs⟩ := List.exists_cons_of_ne_nil hs.ne_nil
      rw [hcs, List.cons_append] at htakes ⊢
      obtain ⟨found, hfound⟩ := exists_findAll_takes htakes
      exact .inr ⟨[], s, ss, f, more, found, rfl, by simp, hop, hfound⟩
    · rcases hm : s.more with _ | m
      · obtain rfl := hmore hm
        have hblank : Blank rest := by
          cases hss
          assumption
        have hleaves : s.Leaves rest [] := by simp [Stmt.Leaves, hm, hblank]
        exact .inl ⟨by simpa using hfun, hs.findAll hfun hleaves⟩
      · have hleaves : s.Leaves rest rest := by simp [Stmt.Leaves, hm]
        rw [hs.findAll hfun hleaves]
        rcases ih with ⟨hall, hfound⟩ | ⟨pre, s', post, f, more, found, rfl, hpre, hop, hfound⟩
        · exact .inl ⟨by simpa using ⟨hfun, hall⟩, by rw [hfound, List.map_cons]⟩
        · exact .inr ⟨s :: pre, s', post, f, more, found, rfl, by simpa using ⟨hfun, hpre⟩, hop,
            by rw [hfound]; rfl⟩

end Cut

/-! ## Compiling -/

/-- The comparison a statement stands for, between its own register and its own value. -/
def Stmt.own (names : Names) (s : Stmt) : Option String := do
  let id ← names.tokens s.field
  let value ← resolve names s.field s.value
  let op := match s.op with
    | none => "operator=="
    | some (.comparison c) => "operator" ++ c.text
    | some (.function f) => f.text
  some (comparison op id value s.moreText)

/-- The selector is refused, or compiles to its statements' own comparisons in their order. -/
def Compiles (names : Names) (stmts : List Stmt) (selector : String) : Prop :=
  ∀ out, parseSelector names selector = .ok out →
    ∃ output, stmts.mapM (Stmt.own names) = some output ∧ out = matcher (condition output)

def Resolves (names : Names) (s : Found) : Prop := (resolve names s.field s.value).isSome

instance (names : Names) (s : Found) : Decidable (Resolves names s) :=
  inferInstanceAs (Decidable (_ = true))

/-- One of the statements found has no field or no operator, or the first has no value. -/
def Refused (names : Names) (found : List Found) : Prop :=
  (∃ s ∈ found, names.tokens s.field = none ∨ operator names s.op = none) ∨
    ∃ s ∈ found.head?, ¬ Resolves names s

section Compile

variable {names : Names} {s : Stmt} {stmts : List Stmt} {found : List Found}
  {valueS : Option String}

theorem compile_cons {s : Found} {output : List String} :
    compile names valueS (s :: found) = .ok output ↔ ∃ id op value more,
      names.tokens s.field = some id ∧ operator names s.op = some op ∧
        (resolve names s.field s.value).or valueS = some value ∧
        compile names (some value) found = .ok more ∧
        output = comparison op id value s.more :: more := by
  rw [compile]
  rcases names.tokens s.field with _ | id
  · simp
  · rcases operator names s.op with _ | op
    · simp
    · rcases (resolve names s.field s.value).or valueS with _ | value
      · simp
      · rcases h : compile names (some value) found with e | more
        · simp [h, bind, Except.bind]
        · simp [h, bind, Except.bind, eq_comm]

/-- Compiling stops at a field or an operator there is not, or at a first value there is not. -/
theorem exists_compile : ∀ (found : List Found) (valueS : Option String),
    (∃ output, compile names valueS found = .ok output) ↔
      (∀ s ∈ found, names.tokens s.field ≠ none ∧ operator names s.op ≠ none) ∧
        (valueS.isSome ∨ ∀ s ∈ found.head?, Resolves names s)
  | [], valueS => by simp [compile]
  | s :: found, valueS => by
    have ih := fun value => exists_compile found (some value)
    simp only [Option.isSome_some, true_or, and_true] at ih
    simp only [compile_cons, List.forall_mem_cons, List.head?_cons, Option.mem_some_iff,
      forall_eq', Resolves]
    constructor
    · rintro ⟨output, id, op, value, more, hid, hop, hvalue, hmore, -⟩
      refine ⟨⟨⟨by simp [hid], by simp [hop]⟩, (ih value).1 ⟨more, hmore⟩⟩, ?_⟩
      rcases Option.or_eq_some_iff.1 hvalue with h | ⟨-, h⟩
      · exact .inr (by simp [h])
      · exact .inl (by simp [h])
    · rintro ⟨⟨⟨hid, hop⟩, hall⟩, hvalue⟩
      obtain ⟨id, hid⟩ := Option.ne_none_iff_exists'.1 hid
      obtain ⟨op, hop⟩ := Option.ne_none_iff_exists'.1 hop
      have hor : ((resolve names s.field s.value).or valueS).isSome := by
        rw [Option.isSome_or]
        rcases hvalue with h | h <;> simp [h]
      obtain ⟨value, hvalue⟩ := Option.isSome_iff_exists.1 hor
      obtain ⟨more, hmore⟩ := (ih value).2 hall
      exact ⟨_, id, op, value, more, hid, hop, hvalue, hmore, rfl⟩

theorem refused_iff : Refused names found ↔ ¬ ∃ output, compile names none found = .ok output := by
  rw [exists_compile, Refused]
  simp only [Option.isSome_none, Bool.false_eq_true, false_or, not_and_or, not_forall, ne_eq,
    not_not, exists_prop]

theorem parseSelector_ok {selector out : String} : parseSelector names selector = .ok out ↔
    ∃ output, compile names none (selectorRegex.findAll selector.toList) = .ok output ∧
      out = matcher (condition output) := by
  unfold parseSelector
  rcases compile names none (selectorRegex.findAll selector.toList) with e | output
  · simp [bind, Except.bind]
  · simp [bind, Except.bind, eq_comm]

theorem operator_comparison (c : Comparison) :
    operator names c.text = some ("operator" ++ c.text) := by
  have hne : c.text ≠ "" := by cases c <;> decide
  have hmem : c.text ∈ operators := by cases c <;> decide
  rw [operator, if_neg hne, if_pos hmem]

/-- Without functions, what is found compiles to the statements' own comparisons while their values
resolve. -/
theorem compile_own : ∀ {pre : List Stmt} {valueS : Option String} {output : List String},
    (∀ s ∈ pre, ¬ s.IsFunction ∧ (resolve names s.field s.value).isSome) →
    compile names valueS (pre.map Stmt.found ++ found) = .ok output →
    ∃ own more valueS', pre.mapM (Stmt.own names) = some own ∧ output = own ++ more ∧
      compile names valueS' found = .ok more
  | [], valueS, output, _, h => ⟨[], output, valueS, rfl, rfl, h⟩
  | s :: pre, valueS, output, hall, h => by
    simp only [List.forall_mem_cons] at hall
    obtain ⟨⟨hfun, hvalue⟩, hall⟩ := hall
    obtain ⟨id, op, value, rest, hid, hop, hor, hrest, rfl⟩ := compile_cons.1 h
    obtain ⟨own, more, valueS', hown, rfl, hmore⟩ := compile_own hall hrest
    refine ⟨comparison op id value s.moreText :: own, more, valueS', ?_, rfl, hmore⟩
    have hresolve : resolve names s.field s.value = some value := by
      obtain ⟨v, hv⟩ := Option.isSome_iff_exists.1 hvalue
      simpa [Stmt.found, hv] using hor
    have hsown : s.own names = some (comparison op id value s.moreText) := by
      have hid' : names.tokens s.field = some id := hid
      have hop' : operator names s.opText = some op := hop
      unfold Stmt.own
      rw [hid', hresolve]
      rcases ho : s.op with _ | c | f
      · have : op = "operator==" := by simpa [Stmt.opText, ho, operator, eq_comm] using hop'
        simp [this]
      · have : op = "operator" ++ c.text := by
          rw [Stmt.opText, ho] at hop'
          exact Option.some.inj (hop'.symm.trans (operator_comparison c))
        simp [this]
      · exact absurd ⟨f, ho⟩ hfun
    rw [List.mapM_cons, hsown, hown]
    rfl

theorem matcher_inj {c c' : String} (h : matcher c = matcher c') : c = c' := by
  unfold matcher at h
  exact (String.append_right_inj _).1 ((String.append_left_inj _).1 h)

end Compile

theorem mapM_append_cons {names : Names} {s : Stmt} :
    ∀ {pre post : List Stmt} {output : List String},
    (pre ++ s :: post).mapM (Stmt.own names) = some output →
    ∃ own c more, pre.mapM (Stmt.own names) = some own ∧ s.own names = some c ∧
      output = own ++ c :: more
  | [], post, output, h => by
    rw [List.nil_append, List.mapM_cons] at h
    obtain ⟨c, hc, h⟩ := Option.bind_eq_some_iff.1 h
    obtain ⟨more, -, h⟩ := Option.bind_eq_some_iff.1 h
    cases h
    exact ⟨[], c, more, rfl, hc, rfl⟩
  | t :: pre, post, output, h => by
    rw [List.cons_append, List.mapM_cons] at h
    obtain ⟨d, hd, h⟩ := Option.bind_eq_some_iff.1 h
    obtain ⟨rest, hrest, h⟩ := Option.bind_eq_some_iff.1 h
    cases h
    obtain ⟨own, c, more, hown, hc, rfl⟩ := mapM_append_cons hrest
    refine ⟨d :: own, c, more, ?_, hc, rfl⟩
    rw [List.mapM_cons, hd, hown]
    rfl

/-- A function's own comparison does not start as one without an operator. -/
theorem condition_ne {names : Names} {s : Stmt} {f : Function} {c more value : String} {id : ℤ}
    {own rest rest' : List String} (hop : s.op = some (.function f)) (hc : s.own names = some c) :
    condition (own ++ comparison "operator==" id value more :: rest) ≠
      condition (own ++ c :: rest') := by
  obtain ⟨id', -, hc⟩ := Option.bind_eq_some_iff.1 hc
  obtain ⟨value', -, hc⟩ := Option.bind_eq_some_iff.1 hc
  rw [hop] at hc
  cases hc
  intro heq
  rw [condition, if_neg (by simp), condition, if_neg (by simp), String.join_append,
    String.join_append] at heq
  have hjoin := (String.append_right_inj _).1 heq
  rw [String.join_cons, String.join_cons, comparison, comparison, String.append_assoc,
    String.append_assoc] at hjoin
  have hlist := congrArg String.toList hjoin
  cases f <;> simp [Function.text] at hlist

theorem resolves_of_own {names : Names} {s : Stmt} {c : String} (h : s.own names = some c) :
    Resolves names s.found := by
  obtain ⟨id, -, h⟩ := Option.bind_eq_some_iff.1 h
  obtain ⟨value, hvalue, -⟩ := Option.bind_eq_some_iff.1 h
  simp [Resolves, Stmt.found, hvalue]

/-- A selector of declared fields compiles to its own comparisons, or not at all, exactly where
something it is cut into is refused, or it has no function and all its values resolve. -/
theorem compiles_iff {names : Names} {stmts : List Stmt} {selector : String}
    (h : Derives stmts selector.toList) (hdecl : ∀ s ∈ stmts, names.tokens s.field ≠ none) :
    Compiles names stmts selector ↔
      Refused names (selectorRegex.findAll selector.toList) ∨
        (∀ s ∈ stmts, ¬ s.IsFunction) ∧ ∀ s ∈ stmts, Resolves names s.found := by
  constructor
  · intro hcompiles
    by_cases hrefused : Refused names (selectorRegex.findAll selector.toList)
    · exact .inl hrefused
    · obtain ⟨output, houtput⟩ := not_not.1 (mt refused_iff.2 hrefused)
      obtain ⟨owns, howns, hout⟩ := hcompiles _ (parseSelector_ok.2 ⟨output, houtput, rfl⟩)
      have hresolves : ∀ s ∈ stmts, Resolves names s.found := by
        intro s hs
        obtain ⟨c, -, hc⟩ := Forall2.exists_right (Forall2.of_mapM howns) hs
        exact resolves_of_own hc
      refine .inr ⟨?_, hresolves⟩
      rcases h.found with ⟨hall, -⟩ | ⟨pre, s, post, f, more, found, rfl, hpre, hop, hfound⟩
      · exact hall
      · rw [hfound] at houtput
        obtain ⟨own, rest, valueS', hown, rfl, hrest⟩ := compile_own
          (fun t ht => ⟨hpre t ht, hresolves t (List.mem_append_left _ ht)⟩) houtput
        obtain ⟨id, op, value, rest', -, hop', -, -, rfl⟩ := compile_cons.1 hrest
        obtain ⟨own', c, rest'', hown', hc, rfl⟩ := mapM_append_cons howns
        obtain rfl := Option.some.inj (hown.symm.trans hown')
        obtain rfl : "operator==" = op := by simpa [operator] using hop'
        exact absurd (matcher_inj hout) (condition_ne hop hc)
  · rintro (hrefused | ⟨hfun, hresolves⟩) out hout
    · obtain ⟨output, houtput, -⟩ := parseSelector_ok.1 hout
      exact absurd ⟨output, houtput⟩ (refused_iff.1 hrefused)
    · obtain ⟨output, houtput, rfl⟩ := parseSelector_ok.1 hout
      rcases h.found with ⟨-, hfound⟩ | ⟨pre, s, post, f, more, found, rfl, -, hop, -⟩
      · rw [hfound, ← List.append_nil (stmts.map Stmt.found)] at houtput
        obtain ⟨own, rest, valueS', hown, rfl, hrest⟩ := compile_own
          (fun s hs => ⟨hfun s hs, hresolves s hs⟩) houtput
        cases hrest
        exact ⟨own, hown, by rw [List.append_nil]⟩
      · exact absurd ⟨f, hop⟩ (hfun s (by simp))

/-- Without functions only the value of the first statement can be refused. -/
theorem refused_iff_head {names : Names} {stmts : List Stmt} {text : List Char}
    (h : Derives stmts text) (hdecl : ∀ s ∈ stmts, names.tokens s.field ≠ none)
    (hfun : ∀ s ∈ stmts, ¬ s.IsFunction) :
    Refused names (selectorRegex.findAll text) ↔
      ∃ s ∈ stmts.head?, ¬ Resolves names s.found := by
  rcases h.found with ⟨-, hfound⟩ | ⟨pre, s, post, f, more, found, rfl, -, hop, -⟩
  · have hop : ∀ s ∈ stmts, operator names s.opText ≠ none := by
      intro s hs
      rcases ho : s.op with _ | c | f
      · simp [Stmt.opText, ho, operator]
      · rw [Stmt.opText, ho, operator_comparison]
        simp
      · exact absurd ⟨f, ho⟩ (hfun s hs)
    rw [hfound, Refused, List.head?_map]
    constructor
    · rintro (⟨s', hs', hnone⟩ | ⟨s', hs', hnone⟩)
      · obtain ⟨s, hs, rfl⟩ := List.mem_map.1 hs'
        rcases hnone with hnone | hnone
        · exact absurd hnone (hdecl s hs)
        · exact absurd hnone (hop s hs)
      · obtain ⟨s, hs, rfl⟩ := Option.map_eq_some_iff.1 hs'
        exact ⟨s, hs, hnone⟩
    · rintro ⟨s, hs, hnone⟩
      exact .inr ⟨s.found, Option.map_eq_some_iff.2 ⟨s, hs, rfl⟩, hnone⟩
  · exact absurd ⟨f, hop⟩ (hfun s (by simp))

/-- Two statements without operators. -/
theorem derives_pair {s t : Stmt} {m : Connective} (hs : s.op = none) (hm : s.more = some m)
    (ht : t.op = none) (hn : t.more = none) :
    Derives [s, t] (s.field.toList ++ ' ' :: s.value.toList ++ ' ' :: m.text.toList ++
      ' ' :: t.field.toList ++ ' ' :: t.value.toList) := by
  have hblank : Blank [' '] := by simp [Blank]
  have hempty : Blank [] := by simp [Blank]
  have hws : Written s (s.field.toList ++ ' ' :: s.value.toList ++ ' ' :: m.text.toList) :=
    ⟨[' '], [], [' '], hblank, hempty, hblank, by simp, by simp [Stmt.IsFunction, hs], by simp,
      by simp [Stmt.opText, Stmt.moreText, hs, hm]⟩
  have hwt : Written t (t.field.toList ++ ' ' :: t.value.toList) :=
    ⟨[' '], [], [], hblank, hempty, hempty, by simp, by simp [Stmt.IsFunction, ht], by simp [hn],
      by simp [Stmt.opText, Stmt.moreText, ht, hn]⟩
  have := Derives.cons hempty hws (Derives.cons hblank hwt (.nil hempty) (fun _ => rfl) (by simp))
    (by simp [hm]) (by simp)
  simpa using this

def protoUdp : Stmt :=
  ⟨"proto", none, "udp", some .and, by simp [Word, isSpace],
    by simp [Word, isSpace], by simp⟩

def srcPort (more : Option Connective) : Stmt :=
  ⟨"src_port", none, "53", more, by simp [Word, isSpace],
    by simp [Word, isSpace], by simp⟩

def protoTpc : Stmt :=
  ⟨"proto", none, "tpc", none, by simp [Word, isSpace],
    by simp [Word, isSpace], by simp⟩

def registers : Names where
  tokens field := [("src_port", 2), ("proto", 4)].lookup field
  tables := []
  wholeOps := "<|=="

theorem compiles_declared :
    Compiles registers [protoUdp, srcPort none] "proto udp and src_port 53" := by
  have htext : Derives [protoUdp, srcPort none] "proto udp and src_port 53".toList :=
    derives_pair (m := .and) rfl rfl rfl rfl
  refine (compiles_iff htext ?_).2 (.inr ⟨?_, ?_⟩)
  · decide
  · simp [Stmt.IsFunction, protoUdp, srcPort]
  · decide

/-- A protocol there is not gets the value of the statement before. -/
theorem misspelt_not_compiles :
    Derives [srcPort (some .and), protoTpc] "src_port 53 and proto tpc".toList ∧
      (∀ s ∈ [srcPort (some .and), protoTpc], registers.tokens s.field ≠ none) ∧
      parseSelector registers "src_port 53 and proto tpc" = .ok (matcher
        "operator==(Tags->Map[2], 53) and operator==(Tags->Map[4], 53)  ") ∧
      ¬ Compiles registers [srcPort (some .and), protoTpc] "src_port 53 and proto tpc" := by
  have hparse : parseSelector registers "src_port 53 and proto tpc" = .ok (matcher
      "operator==(Tags->Map[2], 53) and operator==(Tags->Map[4], 53)  ") := rfl
  refine ⟨derives_pair (m := .and) rfl rfl rfl rfl, by decide, hparse, fun hcompiles => ?_⟩
  obtain ⟨owns, howns, -⟩ := hcompiles _ hparse
  obtain ⟨c, -, hc⟩ := Forall2.exists_right (Forall2.of_mapM howns) (a := protoTpc) (by simp)
  exact absurd (resolves_of_own hc) (by decide)

end DStreamon.Selector
