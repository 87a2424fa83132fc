import DStreamon.Lib.Replace
import Mathlib.Data.List.Sort

/-!
# Names in features and conditions

`c.py` replaces the metrics that a feature's body names, and the features that a condition names, by
elements of `Input`, one name after the other and the longest first.  What it is for is a
replacement of all of them at once, wherever one stands as an identifier.
-/

namespace DStreamon.Substitution

open Replace (replace words mapWords)

/-- What an identifier goes on with. -/
def isWord (c : Char) : Bool := c.isAlphanum || c == '_'

structure Identifier where
  first : Char
  rest : List Char
  isFirst : (first.isAlpha || first == '_') = true
  isRest : rest.all isWord = true
deriving DecidableEq

def Identifier.text (n : Identifier) : List Char := n.first :: n.rest

/-- Names with their indices, as `metric_table` and `feature_table` hold them. -/
abbrev NameTable := List (Identifier × ℕ)

def inputWord : List Char := ['I', 'n', 'p', 'u', 't']

/-- `'Input[{0}]'.format(Index)` -/
def input (index : ℕ) : List Char := inputWord ++ '[' :: (Nat.toDigits 10 index ++ [']'])

/-- `sort(key=lambda x: len(x[0]), reverse=True)`, which keeps the order of equal lengths. -/
def sortNames (table : NameTable) : NameTable :=
  table.insertionSort fun a b => b.1.text.length ≤ a.1.text.length

/-- The body that `Feature.__init__` leaves. -/
def featureBody (metricTable : NameTable) (body : List Char) : List Char :=
  (sortNames metricTable).foldl (fun body m => replace m.1.text (input m.2) body) body

/-! ## `Condition.__init__` -/

/-- The condition's text, and `FeatureSet`. -/
structure State where
  body : List Char
  featureSet : List (ℕ × Identifier)

def conditionStep (action : List Char) (s : State) (f : Identifier × ℕ) : State :=
  let inBody := f.1.text <:+: s.body
  { body := if inBody then replace f.1.text (input f.2) s.body else s.body
    featureSet :=
      if inBody ∨ f.1.text <:+: action then s.featureSet ++ [(f.2, f.1)] else s.featureSet }

/-- The loop over `feature_table`. -/
def condition (featureTable : NameTable) (expression action : List Char)
    (featureSet : List (ℕ × Identifier)) : State :=
  (sortNames featureTable).foldl (conditionStep action) ⟨expression, featureSet⟩

/-! ## What they are for -/

/-- A name stands in a text as an identifier. -/
def Occurs (n : Identifier) (text : List Char) : Prop := n.text ∈ words isWord text

def lookup (table : NameTable) (w : List Char) : Option ℕ :=
  (table.find? fun e => e.1.text == w).map Prod.snd

/-- Every identifier that is declared is replaced, and nothing else. -/
def simultaneous (table : NameTable) : List Char → List Char :=
  mapWords isWord fun w => ((lookup table w).map input).getD w

/-- The condition's text is the simultaneous replacement, and the features that it or its action
names are put in the list. -/
def Hygienic (table : NameTable) (expression action : List Char)
    (featureSet : List (ℕ × Identifier)) : Prop :=
  let s := condition table expression action featureSet
  s.body = simultaneous table expression ∧ ∃ added, s.featureSet = featureSet ++ added ∧
    ∀ f, f ∈ added ↔ (f.2, f.1) ∈ table ∧ (Occurs f.2 expression ∨ Occurs f.2 action)

/-! ## When they do it -/

/-- `m` is shorter than `n`, or of its length and declared later. -/
def After (table : NameTable) (n m : Identifier) : Prop :=
  m.text.length < n.text.length ∨
    m.text.length = n.text.length ∧ [n, m].Sublist (table.map Prod.fst)

/-- No declared name lies within another identifier of the text, and where one of them occurs, none
that is shorter or of the same length and declared later lies within `Input`. -/
structure Apart (table : NameTable) (text : List Char) : Prop where
  other : ∀ w ∈ words isWord text, (∀ e ∈ table, e.1.text ≠ w) → ∀ e ∈ table, ¬ e.1.text <:+: w
  inserted : ∀ e ∈ table, Occurs e.1 text → ∀ e' ∈ table, After table e.1 e'.1 →
    ¬ e'.1.text <:+: inputWord

/-- A declared name that lies anywhere in the action is an identifier of it or of the condition. -/
def ActionApart (table : NameTable) (expression action : List Char) : Prop :=
  ∀ e ∈ table, e.1.text <:+: action → Occurs e.1 expression ∨ Occurs e.1 action

instance (n : Identifier) (text : List Char) : Decidable (Occurs n text) :=
  inferInstanceAs (Decidable (n.text ∈ words isWord text))

instance (table : NameTable) (n m : Identifier) : Decidable (After table n m) :=
  inferInstanceAs (Decidable (_ ∨ _))

instance (table : NameTable) (expression action : List Char) :
    Decidable (ActionApart table expression action) :=
  inferInstanceAs (Decidable (∀ e ∈ table, _))

end DStreamon.Substitution
