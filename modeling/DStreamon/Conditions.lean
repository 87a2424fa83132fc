import DStreamon.Lib.Backtrack
import DStreamon.Lib.Logical
import DStreamon.Substitution

/-!
# Table lookups in conditions

`Condition.__init__` cuts a condition at the first `or` or `and` behind each comparison, puts the
lookups that it finds in a piece in front of it as a guard, and then follows the pointers of all of
these lookups, wherever they stand.
-/

namespace DStreamon.Conditions

open Backtrack Pattern
open Logical (Expr Connective)
open Replace (replace mapWords)
open Substitution (isWord)

/-- A run of `\w`. -/
def IsWord (w : List Char) : Prop := w ≠ [] ∧ ∀ c ∈ w, isWord c = true

instance (w : List Char) : Decidable (IsWord w) :=
  @instDecidableAnd _ _ inferInstance (List.decidableBAll _ w)

/-- `shared.tables` and `shared.tokens`, as far as a condition can name them. -/
structure Names where
  tables : List (List Char)
  tokens : List (List Char × ℕ)
  tableWord : ∀ t ∈ tables, IsWord t
  tokenWord : ∀ t ∈ tokens, IsWord t.1

/-- A table and a key; in the generated text the key is the number of a register. -/
abbrev Access := List Char × List Char

/-! ## The regular expressions -/

/-- `(?: [<>][=]? | [!=][=])` -/
def opGroup : Pattern Char (List Char) :=
  ((word [' ']).append ((one fun c => c ∈ ['<', '>']).append
    ((one (· = '=')).optional.append (word [' '])))).alt
  ((word [' ']).append ((one fun c => c ∈ ['!', '=']).append (one (· = '='))))

/-- `$` -/
def endOfText : Pattern Char (List Char) := fun l => if l = [] ∨ l = ['\n'] then [([], l)] else []

/-- `($|or|and)` -/
def endGroup : Pattern Char (List Char) :=
  endOfText.alt ((word ['o', 'r']).alt (word ['a', 'n', 'd']))

def anyChar (c : Char) : Bool := c ≠ '\n'

/-- `.+?` -/
def something : Pattern Char (List Char) := few1 anyChar

/-- `_regex`; what it gives is `overall`. -/
def regex : Pattern Char (List Char) :=
  (something.append (opGroup.append something)).andThen fun overall =>
    endGroup.andThen fun _ => give overall

/-- `get_tab_regex` -/
def tabRegex (tables : List (List Char)) : Pattern Char Access :=
  (anyOf tables).andThen fun tname => (word ['(']).andThen fun _ =>
    (many1 fun c => isWord c).andThen fun tkey => (word [')']).andThen fun _ => give (tname, tkey)

/-! ## `Condition.__init__` -/

def tablesWord : List Char := ['t', 'a', 'b', 'l', 'e', 's']
def getWord : List Char := ['g', 'e', 't']
def tagsWord : List Char := ['T', 'a', 'g', 's']
def mapWord : List Char := ['M', 'a', 'p']
def notWord : List Char := ['n', 'o', 't']
def andWord : List Char := ['a', 'n', 'd']
def orWord : List Char := ['o', 'r']

def connectiveWord : Connective → List Char
  | .and => andWord
  | .or => orWord

/-- `"tables.{0}->get({1})".format(tname, tkey)` -/
def getText (t : Access) : List Char :=
  tablesWord ++ '.' :: (t.1 ++ '-' :: '>' :: (getWord ++ '(' :: (t.2 ++ [')'])))

/-- `"tables.{0}->get({1}) and ".format(tname, tkey)` -/
def protector (t : Access) : List Char := getText t ++ ' ' :: (andWord ++ [' '])

/-- The condition's text and `shared.table_clist`. -/
structure State where
  body : List Char
  tableClist : List Access

/-- `"({0} {1})".format("".join(protectors), overall)` -/
def bodyNew (tabs : List Access) (overall : List Char) : List Char :=
  '(' :: (tabs.flatMap protector ++ ' ' :: (overall ++ [')']))

/-- The loop's body, for a piece of the text. -/
def protect (tables : List (List Char)) (s : State) (overall : List Char) : State :=
  let tabs := (tabRegex tables).findAll overall
  ⟨replace overall (bodyNew tabs overall) s.body, s.tableClist ++ tabs⟩

def onTableMatch (tableClist : List Access) (t : Access) : List Char :=
  if t ∈ tableClist then '*' :: getText t else getText t

/-- `"Tags->Map[{0}]".format(tokens[tkname])` -/
def register (id : ℕ) : List Char :=
  tagsWord ++ '-' :: '>' :: (mapWord ++ '[' :: (Nat.toDigits 10 id ++ [']']))

def onTokenMatch (tokens : List (List Char × ℕ)) (w : List Char) : List Char :=
  ((tokens.lookup w).map register).getD w

/-- `shared.ReplaceTokens`; between word boundaries a name is a whole word. -/
def replaceTokens (tokens : List (List Char × ℕ)) : List Char → List Char :=
  mapWords isWord (onTokenMatch tokens)

/-- The text that is returned by the generated function, from that of the condition behind the loop
over the features. -/
def generate (names : Names) (body : List Char) : List Char :=
  let s := (regex.findAll body).foldl (protect names.tables) ⟨body, []⟩
  replaceTokens names.tokens ((tabRegex names.tables).sub (onTableMatch s.tableClist) s.body)

/-! ## Comparisons -/

inductive Rel where
  | lt | le | gt | ge | eq | ne
deriving DecidableEq

def Rel.text : Rel → List Char
  | lt => ['<']
  | le => ['<', '=']
  | gt => ['>']
  | ge => ['>', '=']
  | eq => ['=', '=']
  | ne => ['!', '=']

inductive Arith where
  | plus | minus | times | divide
deriving DecidableEq

def Arith.char : Arith → Char
  | plus => '+'
  | minus => '-'
  | times => '*'
  | divide => '/'

/-- A name or a whole number, a decimal number, or an element of `Input`. -/
inductive Literal where
  | word (w : List Char)
  | decimal (whole fraction : List Char)
  | element (array index : List Char)
deriving DecidableEq

inductive Factor where
  | literal (l : Literal)
  | look (t : Access)
deriving DecidableEq

structure Operand where
  first : Factor
  more : List (Arith × Factor)
deriving DecidableEq

/-- What the arithmetic of C++ makes of values. -/
structure Meaning (V : Type) where
  literal : Literal → V
  combine : V → List (Arith × V) → V
  rel : Rel → V → V → Bool
  isTrue : V → Bool

section

variable {V : Type} (m : Meaning V)

/-- The value of a factor; `none` where the pointer of a lookup is `NULL`. -/
def Factor.eval (get : Access → Option V) : Factor → Option V
  | .literal l => some (m.literal l)
  | .look t => get t

def Operand.eval (get : Access → Option V) (x : Operand) : Option V := do
  let a ← x.first.eval m get
  let as ← x.more.mapM fun f => (f.2.eval m get).map fun b => (f.1, b)
  some (m.combine a as)

def Factor.value (v : Access → V) : Factor → V
  | .literal l => m.literal l
  | .look t => v t

def Operand.value (v : Access → V) (x : Operand) : V :=
  m.combine (x.first.value m v) (x.more.map fun f => (f.1, f.2.value m v))

end

/-- The same with other names for the entries. -/
def Factor.map (g : Access → Access) : Factor → Factor
  | .literal l => .literal l
  | .look t => .look (g t)

def Operand.map (g : Access → Access) (x : Operand) : Operand :=
  ⟨x.first.map g, x.more.map fun f => (f.1, f.2.map g)⟩

def Factor.looks : Factor → List Access
  | .literal _ => []
  | .look t => [t]

def Operand.looks (x : Operand) : List Access := x.first.looks ++ x.more.flatMap fun f => f.2.looks

/-! ## The generated text -/

inductive Token where
  | word (w : List Char)
  | rel (r : Rel)
  | arrow
  | sign (c : Char)
deriving DecidableEq

def wordOf (run : List Char) : List Token := if run = [] then [] else [.word run]

/-- The tokens of a text behind a run of letters. -/
def lex : List Char → List Char → List Token
  | run, [] => wordOf run
  | run, '-' :: '>' :: cs => wordOf run ++ .arrow :: lex [] cs
  | run, '<' :: '=' :: cs => wordOf run ++ .rel .le :: lex [] cs
  | run, '>' :: '=' :: cs => wordOf run ++ .rel .ge :: lex [] cs
  | run, '=' :: '=' :: cs => wordOf run ++ .rel .eq :: lex [] cs
  | run, '!' :: '=' :: cs => wordOf run ++ .rel .ne :: lex [] cs
  | run, '<' :: cs => wordOf run ++ .rel .lt :: lex [] cs
  | run, '>' :: cs => wordOf run ++ .rel .gt :: lex [] cs
  | run, ' ' :: cs => wordOf run ++ lex [] cs
  | run, c :: cs => if isWord c then lex (run ++ [c]) cs else wordOf run ++ .sign c :: lex [] cs

/-- An atom of the generated condition: the pointer of a lookup, what it points to, or a comparison,
in which every pointer is followed. -/
inductive CppAtom where
  | get (t : Access)
  | deref (t : Access)
  | cmp (x : Operand) (r : Rel) (y : Operand)
deriving DecidableEq

def getTokens (t : Access) : List Token :=
  [.word tablesWord, .sign '.', .word t.1, .arrow, .word getWord, .sign '(', .word tagsWord, .arrow,
    .word mapWord, .sign '[', .word t.2, .sign ']', .sign ')']

/-- `tables.T->get(Tags->Map[i])` -/
def readGet : List Token → Option (Access × List Token)
  | .word w₁ :: .sign '.' :: .word t :: .arrow :: .word w₂ :: .sign '(' :: .word w₃ :: .arrow ::
      .word w₄ :: .sign '[' :: .word i :: .sign ']' :: .sign ')' :: rest =>
    if w₁ = tablesWord ∧ w₂ = getWord ∧ w₃ = tagsWord ∧ w₄ = mapWord then some ((t, i), rest)
    else none
  | _ => none

def reserved : List (List Char) := [notWord, andWord, orWord, tablesWord]

def readFactor : List Token → Option (Factor × List Token)
  | .sign '*' :: rest => (readGet rest).map fun r => (.look r.1, r.2)
  | .word w :: rest =>
    if w ∈ reserved then none
    else
      match rest with
      | .sign '.' :: .word v :: rest => some (.literal (.decimal w v), rest)
      | .sign '[' :: .word v :: .sign ']' :: rest => some (.literal (.element w v), rest)
      | rest => some (.literal (.word w), rest)
  | _ => none

def readArith : List Token → Option (Arith × List Token)
  | .sign '+' :: rest => some (.plus, rest)
  | .sign '-' :: rest => some (.minus, rest)
  | .sign '*' :: rest => some (.times, rest)
  | .sign '/' :: rest => some (.divide, rest)
  | _ => none

def readMore : ℕ → List Token → List (Arith × Factor) × List Token
  | 0, ts => ([], ts)
  | n + 1, ts =>
    match readArith ts with
    | none => ([], ts)
    | some (o, rest) =>
      match readFactor rest with
      | none => ([], ts)
      | some (f, rest) => ((o, f) :: (readMore n rest).1, (readMore n rest).2)

def readOperand (ts : List Token) : Option (Operand × List Token) := do
  let (f, rest) ← readFactor ts
  some (⟨f, (readMore rest.length rest).1⟩, (readMore rest.length rest).2)

def readAtom (ts : List Token) : Option (CppAtom × List Token) :=
  match readGet ts with
  | some (t, rest) => some (.get t, rest)
  | none => do
    let (x, rest) ← readOperand ts
    match x, rest with
    | x, .rel r :: rest => do
      let (y, rest) ← readOperand rest
      some (.cmp x r y, rest)
    | ⟨.look t, []⟩, rest => some (.deref t, rest)
    | _, _ => none

def Literal.tokens : Literal → List Token
  | .word w => [.word w]
  | .decimal w v => [.word w, .sign '.', .word v]
  | .element w v => [.word w, .sign '[', .word v, .sign ']']

def Factor.tokens : Factor → List Token
  | .literal l => l.tokens
  | .look t => .sign '*' :: getTokens t

def Operand.tokens (x : Operand) : List Token :=
  x.first.tokens ++ x.more.flatMap fun f => .sign f.1.char :: f.2.tokens

def CppAtom.tokens : CppAtom → List Token
  | .get t => getTokens t
  | .deref t => .sign '*' :: getTokens t
  | .cmp x r y => x.tokens ++ .rel r :: y.tokens

/-- Conditions in C++; `not` binds more than a comparison does. -/
def cpp : Logical.Syntax CppAtom Token where
  opening := .sign '('
  closing := .sign ')'
  notSign := .word notWord
  sign o := .word (connectiveWord o)
  write := CppAtom.tokens
  read := readAtom
  isClosed
    | .cmp _ _ _ => false
    | _ => true

/-- The condition a text stands for. -/
def readCpp (text : List Char) : Option (Expr CppAtom) := cpp.readAll (lex [] text)

/-- The value of an atom; `none` where `NULL` is followed. -/
def CppAtom.eval {V : Type} (m : Meaning V) (get : Access → Option V) : CppAtom → Option Bool
  | .get t => some (get t).isSome
  | .deref t => (get t).map m.isTrue
  | .cmp x r y => do
    let a ← x.eval m get
    let b ← y.eval m get
    some (m.rel r a b)

/-! ## Condition expressions -/

/-- A comparison, or a lookup outside of them, which asks whether there is an entry. -/
inductive Atom where
  | cmp (x : Operand) (r : Rel) (y : Operand)
  | look (t : Access)
deriving DecidableEq

def Literal.text : Literal → List Char
  | .word w => w
  | .decimal w v => w ++ '.' :: v
  | .element w v => w ++ '[' :: (v ++ [']'])

def lookText (t : Access) : List Char := t.1 ++ '(' :: (t.2 ++ [')'])

def Factor.text : Factor → List Char
  | .literal l => l.text
  | .look t => lookText t

def Operand.text (x : Operand) : List Char :=
  x.first.text ++ x.more.flatMap fun f => ' ' :: f.1.char :: ' ' :: f.2.text

def Atom.text : Atom → List Char
  | .cmp x r y => x.text ++ ' ' :: (r.text ++ ' ' :: y.text)
  | .look t => lookText t

def text : Expr Atom → List Char
  | .atom a => a.text
  | .not e => notWord ++ ' ' :: text e
  | .brackets e => '(' :: (text e ++ [')'])
  | .join o a b => text a ++ ' ' :: (connectiveWord o ++ ' ' :: text b)

/-- Words that are not keywords, tables or fields. -/
def PlainWord (names : Names) (w : List Char) : Prop :=
  IsWord w ∧ w ∉ reserved ∧ names.tokens.lookup w = none

instance (names : Names) (w : List Char) : Decidable (PlainWord names w) :=
  inferInstanceAs (Decidable (_ ∧ _ ∧ _))

def Literal.Valid (names : Names) : Literal → Prop
  | .word w => PlainWord names w
  | .decimal w v => PlainWord names w ∧ PlainWord names v
  | .element w v => PlainWord names w ∧ PlainWord names v

/-- A declared table and a field. -/
def ValidAccess (names : Names) (t : Access) : Prop :=
  t.1 ∈ names.tables ∧ IsWord t.2 ∧ (names.tokens.lookup t.2).isSome

instance (names : Names) : ∀ l : Literal, Decidable (l.Valid names)
  | .word _ => inferInstanceAs (Decidable (PlainWord _ _))
  | .decimal _ _ => inferInstanceAs (Decidable (_ ∧ _))
  | .element _ _ => inferInstanceAs (Decidable (_ ∧ _))

instance (names : Names) (t : Access) : Decidable (ValidAccess names t) :=
  inferInstanceAs (Decidable (_ ∧ _ ∧ _))

def Factor.Valid (names : Names) : Factor → Prop
  | .literal l => l.Valid names
  | .look t => ValidAccess names t

instance (names : Names) : ∀ f : Factor, Decidable (f.Valid names)
  | .literal l => inferInstanceAs (Decidable (l.Valid names))
  | .look t => inferInstanceAs (Decidable (ValidAccess names t))

def Operand.Valid (names : Names) (x : Operand) : Prop :=
  x.first.Valid names ∧ ∀ f ∈ x.more, f.2.Valid names

instance (names : Names) (x : Operand) : Decidable (x.Valid names) :=
  inferInstanceAs (Decidable (_ ∧ _))

def Atom.Valid (names : Names) : Atom → Prop
  | .cmp x _ y => x.Valid names ∧ y.Valid names
  | .look t => ValidAccess names t

instance (names : Names) : ∀ a : Atom, Decidable (a.Valid names)
  | .cmp _ _ _ => inferInstanceAs (Decidable (_ ∧ _))
  | .look t => inferInstanceAs (Decidable (ValidAccess names t))

def Atom.isLook : Atom → Bool
  | .cmp _ _ _ => false
  | .look _ => true

def Atom.looks : Atom → List Access
  | .cmp x _ y => x.looks ++ y.looks
  | .look t => [t]

/-- An expression over declared tables and fields, with brackets where they are needed. -/
structure Accepted (names : Names) (e : Expr Atom) : Prop where
  written : e.WellWritten fun a => a.isLook
  valid : ∀ a ∈ e.atoms, a.Valid names

instance (names : Names) (e : Expr Atom) : Decidable (Accepted names e) :=
  decidable_of_iff ((e.WellWritten fun a => a.isLook) ∧ ∀ a ∈ e.atoms, a.Valid names)
    ⟨fun h => ⟨h.1, h.2⟩, fun h => ⟨h.1, h.2⟩⟩

/-- The entry a lookup means. -/
def Names.access (names : Names) (t : Access) : Access :=
  (t.1, Nat.toDigits 10 ((names.tokens.lookup t.2).getD 0))

/-- The truth value where every key that is looked up is in its table. -/
def Atom.holds {V : Type} (m : Meaning V) (v : Access → V) : Atom → Bool
  | .cmp x r y => m.rel r (x.value m v) (y.value m v)
  | .look _ => true

/-- No `NULL` is followed, whatever the tables hold, and where they hold every key that is looked
up, the generated condition has the truth value of the expression. -/
def NeverMissing (names : Names) (e : Expr Atom) : Prop :=
  ∃ c, readCpp (generate names (text e)) = some c ∧
    ∀ (V : Type) (m : Meaning V) (get : Access → Option V),
      (c.eval (CppAtom.eval m get)).isSome ∧
        ∀ v : Access → V,
          (∀ a ∈ e.atoms, ∀ t ∈ a.looks, get (names.access t) = some (v (names.access t))) →
            c.eval (CppAtom.eval m get) = some (e.holds (Atom.holds m fun t => v (names.access t)))

/-! ## When they do it -/

/-- A comparison and the text around it, from the `or` or `and` before it to the next one. -/
structure Piece where
  left : List Char
  rel : Rel
  right : List Char
deriving DecidableEq

/-- The pieces of an expression that stands between two texts. -/
def pieces (before after : List Char) : Expr Atom → List Piece
  | .atom (.cmp x r y) => [⟨before ++ x.text, r, y.text ++ after⟩]
  | .atom (.look _) => []
  | .not e => pieces (before ++ (notWord ++ [' '])) after e
  | .brackets e => pieces (before ++ ['(']) (')' :: after) e
  | .join _ a b => pieces before [' '] a ++ pieces [' '] after b

/-- No letters of `or` or `and` behind the comparison. -/
def Piece.Whole (p : Piece) : Prop :=
  let right := if p.rel = .eq ∨ p.rel = .ne then p.right else p.right.tail
  ¬ orWord <:+: right ∧ ¬ andWord <:+: right

instance (p : Piece) : Decidable p.Whole := inferInstanceAs (Decidable (_ ∧ _))

/-- The text of one piece may stand in that of the other. -/
def Piece.Alike (p q : Piece) : Prop :=
  p.rel = q.rel ∧ (p.left <:+ q.left ∨ q.left <:+ p.left) ∧
    (p.right <+: q.right ∨ q.right <+: p.right)

instance (p q : Piece) : Decidable (p.Alike q) := inferInstanceAs (Decidable (_ ∧ _ ∧ _))

/-- Lookups outside of comparisons only stand behind the last comparison, and there is no `not` over
more than one atom of which one is a comparison. -/
def Ordered : Expr Atom → Prop
  | .atom _ => True
  | .not e => ((∀ a ∈ e.atoms, a.isLook) ∨ e.atoms.length = 1) ∧ Ordered e
  | .brackets e => Ordered e
  | .join _ a b => ((∃ x ∈ a.atoms, x.isLook) → ∀ x ∈ b.atoms, x.isLook) ∧ Ordered a ∧ Ordered b

instance decidableOrdered : ∀ e, Decidable (Ordered e)
  | .atom _ => isTrue trivial
  | .not e => @instDecidableAnd _ _ _ (decidableOrdered e)
  | .brackets e => decidableOrdered e
  | .join _ a b =>
    @instDecidableAnd _ _ _ (@instDecidableAnd _ _ (decidableOrdered a) (decidableOrdered b))

structure Fits (names : Names) (e : Expr Atom) : Prop where
  ordered : Ordered e
  apart : ∀ a ∈ e.atoms, a.isLook = true → ∀ b ∈ e.atoms, b.isLook = false →
    ∀ t ∈ a.looks, t ∉ b.looks
  whole : ∀ p ∈ pieces [] [] e, p.Whole
  distinct : (pieces [] [] e).Pairwise fun p q => ¬ p.Alike q
  plainGet : (∃ a ∈ e.atoms, a.isLook = false ∧ a.looks ≠ []) → ∀ t ∈ names.tables, ¬ t <:+ getWord
  plainTables : ∀ a ∈ e.atoms, ∀ t ∈ a.looks, names.tokens.lookup t.1 = none
  plainWords : ∀ w ∈ [tablesWord, getWord, notWord, andWord, orWord], names.tokens.lookup w = none

end DStreamon.Conditions
