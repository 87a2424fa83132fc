import DStreamon.Proofs.ConditionPieces
import DStreamon.Proofs.ConditionTexts

/-!
# What a condition compiles to

The brackets of a guard close behind the piece, and those of the expression where they did.  As long
as nothing but brackets stands between the beginning of a piece and its comparison, that comes to a
guard in front of the first alternative of a group; the other alternatives have guards of their own.
-/

namespace DStreamon.Conditions

open Backtrack Pattern
open Logical (Expr Connective)

variable {names : Names} {looks : List Access} {e a b : Expr Atom} {before after stop : List Char}
  {o : Connective}

/-! ## The pieces of an expression -/

def Looks (e : Expr Atom) : Prop := ∀ a ∈ e.atoms, a.isLook

instance (e : Expr Atom) : Decidable (Looks e) := inferInstanceAs (Decidable (∀ a ∈ e.atoms, _))

/-- The pieces of an expression with the signs behind them. -/
def cutsOf (before after stop : List Char) : Expr Atom → List Cut
  | .atom (.cmp x r y) => [⟨⟨before ++ x.text, r, y.text ++ after⟩, stop⟩]
  | .atom (.look _) => []
  | .not e => cutsOf (before ++ (notWord ++ [' '])) after stop e
  | .brackets e => cutsOf (before ++ ['(']) (')' :: after) stop e
  | .join o a b => cutsOf before [' '] (connectiveWord o) a ++ cutsOf [' '] after stop b

/-- What is behind the last piece. -/
def tailOf (before after stop : List Char) : Expr Atom → List Char
  | .atom (.cmp _ _ _) => []
  | .atom (.look t) => before ++ (lookText t ++ (after ++ stop))
  | .not e => tailOf (before ++ (notWord ++ [' '])) after stop e
  | .brackets e => tailOf (before ++ ['(']) (')' :: after) stop e
  | .join o a b => tailOf before [' '] (connectiveWord o) a ++ tailOf [' '] after stop b

theorem piece_cutsOf : ∀ (e : Expr Atom) (before after stop : List Char),
    (cutsOf before after stop e).map Cut.piece = pieces before after e
  | .atom (.cmp _ _ _), _, _, _ => rfl
  | .atom (.look _), _, _, _ => rfl
  | .not e, _, _, _ => piece_cutsOf e _ _ _
  | .brackets e, _, _, _ => piece_cutsOf e _ _ _
  | .join _ a b, _, _, _ => by
    rw [cutsOf, List.map_append, piece_cutsOf a, piece_cutsOf b, pieces]

theorem Looks.join (h : Looks (.join o a b)) : Looks a ∧ Looks b :=
  ⟨fun x hx => h x (List.mem_append_left _ hx), fun x hx => h x (List.mem_append_right _ hx)⟩

theorem cutsOf_looks : ∀ {e : Expr Atom} {before after stop : List Char}, Looks e →
    cutsOf before after stop e = []
  | .atom (.cmp _ _ _), _, _, _, h => absurd (h _ (List.mem_singleton_self _)) Bool.false_ne_true
  | .atom (.look _), _, _, _, _ => rfl
  | .not e, _, _, _, h => cutsOf_looks (e := e) h
  | .brackets e, _, _, _, h => cutsOf_looks (e := e) h
  | .join _ a b, _, _, _, h => by
    rw [cutsOf, cutsOf_looks h.join.1, cutsOf_looks h.join.2]
    rfl

/-- Some atom is a lookup outside of comparisons. -/
def HasLook (e : Expr Atom) : Prop := ∃ x ∈ e.atoms, x.isLook = true

theorem not_hasLook_join (h : ¬ HasLook (.join o a b)) : ¬ HasLook a ∧ ¬ HasLook b :=
  ⟨fun ⟨x, hx, hlook⟩ => h ⟨x, List.mem_append_left _ hx, hlook⟩,
    fun ⟨x, hx, hlook⟩ => h ⟨x, List.mem_append_right _ hx, hlook⟩⟩

theorem tailOf_comparisons : ∀ {e : Expr Atom} {before after stop : List Char}, ¬ HasLook e →
    tailOf before after stop e = []
  | .atom (.cmp _ _ _), _, _, _, _ => rfl
  | .atom (.look t), _, _, _, h => absurd ⟨.look t, List.mem_singleton_self _, rfl⟩ h
  | .not e, _, _, _, h => tailOf_comparisons (e := e) h
  | .brackets e, _, _, _, h => tailOf_comparisons (e := e) h
  | .join _ a b, _, _, _, h => by
    rw [tailOf, tailOf_comparisons (not_hasLook_join h).1,
      tailOf_comparisons (not_hasLook_join h).2]
    rfl

theorem rawText_nil (tail : List Char) : rawText [] tail = tail := rfl

theorem rawText_append (cs ds : List Cut) (tail : List Char) :
    rawText (cs ++ ds) tail = rawText cs (rawText ds tail) := by
  simp [rawText]

theorem rawText_append_tail (cs : List Cut) (s t : List Char) :
    rawText cs (s ++ t) = rawText cs s ++ t := by
  simp [rawText]

/-- The pieces make up the text. -/
theorem rawText_cutsOf : ∀ {e : Expr Atom} {before after stop : List Char}, Ordered e →
    rawText (cutsOf before after stop e) (tailOf before after stop e) =
      before ++ (text e ++ (after ++ stop))
  | .atom (.cmp x r y), _, _, _, _ => by
    simp [cutsOf, tailOf, rawText, Block.text, Cut.raw, Piece.segment, text, Atom.text]
  | .atom (.look t), _, _, _, _ => by
    simp [cutsOf, tailOf, rawText, text, Atom.text]
  | .not e, _, _, _, h => by
    rw [cutsOf, tailOf, rawText_cutsOf h.2]
    simp [text]
  | .brackets e, _, _, _, h => by
    rw [cutsOf, tailOf, rawText_cutsOf (e := e) h]
    simp [text]
  | .join o a b, before, after, stop, h => by
    have ha : rawText (cutsOf before [' '] (connectiveWord o) a)
        (tailOf before [' '] (connectiveWord o) a) = _ := rawText_cutsOf h.2.1
    have hb : rawText (cutsOf [' '] after stop b) (tailOf [' '] after stop b) = _ :=
      rawText_cutsOf h.2.2
    rw [cutsOf, tailOf, rawText_append]
    by_cases hlook : HasLook a
    · have hbl := h.1 hlook
      rw [cutsOf_looks hbl, rawText_nil] at hb ⊢
      rw [hb, rawText_append_tail, ha]
      simp [text]
    · rw [tailOf_comparisons hlook] at ha ⊢
      rw [List.nil_append, hb, ← List.nil_append ([' '] ++ _), rawText_append_tail, ha]
      simp [text]

/-! ## Before and behind an expression -/

/-- The text between the beginning of a piece and an expression: blanks, `not` and brackets. -/
structure Before (names : Names) (before : List Char) (ts : List Token) : Prop where
  quiet : Quiet before
  read : ∀ looks rest, ¬ Closes rest →
    readText names looks (before ++ rest) = ts ++ readText names looks rest
  found : ∀ rest, ¬ Closes rest → found names (before ++ rest) = found names rest

/-- The text between an expression and the end of a piece: closing brackets. -/
structure After (names : Names) (after : List Char) (n : ℕ) : Prop where
  quiet : Quiet after
  read : ∀ looks rest, readText names looks (after ++ rest) =
    List.replicate n (.sign ')') ++ readText names looks rest
  found : ∀ rest, found names (after ++ rest) = found names rest
  loose : ∀ rest, Loose rest → Loose (after ++ rest)

variable {ts : List Token} {n : ℕ}

theorem before_nil : Before names [] [] := ⟨by decide, fun _ _ _ => rfl, fun _ _ => rfl⟩

theorem before_blank : Before names [' '] [] where
  quiet := by decide
  read _ _ _ := readText_blank
  found _ _ := found_sign (by decide) (by decide)

theorem Before.open (h : Before names before ts) :
    Before names (before ++ ['(']) (ts ++ [.sign '(']) where
  quiet := h.quiet.append (by decide)
  read looks rest hrest := by
    rw [List.append_assoc, List.singleton_append, h.read _ _ (not_closes_sign (by decide)),
      readText_open hrest, List.append_assoc]
    rfl
  found rest hrest := by
    rw [List.append_assoc, List.singleton_append, h.found _ (not_closes_sign (by decide)),
      found_open hrest]

theorem isWord_notWord : IsWord notWord := by decide

theorem Before.not (h : Before names before ts) (hnot : names.tokens.lookup notWord = none) :
    Before names (before ++ (notWord ++ [' '])) (ts ++ [.word notWord]) where
  quiet := h.quiet.append (by decide)
  read looks rest hrest := by
    have hword : ¬ Closes (notWord ++ ' ' :: rest) :=
      not_closes isWord_notWord.2 (by decide) (by decide)
    rw [List.append_assoc, List.append_assoc, List.singleton_append, h.read _ _ hword,
      readText_word (by decide) hnot (loose_cons (by decide) (by decide)), readText_blank,
      List.append_assoc]
    rfl
  found rest hrest := by
    have hword : ¬ Closes (notWord ++ ' ' :: rest) :=
      not_closes isWord_notWord.2 (by decide) (by decide)
    rw [List.append_assoc, List.append_assoc, List.singleton_append, h.found _ hword,
      found_word (by decide) (loose_cons (by decide) (by decide)),
      found_sign (by decide) (by decide)]

theorem after_nil : After names [] 0 :=
  ⟨by decide, fun _ _ => rfl, fun _ => rfl, fun _ h => h⟩

theorem after_blank : After names [' '] 0 where
  quiet := by decide
  read _ _ := readText_blank
  found _ := found_sign (by decide) (by decide)
  loose _ _ := loose_cons (by decide) (by decide)

theorem After.close (h : After names after n) : After names (')' :: after) (n + 1) where
  quiet := Quiet.append (s := [')']) (by decide) h.quiet
  read looks rest := by
    rw [List.cons_append, readText_sign (by decide) (by decide), h.read]
    rfl
  found rest := by
    rw [List.cons_append, found_sign (by decide) (by decide), h.found]
  loose _ _ := loose_cons (by decide) (by decide)

/-! ## The lookups of a piece -/

/-- The guards of a piece are the lookups of its comparison. -/
theorem looks_cut {x y : Operand} {r : Rel} (hx : x.Valid names) (hy : y.Valid names)
    (hb : Before names before ts) (ha : After names after n) :
    Cut.looks names.tables ⟨⟨before ++ x.text, r, y.text ++ after⟩, stop⟩ = x.looks ++ y.looks := by
  have htext : Piece.segment ⟨before ++ x.text, r, y.text ++ after⟩ =
      before ++ (x.text ++ ' ' :: (r.text ++ ' ' :: (y.text ++ (after ++ [])))) := by
    simp [Piece.segment]
  have hend : found names [] = [] := rfl
  change found names _ = _
  rw [htext, hb.found _ (Operand.not_closes hx),
    Operand.found hx (loose_cons (by decide) (by decide)), found_rel,
    Operand.found hy (ha.loose _ loose_nil), ha.found, hend, List.append_nil]

/-- The lookups in comparisons. -/
def compared (e : Expr Atom) : List Access :=
  e.atoms.flatMap fun a => if a.isLook then [] else a.looks

theorem looks_cutsOf (hnot : names.tokens.lookup notWord = none) :
    ∀ {e : Expr Atom} {before after stop : List Char} {ts : List Token} {n : ℕ},
      (∀ a ∈ e.atoms, a.Valid names) → Before names before ts → After names after n →
      (cutsOf before after stop e).flatMap (Cut.looks names.tables) = compared e
  | .atom (.cmp x r y), _, _, _, _, _, h, hb, ha => by
    obtain ⟨hx, hy⟩ := h _ (List.mem_singleton_self _)
    rw [cutsOf, List.flatMap_cons, looks_cut hx hy hb ha]
    simp [compared, Logical.Expr.atoms, Atom.isLook, Atom.looks]
  | .atom (.look _), _, _, _, _, _, _, _, _ => rfl
  | .not e, _, _, _, _, _, h, hb, ha => looks_cutsOf hnot (e := e) h (hb.not hnot) ha
  | .brackets e, _, _, _, _, _, h, hb, ha => looks_cutsOf hnot (e := e) h hb.open ha.close
  | .join o a b, _, _, _, _, _, h, hb, ha => by
    rw [cutsOf, List.flatMap_append,
      looks_cutsOf hnot (fun x hx => h x (List.mem_append_left _ hx)) hb after_blank,
      looks_cutsOf hnot (fun x hx => h x (List.mem_append_right _ hx)) before_blank ha]
    simp [compared, Logical.Expr.atoms]

/-! ## Cutting an expression -/

theorem Literal.quiet {l : Literal} (h : l.Valid names) : Quiet l.text := by
  cases l with
  | word w => exact h.1.quiet
  | decimal w v => exact h.1.1.quiet.append (Quiet.append (s := ['.']) (by decide) h.2.1.quiet)
  | element w v =>
    exact h.1.1.quiet.append (Quiet.append (s := ['[']) (by decide)
      (h.2.1.quiet.append (by decide)))

theorem lookText_quiet {t : Access} (h : ValidAccess names t) : Quiet (lookText t) :=
  (names.tableWord _ h.1).quiet.append
    (Quiet.append (s := ['(']) (by decide) (h.2.1.quiet.append (by decide)))

theorem Factor.quiet {f : Factor} (h : f.Valid names) : Quiet f.text := by
  cases f with
  | literal l => exact Literal.quiet h
  | look t => exact lookText_quiet h

theorem Operand.quiet {x : Operand} (h : x.Valid names) : Quiet x.text := by
  refine (Factor.quiet h.1).append fun c hc => ?_
  obtain ⟨⟨o, f⟩, hf, hc⟩ := List.mem_flatMap.1 hc
  have hsigns : Quiet [' ', o.char, ' '] := by
    cases o <;> decide
  exact hsigns.append (Factor.quiet (h.2 _ hf)) c hc

theorem IsWord.append_ne {w l : List Char} (h : IsWord w) : w ++ l ≠ [] := fun hnil =>
  h.1 (List.append_eq_nil_iff.1 hnil).1

theorem Operand.text_ne_nil {x : Operand} (h : x.Valid names) : x.text ≠ [] := by
  intro hnil
  have hfirst : x.first.text = [] := (List.append_eq_nil_iff.1 hnil).1
  have hvalid := h.1
  cases hf : x.first with
  | literal l =>
    rw [hf] at hfirst hvalid
    cases l with
    | word w => exact hvalid.1.1 hfirst
    | decimal w v => exact hvalid.1.1.append_ne hfirst
    | element w v => exact hvalid.1.1.append_ne hfirst
  | look t =>
    rw [hf] at hfirst hvalid
    exact (names.tableWord _ hvalid.1).append_ne hfirst

theorem Operand.words {x : Operand} (h : x.Valid names) :
    ∀ t ∈ x.looks, IsWord t.1 ∧ IsWord t.2 := by
  have hfactor : ∀ f : Factor, f.Valid names → ∀ t ∈ f.looks, IsWord t.1 ∧ IsWord t.2 := by
    intro f hf t ht
    cases f with
    | literal l => exact absurd ht List.not_mem_nil
    | look u =>
      obtain rfl := List.mem_singleton.1 ht
      exact ⟨names.tableWord _ hf.1, hf.2.1⟩
  intro t ht
  rcases List.mem_append.1 ht with ht | ht
  · exact hfactor _ h.1 t ht
  · obtain ⟨f, hf, ht⟩ := List.mem_flatMap.1 ht
    exact hfactor _ (h.2 f hf) t ht

/-- What stands behind an expression: nothing, or a sign with a blank before it. -/
def Behind (after stop rest : List Char) : Prop :=
  stop = [] ∧ rest = [] ∨ (∃ o, stop = connectiveWord o) ∧ ∃ y, after = y ++ [' ']

theorem Behind.stops {rest l : List Char} (h : Behind after stop rest) :
    Stop (l ++ after) stop rest := by
  rcases h with hnil | ⟨⟨o, rfl⟩, y, rfl⟩
  · exact .inl hnil
  · refine .inr ⟨?_, l ++ y, (List.append_assoc _ _ _).symm⟩
    cases o
    · exact .inr rfl
    · exact .inl rfl

theorem Behind.close {rest : List Char} (h : Behind after stop rest) :
    Behind (')' :: after) stop rest := by
  rcases h with hnil | ⟨ho, y, rfl⟩
  · exact .inl hnil
  · exact .inr ⟨ho, ')' :: y, rfl⟩

theorem Behind.quiet {rest : List Char} (h : Behind after stop rest) : Quiet stop := by
  rcases h with ⟨rfl, -⟩ | ⟨⟨o, rfl⟩, -⟩
  · decide
  · cases o <;> decide

theorem behind_connective (o : Connective) (rest : List Char) :
    Behind [' '] (connectiveWord o) rest := .inr ⟨⟨o, rfl⟩, [], rfl⟩

/-- The expression is cut into its pieces, in front of others or of nothing. -/
theorem laid_cutsOf (hnot : names.tokens.lookup notWord = none) :
    ∀ {e : Expr Atom} {before after stop tail : List Char} {cs : List Cut} {ts : List Token}
      {n : ℕ},
      Ordered e → (∀ a ∈ e.atoms, a.Valid names) → (∀ p ∈ pieces before after e, p.Whole) →
      Before names before ts → After names after n → Behind after stop (rawText cs tail) →
      (HasLook e → cs = []) → Laid names.tables cs tail →
      Laid names.tables (cutsOf before after stop e ++ cs) (tailOf before after stop e ++ tail)
  | .atom (.cmp x r y), _, _, _, _, _, _, _, _, h, hwhole, hb, ha, hbehind, _, hcs => by
    obtain ⟨hx, hy⟩ := h _ (List.mem_singleton_self _)
    refine ⟨⟨hb.quiet.append (Operand.quiet hx), ?_, (Operand.quiet hy).append ha.quiet, ?_,
      hwhole _ (List.mem_singleton_self _), ?_⟩, hbehind.stops, hcs⟩
    · exact fun hnil => Operand.text_ne_nil hx (List.append_eq_nil_iff.1 hnil).2
    · exact fun hnil => Operand.text_ne_nil hy (List.append_eq_nil_iff.1 hnil).1
    · rw [looks_cut hx hy hb ha]
      intro t ht
      rcases List.mem_append.1 ht with ht | ht
      · exact Operand.words hx t ht
      · exact Operand.words hy t ht
  | .atom (.look t), _, _, _, _, _, _, _, _, h, _, hb, ha, hbehind, hlook, hcs => by
    obtain rfl := hlook ⟨_, List.mem_singleton_self _, rfl⟩
    have hquiet := hb.quiet.append ((lookText_quiet (h _ (List.mem_singleton_self _))).append
      (ha.quiet.append hbehind.quiet))
    exact Quiet.append hquiet hcs
  | .not e, _, _, _, _, _, _, _, hord, h, hwhole, hb, ha, hbehind, hlook, hcs =>
    laid_cutsOf hnot (e := e) hord.2 h hwhole (hb.not hnot) ha hbehind hlook hcs
  | .brackets e, _, _, _, _, _, _, _, hord, h, hwhole, hb, ha, hbehind, hlook, hcs =>
    laid_cutsOf hnot (e := e) hord h hwhole hb.open ha.close hbehind.close hlook hcs
  | .join o a b, _, _, _, _, _, _, _, hord, h, hwhole, hb, ha, hbehind, hlook, hcs => by
    have hright := laid_cutsOf hnot hord.2.2 (fun x hx => h x (List.mem_append_right _ hx))
      (fun p hp => hwhole p (List.mem_append_right _ hp)) before_blank ha hbehind
      (fun ⟨x, hx, hl⟩ => hlook ⟨x, List.mem_append_right _ hx, hl⟩) hcs
    have hleft := laid_cutsOf hnot hord.2.1 (fun x hx => h x (List.mem_append_left _ hx))
      (fun p hp => hwhole p (List.mem_append_left _ hp)) hb after_blank (behind_connective o _)
      (fun ha => by
        obtain ⟨x, hx, hl⟩ := ha
        rw [cutsOf_looks (hord.1 ⟨x, hx, hl⟩), hlook ⟨x, List.mem_append_left _ hx, hl⟩]
        rfl) hright
    rw [cutsOf, tailOf, List.append_assoc, List.append_assoc]
    exact hleft

/-! ## The condition that is generated -/

/-- The lookups of the first atom. -/
def firstLooks : Expr Atom → List Access
  | .atom a => a.looks
  | .not e => firstLooks e
  | .brackets e => firstLooks e
  | .join _ a _ => firstLooks a

def Atom.toCpp (names : Names) : Atom → CppAtom
  | .cmp x r y => .cmp (x.map names.access) r (y.map names.access)
  | .look t => .get (names.access t)

/-- The expression with its atoms in C++, without a guard. -/
def plain (names : Names) (e : Expr Atom) : Expr CppAtom := e.map (Atom.toCpp names)

def guard (names : Names) (ts : List Access) (e : Expr CppAtom) : Expr CppAtom :=
  ts.foldr (fun t e => .join .and (.atom (.get (names.access t))) e) e

/-- Guards written in front of an expression: they belong to its first alternative. -/
def inFront (names : Names) (ts : List Access) : Expr CppAtom → Expr CppAtom
  | .join .or a b => .join .or (guard names ts a) b
  | e => guard names ts e

/-- The condition that is generated; the guards of its first piece are left out if `g` is `false`.
-/
def build (names : Names) : Bool → Expr Atom → Expr CppAtom
  | _, .atom (.look t) => .atom (.get (names.access t))
  | g, .atom (.cmp x r y) =>
    .brackets (inFront names (if g then x.looks ++ y.looks else [])
      (.atom (.cmp (x.map names.access) r (y.map names.access))))
  | g, .not e =>
    if Looks e then .not (plain names e)
    else .brackets (inFront names (if g then firstLooks e else []) (.not (plain names e)))
  | g, .brackets e =>
    if Looks e then .brackets (plain names e)
    else if e.atoms.length = 1 then
      .brackets (inFront names (if g then firstLooks e else []) (.brackets (plain names e)))
    else .brackets (inFront names (if g then firstLooks e else []) (build names false e))
  | g, .join o a b => .join o (build names g a) (build names true b)

def guardTokens (names : Names) (ts : List Access) : List Token :=
  ts.flatMap fun t => getTokens (names.access t) ++ [.word andWord]

/-- The tokens of what is generated, behind the guards of the first piece. -/
def inner (names : Names) : Expr Atom → List Token
  | .atom a => (a.toCpp names).tokens ++ [.sign ')']
  | .not e => .word notWord :: inner names e
  | .brackets e => .sign '(' :: (inner names e ++ [.sign ')'])
  | .join o a b => inner names a ++ .word (connectiveWord o) :: cpp.tokens (build names true b)

theorem tokens_guard (ts : List Access) (c : Expr CppAtom) :
    cpp.tokens (guard names ts c) = guardTokens names ts ++ cpp.tokens c := by
  induction ts with
  | nil => rfl
  | cons t ts ih =>
    change getTokens (names.access t) ++ .word andWord :: cpp.tokens (guard names ts c) = _
    rw [ih]
    simp [guardTokens]

theorem tokens_inFront (ts : List Access) (c : Expr CppAtom) :
    cpp.tokens (inFront names ts c) = guardTokens names ts ++ cpp.tokens c := by
  unfold inFront
  split
  · next a b =>
    change cpp.tokens (guard names ts a) ++ _ = _ ++ (cpp.tokens a ++ _)
    rw [tokens_guard, List.append_assoc]
  · exact tokens_guard ts _

theorem build_looks : ∀ {e : Expr Atom} (g : Bool), Looks e → build names g e = plain names e
  | .atom (.cmp _ _ _), _, h => absurd (h _ (List.mem_singleton_self _)) Bool.false_ne_true
  | .atom (.look _), _, _ => rfl
  | .not e, _, h => if_pos (c := Looks e) h
  | .brackets e, _, h => if_pos (c := Looks e) h
  | .join _ a b, g, h => by
    rw [build, build_looks g h.join.1, build_looks true h.join.2]
    rfl

theorem inner_single : ∀ {e : Expr Atom}, e.atoms.length = 1 →
    inner names e = cpp.tokens (plain names e) ++ [.sign ')']
  | .atom _, _ => rfl
  | .not e, h => by
    rw [inner, inner_single (e := e) h]
    rfl
  | .brackets e, h => by
    rw [inner, inner_single (e := e) h]
    rfl
  | .join o a b, h => by
    have ha := List.length_pos_iff.2 a.atoms_ne_nil
    have hb := List.length_pos_iff.2 b.atoms_ne_nil
    rw [Logical.Expr.atoms, List.length_append] at h
    omega

theorem hasLook_of_looks (h : Looks e) : HasLook e := by
  obtain ⟨x, xs, hx⟩ := List.exists_cons_of_ne_nil e.atoms_ne_nil
  have hmem : x ∈ e.atoms := hx ▸ List.mem_cons_self
  exact ⟨x, hmem, h x hmem⟩

/-- The first atom is a comparison if there is one. -/
theorem not_looks_left (hord : Ordered (.join o a b)) (h : ¬ Looks (.join o a b)) : ¬ Looks a := by
  intro ha
  have hb := hord.1 (hasLook_of_looks ha)
  refine h fun x hx => ?_
  rcases List.mem_append.1 hx with hx | hx
  · exact ha x hx
  · exact hb x hx

theorem tokens_build : ∀ {e : Expr Atom} (g : Bool), Ordered e → ¬ Looks e →
    cpp.tokens (build names g e) =
      .sign '(' :: (guardTokens names (if g then firstLooks e else []) ++ inner names e)
  | .atom (.look t), _, _, h => absurd (by simp [Looks, Logical.Expr.atoms, Atom.isLook]) h
  | .atom (.cmp x r y), g, _, _ => by
    change .sign '(' :: cpp.tokens (inFront names _ _) ++ [.sign ')'] = _
    rw [tokens_inFront, List.cons_append, List.append_assoc]
    rfl
  | .not e, g, hord, h => by
    have hlooks : ¬ Looks e := h
    rw [build, if_neg hlooks]
    change .sign '(' :: cpp.tokens (inFront names _ _) ++ [.sign ')'] = _
    rw [tokens_inFront, List.cons_append, List.append_assoc, inner,
      inner_single (hord.1.resolve_left hlooks)]
    rfl
  | .brackets e, g, hord, h => by
    have hlooks : ¬ Looks e := h
    by_cases hsingle : e.atoms.length = 1
    · rw [build, if_neg hlooks, if_pos hsingle]
      change .sign '(' :: cpp.tokens (inFront names _ _) ++ [.sign ')'] = _
      rw [tokens_inFront, List.cons_append, List.append_assoc, inner, inner_single hsingle]
      rfl
    · rw [build, if_neg hlooks, if_neg hsingle]
      change .sign '(' :: cpp.tokens (inFront names _ _) ++ [.sign ')'] = _
      rw [tokens_inFront, List.cons_append, List.append_assoc, inner,
        tokens_build false (e := e) hord hlooks]
      rfl
  | .join o a b, g, hord, h => by
    change cpp.tokens (build names g a) ++ .word (connectiveWord o) :: _ = _
    rw [tokens_build g hord.2.1 (not_looks_left hord h), inner, List.cons_append,
      List.append_assoc]
    rfl

/-! ## Reading what is generated -/

/-- Lookups in comparisons are followed, those outside are not. -/
def Atom.Fit (names : Names) (looks : List Access) : Atom → Prop
  | .cmp x r y => x.Fit names looks ∧ y.Fit names looks ∧
      ((Atom.cmp x r y).looks ≠ [] → ∀ t ∈ names.tables, ¬ t <:+ getWord)
  | .look t => t ∉ looks ∧ Proper names t

/-- The words of what is generated are not called like fields. -/
def PlainWords (names : Names) : Prop :=
  ∀ w ∈ [tablesWord, getWord, notWord, andWord, orWord], names.tokens.lookup w = none

theorem PlainWords.connective (h : PlainWords names) (o : Connective) :
    names.tokens.lookup (connectiveWord o) = none := by
  cases o
  · exact h andWord (by simp)
  · exact h orWord (by simp)

theorem isWord_connective (o : Connective) : IsWord (connectiveWord o) := by
  cases o <;> decide

theorem tailOf_looks (h : Looks e) (hord : Ordered e) :
    tailOf before after stop e = before ++ (text e ++ (after ++ stop)) := by
  have hraw : rawText (cutsOf before after stop e) (tailOf before after stop e) = _ :=
    rawText_cutsOf hord
  rwa [cutsOf_looks h, rawText_nil] at hraw

/-- What stands before the expression is read, then the expression, then what closes behind it. -/
theorem read_tail (hplain : PlainWords names) :
    ∀ {e : Expr Atom} {before after stop : List Char} {ts : List Token} {n : ℕ},
      Looks e → Ordered e → (∀ a ∈ e.atoms, a.Fit names looks) → Before names before ts →
      After names after n → ∀ rest, readText names looks (tailOf before after stop e ++ rest) =
        ts ++ (cpp.tokens (plain names e) ++
          (List.replicate n (.sign ')') ++ readText names looks (stop ++ rest)))
  | .atom (.cmp _ _ _), _, _, _, _, _, h, _, _, _, _, _ =>
    absurd (h _ (List.mem_singleton_self _)) Bool.false_ne_true
  | .atom (.look t), before, after, stop, _, _, _, _, hfit, hb, ha, rest => by
    obtain ⟨hnot, hproper⟩ := hfit _ (List.mem_singleton_self _)
    have htext : tailOf before after stop (.atom (.look t)) ++ rest =
        before ++ (lookText t ++ (after ++ (stop ++ rest))) := by
      simp [tailOf]
    rw [htext, hb.read _ _ (not_closes_look hproper.valid), readText_look hproper, if_neg hnot,
      ha.read, List.nil_append]
    rfl
  | .not e, _, _, _, _, _, h, hord, hfit, hb, ha, rest => by
    rw [tailOf, read_tail hplain (e := e) h hord.2 hfit (hb.not (hplain notWord (by simp))) ha rest,
      List.append_assoc]
    rfl
  | .brackets e, _, _, _, _, _, h, hord, hfit, hb, ha, rest => by
    rw [tailOf, read_tail hplain (e := e) h hord hfit hb.open ha.close rest]
    simp [plain, Logical.Expr.map, Logical.Syntax.tokens, cpp, List.replicate_succ]
  | .join o a b, before, after, stop, _, _, h, hord, hfit, hb, ha, rest => by
    have hloose : Loose (tailOf [' '] after stop b ++ rest) := by
      rw [tailOf_looks h.join.2 hord.2.2]
      exact loose_cons (by decide) (by decide)
    rw [tailOf, List.append_assoc,
      read_tail hplain h.join.1 hord.2.1 (fun x hx => hfit x (List.mem_append_left _ hx)) hb
        after_blank,
      readText_word (isWord_connective o) (hplain.connective o) hloose,
      read_tail hplain h.join.2 hord.2.2 (fun x hx => hfit x (List.mem_append_right _ hx))
        before_blank ha rest]
    simp [plain, Logical.Expr.map, Logical.Syntax.tokens, cpp]

/-! ## Reading the guarded pieces -/

theorem guardedText_append (tables : List (List Char)) (cs ds : List Cut) (tail : List Char) :
    guardedText tables (cs ++ ds) tail = guardedText tables cs (guardedText tables ds tail) := by
  simp [guardedText]

theorem guardedText_nil (tables : List (List Char)) (tail : List Char) :
    guardedText tables [] tail = tail := rfl

theorem guardedText_cons (tables : List (List Char)) (c : Cut) (cs : List Cut) (tail : List Char) :
    guardedText tables (c :: cs) tail = '(' :: ((c.looks tables).flatMap protector ++ ' ' ::
      (c.piece.segment ++ ')' :: (c.stop ++ guardedText tables cs tail))) := by
  simp [guardedText, Block.text, Cut.guarded]

/-- The bracket before a piece is not that of a call. -/
theorem not_closes_protectors {ts : List Access} {rest : List Char} :
    ¬ Closes (ts.flatMap protector ++ ' ' :: rest) := by
  cases ts with
  | nil => exact not_closes_sign (by decide)
  | cons t ts =>
    have htext : (t :: ts).flatMap protector ++ ' ' :: rest = tablesWord ++ '.' :: (t.1 ++
        '-' :: '>' :: (getWord ++ '(' :: (t.2 ++ ')' :: ' ' :: (andWord ++ ' ' ::
          (ts.flatMap protector ++ ' ' :: rest))))) := by
      simp [protector, getText]
    rw [htext]
    exact not_closes isWord_tablesWord.2 (by decide) (by decide)

theorem loose_guardedText {tables : List (List Char)} {cs : List Cut} {tail : List Char}
    (h : cs ≠ []) : Loose (guardedText tables cs tail) := by
  obtain ⟨c, cs, rfl⟩ := List.exists_cons_of_ne_nil h
  rw [guardedText_cons]
  exact loose_open not_closes_protectors

theorem read_protectors (hand : names.tokens.lookup andWord = none)
    (hget : ∀ t ∈ names.tables, ¬ t <:+ getWord) : ∀ {ts : List Access} {rest : List Char},
    (∀ t ∈ ts, Proper names t) → readText names looks (ts.flatMap protector ++ rest) =
      guardTokens names ts ++ readText names looks rest
  | [], _, _ => rfl
  | t :: ts, rest, h => by
    rw [List.flatMap_cons, List.append_assoc, readText_protector (h t List.mem_cons_self) hget hand,
      read_protectors hand hget fun x hx => h x (List.mem_cons_of_mem t hx)]
    simp [guardTokens]

theorem replicate_append_cons (c : Token) (l : List Token) : ∀ n : ℕ,
    List.replicate n c ++ c :: l = c :: (List.replicate n c ++ l)
  | 0 => rfl
  | n + 1 => by
    rw [List.replicate_succ, List.cons_append, replicate_append_cons c l n]
    rfl

/-- A piece with its guards. -/
theorem read_piece {x y : Operand} {r : Rel} {ts : List Token} {n : ℕ} (hplain : PlainWords names)
    (hfit : (Atom.cmp x r y).Fit names looks) (hb : Before names before ts)
    (ha : After names after n) (tail : List Char) :
    readText names looks (guardedText names.tables (cutsOf before after stop (.atom (.cmp x r y)))
        tail) =
      .sign '(' :: (guardTokens names (x.looks ++ y.looks) ++ (ts ++
        (((Atom.cmp x r y).toCpp names).tokens ++ .sign ')' ::
          (List.replicate n (.sign ')') ++ readText names looks (stop ++ tail))))) := by
  obtain ⟨hx, hy, hget⟩ := hfit
  have hproper : ∀ t ∈ x.looks ++ y.looks, Proper names t := by
    intro t ht
    rcases List.mem_append.1 ht with ht | ht
    · exact (hx.2 t ht).2
    · exact (hy.2 t ht).2
  have hguards : ∀ rest, readText names looks ((x.looks ++ y.looks).flatMap protector ++ rest) =
      guardTokens names (x.looks ++ y.looks) ++ readText names looks rest := by
    intro rest
    by_cases hnil : x.looks ++ y.looks = []
    · rw [hnil]
      rfl
    · exact read_protectors (hplain andWord (by simp)) (hget hnil) hproper
  have hsegment : ∀ rest, Piece.segment ⟨before ++ x.text, r, y.text ++ after⟩ ++ rest =
      before ++ (x.text ++ ' ' :: (r.text ++ ' ' :: (y.text ++ (after ++ rest)))) := by
    simp [Piece.segment]
  rw [cutsOf, guardedText_cons, looks_cut hx.1 hy.1 hb ha, readText_open not_closes_protectors,
    hguards, readText_blank, hsegment, hb.read _ _ (Operand.not_closes hx.1),
    hx.read (loose_cons (by decide) (by decide)), readText_rel,
    hy.read (ha.loose _ (loose_cons (by decide) (by decide))), ha.read,
    readText_sign (by decide) (by decide), guardedText_nil, replicate_append_cons]
  simp [Atom.toCpp, CppAtom.tokens]

/-- What has a comparison in it has a piece. -/
theorem cutsOf_ne_nil : ∀ {e : Expr Atom} {before after stop : List Char}, ¬ Looks e →
    cutsOf before after stop e ≠ []
  | .atom (.cmp _ _ _), _, _, _, _ => List.cons_ne_nil _ _
  | .atom (.look t), _, _, _, h => absurd (by simp [Looks, Logical.Expr.atoms, Atom.isLook]) h
  | .not e, _, _, _, h => cutsOf_ne_nil (e := e) h
  | .brackets e, _, _, _, h => cutsOf_ne_nil (e := e) h
  | .join o a b, _, _, _, h => by
    rw [cutsOf]
    intro hnil
    obtain ⟨ha, hb⟩ := List.append_eq_nil_iff.1 hnil
    have hleft : Looks a := by_contra fun hn => cutsOf_ne_nil hn ha
    have hright : Looks b := by_contra fun hn => cutsOf_ne_nil hn hb
    exact h fun x hx => (List.mem_append.1 hx).elim (hleft x) (hright x)

/-- The text that becomes of an expression, in front of another text. -/
def guardedOf (names : Names) (before after stop : List Char) (e : Expr Atom) (rest : List Char) :
    List Char :=
  guardedText names.tables (cutsOf before after stop e) (tailOf before after stop e ++ rest)

theorem guardedOf_join (hord : Ordered (.join o a b)) (rest : List Char) :
    guardedOf names before after stop (.join o a b) rest =
      guardedOf names before [' '] (connectiveWord o) a
        (guardedOf names [' '] after stop b rest) := by
  unfold guardedOf
  rw [cutsOf, tailOf, guardedText_append, List.append_assoc]
  by_cases hlook : HasLook a
  · rw [cutsOf_looks (hord.1 hlook), guardedText_nil, guardedText_nil]
  · rw [tailOf_comparisons hlook, List.nil_append, List.nil_append]

theorem loose_guardedOf {rest : List Char} (hord : Ordered b) :
    Loose (guardedOf names [' '] after stop b rest) := by
  by_cases h : Looks b
  · rw [guardedOf, cutsOf_looks h, guardedText_nil, tailOf_looks h hord]
    exact loose_cons (by decide) (by decide)
  · exact loose_guardedText (cutsOf_ne_nil h)

/-- Behind the guards of its first piece an expression is read like `inner`. -/
theorem read_guarded (hplain : PlainWords names) :
    ∀ {e : Expr Atom} {before after stop : List Char} {ts : List Token} {n : ℕ},
      ¬ Looks e → Ordered e → (∀ a ∈ e.atoms, a.Fit names looks) → Before names before ts →
      After names after n → ∀ rest,
      readText names looks (guardedOf names before after stop e rest) =
        .sign '(' :: (guardTokens names (firstLooks e) ++ (ts ++ (inner names e ++
          (List.replicate n (.sign ')') ++ readText names looks (stop ++ rest)))))
  | .atom (.look _), _, _, _, _, _, h, _, _, _, _, _ =>
    absurd (by simp [Looks, Logical.Expr.atoms, Atom.isLook]) h
  | .atom (.cmp x r y), _, _, _, _, _, _, _, hfit, hb, ha, rest => by
    rw [guardedOf, tailOf, List.nil_append,
      read_piece hplain (hfit _ (List.mem_singleton_self _)) hb ha]
    simp [inner, firstLooks, Atom.looks]
  | .not e, before, after, stop, _, _, h, hord, hfit, hb, ha, rest => by
    change readText names looks
      (guardedOf names (before ++ (notWord ++ [' '])) after stop e rest) = _
    rw [read_guarded hplain (e := e) h hord.2 hfit (hb.not (hplain notWord (by simp))) ha,
      List.append_assoc]
    rfl
  | .brackets e, before, after, stop, _, _, h, hord, hfit, hb, ha, rest => by
    change readText names looks (guardedOf names (before ++ ['(']) (')' :: after) stop e rest) = _
    rw [read_guarded hplain (e := e) h hord hfit hb.open ha.close]
    simp [inner, firstLooks, List.replicate_succ]
  | .join o a b, before, after, stop, ts, n, h, hord, hfit, hb, ha, rest => by
    have hright : readText names looks (guardedOf names [' '] after stop b rest) =
        cpp.tokens (build names true b) ++
          (List.replicate n (.sign ')') ++ readText names looks (stop ++ rest)) := by
      have hfit' : ∀ x ∈ b.atoms, x.Fit names looks := fun x hx =>
        hfit x (List.mem_append_right _ hx)
      by_cases hlooks : Looks b
      · rw [guardedOf, cutsOf_looks hlooks, guardedText_nil,
          read_tail hplain hlooks hord.2.2 hfit' before_blank ha, build_looks true hlooks]
        rfl
      · rw [read_guarded hplain hlooks hord.2.2 hfit' before_blank ha,
          tokens_build true hord.2.2 hlooks]
        simp
    rw [guardedOf_join hord, read_guarded hplain (not_looks_left hord h) hord.2.1
        (fun x hx => hfit x (List.mem_append_left _ hx)) hb after_blank,
      readText_word (isWord_connective o) (hplain.connective o) (loose_guardedOf hord.2.2), hright]
    simp [inner, firstLooks]

/-- What is generated is read like `build`. -/
theorem read_generated (hplain : PlainWords names) (hord : Ordered e)
    (hfit : ∀ a ∈ e.atoms, a.Fit names looks) :
    readText names looks (guardedOf names [] [] [] e []) = cpp.tokens (build names true e) := by
  have hend : readText names looks [] = [] := by
    rw [readText]
    change lex [] (onTokenMatch names.tokens []) = []
    rw [onTokenMatch_nil]
    rfl
  by_cases hlooks : Looks e
  · rw [guardedOf, cutsOf_looks hlooks, guardedText_nil,
      read_tail hplain hlooks hord hfit before_nil after_nil, build_looks true hlooks]
    simp [hend, plain]
  · rw [read_guarded hplain hlooks hord hfit before_nil after_nil, tokens_build true hord hlooks]
    simp [hend]

end DStreamon.Conditions
