import DStreamon.Proofs.Conditions

/-!
# Conditions that follow no missing entry

What is generated is read back as the expression with guards in it, and in front of each first
comparison of a group stand the guards of its lookups.
-/

namespace DStreamon.Conditions

open Logical (Expr Connective)
open Substitution (isWord)

variable {names : Names} {looks : List Access} {e a b : Expr Atom} {rest : List Token}

/-! ## Reading atoms back -/

def Literal.Plain : Literal → Prop
  | .word w => w ∉ reserved
  | .decimal w _ => w ∉ reserved
  | .element w _ => w ∉ reserved

def Factor.Plain : Factor → Prop
  | .literal l => l.Plain
  | .look _ => True

def Operand.Plain (x : Operand) : Prop := x.first.Plain ∧ ∀ f ∈ x.more, f.2.Plain

/-- What an expression becomes. -/
def CppAtom.Plain : CppAtom → Prop
  | .get _ => True
  | .deref _ => False
  | .cmp x _ y => x.Plain ∧ y.Plain

/-- Nothing with which a literal or an operand goes on. -/
def Bare (rest : List Token) : Prop :=
  (∀ t ∈ rest.head?, t ≠ .sign '.' ∧ t ≠ .sign '[') ∧ readArith rest = none

theorem bare_rel (r : Rel) (rest : List Token) : Bare (.rel r :: rest) := ⟨by simp, rfl⟩

theorem bare_of_follows (h : cpp.Follows rest) : Bare rest := by
  cases rest with
  | nil => exact ⟨by simp, rfl⟩
  | cons t rest =>
    rcases h t rfl with rfl | ⟨o, rfl⟩
    · exact ⟨by simp [cpp], rfl⟩
    · exact ⟨by simp [cpp], rfl⟩

theorem readGet_tokens (t : Access) (rest : List Token) :
    readGet (getTokens t ++ rest) = some (t, rest) := by
  simp [getTokens, readGet]

theorem readGet_word {w : List Char} (h : w ≠ tablesWord) : readGet (.word w :: rest) = none := by
  unfold readGet
  split
  · next heq =>
    obtain ⟨rfl⟩ := Token.word.inj (List.cons.inj heq).1
    exact if_neg fun hall => h hall.1
  · rfl

theorem readFactor_tokens {f : Factor} (hf : f.Plain)
    (hrest : ∀ t ∈ rest.head?, t ≠ .sign '.' ∧ t ≠ .sign '[') :
    readFactor (f.tokens ++ rest) = some (f, rest) := by
  cases f with
  | look t =>
    simp only [Factor.tokens, List.cons_append, readFactor, readGet_tokens, Option.map_some]
  | literal l =>
    cases l with
    | word w =>
      change readFactor (.word w :: rest) = _
      rw [readFactor, if_neg hf]
      · intro v rest' h
        exact absurd rfl (hrest (.sign '.') (by simp [h])).1
      · intro v rest' h
        exact absurd rfl (hrest (.sign '[') (by simp [h])).2
    | decimal w v =>
      simp only [Factor.tokens, Literal.tokens, List.cons_append, List.nil_append, readFactor]
      exact if_neg hf
    | element w v =>
      simp only [Factor.tokens, Literal.tokens, List.cons_append, List.nil_append, readFactor]
      exact if_neg hf

theorem readArith_char (o : Arith) : readArith (.sign o.char :: rest) = some (o, rest) := by
  cases o <;> rfl

theorem arith_head {o : Arith} : ∀ t ∈ (Token.sign o.char :: rest).head?,
    t ≠ .sign '.' ∧ t ≠ .sign '[' := by
  cases o <;> simp [Arith.char]

/-- The tokens of what follows the first factor. -/
def moreTokens (fs : List (Arith × Factor)) : List Token :=
  fs.flatMap fun f => .sign f.1.char :: f.2.tokens

theorem head_moreTokens (hrest : Bare rest) : ∀ fs, ∀ t ∈ (moreTokens fs ++ rest).head?,
    t ≠ .sign '.' ∧ t ≠ .sign '['
  | [] => hrest.1
  | _ :: _ => arith_head

theorem readMore_tokens (hrest : Bare rest) : ∀ {n : ℕ} {fs : List (Arith × Factor)},
    fs.length ≤ n → (∀ f ∈ fs, f.2.Plain) → readMore n (moreTokens fs ++ rest) = (fs, rest)
  | 0, [], _, _ => rfl
  | n + 1, [], _, _ => by
    change readMore (n + 1) rest = _
    rw [readMore, hrest.2]
  | n + 1, (o, f) :: fs, hn, hfs => by
    have htext : moreTokens ((o, f) :: fs) ++ rest =
        .sign o.char :: (f.tokens ++ (moreTokens fs ++ rest)) := by
      simp [moreTokens]
    have hmore := readMore_tokens hrest (Nat.le_of_succ_le_succ hn)
      fun x hx => hfs x (List.mem_cons_of_mem _ hx)
    rw [htext, readMore, readArith_char]
    simp only [readFactor_tokens (hfs (o, f) List.mem_cons_self) (head_moreTokens hrest fs), hmore]

theorem length_le_moreTokens : ∀ fs : List (Arith × Factor), fs.length ≤ (moreTokens fs).length
  | [] => Nat.le_refl 0
  | f :: fs => by
    have := length_le_moreTokens fs
    rw [moreTokens, List.flatMap_cons, List.length_append, List.length_cons, List.length_cons]
    rw [moreTokens] at this
    omega

theorem readOperand_tokens {x : Operand} (hx : x.Plain) (hrest : Bare rest) :
    readOperand (x.tokens ++ rest) = some (x, rest) := by
  have htext : x.tokens ++ rest = x.first.tokens ++ (moreTokens x.more ++ rest) :=
    List.append_assoc _ _ _
  have hlen : x.more.length ≤ (moreTokens x.more ++ rest).length := by
    rw [List.length_append]
    exact Nat.le_add_right_of_le (length_le_moreTokens x.more)
  rw [htext, readOperand, readFactor_tokens hx.1 (head_moreTokens hrest _), Option.bind_eq_bind,
    Option.bind_some]
  simp only [readMore_tokens hrest hlen hx.2]

theorem readGet_operand {x : Operand} (hx : x.Plain) (rest : List Token) :
    readGet (x.tokens ++ rest) = none := by
  obtain ⟨f, fs⟩ := x
  have hne : ∀ {w : List Char}, w ∉ reserved → w ≠ tablesWord := fun h heq =>
    h (heq ▸ by decide)
  cases f with
  | look t => rfl
  | literal l =>
    cases l with
    | word w => exact readGet_word (hne hx.1)
    | decimal w v => exact readGet_word (hne hx.1)
    | element w v => exact readGet_word (hne hx.1)

theorem readAtom_tokens {c : CppAtom} (hc : c.Plain) (hrest : cpp.Follows rest) :
    readAtom (c.tokens ++ rest) = some (c, rest) := by
  cases c with
  | get t =>
    change readAtom (getTokens t ++ rest) = _
    rw [readAtom, readGet_tokens]
  | deref t => exact hc.elim
  | cmp x r y =>
    have htext : (CppAtom.cmp x r y).tokens ++ rest = x.tokens ++ .rel r :: (y.tokens ++ rest) := by
      simp [CppAtom.tokens]
    rw [htext, readAtom, readGet_operand hc.1]
    simp [readOperand_tokens hc.1 (bare_rel r _), readOperand_tokens hc.2 (bare_of_follows hrest)]

/-- No literal is taken for a `not`. -/
theorem head_operand {x : Operand} (hx : x.Plain) (rest : List Token) :
    ∃ t ts, x.tokens ++ rest = t :: ts ∧ t ≠ .word notWord ∧ t ≠ .sign '(' := by
  obtain ⟨f, fs⟩ := x
  have hne : ∀ {w : List Char}, w ∉ reserved → Token.word w ≠ .word notWord := fun h heq =>
    h (Token.word.inj heq ▸ by decide)
  cases f with
  | look t => exact ⟨_, _, rfl, by simp, by simp⟩
  | literal l =>
    cases l with
    | word w => exact ⟨_, _, rfl, hne hx.1, by simp⟩
    | decimal w v => exact ⟨_, _, rfl, hne hx.1, by simp⟩
    | element w v => exact ⟨_, _, rfl, hne hx.1, by simp⟩

theorem lawful_cpp : cpp.Lawful CppAtom.Plain where
  opening := by simp [cpp]
  closing := by simp [cpp]
  sign := by simp [cpp, connectiveWord, andWord, orWord]
  head
    | .get _, _ => ⟨_, _, rfl, by simp [cpp, tablesWord, notWord], by simp [cpp]⟩
    | .cmp _ _ _, h => head_operand h.1 _
  read := fun _ _ => readAtom_tokens

/-! ## Values -/

section Values

variable {V : Type} {m : Meaning V} {get : Access → Option V} {v : Access → V} {ts : List Access}
  {c : Expr CppAtom}

theorem Factor.eval_map {f : Factor} (h : ∀ t ∈ f.looks, get (names.access t) = some (v t)) :
    (f.map names.access).eval m get = some (f.value m v) := by
  cases f with
  | literal l => rfl
  | look t => exact h t (List.mem_singleton_self t)

theorem mapM_eval : ∀ {fs : List (Arith × Factor)},
    (∀ f ∈ fs, ∀ t ∈ f.2.looks, get (names.access t) = some (v t)) →
    ((fs.map fun f => (f.1, f.2.map names.access)).mapM fun f =>
      (f.2.eval m get).map fun b => (f.1, b)) = some (fs.map fun f => (f.1, f.2.value m v))
  | [], _ => rfl
  | f :: fs, h => by
    rw [List.map_cons, List.mapM_cons, Factor.eval_map (h f List.mem_cons_self),
      mapM_eval fun x hx => h x (List.mem_cons_of_mem f hx)]
    rfl

theorem Operand.eval_map {x : Operand} (h : ∀ t ∈ x.looks, get (names.access t) = some (v t)) :
    (x.map names.access).eval m get = some (x.value m v) := by
  have hfirst := Factor.eval_map (m := m) fun t ht => h t (List.mem_append_left _ ht)
  have hmore := mapM_eval (m := m) fun f hf t ht =>
    h t (List.mem_append_right _ (List.mem_flatMap.2 ⟨f, hf, ht⟩))
  simp only [Operand.eval, Operand.map, hfirst, hmore, Option.bind_eq_bind, Option.bind_some]
  rfl

/-- Where every entry is there, an atom has the value that is meant. -/
theorem eval_toCpp {a : Atom} (h : ∀ t ∈ a.looks, get (names.access t) = some (v t)) :
    CppAtom.eval m get (a.toCpp names) = some (a.holds m v) := by
  cases a with
  | look t =>
    have ht := h t (List.mem_singleton_self t)
    simp [Atom.toCpp, CppAtom.eval, Atom.holds, ht]
  | cmp x r y =>
    have hx := Operand.eval_map (m := m) fun t ht => h t (List.mem_append_left _ ht)
    have hy := Operand.eval_map (m := m) fun t ht => h t (List.mem_append_right _ ht)
    simp [Atom.toCpp, CppAtom.eval, Atom.holds, hx, hy]

/-- The entry is there. -/
def Present (names : Names) (get : Access → Option V) (t : Access) : Prop :=
  (get (names.access t)).isSome = true

theorem isSome_toCpp {a : Atom} (h : ∀ t ∈ a.looks, Present names get t) :
    (CppAtom.eval m get (a.toCpp names)).isSome := by
  have hget : ∀ t ∈ a.looks, get (names.access t) =
      some ((get (names.access t)).getD (m.literal (.word []))) := fun t ht => by
    obtain ⟨x, hx⟩ := Option.isSome_iff_exists.1 (h t ht)
    rw [hx]
    rfl
  rw [eval_toCpp hget]
  rfl

/-! ## Guards -/

theorem eval_guard_cons {t : Access} : (guard names (t :: ts) c).eval (CppAtom.eval m get) =
    if (get (names.access t)).isSome = true then (guard names ts c).eval (CppAtom.eval m get)
    else some false := by
  change (Expr.join .and (.atom (.get (names.access t))) (guard names ts c)).eval _ = _
  rw [Expr.eval, Expr.eval, CppAtom.eval, Option.bind_some]
  cases (get (names.access t)).isSome <;> rfl

theorem eval_guard (h : ∀ t ∈ ts, Present names get t) :
    (guard names ts c).eval (CppAtom.eval m get) = c.eval (CppAtom.eval m get) := by
  induction ts with
  | nil => rfl
  | cons t ts ih =>
    have ht : (get (names.access t)).isSome = true := h t List.mem_cons_self
    rw [eval_guard_cons, if_pos ht, ih fun x hx => h x (List.mem_cons_of_mem t hx)]

/-- Behind guards an expression only has to have a value where the entries are there. -/
theorem isSome_guard (h : (∀ t ∈ ts, Present names get t) → (c.eval (CppAtom.eval m get)).isSome) :
    ((guard names ts c).eval (CppAtom.eval m get)).isSome := by
  induction ts with
  | nil => exact h (by simp)
  | cons t ts ih =>
    rw [eval_guard_cons]
    split_ifs with ht
    · exact ih fun hts => h (List.forall_mem_cons.2 ⟨ht, hts⟩)
    · rfl

theorem eval_inFront (h : ∀ t ∈ ts, Present names get t) :
    (inFront names ts c).eval (CppAtom.eval m get) = c.eval (CppAtom.eval m get) := by
  unfold inFront
  split
  · rw [Expr.eval, eval_guard h, Expr.eval]
  · exact eval_guard h

/-- The guards are those of the first alternative; the second has to have a value without them. -/
theorem isSome_inFront
    (h : (∀ t ∈ ts, Present names get t) → (c.eval (CppAtom.eval m get)).isSome)
    (hright : ∀ a b, c = .join .or a b → (b.eval (CppAtom.eval m get)).isSome) :
    ((inFront names ts c).eval (CppAtom.eval m get)).isSome := by
  unfold inFront
  split
  · next a b =>
    refine Expr.isSome_eval_join (isSome_guard fun hts => ?_) (hright a b rfl)
    have := h hts
    rw [Expr.eval] at this
    exact Option.isSome_of_isSome_bind this
  · exact isSome_guard h

/-- The lookups of the first atom are lookups. -/
theorem firstLooks_subset : ∀ {e : Expr Atom}, ∀ t ∈ firstLooks e, ∃ a ∈ e.atoms, t ∈ a.looks
  | .atom a, t, ht => ⟨a, List.mem_singleton_self a, ht⟩
  | .not e, t, ht => firstLooks_subset (e := e) t ht
  | .brackets e, t, ht => firstLooks_subset (e := e) t ht
  | .join _ a _, t, ht => by
    obtain ⟨x, hx, hmem⟩ := firstLooks_subset (e := a) t ht
    exact ⟨x, List.mem_append_left _ hx, hmem⟩

theorem looks_of_single : ∀ {e : Expr Atom}, e.atoms.length = 1 → ∀ a ∈ e.atoms,
    a.looks = firstLooks e
  | .atom a, _, x, hx => by rw [List.mem_singleton.1 hx, firstLooks]
  | .not e, h, x, hx => looks_of_single (e := e) h x hx
  | .brackets e, h, x, hx => looks_of_single (e := e) h x hx
  | .join _ a b, h, _, _ => by
    have ha := List.length_pos_iff.2 a.atoms_ne_nil
    have hb := List.length_pos_iff.2 b.atoms_ne_nil
    rw [Expr.atoms, List.length_append] at h
    omega

theorem isSome_plain (h : ∀ a ∈ e.atoms, (CppAtom.eval m get (a.toCpp names)).isSome) :
    ((plain names e).eval (CppAtom.eval m get)).isSome := by
  have hval : ∀ a ∈ e.atoms, CppAtom.eval m get (a.toCpp names) =
      some ((CppAtom.eval m get (a.toCpp names)).getD false) := fun a ha => by
    obtain ⟨x, hx⟩ := Option.isSome_iff_exists.1 (h a ha)
    rw [hx]
    rfl
  rw [plain, Expr.eval_map, Expr.eval_eq_holds e hval]
  rfl

theorem isSome_of_looks (h : Looks e) : ((plain names e).eval (CppAtom.eval m get)).isSome :=
  isSome_plain fun a ha => by
    cases a with
    | look t => rfl
    | cmp x r y => exact absurd (h _ ha) Bool.false_ne_true

theorem isSome_of_single (h : e.atoms.length = 1)
    (hfirst : ∀ t ∈ firstLooks e, Present names get t) :
    ((plain names e).eval (CppAtom.eval m get)).isSome :=
  isSome_plain fun a ha => isSome_toCpp fun t ht => hfirst t (looks_of_single h a ha ▸ ht)

/-- The guards in front of an expression, or none and the entries there. -/
theorem present_of_guards {g : Bool} (hg : g = false → ∀ t ∈ ts, Present names get t)
    (h : ∀ t ∈ (if g then ts else []), Present names get t) : ∀ t ∈ ts, Present names get t := by
  cases g with
  | false => exact hg rfl
  | true => exact h

/-- What is generated has a value if the entries of an unguarded first comparison are there, and so
has each later alternative. -/
theorem isSome_build : ∀ e : Expr Atom, Ordered e →
    (∀ g, (g = false → ∀ t ∈ firstLooks e, Present names get t) →
      ((build names g e).eval (CppAtom.eval m get)).isSome) ∧
    ∀ g o a b, build names g e = .join o a b → (b.eval (CppAtom.eval m get)).isSome
  | .atom (.look t), _ => ⟨fun _ _ => rfl, fun _ _ _ _ h => by cases h⟩
  | .atom (.cmp x r y), _ => by
    refine ⟨fun g hg => ?_, fun _ _ _ _ h => by cases h⟩
    rw [build, Expr.eval]
    refine isSome_inFront (fun h => ?_) fun _ _ h => by cases h
    exact isSome_toCpp (a := .cmp x r y) (present_of_guards hg h)
  | .not e, hord => by
    by_cases hlooks : Looks e
    · refine ⟨fun g _ => ?_, fun g o a b h => ?_⟩
      · rw [build_looks (e := .not e) g hlooks]
        exact isSome_of_looks (e := .not e) hlooks
      · rw [build_looks (e := .not e) g hlooks] at h
        cases h
    · refine ⟨fun g hg => ?_, fun g o a b h => ?_⟩
      · rw [build, if_neg hlooks, Expr.eval]
        refine isSome_inFront (fun h => ?_) fun _ _ h => by cases h
        exact isSome_of_single (e := .not e) (hord.1.resolve_left hlooks) (present_of_guards hg h)
      · rw [build, if_neg hlooks] at h
        cases h
  | .brackets e, hord => by
    obtain ⟨hsome, hright⟩ := isSome_build e hord
    by_cases hlooks : Looks e
    · refine ⟨fun g _ => ?_, fun g o a b h => ?_⟩
      · rw [build_looks (e := .brackets e) g hlooks]
        exact isSome_of_looks (e := .brackets e) hlooks
      · rw [build_looks (e := .brackets e) g hlooks] at h
        cases h
    · by_cases hsingle : e.atoms.length = 1
      · refine ⟨fun g hg => ?_, fun g o a b h => ?_⟩
        · rw [build, if_neg hlooks, if_pos hsingle, Expr.eval]
          refine isSome_inFront (fun h => ?_) fun _ _ h => by cases h
          exact isSome_of_single (e := .brackets e) hsingle (present_of_guards hg h)
        · rw [build, if_neg hlooks, if_pos hsingle] at h
          cases h
      · refine ⟨fun g hg => ?_, fun g o a b h => ?_⟩
        · rw [build, if_neg hlooks, if_neg hsingle, Expr.eval]
          exact isSome_inFront (fun h => hsome false fun _ => present_of_guards hg h)
            fun a b => hright false .or a b
        · rw [build, if_neg hlooks, if_neg hsingle] at h
          cases h
  | .join o a b, hord => by
    have hb := (isSome_build b hord.2.2).1 true fun h => by cases h
    refine ⟨fun g hg => Expr.isSome_eval_join ((isSome_build a hord.2.1).1 g hg) hb, ?_⟩
    rintro g o' a' b' h
    obtain ⟨rfl, rfl, rfl⟩ := Expr.join.inj h
    exact hb

/-- Where all entries are there, what is generated has the value of the expression. -/
theorem eval_build {h : Atom → Bool} (g : Bool) : ∀ e : Expr Atom,
    (∀ a ∈ e.atoms, CppAtom.eval m get (a.toCpp names) = some (h a)) →
    (∀ a ∈ e.atoms, ∀ t ∈ a.looks, Present names get t) →
    (build names g e).eval (CppAtom.eval m get) = some (e.holds h) := by
  have hplain : ∀ e : Expr Atom,
      (∀ a ∈ e.atoms, CppAtom.eval m get (a.toCpp names) = some (h a)) →
      (plain names e).eval (CppAtom.eval m get) = some (e.holds h) := fun e he => by
    rw [plain, Expr.eval_map, Expr.eval_eq_holds e he]
  have hguards : ∀ (g : Bool) (e : Expr Atom),
      (∀ a ∈ e.atoms, ∀ t ∈ a.looks, Present names get t) →
      ∀ t ∈ (if g then firstLooks e else []), Present names get t := fun g e he t ht => by
    cases g with
    | false => cases ht
    | true =>
      obtain ⟨a, ha, hmem⟩ := firstLooks_subset t ht
      exact he a ha t hmem
  intro e hval hpresent
  induction e generalizing g with
  | atom a =>
    cases a with
    | look t => exact hval _ (List.mem_singleton_self _)
    | cmp x r y =>
      rw [build, Expr.eval]
      exact (eval_inFront (hguards g (.atom (.cmp x r y)) hpresent)).trans
        (hval _ (List.mem_singleton_self _))
  | not e ih =>
    by_cases hlooks : Looks e
    · rw [build_looks (e := .not e) g hlooks]
      exact hplain (.not e) hval
    · rw [build, if_neg hlooks, Expr.eval]
      exact (eval_inFront (hguards g e hpresent)).trans (hplain (.not e) hval)
  | brackets e ih =>
    by_cases hlooks : Looks e
    · rw [build_looks (e := .brackets e) g hlooks]
      exact hplain (.brackets e) hval
    · by_cases hsingle : e.atoms.length = 1
      · rw [build, if_neg hlooks, if_pos hsingle, Expr.eval]
        exact (eval_inFront (hguards g e hpresent)).trans (hplain (.brackets e) hval)
      · rw [build, if_neg hlooks, if_neg hsingle, Expr.eval]
        exact (eval_inFront (hguards g e hpresent)).trans (ih false hval hpresent)
  | join o a b iha ihb =>
    exact Expr.eval_join (iha g (fun x hx => hval x (List.mem_append_left _ hx))
      fun x hx => hpresent x (List.mem_append_left _ hx))
      fun _ => ihb true (fun x hx => hval x (List.mem_append_right _ hx))
        fun x hx => hpresent x (List.mem_append_right _ hx)

end Values

/-! ## The condition is well written -/

theorem wellWritten_guard {c : Expr CppAtom} {closed : CppAtom → Prop} (hc : c.WellWritten closed)
    (hlevel : c.level ≤ 1) : ∀ ts : List Access,
    (guard names ts c).WellWritten closed ∧ (guard names ts c).level ≤ 1
  | [] => ⟨hc, hlevel⟩
  | t :: ts => by
    obtain ⟨hguard, hle⟩ := wellWritten_guard hc hlevel ts
    exact ⟨⟨Nat.one_pos, hle, trivial, hguard⟩, Nat.le_refl 1⟩

theorem wellWritten_inFront {c : Expr CppAtom} {closed : CppAtom → Prop}
    (hc : c.WellWritten closed) (ts : List Access) : (inFront names ts c).WellWritten closed := by
  unfold inFront
  split
  · next a b =>
    obtain ⟨hla, hlb, ha, hb⟩ := hc
    have hguard : (guard names ts a).WellWritten closed ∧ (guard names ts a).level ≤ 1 :=
      wellWritten_guard ha (Nat.le_of_lt_succ hla) ts
    exact ⟨Nat.lt_succ_of_le hguard.2, hlb, hguard.1, hb⟩
  · next hor =>
    refine (wellWritten_guard hc ?_ ts).1
    match c, hor with
    | .atom _, _ => exact Nat.zero_le 1
    | .not _, _ => exact Nat.zero_le 1
    | .brackets _, _ => exact Nat.zero_le 1
    | .join .and _ _, _ => exact Nat.le_refl 1
    | .join .or a b, hor => exact absurd rfl (hor a b)

theorem level_build : ∀ {e : Expr Atom} (g : Bool), (build names g e).level = e.level
  | .atom (.look _), _ => rfl
  | .atom (.cmp _ _ _), _ => rfl
  | .not e, _ => by
    rw [build]
    split_ifs <;> rfl
  | .brackets e, _ => by
    rw [build]
    split_ifs <;> rfl
  | .join _ _ _, _ => rfl

theorem wellWritten_plain (h : e.WellWritten fun a => a.isLook) :
    (plain names e).WellWritten fun c => cpp.isClosed c := by
  refine Expr.wellWritten_map _ ?_
  have hclosed : (fun a : Atom => (cpp.isClosed (a.toCpp names) : Prop)) = fun a => a.isLook := by
    funext a
    cases a <;> rfl
  rw [hclosed]
  exact h

theorem wellWritten_build : ∀ {e : Expr Atom} (g : Bool), (e.WellWritten fun a => a.isLook) →
    (build names g e).WellWritten fun c => cpp.isClosed c
  | .atom (.look _), _, _ => trivial
  | .atom (.cmp _ _ _), _, _ => wellWritten_inFront (c := .atom _) trivial _
  | .not e, _, h => by
    have hplain : (plain names (.not e)).WellWritten _ := wellWritten_plain h
    rw [build]
    split_ifs
    · exact hplain
    all_goals exact wellWritten_inFront hplain _
  | .brackets e, _, h => by
    have hplain : (plain names (.brackets e)).WellWritten _ := wellWritten_plain h
    have hbuild := wellWritten_build (e := e) false h
    rw [build]
    split_ifs
    · exact hplain
    all_goals first | exact wellWritten_inFront hplain _ | exact wellWritten_inFront hbuild _
  | .join o a b, g, ⟨hla, hlb, ha, hb⟩ =>
    ⟨(level_build g).trans_lt hla, (level_build true).trans_le hlb, wellWritten_build g ha,
      wellWritten_build true hb⟩

theorem plain_operand {x : Operand} (h : x.Valid names) : (x.map names.access).Plain := by
  have hfactor : ∀ f : Factor, f.Valid names → (f.map names.access).Plain := by
    intro f hf
    cases f with
    | look t => trivial
    | literal l =>
      cases l with
      | word w => exact hf.2.1
      | decimal w v => exact hf.1.2.1
      | element w v => exact hf.1.2.1
  refine ⟨hfactor _ h.1, fun f hf => ?_⟩
  obtain ⟨g, hg, rfl⟩ := List.mem_map.1 hf
  exact hfactor _ (h.2 g hg)

theorem plain_toCpp {a : Atom} (h : a.Valid names) : (a.toCpp names).Plain := by
  cases a with
  | look t => trivial
  | cmp x r y => exact ⟨plain_operand h.1, plain_operand h.2⟩

theorem plain_guard {c : Expr CppAtom} (h : ∀ x ∈ c.atoms, x.Plain) : ∀ ts : List Access,
    ∀ x ∈ (guard names ts c).atoms, x.Plain
  | [], x, hx => h x hx
  | _ :: ts, x, hx => by
    rcases List.mem_cons.1 hx with rfl | hx
    · trivial
    · exact plain_guard h ts x hx

theorem plain_inFront {c : Expr CppAtom} (h : ∀ x ∈ c.atoms, x.Plain) (ts : List Access) :
    ∀ x ∈ (inFront names ts c).atoms, x.Plain := by
  unfold inFront
  split
  · next a b =>
    intro x hx
    rcases List.mem_append.1 hx with hx | hx
    · exact plain_guard (fun y hy => h y (List.mem_append_left _ hy)) ts x hx
    · exact h x (List.mem_append_right _ hx)
  · exact plain_guard h ts

theorem plain_plain (h : ∀ a ∈ e.atoms, a.Valid names) : ∀ x ∈ (plain names e).atoms, x.Plain := by
  intro x hx
  obtain ⟨a, ha, rfl⟩ := Expr.mem_atoms_map hx
  exact plain_toCpp (h a ha)

theorem plain_build : ∀ {e : Expr Atom} (g : Bool), (∀ a ∈ e.atoms, a.Valid names) →
    ∀ x ∈ (build names g e).atoms, x.Plain
  | .atom (.look t), _, _, x, hx => by
    obtain rfl := List.mem_singleton.1 hx
    trivial
  | .atom (.cmp x r y), g, h, z, hz => by
    have hplain := plain_plain (e := .atom (.cmp x r y)) h
    exact plain_inFront hplain _ z hz
  | .not e, g, h, x, hx => by
    have hplain := plain_plain (e := .not e) h
    rw [build] at hx
    split_ifs at hx
    · exact hplain x hx
    all_goals exact plain_inFront hplain _ x hx
  | .brackets e, g, h, x, hx => by
    have hplain := plain_plain (e := .brackets e) h
    have hbuild := plain_build (e := e) false h
    rw [build] at hx
    split_ifs at hx
    · exact hplain x hx
    all_goals first | exact plain_inFront hplain _ x hx | exact plain_inFront hbuild _ x hx
  | .join o a b, g, h, x, hx => by
    rcases List.mem_append.1 hx with hx | hx
    · exact plain_build g (fun y hy => h y (List.mem_append_left _ hy)) x hx
    · exact plain_build true (fun y hy => h y (List.mem_append_right _ hy)) x hx

/-! ## The condition that is generated -/

theorem Atom.Valid.access {a : Atom} (h : a.Valid names) : ∀ t ∈ a.looks, ValidAccess names t := by
  have hfactor : ∀ f : Factor, f.Valid names → ∀ t ∈ f.looks, ValidAccess names t := by
    intro f hf t ht
    cases f with
    | literal l => exact absurd ht List.not_mem_nil
    | look u =>
      obtain rfl := List.mem_singleton.1 ht
      exact hf
  have hoperand : ∀ x : Operand, x.Valid names → ∀ t ∈ x.looks, ValidAccess names t := by
    intro x hx t ht
    rcases List.mem_append.1 ht with ht | ht
    · exact hfactor _ hx.1 t ht
    · obtain ⟨f, hf, ht⟩ := List.mem_flatMap.1 ht
      exact hfactor _ (hx.2 f hf) t ht
  intro t ht
  cases a with
  | look u =>
    obtain rfl := List.mem_singleton.1 ht
    exact h
  | cmp x r y =>
    rcases List.mem_append.1 ht with ht | ht
    · exact hoperand x h.1 t ht
    · exact hoperand y h.2 t ht

theorem mem_compared {t : Access} :
    t ∈ compared e ↔ ∃ a ∈ e.atoms, a.isLook = false ∧ t ∈ a.looks := by
  simp only [compared, List.mem_flatMap]
  refine exists_congr fun a => and_congr_right fun _ => ?_
  cases a.isLook <;> simp

theorem Fits.fit (hfits : Fits names e) (h : Accepted names e) :
    ∀ a ∈ e.atoms, a.Fit names (compared e) := by
  intro a ha
  have hproper : ∀ t ∈ a.looks, Proper names t := fun t ht =>
    ⟨(h.valid a ha).access t ht, hfits.plainTables a ha t ht, fun w hw =>
      hfits.plainWords w (by simp only [List.mem_cons, List.not_mem_nil, or_false] at hw ⊢; tauto)⟩
  cases a with
  | look t =>
    refine ⟨fun hmem => ?_, hproper t (List.mem_singleton_self t)⟩
    obtain ⟨b, hb, hcmp, hmem⟩ := mem_compared.1 hmem
    exact hfits.apart _ ha rfl b hb hcmp t (List.mem_singleton_self t) hmem
  | cmp x r y =>
    obtain ⟨hx, hy⟩ := h.valid _ ha
    have hmem : ∀ t ∈ (Atom.cmp x r y).looks, t ∈ compared e := fun t ht =>
      mem_compared.2 ⟨_, ha, rfl, ht⟩
    exact ⟨⟨hx, fun t ht => ⟨hmem t (List.mem_append_left _ ht),
        hproper t (List.mem_append_left _ ht)⟩⟩,
      ⟨hy, fun t ht => ⟨hmem t (List.mem_append_right _ ht),
        hproper t (List.mem_append_right _ ht)⟩⟩,
      fun hne => hfits.plainGet ⟨_, ha, rfl, hne⟩⟩

/-- What is generated is the expression with guards in it. -/
theorem readCpp_generate (h : Accepted names e) (hfits : Fits names e) :
    readCpp (generate names (text e)) = some (build names true e) := by
  have hplain : PlainWords names := hfits.plainWords
  have hnot : names.tokens.lookup notWord = none := hplain notWord (by simp)
  have htext : rawText (cutsOf [] [] [] e) (tailOf [] [] [] e) = text e := by
    rw [rawText_cutsOf hfits.ordered]
    simp
  have hlaid : Laid names.tables (cutsOf [] [] [] e) (tailOf [] [] [] e) := by
    have hquiet : Laid names.tables [] [] := (by decide : Quiet [])
    have := laid_cutsOf hnot hfits.ordered h.valid hfits.whole before_nil after_nil
      (.inl ⟨rfl, rfl⟩) (fun _ => rfl) hquiet
    rwa [List.append_nil, List.append_nil] at this
  have hdistinct : (cutsOf [] [] [] e).Pairwise fun c d => ¬ c.piece.Alike d.piece := by
    have := hfits.distinct
    rwa [← piece_cutsOf, List.pairwise_map] at this
  have hgenerated : generate names (text e) = replaceTokens names.tokens
      ((tabRegex names.tables).sub (onTableMatch (compared e))
        (guardedOf names [] [] [] e [])) := by
    rw [generate, ← htext, protect_rawText hlaid hdistinct,
      looks_cutsOf hnot h.valid before_nil after_nil, guardedOf, List.append_nil]
  have hread : cpp.readAll (readText names (compared e) (guardedOf names [] [] [] e [])) =
      some (build names true e) := by
    rw [read_generated hplain hfits.ordered (hfits.fit h)]
    exact Logical.Syntax.readAll_tokens lawful_cpp (plain_build true h.valid)
      (wellWritten_build true h.written)
  rw [readCpp, hgenerated]
  exact hread

theorem neverMissing_of_fits (h : Accepted names e) (hfits : Fits names e) :
    NeverMissing names e := by
  refine ⟨build names true e, readCpp_generate h hfits, fun V m get => ⟨?_, fun v hv => ?_⟩⟩
  · exact (isSome_build e hfits.ordered).1 true fun hfalse => nomatch hfalse
  · refine eval_build true e (fun a ha => eval_toCpp (hv a ha)) fun a ha t ht => ?_
    rw [Present, hv a ha t ht]
    rfl

/-! ## Two tables -/

def twoTables : Names where
  tables := [['T'], ['U']]
  tokens := [(['k'], 3)]
  tableWord := by decide
  tokenWord := by decide

/-- `T(k) > 1` -/
def overOne : Expr Atom := .atom (.cmp ⟨.look (['T'], ['k']), []⟩ .gt ⟨.literal (.word ['1']), []⟩)

/-- `2 < T(k)` -/
def underTwo : Expr Atom := .atom (.cmp ⟨.literal (.word ['2']), []⟩ .lt ⟨.look (['T'], ['k']), []⟩)

/-- `U(k)` -/
def inU : Expr Atom := .atom (.look (['U'], ['k']))

/-- `(T(k) > 1 or 2 < T(k)) and not U(k)` -/
def eitherAndNot : Expr Atom :=
  .join .and (.brackets (.join .or overOne underTwo)) (.not inU)

theorem neverMissing_eitherAndNot : NeverMissing twoTables eitherAndNot := by
  refine neverMissing_of_fits (by decide +kernel) ⟨?_, ?_, ?_, ?_, ?_, ?_, ?_⟩
  all_goals decide +kernel

/-- In `U(k) or T(k) > 1` the guards of both lookups belong to the first alternative. -/
theorem not_neverMissing : ¬ ∀ names e, Accepted names e → NeverMissing names e := by
  intro h
  let m : Meaning Unit := ⟨fun _ => (), fun a _ => a, fun _ _ _ => true, fun _ => true⟩
  obtain ⟨c, hc, hall⟩ := h twoTables (.join .or inU overOne) (by decide +kernel)
  have hnone : ((readCpp (generate twoTables (text (.join .or inU overOne)))).bind fun c =>
      c.eval (CppAtom.eval m fun _ => none)) = none := by
    decide +kernel
  rw [hc, Option.bind_some] at hnone
  have hsome := (hall Unit m fun _ => none).1
  rw [hnone] at hsome
  cases hsome

end DStreamon.Conditions
