import Mathlib.Data.List.Basic
import Mathlib.Tactic.Common

/-!
# Logical expressions

Atoms under `not`, `and`, `or` and brackets, evaluated from left to right and only as far as it
takes.  A syntax says how they are written as tokens; what is written as the precedence asks is read
back by recursive descent.
-/

namespace Logical

inductive Connective
  | and
  | or
deriving DecidableEq

namespace Connective

/-- The value of the left side with which the right side is not evaluated. -/
def stops : Connective → Bool
  | and => false
  | or => true

def apply : Connective → Bool → Bool → Bool
  | and, x, y => x && y
  | or, x, y => x || y

/-- `and` binds more than `or`. -/
def level : Connective → ℕ
  | and => 1
  | or => 2

end Connective

inductive Expr (α : Type*)
  | atom (a : α)
  | not (e : Expr α)
  | brackets (e : Expr α)
  | join (o : Connective) (a b : Expr α)
deriving DecidableEq

namespace Expr

variable {α β : Type*}

/-- The value, where an atom may have none. -/
def eval (f : α → Option Bool) : Expr α → Option Bool
  | .atom a => f a
  | .not e => (eval f e).map fun x => !x
  | .brackets e => eval f e
  | .join o a b => (eval f a).bind fun x => if x = o.stops then some x else eval f b

/-- The value, where every atom has one. -/
def holds (f : α → Bool) : Expr α → Bool
  | .atom a => f a
  | .not e => !holds f e
  | .brackets e => holds f e
  | .join o a b => o.apply (holds f a) (holds f b)

def map (f : α → β) : Expr α → Expr β
  | .atom a => .atom (f a)
  | .not e => .not (map f e)
  | .brackets e => .brackets (map f e)
  | .join o a b => .join o (map f a) (map f b)

/-- The atoms from left to right. -/
def atoms : Expr α → List α
  | .atom a => [a]
  | .not e => atoms e
  | .brackets e => atoms e
  | .join _ a b => atoms a ++ atoms b

/-- How loosely it is put together, from 0 for a unit. -/
def level : Expr α → ℕ
  | .join o _ _ => o.level
  | _ => 0

/-- What `not` may be written before: a unit, and of the atoms only those that are `closed`. -/
def Unit (closed : α → Prop) : Expr α → Prop
  | .atom a => closed a
  | .join _ _ _ => False
  | _ => True

/-- No part needs brackets that it has not. -/
def WellWritten (closed : α → Prop) : Expr α → Prop
  | .atom _ => True
  | .not e => e.Unit closed ∧ WellWritten closed e
  | .brackets e => WellWritten closed e
  | .join o a b =>
    a.level < o.level ∧ b.level ≤ o.level ∧ WellWritten closed a ∧ WellWritten closed b

instance decidableUnit (closed : α → Prop) [DecidablePred closed] :
    ∀ e : Expr α, Decidable (e.Unit closed)
  | .atom a => inferInstanceAs (Decidable (closed a))
  | .not _ => isTrue trivial
  | .brackets _ => isTrue trivial
  | .join _ _ _ => isFalse id

instance decidableWellWritten (closed : α → Prop) [DecidablePred closed] :
    ∀ e : Expr α, Decidable (e.WellWritten closed)
  | .atom _ => isTrue trivial
  | .not e => @instDecidableAnd _ _ _ (decidableWellWritten closed e)
  | .brackets e => decidableWellWritten closed e
  | .join _ a b =>
    @instDecidableAnd _ _ _ (@instDecidableAnd _ _ _
      (@instDecidableAnd _ _ (decidableWellWritten closed a) (decidableWellWritten closed b)))

variable {f : α → Option Bool} {h : α → Bool} {e a b : Expr α} {o : Connective}

theorem atoms_ne_nil : ∀ e : Expr α, e.atoms ≠ []
  | .atom _ => List.cons_ne_nil _ _
  | .not e => atoms_ne_nil e
  | .brackets e => atoms_ne_nil e
  | .join _ a _ => fun h => atoms_ne_nil a (List.append_eq_nil_iff.1 h).1

theorem level_of_unit {closed : α → Prop} (h : e.Unit closed) : e.level = 0 := by
  cases e with
  | join o a b => exact h.elim
  | _ => rfl

theorem level_le (e : Expr α) : e.level ≤ 2 := by
  rcases e with _ | _ | _ | ⟨_ | _, _, _⟩ <;> simp [level, Connective.level]

theorem eval_join {x y : Bool} (ha : a.eval f = some x) (hb : x ≠ o.stops → b.eval f = some y) :
    (Expr.join o a b).eval f = some (o.apply x y) := by
  rw [eval, ha, Option.bind_some]
  split_ifs with h
  · rw [h]
    cases o <;> rfl
  · rw [hb h]
    cases o <;> cases x <;> first | rfl | exact absurd rfl h

theorem eval_eq_holds (e : Expr α) (hf : ∀ a ∈ e.atoms, f a = some (h a)) :
    e.eval f = some (e.holds h) := by
  induction e with
  | atom a => exact hf a (List.mem_singleton_self a)
  | not e ih => rw [eval, ih hf, holds, Option.map_some]
  | brackets e ih => exact ih hf
  | join o a b iha ihb =>
    exact eval_join (iha fun x hx => hf x (List.mem_append_left _ hx))
      fun _ => ihb fun x hx => hf x (List.mem_append_right _ hx)

theorem eval_map (g : α → β) (f : β → Option Bool) : ∀ e : Expr α,
    (e.map g).eval f = e.eval fun a => f (g a)
  | .atom _ => rfl
  | .not e => by rw [map, eval, eval, eval_map g f e]
  | .brackets e => eval_map g f e
  | .join o a b => by rw [map, eval, eval, eval_map g f a, eval_map g f b]

theorem level_map (g : α → β) (e : Expr α) : (e.map g).level = e.level := by
  cases e <;> rfl

theorem wellWritten_map {closed : β → Prop} (g : α → β) : ∀ {e : Expr α},
    (e.WellWritten fun a => closed (g a)) → (e.map g).WellWritten closed
  | .atom _, _ => trivial
  | .not e, ⟨hunit, he⟩ => by
    refine ⟨?_, wellWritten_map g he⟩
    cases e <;> exact hunit
  | .brackets e, he => wellWritten_map g (e := e) he
  | .join o a b, ⟨hla, hlb, ha, hb⟩ => by
    refine ⟨?_, ?_, wellWritten_map g ha, wellWritten_map g hb⟩
    · rwa [level_map]
    · rwa [level_map]

theorem mem_atoms_map {g : α → β} {b : β} : ∀ {e : Expr α}, b ∈ (e.map g).atoms →
    ∃ a ∈ e.atoms, g a = b
  | .atom a, h => ⟨a, List.mem_singleton_self a, (List.mem_singleton.1 h).symm⟩
  | .not e, h => mem_atoms_map (e := e) h
  | .brackets e, h => mem_atoms_map (e := e) h
  | .join _ a c, h => by
    rcases List.mem_append.1 h with h | h
    · obtain ⟨x, hx, rfl⟩ := mem_atoms_map h
      exact ⟨x, List.mem_append_left _ hx, rfl⟩
    · obtain ⟨x, hx, rfl⟩ := mem_atoms_map h
      exact ⟨x, List.mem_append_right _ hx, rfl⟩

theorem isSome_eval_join (ha : (a.eval f).isSome) (hb : (b.eval f).isSome) :
    ((Expr.join o a b).eval f).isSome := by
  obtain ⟨x, hx⟩ := Option.isSome_iff_exists.1 ha
  obtain ⟨y, hy⟩ := Option.isSome_iff_exists.1 hb
  rw [eval_join hx fun _ => hy]
  rfl

end Expr

/-! ## Reading and writing -/

/-- The tokens of expressions. -/
structure Syntax (α τ : Type*) where
  opening : τ
  closing : τ
  notSign : τ
  sign : Connective → τ
  write : α → List τ
  read : List τ → Option (α × List τ)
  isClosed : α → Bool

namespace Syntax

variable {α τ : Type*} (S : Syntax α τ)

def tokens : Expr α → List τ
  | .atom a => S.write a
  | .not e => S.notSign :: tokens e
  | .brackets e => S.opening :: tokens e ++ [S.closing]
  | .join o a b => tokens a ++ S.sign o :: tokens b

/-- What `not` takes. -/
def takesNot : Expr α → Bool
  | .atom a => S.isClosed a
  | _ => true

/-- What may follow an atom. -/
def Follows (rest : List τ) : Prop := ∀ t ∈ rest.head?, t = S.closing ∨ ∃ o, t = S.sign o

/-- What may follow an expression of a level. -/
structure Stops (l : ℕ) (rest : List τ) : Prop where
  follows : S.Follows rest
  noSign : ∀ o : Connective, o.level ≤ l → rest.head? ≠ some (S.sign o)

/-- The signs are told apart, and an atom that may stand in expressions is read back. -/
structure Lawful (sound : α → Prop) : Prop where
  opening : S.opening ≠ S.notSign
  closing : ∀ o, S.closing ≠ S.sign o
  sign : S.sign .and ≠ S.sign .or
  head : ∀ a, sound a → ∃ t ts, S.write a = t :: ts ∧ t ≠ S.notSign ∧ t ≠ S.opening
  read : ∀ a rest, sound a → S.Follows rest → S.read (S.write a ++ rest) = some (a, rest)

/-- The fuel it takes to read an expression at the level of units. -/
def cost : Expr α → ℕ
  | .atom _ => 1
  | .not e => cost e + 1
  | .brackets e => cost e + 3
  | .join _ a b => max (cost a) (cost b) + 1

section Stops

variable {S} {sound : α → Prop} {l l' : ℕ} {rest : List τ} {o : Connective}

theorem stops_closing (hS : S.Lawful sound) : S.Stops l (S.closing :: rest) where
  follows := by simp [Follows]
  noSign := fun o _ h => hS.closing o (Option.some.inj h)

theorem stops_nil : S.Stops l [] where
  follows := by simp [Follows]
  noSign := by simp

/-- The left side of a connective ends there. -/
theorem stops_sign (hS : S.Lawful sound) (hl : l < o.level) : S.Stops l (S.sign o :: rest) where
  follows := by simp [Follows]
  noSign := by
    intro o' ho' h
    have hsign : S.sign o = S.sign o' := Option.some.inj h
    cases o with
    | and => cases o' <;> exact absurd (Nat.lt_of_le_of_lt ho' hl) (by decide)
    | or =>
      cases o' with
      | and => exact hS.sign hsign.symm
      | or => exact absurd (Nat.lt_of_le_of_lt ho' hl) (by decide)

theorem Stops.of_le (h : S.Stops l rest) (hle : l' ≤ l) : S.Stops l' rest :=
  ⟨h.follows, fun o ho => h.noSign o (Nat.le_trans ho hle)⟩

/-- An expression is at least as long as reading it is deep. -/
theorem cost_le (hS : S.Lawful sound) : ∀ {e : Expr α}, (∀ a ∈ e.atoms, sound a) →
    cost e ≤ 3 * (S.tokens e).length
  | .atom a, h => by
    obtain ⟨t, ts, hwrite, -⟩ := hS.head a (h a (List.mem_singleton_self a))
    rw [cost, tokens, hwrite, List.length_cons]
    omega
  | .not e, h => by
    have := cost_le hS (e := e) h
    rw [cost, tokens, List.length_cons]
    omega
  | .brackets e, h => by
    have := cost_le hS (e := e) h
    rw [cost, tokens, List.length_append, List.length_cons]
    omega
  | .join _ a b, h => by
    have := cost_le hS fun x hx => h x (List.mem_append_left _ hx)
    have := cost_le hS fun x hx => h x (List.mem_append_right _ hx)
    rw [cost, tokens, List.length_append, List.length_cons]
    omega

end Stops

/-- The connective between the parts of an expression that is of a level and not of the one before
it. -/
def connective : ℕ → Connective
  | 0 => .and
  | _ + 1 => .or

theorem level_connective : ∀ {l : ℕ}, l + 1 ≤ 2 → (connective l).level = l + 1
  | 0, _ => rfl
  | 1, _ => rfl
  | _ + 2, h => by omega

theorem connective_level : ∀ o : Connective, ∃ l, o.level = l + 1 ∧ connective l = o
  | .and => ⟨0, rfl, rfl⟩
  | .or => ⟨1, rfl, rfl⟩

variable [DecidableEq τ]

/-- An expression of at most a level, and what is left; `none` also where the fuel runs out. -/
def parse : ℕ → ℕ → List τ → Option (Expr α × List τ)
  | 0, _, _ => none
  | n + 1, 0, ts =>
    match ts with
    | [] => none
    | t :: rest =>
      if t = S.notSign then do
        let (e, rest) ← parse n 0 rest
        if S.takesNot e then some (.not e, rest) else none
      else if t = S.opening then do
        let (e, rest) ← parse n 2 rest
        if rest.head? = some S.closing then some (.brackets e, rest.tail) else none
      else (S.read (t :: rest)).map fun r => (.atom r.1, r.2)
  | n + 1, l + 1, ts => do
    let (a, rest) ← parse n l ts
    if rest.head? = some (S.sign (connective l)) then do
      let (b, rest) ← parse n (l + 1) rest.tail
      some (.join (connective l) a b, rest)
    else some (a, rest)

/-- The whole text as one expression. -/
def readAll (ts : List τ) : Option (Expr α) :=
  match S.parse (3 * ts.length + 2) 2 ts with
  | some (e, []) => some e
  | _ => none

variable {S} {sound : α → Prop} {n l m : ℕ} {e a b : Expr α} {ts rest rest' : List τ}

/-- What is read at a level is read at the next, where its sign does not follow. -/
theorem parse_succ (h : S.parse n l ts = some (e, rest))
    (hrest : rest.head? ≠ some (S.sign (connective l))) :
    S.parse (n + 1) (l + 1) ts = some (e, rest) := by
  rw [parse, h, Option.bind_eq_bind, Option.bind_some]
  exact if_neg hrest

theorem parse_join (ha : S.parse n l ts = some (a, S.sign (connective l) :: rest))
    (hb : S.parse n (l + 1) rest = some (b, rest')) :
    S.parse (n + 1) (l + 1) ts = some (.join (connective l) a b, rest') := by
  rw [parse, ha, Option.bind_eq_bind, Option.bind_some]
  simp only [List.head?_cons, if_true, List.tail_cons, hb, Option.bind_some]

theorem parse_not (h : S.parse n 0 ts = some (e, rest)) (he : S.takesNot e) :
    S.parse (n + 1) 0 (S.notSign :: ts) = some (.not e, rest) := by
  rw [parse, if_pos rfl, h, Option.bind_eq_bind, Option.bind_some]
  exact if_pos he

theorem parse_brackets (hS : S.Lawful sound) (h : S.parse n 2 ts = some (e, S.closing :: rest)) :
    S.parse (n + 1) 0 (S.opening :: ts) = some (.brackets e, rest) := by
  rw [parse, if_neg hS.opening, if_pos rfl, h, Option.bind_eq_bind, Option.bind_some]
  simp

theorem parse_atom (hS : S.Lawful sound) {x : α} (hx : sound x) (hrest : S.Follows rest) :
    S.parse (n + 1) 0 (S.write x ++ rest) = some (.atom x, rest) := by
  obtain ⟨t, ts, hwrite, hnot, hopen⟩ := hS.head x hx
  have hread := hS.read x rest hx hrest
  rw [hwrite, List.cons_append] at hread ⊢
  rw [parse, if_neg hnot, if_neg hopen, hread]
  rfl

/-- What is read at a level is read at every later one, where no sign of these follows. -/
theorem parse_lift (h : S.parse n m ts = some (e, rest)) : ∀ {d : ℕ}, m + d ≤ 2 →
    S.Stops (m + d) rest → S.parse (n + d) (m + d) ts = some (e, rest)
  | 0, _, _ => h
  | d + 1, hle, hrest => by
    have hlevel : (connective (m + d)).level = m + d + 1 := level_connective hle
    exact parse_succ (parse_lift h (Nat.le_of_succ_le hle) (hrest.of_le (Nat.le_succ _)))
      (hrest.noSign _ (Nat.le_of_eq hlevel))

theorem parse_of_own {c : ℕ} (hown : ∀ n, c + m ≤ n → S.parse n m ts = some (e, rest))
    (hm : m ≤ l) (hl : l ≤ 2) (hn : c + l ≤ n) (hrest : S.Stops l rest) :
    S.parse n l ts = some (e, rest) := by
  obtain ⟨d, rfl⟩ := Nat.exists_eq_add_of_le hm
  obtain ⟨k, rfl⟩ : ∃ k, n = k + d := ⟨n - d, by omega⟩
  exact parse_lift (hown k (by omega)) hl hrest

/-- What is written at a level is read back at it. -/
theorem parse_tokens (hS : S.Lawful sound) {e : Expr α} : ∀ {n l : ℕ} {rest : List τ},
    (∀ a ∈ e.atoms, sound a) → e.WellWritten (fun a => S.isClosed a) → e.level ≤ l → l ≤ 2 →
      cost e + l ≤ n → S.Stops l rest → S.parse n l (S.tokens e ++ rest) = some (e, rest) := by
  induction e with
  | atom x =>
    intro n l rest h _ hl hl2 hn hrest
    refine parse_of_own (c := 1) (fun k hk => ?_) hl hl2 hn hrest
    obtain ⟨k, rfl⟩ := Nat.exists_eq_add_of_le' hk
    exact parse_atom hS (h x (List.mem_singleton_self x)) hrest.follows
  | not e ih =>
    rintro n l rest h ⟨hunit, he⟩ hl hl2 hn hrest
    refine parse_of_own (c := cost e + 1) (fun k hk => ?_) hl hl2 hn hrest
    obtain ⟨k, rfl⟩ := Nat.exists_eq_add_of_le' hk
    have htakes : S.takesNot e = true := by
      cases e with
      | atom a => exact hunit
      | join o a b => exact hunit.elim
      | _ => rfl
    exact parse_not (n := k + cost e) (ih h he (Nat.le_of_eq (Expr.level_of_unit hunit))
      (Nat.zero_le _) (by omega) (hrest.of_le (Nat.zero_le _))) htakes
  | brackets e ih =>
    intro n l rest h he hl hl2 hn hrest
    refine parse_of_own (c := cost e + 3) (fun k hk => ?_) hl hl2 hn hrest
    obtain ⟨k, rfl⟩ := Nat.exists_eq_add_of_le' hk
    rw [tokens, List.cons_append, List.cons_append, List.append_assoc]
    exact parse_brackets (n := k + (cost e + 2)) hS
      (ih h he e.level_le (Nat.le_refl 2) (by omega) (stops_closing hS))
  | join o a b iha ihb =>
    rintro n l rest h ⟨hla, hlb, ha, hb⟩ hl hl2 hn hrest
    refine parse_of_own (c := max (cost a) (cost b) + 1) (m := o.level) (fun k hk => ?_) hl hl2 hn
      hrest
    obtain ⟨m, hm, rfl⟩ := connective_level o
    rw [hm] at hla hlb hk ⊢
    obtain ⟨k, rfl⟩ := Nat.exists_eq_add_of_le' hk
    have hm2 : m + 1 ≤ 2 := by
      have : (Expr.join (connective m) a b).level = m + 1 := hm
      omega
    have hleft : S.parse (k + (max (cost a) (cost b) + 1 + m)) m
        (S.tokens a ++ S.sign (connective m) :: (S.tokens b ++ rest)) =
          some (a, S.sign (connective m) :: (S.tokens b ++ rest)) :=
      iha (fun x hx => h x (List.mem_append_left _ hx)) ha (by omega) (by omega) (by omega)
        (stops_sign hS (by omega))
    rw [tokens, List.append_assoc, List.cons_append]
    refine parse_join (n := k + (max (cost a) (cost b) + 1 + m)) hleft
      (ihb (fun x hx => h x (List.mem_append_right _ hx)) hb hlb hm2 (by omega) (hrest.of_le ?_))
    exact Nat.le_trans (Nat.le_of_eq hm.symm) hl

theorem readAll_tokens (hS : S.Lawful sound) (hsound : ∀ a ∈ e.atoms, sound a)
    (he : e.WellWritten fun a => S.isClosed a) : S.readAll (S.tokens e) = some e := by
  have hcost := cost_le hS hsound
  have h : S.parse (3 * (S.tokens e).length + 2) 2 (S.tokens e ++ []) = some (e, []) :=
    parse_tokens hS hsound he e.level_le (Nat.le_refl 2) (Nat.add_le_add_right hcost 2) stops_nil
  rw [List.append_nil] at h
  rw [readAll, h]

end Syntax

end Logical
