import DStreamon.Lib.Attempt
import Mathlib.Data.List.Count
import Mathlib.Data.List.Nodup
import Mathlib.Logic.Function.Basic

/-!
# Links kept at both ends

Every node keeps a list of the nodes it is linked to, as often as it is.  Linking adds an entry at
each end, unlinking removes all entries of a node and fails where there is none.  The same links may
be kept a second time under other names, and there be removed entry by entry.
-/

namespace Links

open Attempt (forEach)
open Function (update)

variable {G H : Type} [DecidableEq G] [DecidableEq H]

/-- Both ends have a link equally often. -/
def Matched (p : G → List H) (q : H → List G) : Prop := ∀ g h, (p g).count h = (q h).count g

def add (p : G → List H) (g : G) (h : H) : G → List H := update p g (p g ++ [h])

def erase (p : G → List H) (g : G) (h : H) : G → List H := update p g ((p g).filter (· ≠ h))

/-- All entries, at least one. -/
def unlink (e : String) (g : G) (h : H) : Attempt String (G → List H) Unit where
  run p := if h ∈ p g then (.ok (), erase p g h) else (.error e, p)

variable {p : G → List H} {q : H → List G} {g g' : G} {h h' : H} {l : List G} {e : String}

theorem Matched.symm (hm : Matched p q) : Matched q p := fun h g => (hm g h).symm

theorem Matched.mem_iff (hm : Matched p q) : h ∈ p g ↔ g ∈ q h := by
  rw [← List.count_pos_iff, hm g h, List.count_pos_iff]

theorem count_add :
    (add p g h g').count h' = (p g').count h' + if g' = g ∧ h' = h then 1 else 0 := by
  by_cases hg : g' = g
  · subst hg
    by_cases hh : h' = h
    · simp [add, hh]
    · simp [add, hh, Ne.symm hh]
  · simp [add, hg]

theorem count_erase :
    (erase p g h g').count h' = if g' = g ∧ h' = h then 0 else (p g').count h' := by
  by_cases hg : g' = g
  · subst hg
    by_cases hh : h' = h
    · simp [erase, hh, List.count_eq_zero]
    · simp [erase, hh, List.count_filter]
  · simp [erase, hg]

theorem Matched.add (hm : Matched p q) : Matched (add p g h) (add q h g) := by
  intro g' h'
  rw [count_add, count_add, hm g' h']
  simp only [and_comm]

theorem Matched.erase (hm : Matched p q) : Matched (erase p g h) (erase q h g) := by
  intro g' h'
  rw [count_erase, count_erase, hm g' h']
  simp only [and_comm]

theorem unlink_of_mem (hmem : h ∈ p g) : (unlink e g h).run p = (.ok (), Links.erase p g h) :=
  if_pos hmem

theorem unlink_of_not_mem (hmem : h ∉ p g) : (unlink e g h).run p = (.error e, p) := if_neg hmem

/-! ## Unlinking all the nodes of a list -/

theorem mem_erase : h' ∈ Links.erase p g h g' ↔ h' ∈ p g' ∧ ¬ (g' = g ∧ h' = h) := by
  rw [← List.count_pos_iff, count_erase, ← List.count_pos_iff]
  split <;> simp_all

/-- The entries of `h` at the nodes of the list are gone. -/
def eraseEach (l : List G) (h : H) (p : G → List H) : G → List H := fun g =>
  if g ∈ l then (p g).filter (· ≠ h) else p g

theorem forEach_unlink : ∀ {l : List G} {p : G → List H}, l.Nodup → (∀ g ∈ l, h ∈ p g) →
    (forEach (unlink e · h) l).run p = (.ok (), eraseEach l h p)
  | [], p, _, _ => by
    simp [funext_iff, eraseEach]
  | g :: l, p, hnodup, hmem => by
    obtain ⟨hg, hnodup⟩ := List.nodup_cons.1 hnodup
    obtain ⟨hmemg, hmem⟩ := List.forall_mem_cons.1 hmem
    have hother : ∀ g' ∈ l, h ∈ Links.erase p g h g' := fun g' hg' =>
      mem_erase.2 ⟨hmem g' hg', fun hgg => hg (by rwa [← hgg.1])⟩
    rw [Attempt.forEach_cons, Attempt.run_bind_of_ok (unlink_of_mem hmemg),
      forEach_unlink hnodup hother]
    refine congrArg (Prod.mk _) (funext fun g' => ?_)
    by_cases hgg : g' = g
    · subst hgg
      simp [eraseEach, Links.erase, hg]
    · simp [eraseEach, Links.erase, hgg]

/-- A node that comes a second time has no entry left. -/
theorem nodup_of_forEach_unlink : ∀ {l : List G} {p p' : G → List H},
    (forEach (unlink e · h) l).run p = (.ok (), p') → l.Nodup ∧ ∀ g ∈ l, h ∈ p g
  | [], _, _, _ => ⟨List.nodup_nil, fun _ hg => absurd hg List.not_mem_nil⟩
  | g :: l, p, p', hok => by
    obtain ⟨_, p₁, hg, hl⟩ := Attempt.ok_of_bind hok
    by_cases hmem : h ∈ p g
    · rw [unlink_of_mem hmem] at hg
      obtain rfl := (Prod.mk.inj hg).2
      obtain ⟨hnodup, hall⟩ := nodup_of_forEach_unlink hl
      refine ⟨List.nodup_cons.2 ⟨fun hgl => (mem_erase.1 (hall g hgl)).2 ⟨rfl, rfl⟩, hnodup⟩, ?_⟩
      exact List.forall_mem_cons.2 ⟨hmem, fun g' hg' => (mem_erase.1 (hall g' hg')).1⟩
    · rw [unlink_of_not_mem hmem] at hg
      simp at hg

/-- A node that unlinks all it is linked to and forgets them. -/
theorem Matched.eraseEach (hm : Matched p q) :
    Matched (update p g []) (eraseEach (p g) g q) := by
  intro g' h'
  by_cases hmem : h' ∈ p g <;> by_cases hg : g' = g
  · subst hg
    have hnone : g' ∉ (q h').filter (· ≠ g') := by simp
    rw [Function.update_self, List.count_nil, Links.eraseEach, if_pos hmem,
      List.count_eq_zero.2 hnone]
  · simp [Links.eraseEach, hmem, hg, List.count_filter, hm g' h']
  · subst hg
    simp [Links.eraseEach, hmem, ← hm g' h', List.count_eq_zero.2 hmem]
  · simp [Links.eraseEach, hmem, hg, hm g' h']

/-! ## Removing one entry -/

section Remove

variable {K L : Type} {b : K → List L} {k : K} {l : L}

/-- The first entry. -/
def remove [DecidableEq K] [BEq L] (b : K → List L) (k : K) (l : L) : K → List L :=
  update b k ((b k).erase l)

/-- No other entry stands behind one of `l`. -/
def AtEnd [BEq L] (l : L) (ls : List L) : Prop := ∀ l' ∈ ls.dropWhile (· != l), l' = l

theorem append_singleton_eq_cons_iff : ∀ {ls : List L}, ls ++ [l] = l :: ls ↔ ∀ l' ∈ ls, l' = l
  | [] => by simp
  | l' :: ls => by
    have ih : ls ++ [l] = l :: ls ↔ ∀ l' ∈ ls, l' = l := append_singleton_eq_cons_iff
    rw [List.cons_append, List.cons.injEq, List.forall_mem_cons, and_congr_right_iff]
    intro hl
    rw [hl]
    exact ih

variable [BEq L] [LawfulBEq L]

theorem erase_append_singleton_iff : ∀ {ls : List L}, (ls ++ [l]).erase l = ls ↔ AtEnd l ls
  | [] => by simp [AtEnd]
  | l' :: ls => by
    by_cases hl : l' = l
    · subst hl
      simp [AtEnd, append_singleton_eq_cons_iff]
    · rw [List.cons_append, List.erase_cons_tail (by simpa using hl), List.cons.injEq,
        and_iff_right rfl, erase_append_singleton_iff, AtEnd, AtEnd,
        List.dropWhile_cons_of_pos (by simpa using hl)]

theorem erase_eq_filter_of_count {ls : List L} (hone : ls.count l = 1) :
    ls.erase l = ls.filter (· != l) := by
  induction ls with
  | nil => rfl
  | cons l' ls ih =>
    by_cases hl : l' = l
    · subst hl
      rw [List.count_cons_self, Nat.add_eq_right, List.count_eq_zero] at hone
      have hall : ∀ x ∈ ls, x ≠ l' := fun x hx hxl => hone (hxl ▸ hx)
      rw [List.erase_cons_head, List.filter_cons_of_neg (by simp), List.filter_eq_self.2]
      simpa using hall
    · rw [List.count_cons_of_ne hl] at hone
      rw [List.erase_cons_tail (by simpa using hl), List.filter_cons_of_pos (by simpa using hl),
        ih hone]

variable [DecidableEq K]

/-- The entry that is removed is the one that was added, if it is the first. -/
theorem remove_add_iff : remove (add b k l) k l = b ↔ AtEnd l (b k) := by
  rw [← erase_append_singleton_iff, remove, add, Function.update_self, Function.update_idem]
  constructor
  · intro heq
    have hk := congrFun heq k
    rwa [Function.update_self] at hk
  · intro heq
    rw [heq, Function.update_eq_self]

theorem count_remove : (remove b k l k).count l = (b k).count l - 1 := by
  rw [remove, Function.update_self, List.count_erase_self]

end Remove

/-! ## The same links under other names -/

section Copied

variable {A B K L : Type} {p : A → List B} {g : A} {h : B} {f : K → Option A} {f' : L → Option B}
  {b : K → List L} {k : K} {l : L}

/-- No node has two names. -/
def Naming (f : K → Option A) : Prop := ∀ k k' g, f k = some g → f k' = some g → k = k'

/-- Where `f` names a node, `b` has its links by the names of `f'`, and in the same order. -/
def Copied (f : K → Option A) (f' : L → Option B) (b : K → List L) (p : A → List B) : Prop :=
  ∀ k g, f k = some g → (b k).map f' = (p g).map some

/-- An entry names a node. -/
theorem Copied.named (hc : Copied f f' b p) (hk : f k = some g) (hmem : l ∈ b k) :
    ∃ h ∈ p g, f' l = some h := by
  have hsome : f' l ∈ (p g).map some := hc k g hk ▸ List.mem_map_of_mem hmem
  obtain ⟨h, hh, heq⟩ := List.mem_map.1 hsome
  exact ⟨h, hh, heq.symm⟩

theorem Copied.add [DecidableEq A] [DecidableEq K] (hc : Copied f f' b p) (hf : Naming f)
    (hk : f k = some g) (hl : f' l = some h) : Copied f f' (add b k l) (add p g h) := by
  intro k' g' hk'
  by_cases hkk : k' = k
  · subst hkk
    obtain rfl := Option.some.inj (hk.symm.trans hk')
    rw [Links.add, Links.add, Function.update_self, Function.update_self, List.map_append,
      List.map_append, hc k' g hk, List.map_singleton, List.map_singleton, hl]
  · have hgg : g' ≠ g := fun hgg => hkk (hf k' k g (hgg ▸ hk') hk)
    rw [Links.add, Links.add, Function.update_of_ne hkk, Function.update_of_ne hgg, hc k' g' hk']

variable [DecidableEq B] [BEq L] [LawfulBEq L]

theorem Copied.count_eq (hc : Copied f f' b p) (hf' : Naming f') (hk : f k = some g)
    (hl : f' l = some h) : (b k).count l = (p g).count h := by
  have hsome : (p g).count h = ((p g).map some).count (some h) :=
    (List.count_map_of_injective _ some (fun _ _ => Option.some.inj) h).symm
  rw [hsome, ← hc k g hk, List.count, List.count, List.countP_map]
  refine List.countP_congr fun l' _ => ?_
  simp only [beq_iff_eq, Function.comp_apply]
  exact ⟨fun hll => hll ▸ hl, fun hl' => hf' l' l h hl' hl⟩

theorem Copied.mem_iff (hc : Copied f f' b p) (hf' : Naming f') (hk : f k = some g)
    (hl : f' l = some h) : l ∈ b k ↔ h ∈ p g := by
  rw [← List.count_pos_iff, hc.count_eq hf' hk hl, List.count_pos_iff]

variable [DecidableEq A]

/-- A copy that keeps an entry of what is erased is none any more. -/
theorem Copied.not_of_mem (hf' : Naming f') (hk : f k = some g) (hl : f' l = some h)
    (hmem : l ∈ b k) : ¬ Copied f f' b (erase p g h) := by
  intro hc
  have hmem' := (hc.mem_iff hf' hk hl).1 hmem
  exact (mem_erase.1 hmem').2 ⟨rfl, rfl⟩

variable [DecidableEq K]

/-- Removing the first entry is removing all of them just when there is one. -/
theorem Copied.remove_iff (hc : Copied f f' b p) (hf : Naming f) (hf' : Naming f')
    (hk : f k = some g) (hl : f' l = some h) (hmem : l ∈ b k) :
    Copied f f' (remove b k l) (erase p g h) ↔ (b k).count l = 1 := by
  constructor
  · intro hc'
    have hzero := hc'.count_eq hf' hk hl
    rw [count_remove, count_erase, if_pos ⟨rfl, rfl⟩] at hzero
    have hpos := List.count_pos_iff.2 hmem
    omega
  · intro hone k' g' hk'
    by_cases hkk : k' = k
    · subst hkk
      obtain rfl := Option.some.inj (hk.symm.trans hk')
      have hsame : ∀ l', (l' != l) = decide (f' l' ≠ some h) := fun l' => by
        rw [Bool.eq_iff_iff, bne_iff_ne, decide_eq_true_eq]
        exact not_congr ⟨fun hll => hll ▸ hl, fun hl' => hf' l' l h hl' hl⟩
      have hleft : ((b k').filter (· != l)).map f' = ((b k').map f').filter (· ≠ some h) := by
        simp only [List.filter_map, hsame, Function.comp_def]
      have hright : ((p g).map some).filter (· ≠ some h) = ((p g).filter (· ≠ h)).map some := by
        simp only [List.filter_map, ne_eq, Function.comp_def, Option.some.injEq]
      rw [remove, Links.erase, Function.update_self, Function.update_self,
        erase_eq_filter_of_count hone, hleft, hc k' g hk, hright]
    · have hgg : g' ≠ g := fun hgg => hkk (hf k' k g (hgg ▸ hk') hk)
      rw [remove, Links.erase, Function.update_of_ne hkk, Function.update_of_ne hgg, hc k' g' hk']

end Copied

end Links
