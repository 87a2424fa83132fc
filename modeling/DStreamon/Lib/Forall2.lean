import Mathlib.Data.List.Forall2

/-!
# Lists related member by member

How a member of one list, a place in it, and a further list are carried across `List.Forall₂`; and
the relation a partial map of a list leaves.
-/

namespace Forall2

variable {α β γ : Type*}

theorem exists_left {R : α → β → Prop} :
    ∀ {l : List α} {l' : List β}, List.Forall₂ R l l' → ∀ {b : β}, b ∈ l' → ∃ a ∈ l, R a b
  | _, _, .cons hab hl, b, hb => by
    rcases List.mem_cons.1 hb with rfl | hb
    · exact ⟨_, List.mem_cons_self, hab⟩
    · obtain ⟨a, ha, hab⟩ := exists_left hl hb
      exact ⟨a, List.mem_cons_of_mem _ ha, hab⟩

theorem exists_right {R : α → β → Prop} :
    ∀ {l : List α} {l' : List β}, List.Forall₂ R l l' → ∀ {a : α}, a ∈ l → ∃ b ∈ l', R a b
  | _, _, .cons hab hl, a, ha => by
    rcases List.mem_cons.1 ha with rfl | ha
    · exact ⟨_, List.mem_cons_self, hab⟩
    · obtain ⟨b, hb, hab⟩ := exists_right hl ha
      exact ⟨b, List.mem_cons_of_mem _ hb, hab⟩

theorem getElem?_right {R : α → β → Prop} :
    ∀ {l : List α} {l' : List β}, List.Forall₂ R l l' → ∀ {i : ℕ} {a : α}, l[i]? = some a →
      ∃ b, l'[i]? = some b ∧ R a b
  | _, _, .cons hab _, 0, _, h => by
    cases h
    exact ⟨_, rfl, hab⟩
  | _, _, .cons _ hl, i + 1, _, h => getElem?_right hl (i := i) h

theorem getElem?_left {R : α → β → Prop} :
    ∀ {l : List α} {l' : List β}, List.Forall₂ R l l' → ∀ {i : ℕ} {b : β}, l'[i]? = some b →
      ∃ a, l[i]? = some a ∧ R a b
  | _, _, .cons hab _, 0, _, h => by
    cases h
    exact ⟨_, rfl, hab⟩
  | _, _, .cons _ hl, i + 1, _, h => getElem?_left hl (i := i) h

theorem of_mapM {f : α → Option β} :
    ∀ {l : List α} {l' : List β}, l.mapM f = some l' → List.Forall₂ (fun a b => f a = some b) l l'
  | [], l', h => by
    cases h
    exact .nil
  | a :: l, l', h => by
    rw [List.mapM_cons] at h
    obtain ⟨b, hb, h⟩ := Option.bind_eq_some_iff.1 h
    obtain ⟨bs, hbs, h⟩ := Option.bind_eq_some_iff.1 h
    cases h
    exact .cons hb (of_mapM hbs)

theorem comp {R : α → β → Prop} {S : β → γ → Prop} {T : α → γ → Prop}
    (hT : ∀ a b c, R a b → S b c → T a c) :
    ∀ {l : List α} {l' : List β} {l'' : List γ}, List.Forall₂ R l l' → List.Forall₂ S l' l'' →
      List.Forall₂ T l l''
  | _, _, _, .nil, .nil => .nil
  | _, _, _, .cons hab hl, .cons hbc hl' => .cons (hT _ _ _ hab hbc) (comp hT hl hl')

end Forall2
