import Mathlib.Data.Fintype.Card
import Mathlib.Order.WellFounded

/-!
# Waiting for one another

Of finitely many that each wait for another, one waits for itself.
-/

namespace WaitFor

variable {α β : Type*}

/-- The relation is transitive. -/
theorem exists_self [Finite α] [Nonempty α] {r : α → α → Prop}
    (htrans : ∀ a b c, r a b → r b c → r a c) (hwaits : ∀ a, ∃ b, r a b) : ∃ a, r a a := by
  by_contra hself
  have : IsTrans α (Function.swap r) := ⟨fun a b c hab hbc => htrans c b a hbc hab⟩
  have : Std.Irrefl (Function.swap r) := ⟨fun a ha => hself ⟨a, ha⟩⟩
  have hwf := Finite.wellFounded_of_trans_of_irrefl (Function.swap r)
  obtain ⟨a, -, hmin⟩ := hwf.has_min Set.univ Set.univ_nonempty
  obtain ⟨b, hb⟩ := hwaits a
  exact hmin b trivial hb

/-- Where what an agent waits for leads to what its holder waits for, something leads to itself. -/
theorem exists_cycle [Finite α] [Nonempty α] {leads : β → β → Prop} (waits : α → β)
    (htrans : ∀ a b c, leads a b → leads b c → leads a c)
    (hholder : ∀ a, ∃ b, leads (waits a) (waits b)) : ∃ a, leads (waits a) (waits a) :=
  exists_self (fun a b c => htrans (waits a) (waits b) (waits c)) hholder

end WaitFor
