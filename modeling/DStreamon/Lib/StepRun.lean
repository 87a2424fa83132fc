import Mathlib.Data.List.Basic

/-!
# Runs of partial steps

A system whose steps may have no result, and the runs of a list of operations.  What one step
keeps, from states where the operation meets a side condition, every run whose operations all meet
it keeps.
-/

namespace StepRun

variable {σ ο : Type*}

/-- The state a list of operations leads to; `none` once a step has no result. -/
def run (step : σ → ο → Option σ) : σ → List ο → Option σ
  | s, [] => some s
  | s, o :: os => (step s o).bind fun s' => run step s' os

/-- Every operation meets `C` in the state it is taken from. -/
def Meets (step : σ → ο → Option σ) (C : σ → ο → Prop) : σ → List ο → Prop
  | _, [] => True
  | s, o :: os => C s o ∧ ∀ s', step s o = some s' → Meets step C s' os

variable {step : σ → ο → Option σ} {C : σ → ο → Prop}

@[simp] theorem run_nil (s : σ) : run step s [] = some s := rfl

theorem run_cons (s : σ) (o : ο) (os : List ο) :
    run step s (o :: os) = (step s o).bind fun s' => run step s' os := rfl

theorem run_cons_some {s s' : σ} {o : ο} {os : List ο} (h : run step s (o :: os) = some s') :
    ∃ t, step s o = some t ∧ run step t os = some s' := by
  rw [run_cons] at h
  exact Option.bind_eq_some_iff.1 h

/-- What every step keeps where its operation meets `C`, every run meeting `C` keeps. -/
theorem run_keeps {Inv : σ → Prop}
    (hstep : ∀ s o s', Inv s → C s o → step s o = some s' → Inv s') :
    ∀ (os : List ο) {s s' : σ}, Inv s → Meets step C s os → run step s os = some s' → Inv s'
  | [], s, s', hs, _, h => by
    simp only [run_nil, Option.some.injEq] at h
    exact h ▸ hs
  | o :: os, s, s', hs, hm, h => by
    obtain ⟨t, ht, h⟩ := run_cons_some h
    exact run_keeps hstep os (hstep s o t hs hm.1 ht) (hm.2 t ht) h

/-- Where every step has a result, every run has. -/
theorem run_total {Inv : σ → Prop} (hstep : ∀ s o, Inv s → ∃ s', step s o = some s' ∧ Inv s') :
    ∀ (os : List ο) {s : σ}, Inv s → ∃ s', run step s os = some s' ∧ Inv s'
  | [], s, hs => ⟨s, rfl, hs⟩
  | o :: os, s, hs => by
    obtain ⟨t, ht, hinv⟩ := hstep s o hs
    obtain ⟨s', hrun, hs'⟩ := run_total hstep os hinv
    exact ⟨s', by rw [run_cons, ht, Option.bind_some, hrun], hs'⟩

theorem meets_of_forall (h : ∀ s o, C s o) : ∀ (os : List ο) (s : σ), Meets step C s os
  | [], _ => trivial
  | o :: os, s => ⟨h s o, fun s' _ => meets_of_forall h os s'⟩

theorem meets_and {C' : σ → ο → Prop} :
    ∀ {os : List ο} {s : σ}, Meets step C s os → Meets step C' s os →
      Meets step (fun s o => C s o ∧ C' s o) s os
  | [], _, _, _ => trivial
  | _ :: _, _, h, h' => ⟨⟨h.1, h'.1⟩, fun s' hs' => meets_and (h.2 s' hs') (h'.2 s' hs')⟩

/-- Where an invariant and `C` give `D`, runs meeting `C` meet `D`. -/
theorem meets_of_inv {Inv : σ → Prop} {D : σ → ο → Prop}
    (hinv : ∀ s o s', Inv s → step s o = some s' → Inv s') (hD : ∀ s o, Inv s → C s o → D s o) :
    ∀ (os : List ο) {s : σ}, Inv s → Meets step C s os → Meets step D s os
  | [], _, _, _ => trivial
  | _ :: os, _, hs, hm =>
    ⟨hD _ _ hs hm.1, fun s' hs' => meets_of_inv hinv hD os (hinv _ _ s' hs hs') (hm.2 s' hs')⟩

/-- Where an invariant that steps meeting `C` keep and `C` give `D` on the operations of a list, its
runs meeting `C` meet `D`. -/
theorem meets_of_meets {Inv : σ → Prop} {D : σ → ο → Prop} {P : ο → Prop}
    (hinv : ∀ s o s', Inv s → P o → C s o → step s o = some s' → Inv s')
    (hD : ∀ s o, Inv s → P o → C s o → D s o) :
    ∀ (os : List ο) {s : σ}, (∀ o ∈ os, P o) → Inv s → Meets step C s os → Meets step D s os
  | [], _, _, _, _ => trivial
  | o :: os, s, hP, hs, hm => by
    obtain ⟨ho, hP⟩ := List.forall_mem_cons.1 hP
    exact ⟨hD s o hs ho hm.1, fun t ht =>
      meets_of_meets hinv hD os hP (hinv s o t hs ho hm.1 ht) (hm.2 t ht)⟩

/-- Where it makes `C` and `D` the same, they meet both or neither. -/
theorem meets_iff {Inv : σ → Prop} {D : σ → ο → Prop} {P : ο → Prop}
    (hinv : ∀ s o s', Inv s → P o → C s o → step s o = some s' → Inv s')
    (hD : ∀ s o, Inv s → P o → (D s o ↔ C s o)) (os : List ο) {s : σ} (hP : ∀ o ∈ os, P o)
    (hs : Inv s) : Meets step D s os ↔ Meets step C s os := by
  constructor
  · exact meets_of_meets (fun s o s' h hP hDo => hinv s o s' h hP ((hD s o h hP).1 hDo))
      (fun s o h hP => (hD s o h hP).1) os hP hs
  · exact meets_of_meets hinv (fun s o h hP => (hD s o h hP).2) os hP hs

/-- A run all of whose operations meet `C`, or, from the first that does not, `Q`. -/
theorem meets_or_of_run (C : σ → ο → Prop) (Inv Q : σ → Prop)
    (hinv : ∀ s o s', Inv s → step s o = some s' → Inv s')
    (hQ : ∀ s o s', Q s → step s o = some s' → Q s')
    (hC : ∀ s o s', Inv s → ¬C s o → step s o = some s' → Q s') :
    ∀ (os : List ο) {s s' : σ}, Inv s → run step s os = some s' → Meets step C s os ∨ Q s'
  | [], _, _, _, _ => .inl trivial
  | o :: os, s, s', hs, h => by
    obtain ⟨t, ht, h⟩ := run_cons_some h
    by_cases ho : C s o
    · rcases meets_or_of_run C Inv Q hinv hQ hC os (hinv s o t hs ht) h with hm | hq
      · refine .inl ⟨ho, fun t' ht' => ?_⟩
        obtain rfl := Option.some.inj (ht.symm.trans ht')
        exact hm
      · exact .inr hq
    · exact .inr (run_keeps (C := fun _ _ => True) (fun s o s' hq _ => hQ s o s' hq) os
        (hC s o t hs ho ht) (meets_of_forall (fun _ _ => trivial) os t) h)

theorem meets_last : ∀ {os : List ο} {o : ο} {s s' : σ}, Meets step C s (os ++ [o]) →
    run step s os = some s' → C s' o
  | [], _, _, _, hm, h => by
    simp only [run_nil, Option.some.injEq] at h
    exact h ▸ hm.1
  | _ :: _, _, _, _, hm, h => by
    obtain ⟨t, ht, h⟩ := run_cons_some h
    exact meets_last (hm.2 t ht) h

/-- `Inv` holds in every state a run of some of the operations, from the first on, leads to. -/
def Always (step : σ → ο → Option σ) (Inv : σ → Prop) (s : σ) (os : List ο) : Prop :=
  ∀ os' s', os' <+: os → run step s os' = some s' → Inv s'

theorem always_nil {Inv : σ → Prop} {s : σ} : Always step Inv s [] ↔ Inv s := by
  constructor
  · exact fun h => h [] s List.prefix_rfl rfl
  · intro hs os' s' hp h
    rw [List.prefix_nil.1 hp, run_nil, Option.some.injEq] at h
    exact h ▸ hs

theorem always_cons {Inv : σ → Prop} {s : σ} {o : ο} {os : List ο} :
    Always step Inv s (o :: os) ↔ Inv s ∧ ∀ t, step s o = some t → Always step Inv t os := by
  constructor
  · refine fun h => ⟨h [] s List.nil_prefix rfl, fun t ht os' s' hp hs' => ?_⟩
    exact h (o :: os') s' (List.cons_prefix_cons.2 ⟨rfl, hp⟩) (by rw [run_cons, ht]; exact hs')
  · rintro ⟨hs, h⟩ (_ | ⟨o', os'⟩) s' hp hs'
    · rw [run_nil, Option.some.injEq] at hs'
      exact hs' ▸ hs
    · obtain ⟨rfl, hp'⟩ := List.cons_prefix_cons.1 hp
      obtain ⟨t, ht, hs'⟩ := run_cons_some hs'
      exact h t ht os' s' hp' hs'

/-- Where the steps that keep `Inv` are those that meet `C`, as long as `Base` holds, and that is
kept with it, the runs along which `Inv` holds are those that meet `C`. -/
theorem always_iff_of_base {Base Inv : σ → Prop}
    (hbase : ∀ s o s', Base s → Inv s → step s o = some s' → Base s')
    (hstep : ∀ s o s', Base s → Inv s → step s o = some s' → (Inv s' ↔ C s o))
    (hnone : ∀ s o, Base s → Inv s → step s o = none → C s o) :
    ∀ (os : List ο) {s : σ}, Base s → Inv s → (Always step Inv s os ↔ Meets step C s os)
  | [], s, _, hs => always_nil.trans (iff_of_true hs trivial)
  | o :: os, s, hb, hs => by
    rw [always_cons, Meets]
    cases ht : step s o with
    | none => simp [hs, hnone s o hb hs ht]
    | some t =>
      simp only [Option.some.injEq, forall_eq', hs, true_and]
      by_cases hC : C s o
      · have ih := always_iff_of_base hbase hstep hnone os (hbase s o t hb hs ht)
          ((hstep s o t hb hs ht).2 hC)
        simpa only [hC, true_and] using ih
      · refine iff_of_false (fun h => hC ((hstep s o t hb hs ht).1 ?_)) fun h => hC h.1
        exact h [] t List.nil_prefix rfl

theorem always_iff {Inv : σ → Prop}
    (hstep : ∀ s o s', Inv s → step s o = some s' → (Inv s' ↔ C s o))
    (hnone : ∀ s o, Inv s → step s o = none → C s o) (os : List ο) {s : σ} (hs : Inv s) :
    Always step Inv s os ↔ Meets step C s os :=
  have hbase : ∀ s o s', True → Inv s → step s o = some s' → True := fun _ _ _ _ _ _ => trivial
  always_iff_of_base hbase (fun s o s' _ => hstep s o s') (fun s o _ => hnone s o) os trivial hs

instance decidableMeets [∀ s o, Decidable (C s o)] :
    ∀ (os : List ο) (s : σ), Decidable (Meets step C s os)
  | [], _ => .isTrue trivial
  | o :: os, s =>
    match h : step s o with
    | none => decidable_of_iff (C s o) ⟨fun hC => ⟨hC, fun _ hs' => by rw [h] at hs'; cases hs'⟩,
        And.left⟩
    | some t =>
      have := decidableMeets os t
      decidable_of_iff (C s o ∧ Meets step C t os)
        (and_congr_right fun _ => ⟨fun hm _ hs' => by rw [h] at hs'; cases hs'; exact hm,
          fun hm => hm t h⟩)

/-- An operation of a list all of whose members meet `C` in every state meets it in a run. -/
theorem meets_of_forall_mem {P : ο → Prop} (h : ∀ s o, P o → C s o) :
    ∀ (os : List ο) (s : σ), (∀ o ∈ os, P o) → Meets step C s os
  | [], _, _ => trivial
  | o :: os, s, hP =>
    ⟨h s o (hP o List.mem_cons_self), fun s' _ =>
      meets_of_forall_mem h os s' fun o' ho' => hP o' (List.mem_cons_of_mem _ ho')⟩

theorem run_isSome_iff {Inv : σ → Prop} {P : ο → Prop}
    (hinv : ∀ s o s', Inv s → step s o = some s' → Inv s')
    (hstep : ∀ s o, Inv s → ((step s o).isSome ↔ P o)) :
    ∀ (os : List ο) {s : σ}, Inv s → ((run step s os).isSome ↔ ∀ o ∈ os, P o)
  | [], s, _ => by simp
  | o :: os, s, hs => by
    rw [List.forall_mem_cons, ← hstep s o hs, run_cons]
    cases h : step s o with
    | none => simp
    | some s' => simpa using run_isSome_iff hinv hstep os (hinv s o s' hs h)

/-! ## States that are reached -/

def Reaches (step : σ → ο → Option σ) (s s' : σ) : Prop := ∃ os, run step s os = some s'

theorem Reaches.refl (s : σ) : Reaches step s s := ⟨[], rfl⟩

theorem Reaches.head {s t s' : σ} {o : ο} (ht : step s o = some t) (h : Reaches step t s') :
    Reaches step s s' := by
  obtain ⟨os, h⟩ := h
  exact ⟨o :: os, by rw [run_cons, ht, Option.bind_some, h]⟩

theorem Reaches.trans {s t s' : σ} (ht : Reaches step s t) (h : Reaches step t s') :
    Reaches step s s' := by
  obtain ⟨os, ht⟩ := ht
  induction os generalizing s with
  | nil =>
    simp only [run_nil, Option.some.injEq] at ht
    exact ht ▸ h
  | cons o os ih =>
    obtain ⟨u, hu, ht⟩ := run_cons_some ht
    exact .head hu (ih ht)

/-! ## Keyed entries -/

section Keyed

variable {κ ν : Type*} [DecidableEq κ] {key : ο → Option κ} {f : ν → ο → ν} {entry : σ → κ → ν}

/-- Where every step updates the entry of its operation's key alone, a run leaves at each key the
fold over the operations of that key. -/
theorem run_keyed {Inv : σ → Prop}
    (hstep : ∀ s o s', Inv s → step s o = some s' →
      Inv s' ∧ ∀ k, entry s' k = if key o = some k then f (entry s k) o else entry s k) :
    ∀ (os : List ο) {s s' : σ}, Inv s → run step s os = some s' →
      ∀ k, entry s' k = (os.filter fun o => key o = some k).foldl f (entry s k)
  | [], s, s', _, h, k => by
    simp only [run_nil, Option.some.injEq] at h
    subst h
    rfl
  | o :: os, s, s', hs, h, k => by
    obtain ⟨t, ht, h⟩ := run_cons_some h
    obtain ⟨htinv, htk⟩ := hstep s o t hs ht
    rw [run_keyed hstep os htinv h k, htk, List.filter_cons]
    by_cases hk : key o = some k <;> simp [hk]

end Keyed

end StepRun
