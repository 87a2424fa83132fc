import DStreamon.Proofs.Moin
import DStreamon.Xfsm

/-!
# The states of the generated tables

A state's number is its place in `StatesTable`, and its entry is that of the first `statedef` of
its name.  Hence every number in a generated row is in range.
-/

namespace DStreamon.Moin

open Forall2

/-! ## Entries -/

/-- Entry `e` is that of the first `statedef` of its name. -/
def OfFirst (defs : List Statedef) (e : StateEntry) : Prop :=
  ∃ s, defs.find? (fun s => s.id = e.name) = some s ∧ e.timeout = s.expire ∧
    e.onTimeout = s.onTimeout

theorem OfFirst.cons {s : Statedef} {defs : List Statedef} {e : StateEntry}
    (h : OfFirst defs e) (hne : s.id ≠ e.name) : OfFirst (s :: defs) e := by
  obtain ⟨s', hf, h⟩ := h
  exact ⟨s', by simpa [List.find?_cons, hne] using hf, h⟩

theorem any_name_iff {table : List StateEntry} {name : String} :
    table.any (fun e => e.name = name) = true ↔ ∃ e ∈ table, e.name = name := by
  simp

theorem addStates_mem : ∀ {defs : List Statedef} {table : List StateEntry} {count : ℕ}
    {e : StateEntry}, e ∈ addStates defs table count →
      e ∈ table ∨ ((∀ e' ∈ table, e'.name ≠ e.name) ∧ OfFirst defs e)
  | [], table, count, e, h => .inl h
  | s :: defs, table, count, e, h => by
    simp only [addStates] at h
    split_ifs at h with hany
    · obtain ⟨e₀, he₀, hname⟩ := any_name_iff.1 hany
      refine (addStates_mem h).imp_right fun ⟨hnew, hof⟩ => ⟨hnew, hof.cons ?_⟩
      exact hname ▸ hnew e₀ he₀
    · have hnot : ∀ e' ∈ table, e'.name ≠ s.id :=
        fun e' he' hn => hany (any_name_iff.2 ⟨e', he', hn⟩)
      rcases addStates_mem h with hmem | ⟨hnew, hof⟩
      · rcases List.mem_append.1 hmem with hmem | hmem
        · exact .inl hmem
        · obtain rfl := List.mem_singleton.1 hmem
          exact .inr ⟨hnot, s, by simp, rfl, rfl⟩
      · refine .inr ⟨fun e' he' => hnew e' (List.mem_append_left _ he'), hof.cons ?_⟩
        exact hnew _ (List.mem_append_right _ (List.mem_singleton.2 rfl))

theorem mem_addStates : ∀ {defs : List Statedef} {table : List StateEntry} {count : ℕ}
    {name : String}, (∃ e ∈ table, e.name = name) ∨ (∃ s ∈ defs, s.id = name) →
      ∃ e ∈ addStates defs table count, e.name = name
  | [], table, count, name, h => by
    simpa [addStates] using h
  | s :: defs, table, count, name, h => by
    simp only [addStates]
    split_ifs with hany
    · refine mem_addStates ?_
      rcases h with h | ⟨s', hs', hid⟩
      · exact .inl h
      · rcases List.mem_cons.1 hs' with rfl | hs'
        · exact .inl (hid ▸ any_name_iff.1 hany)
        · exact .inr ⟨s', hs', hid⟩
    · refine mem_addStates ?_
      rcases h with ⟨e, he, hn⟩ | ⟨s', hs', hid⟩
      · exact .inl ⟨e, List.mem_append_left _ he, hn⟩
      · rcases List.mem_cons.1 hs' with rfl | hs'
        · exact .inl ⟨_, List.mem_append_right _ (List.mem_singleton.2 rfl), hid⟩
        · exact .inr ⟨s', hs', hid⟩

/-- Names are distinct, and each state's number is its place. -/
structure Numbered (table : List StateEntry) : Prop where
  nodup : (table.map StateEntry.name).Nodup
  id : ∀ {i : ℕ} {e : StateEntry}, table[i]? = some e → e.name ≠ "" → e.id = i

theorem Numbered.append {table : List StateEntry} (h : Numbered table) {e : StateEntry}
    (hnew : ∀ e' ∈ table, e'.name ≠ e.name) (hid : e.name ≠ "" → e.id = table.length) :
    Numbered (table ++ [e]) := by
  refine ⟨?_, fun {i e'} hi hne => ?_⟩
  · rw [List.map_append, List.nodup_append]
    refine ⟨h.nodup, by simp, ?_⟩
    rintro _ hx _ hy rfl
    obtain ⟨e', he', hn⟩ := List.mem_map.1 hx
    simp only [List.map_cons, List.map_nil, List.mem_singleton] at hy
    exact hnew e' he' (hn.trans hy)
  · rw [List.getElem?_append] at hi
    split_ifs at hi with hlt
    · exact h.id hi hne
    · obtain ⟨hlt', rfl⟩ := List.getElem?_eq_some_iff.1 hi
      simp only [List.length_cons, List.length_nil] at hlt'
      have : i = table.length := by omega
      simp only [List.getElem_singleton] at hne ⊢
      rw [hid hne, this]

theorem addStates_numbered : ∀ {defs : List Statedef} {table : List StateEntry},
    Numbered table → Numbered (addStates defs table table.length)
  | [], table, h => h
  | s :: defs, table, h => by
    simp only [addStates]
    split_ifs with hany
    · exact addStates_numbered h
    · have happ : Numbered (table ++ [⟨s.id, table.length, s.expire, s.onTimeout⟩]) :=
        h.append (fun e' he' hn => hany (any_name_iff.2 ⟨e', he', hn⟩)) fun _ => rfl
      have htail := @addStates_numbered defs _ happ
      rw [List.length_append, List.length_singleton] at htail
      exact htail

theorem mem_setNoState {table : List StateEntry} {e : StateEntry} :
    e ∈ setNoState table ↔ e = noState ∨ (e ∈ table ∧ e.name ≠ "") := by
  unfold setNoState
  split_ifs with hany
  · obtain ⟨e₀, he₀, hname⟩ := any_name_iff.1 hany
    rw [List.mem_map]
    constructor
    · rintro ⟨e', he', rfl⟩
      split_ifs with hn
      · exact .inl rfl
      · exact .inr ⟨he', hn⟩
    · rintro (rfl | ⟨he, hne⟩)
      · exact ⟨e₀, he₀, by simp [hname]⟩
      · exact ⟨e, he, by simp [hne]⟩
  · have hnot : ∀ e ∈ table, e.name ≠ "" := fun e he hn => hany (any_name_iff.2 ⟨e, he, hn⟩)
    rw [List.mem_append, List.mem_singleton, or_comm]
    exact or_congr_right ⟨fun he => ⟨he, hnot e he⟩, And.left⟩

theorem setNoState_numbered {table : List StateEntry} (h : Numbered table) :
    Numbered (setNoState table) := by
  unfold setNoState
  split_ifs with hany
  · refine ⟨?_, fun {i e} hi hne => ?_⟩
    · have hnames : (table.map fun e => if e.name = "" then noState else e).map StateEntry.name =
          table.map StateEntry.name := by
        rw [List.map_map]
        refine List.map_congr_left fun e _ => ?_
        simp only [Function.comp_apply]
        split_ifs with hn
        · exact hn.symm
        · rfl
      rw [hnames]
      exact h.nodup
    · rw [List.getElem?_map] at hi
      obtain ⟨e', he', rfl⟩ := Option.map_eq_some_iff.1 hi
      split_ifs at hne ⊢ with hn
      · exact absurd rfl hne
      · exact h.id he' hn
  · refine h.append (fun e he hn => hany (any_name_iff.2 ⟨e, he, hn⟩)) fun hne => absurd rfl hne

theorem statesTable_numbered (cfg : Config) : Numbered (statesTable cfg) :=
  setNoState_numbered (addStates_numbered ⟨List.nodup_nil, fun h => by simp at h⟩)

theorem statesTable_ofFirst {cfg : Config} {e : StateEntry} (he : e ∈ statesTable cfg)
    (hne : e.name ≠ "") : OfFirst cfg.statedefs e := by
  rcases mem_setNoState.1 he with rfl | ⟨he, -⟩
  · exact absurd rfl hne
  · rcases addStates_mem he with he | ⟨-, hof⟩
    · simp at he
    · exact hof

theorem statesTable_noState {cfg : Config} {e : StateEntry} (he : e ∈ statesTable cfg)
    (hname : e.name = "") : e = noState := by
  rcases mem_setNoState.1 he with rfl | ⟨-, hne⟩
  · rfl
  · exact absurd hname hne

theorem exists_statesTable {cfg : Config} {s : Statedef} (hs : s ∈ cfg.statedefs) :
    ∃ e ∈ statesTable cfg, e.name = s.id := by
  by_cases hid : s.id = ""
  · exact ⟨noState, mem_setNoState.2 (.inl rfl), hid.symm⟩
  · obtain ⟨e, he, hn⟩ : ∃ e ∈ addStates cfg.statedefs [] 0, e.name = s.id :=
      mem_addStates (.inr ⟨s, hs, rfl⟩)
    exact ⟨e, mem_setNoState.2 (.inr ⟨he, hn ▸ hid⟩), hn⟩

theorem statesTable_pos (cfg : Config) : 0 < (statesTable cfg).length :=
  List.length_pos_of_mem (mem_setNoState.2 (.inl rfl))

/-! ## Numbers in rows -/

theorem Numbered.id_lt {table : List StateEntry} (h : Numbered table) {e : StateEntry}
    (he : e ∈ table) (hne : e.name ≠ "") : 0 ≤ e.id ∧ e.id < table.length := by
  obtain ⟨i, hi⟩ := List.mem_iff_getElem?.1 he
  have hid := h.id hi hne
  have hlt := (List.getElem?_eq_some_iff.1 hi).1
  omega

theorem statesTable_id {cfg : Config} {e : StateEntry} (he : e ∈ statesTable cfg) :
    e.id = -1 ∨ 0 ≤ e.id ∧ e.id < (statesTable cfg).length := by
  by_cases hne : e.name = ""
  · rw [statesTable_noState he hne]
    exact .inl rfl
  · exact .inr ((statesTable_numbered cfg).id_lt he hne)

theorem Statedef.onTimeout_ne {s : Statedef} {q : String} (h : s.onTimeout = some q) : q ≠ "" := by
  unfold Statedef.onTimeout at h
  split_ifs at h with hn
  cases h
  exact hn

theorem timeoutStateId_lt (cfg : Config) {next : Option String}
    (hne : ∀ q, next = some q → q ≠ "") :
    0 ≤ timeoutStateId (statesTable cfg) next ∧
      timeoutStateId (statesTable cfg) next < (statesTable cfg).length := by
  unfold timeoutStateId
  split
  · next e he =>
    obtain ⟨q, rfl, he⟩ := Option.bind_eq_some_iff.1 he
    obtain ⟨hmem, hname⟩ := mem_of_lookupState he
    exact (statesTable_numbered cfg).id_lt hmem (hname ▸ hne q rfl)
  · exact ⟨le_rfl, by exact_mod_cast statesTable_pos cfg⟩

theorem statesTable_onTimeout_ne {cfg : Config} {e : StateEntry} (he : e ∈ statesTable cfg) :
    ∀ q, e.onTimeout = some q → q ≠ "" := by
  intro q hq
  by_cases hname : e.name = ""
  · rw [statesTable_noState he hname] at hq
    cases hq
  · obtain ⟨s, -, -, hs⟩ := statesTable_ofFirst he hname
    exact Statedef.onTimeout_ne (hs ▸ hq)

/-! ## The compiled tables -/

theorem compile_row {r : Row} {t : StateTuple} (h : r.compile = some t) :
    0 ≤ r.timeout ∧ r.timeout < 2 ^ 32 ∧ t =
      { id := r.id, metricSet := r.conditionList.isSome, conditionList := r.conditionList
        postCondActionList := r.postCondActionList, timeout := UInt32.ofNat r.timeout.toNat
        timeoutState := r.timeoutState } := by
  unfold Row.compile at h
  split_ifs at h with ht
  cases h
  exact ⟨ht.1, ht.2, rfl⟩

variable {cfg : Config} {out : Output} {events : List Event}

/-- The row of an entry in a compiled table. -/
def CompiledRow (cfg : Config) (evd : EventDef) (e : StateEntry) (t : StateTuple) : Prop :=
  ∃ timeouts row, RowOf timeouts (statesTable cfg) evd e row ∧ row.compile = some t

/-- The compiled tables have a row for each entry. -/
theorem compiled_ok (h : moin cfg = .ok out) (hc : out.compile = some events) :
    List.Forall₂ (fun evd ev =>
      List.Forall₂ (CompiledRow cfg evd) (statesTable cfg) ev.stateTable) cfg.events events := by
  obtain ⟨timeouts, -, -, hall⟩ := moin_ok h
  refine comp (fun evd ge ev hrows hev => ?_) hall (of_mapM hc)
  obtain ⟨rows, hr, hev⟩ := Option.bind_eq_some_iff.1 hev
  cases hev
  exact comp (fun e row t hof ht => ⟨timeouts, row, hof, ht⟩) hrows (of_mapM hr)

theorem moin_emitted (h : moin cfg = .ok out) (hc : out.compile = some events) :
    ∀ ev ∈ events, Emitted (statesTable cfg).length ev := by
  intro ev hev
  obtain ⟨evd, -, hrows⟩ := exists_left (compiled_ok h hc) hev
  have hrow : ∀ t ∈ ev.stateTable, ∃ e ∈ statesTable cfg, CompiledRow cfg evd e t :=
    fun t ht => exists_left hrows ht
  refine ⟨hrows.length_eq.symm, statesTable_pos cfg, fun t ht => ?_, fun t ht => ?_,
    fun t ht tuples htup u hu => ?_⟩
  · obtain ⟨e, he, timeouts, row, hof, hcomp⟩ := hrow t ht
    obtain ⟨-, -, rfl⟩ := compile_row hcomp
    by_cases hl : Lists evd e.name
    · simp only [(hof.listed hl).2.2]
      exact timeoutStateId_lt cfg (statesTable_onTimeout_ne he)
    · simp only [(hof.unlisted hl).2.2]
      exact ⟨le_rfl, by exact_mod_cast statesTable_pos cfg⟩
  · obtain ⟨e, he, timeouts, row, hof, hcomp⟩ := hrow t ht
    obtain ⟨-, -, rfl⟩ := compile_row hcomp
    rfl
  · obtain ⟨e, he, timeouts, row, hof, hcomp⟩ := hrow t ht
    obtain ⟨-, -, rfl⟩ := compile_row hcomp
    obtain ⟨e', he', hu⟩ := hof.nextState tuples htup u hu
    rw [hu]
    exact statesTable_id he'

end DStreamon.Moin
