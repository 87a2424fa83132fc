import DStreamon.Pipeline
import DStreamon.Proofs.DLeft

/-!
# A flow's entry under the steps of other flows

What a block call leaves of the entry at a pointer: only a call for a key of the same fingerprint
moves it or writes another state to it.
-/

namespace DStreamon

open IReadBuffer FirstFit DLeft

variable {V K : Type} [IReadBuffer K]

/-! ## Pointers -/

namespace DLeft

variable {d d' : DLeft V} {key key' : K} {p : Slot} {v : V}

theorem get_hit (h : d.get key = some p) : fp d p = fhash key ∧ p.1 < d.tableCount := find_hit h

@[simp] theorem get_store (d : DLeft V) (p : Slot) (v : V) (key : K) :
    (d.store p v).get key = d.get key := by
  refine Option.ext fun q => ?_
  rw [DLeft.get, DLeft.get, find_iff, find_iff, fp_store]
  rfl

theorem get_congr (h0 : fhash key ≠ 0) (hsh : d'.shash = d.shash)
    (hfp : ∀ q, fp d q = fhash key ↔ fp d' q = fhash key) (h : d.get key = some p) :
    d'.get key = some p := by
  rw [DLeft.get, find_eq_some_iff h0] at h ⊢
  rw [hsh]
  exact h.congr hfp

/-- The node `add` writes, found from then on. -/
theorem add_some [Inhabited V] (h : d.add key v = (d', some p)) :
    d'.get key = some p ∧ d'.load p = v ∧ d'.shash = d.shash ∧
      (fp d p = 0 ∨ fp d p = fhash key) ∧ fp d' = Function.update (fp d) p (fhash key) ∧
      ∀ q : Slot, q.1 < d.tableCount → q ≠ p → d'.load q = d.load q := by
  rcases d.reserve_cases key with ⟨d₁, p₁, hr, hfirst, hgrow, hlt, hfp⟩ | ⟨d₁, hr, -, -⟩
  · simp only [add, hr, Prod.mk.injEq, Option.some.injEq] at h
    obtain ⟨rfl, rfl⟩ := h
    refine ⟨?_, by rw [load_store, if_pos rfl], hgrow.shash, hfirst.mem, by rw [fp_store, hfp],
      fun q hq hne => by rw [load_store, if_neg hne, hgrow.load q hq]⟩
    rw [get_store, DLeft.get, find_iff, hfp, hgrow.shash]
    exact ⟨hfirst.take, hlt⟩
  · simp only [add, hr, Prod.mk.injEq, reduceCtorEq, and_false] at h

theorem add_none [Inhabited V] (h : d.add key v = (d', none)) : Grows d d' ∧ fp d' = fp d := by
  rcases d.reserve_cases key with ⟨d₁, p₁, hr, -⟩ | ⟨d₁, hr, hgrow, hfp⟩
  · simp only [add, hr, Prod.mk.injEq, reduceCtorEq, and_false] at h
  · simp only [add, hr, Prod.mk.injEq, and_true] at h
    exact h ▸ ⟨hgrow, hfp⟩

/-- `add` leaves the entry of a key of another fingerprint where it is. -/
theorem add_frame [Inhabited V] (h0 : fhash key ≠ 0) (hne : fhash key' ≠ fhash key)
    (hg : d.get key = some p) :
    (d.add key' v).1.get key = some p ∧ (d.add key' v).1.load p = d.load p := by
  obtain ⟨hp, hlt⟩ := get_hit hg
  rcases ha : d.add key' v with ⟨d', _ | p'⟩
  · obtain ⟨hgrow, hfp⟩ := add_none ha
    exact ⟨get_congr h0 hgrow.shash (fun q => by rw [hfp]) hg, hgrow.load p hlt⟩
  · obtain ⟨-, -, hsh, hfree, hfp, hload⟩ := add_some ha
    have hpp : p ≠ p' := by
      rintro rfl
      rcases hfree with h | h
      · exact h0 (hp.symm.trans h)
      · exact hne (h.symm.trans hp)
    refine ⟨get_congr h0 hsh (fun q => ?_) hg, hload p hlt hpp⟩
    rw [hfp]
    by_cases hq : q = p'
    · subst hq
      rw [Function.update_self]
      refine iff_of_false (fun h => ?_) hne
      rcases hfree with h' | h'
      · exact h0 (h.symm.trans h')
      · exact hne (h'.symm.trans h)
    · rw [Function.update_of_ne hq]

/-- `remove` leaves the entry of a key of another fingerprint where it is. -/
theorem remove_frame (h0 : fhash key ≠ 0) (hne : fhash key' ≠ fhash key)
    (hg : d.get key = some p) :
    (d.remove key').1.get key = some p ∧ (d.remove key').1.load p = d.load p := by
  unfold DLeft.remove
  rcases hf : d.find key' with _ | p'
  · exact ⟨hg, rfl⟩
  · obtain ⟨hp', hlt'⟩ := find_hit hf
    show (d.setHashKey p' 0).get key = some p ∧ (d.setHashKey p' 0).load p = d.load p
    have hsh : (d.setHashKey p' 0).shash = d.shash := rfl
    refine ⟨get_congr h0 hsh (fun q => ?_) hg, load_setHashKey ..⟩
    rw [fp_setHashKey hlt']
    by_cases hq : q = p'
    · subst hq
      rw [Function.update_self, hp']
      exact iff_of_false hne (Ne.symm h0)
    · rw [Function.update_of_ne hq]

end DLeft

theorem getElem?_set_cases {α : Type} {l : List α} {i j : ℕ} {a b : α}
    (h : (l.set i a)[j]? = some b) : (j = i ∧ b = a) ∨ (j ≠ i ∧ l[j]? = some b) := by
  rw [List.getElem?_set] at h
  by_cases hij : i = j
  · rw [if_pos hij] at h
    split_ifs at h
    exact .inl ⟨hij.symm, (Option.some.inj h).symm⟩
  · rw [if_neg hij] at h
    exact .inr ⟨Ne.symm hij, h⟩

/-! ## The entry a message has captured -/

variable {key key' : K} {d d' : DLeft StateData} {p : Slot}

/-- The entry found is still the flow's and stands at row `i`; with none, the row is the first. -/
def Fresh (d : DLeft StateData) (key : K) : Option Slot → ℤ → Prop
  | none, i => i = 0
  | some p, i => d.get key = some p ∧ (d.load p).id = i

/-- A write to an entry that keeps its state. -/
theorem Fresh.store {i : ℤ} (h : Fresh d key (some p) i) {q : Slot} {v : StateData}
    (hv : v.id = (d.load q).id) : Fresh (d.store q v) key (some p) i := by
  obtain ⟨hg, hid⟩ := h
  refine ⟨by rw [get_store, hg], ?_⟩
  rw [load_store]
  split_ifs with hpq
  · rw [hv, ← hpq, hid]
  · exact hid

theorem Fresh.store_ne {i : ℤ} (h : Fresh d key (some p) i) {q : Slot} (hne : p ≠ q)
    (v : StateData) : Fresh (d.store q v) key (some p) i := by
  obtain ⟨hg, hid⟩ := h
  exact ⟨by rw [get_store, hg], by rw [load_store, if_neg hne, hid]⟩

theorem Fresh.add {i : ℤ} (h : Fresh d key (some p) i) (h0 : fhash key ≠ 0)
    (hne : fhash key' ≠ fhash key) (v : StateData) :
    Fresh (d.add key' v).1 key (some p) i := by
  obtain ⟨hg, hid⟩ := h
  obtain ⟨hg', hload⟩ := add_frame (v := v) h0 hne hg
  exact ⟨hg', by rw [hload, hid]⟩

theorem Fresh.remove {i : ℤ} (h : Fresh d key (some p) i) (h0 : fhash key ≠ 0)
    (hne : fhash key' ≠ fhash key) : Fresh (d.remove key').1 key (some p) i := by
  obtain ⟨hg, hid⟩ := h
  obtain ⟨hg', hload⟩ := remove_frame h0 hne hg
  exact ⟨hg', by rw [hload, hid]⟩

/-- Adding to the node a key has, with the state it has. -/
theorem Fresh.add_inPlace {i : ℤ} (h : Fresh d key (some p) i) (h0 : fhash key ≠ 0) {q : Slot}
    {v : StateData} (hq : d.get key' = some q) (ha : d.add key' v = (d', some q))
    (hv : v.id = (d.load q).id) : Fresh d' key (some p) i := by
  obtain ⟨hg, hid⟩ := h
  obtain ⟨-, hload, hsh, -, hfp, hother⟩ := add_some ha
  rw [← (get_hit hq).1, Function.update_eq_self] at hfp
  refine ⟨get_congr h0 hsh (fun r => by rw [hfp]) hg, ?_⟩
  by_cases hpq : p = q
  · rw [hpq, hload, hv, ← hpq, hid]
  · rw [hother p (get_hit hg).2 hpq, hid]

/-! ## `EventFactory` -/

section Factory

variable {e : ℕ} {ev : Event} {tags tags' : Tags K Slot}

/-- The entry `_receive_msg` finds, moved on if it has expired. -/
theorem moveState_cases (h : EventFactory.moveState e ev d tags key' = some (d', tags')) :
    ∃ i info, tags' = { tags with stateInfo := info, state := some (e, i) } ∧
      Fresh d' key' info i ∧ (d' = d ∨ ∃ q, d.get key' = some q ∧
        EventFactory.Expired (d.load q) tags.timestamp ∧
        ((∃ v, d' = ((d.store q v).remove key').1) ∨ ∃ v w, d' = (d.store q v).store q w)) := by
  unfold EventFactory.moveState at h
  rcases hg : d.get key' with _ | q
  · simp only [IDictionary.get, hg, Option.some.injEq, Prod.mk.injEq] at h
    obtain ⟨rfl, rfl⟩ := h
    exact ⟨0, none, rfl, rfl, .inl rfl⟩
  · simp only [IDictionary.get, hg, Option.bind_eq_bind, Option.bind_eq_some_iff] at h
    obtain ⟨row, hrow, h⟩ := h
    split_ifs at h with hexp hq
    · simp only [Option.some.injEq, Prod.mk.injEq] at h
      obtain ⟨rfl, rfl⟩ := h
      exact ⟨0, none, rfl, rfl, .inr ⟨q, rfl, hexp, .inl ⟨_, rfl⟩⟩⟩
    · obtain ⟨next, hnext, h⟩ := Option.bind_eq_some_iff.1 h
      simp only [Option.some.injEq, Prod.mk.injEq] at h
      obtain ⟨rfl, rfl⟩ := h
      refine ⟨row.timeoutState, some q, rfl, ⟨?_, ?_⟩, .inr ⟨q, rfl, hexp, .inr ⟨_, _, rfl⟩⟩⟩
      · exact (get_store _ _ _ _).trans ((get_store _ _ _ _).trans hg)
      · show (DLeft.load (DLeft.store (DLeft.store d q _) q _) q).id = _
        rw [load_store, if_pos rfl]
        show (DLeft.load (DLeft.store d q _) q).id = _
        rw [load_store, if_pos rfl]
    · simp only [Option.some.injEq, Prod.mk.injEq] at h
      obtain ⟨rfl, rfl⟩ := h
      exact ⟨_, some q, rfl, ⟨hg, rfl⟩, .inl rfl⟩

/-- The entry of a flow survives the step of a flow that has not expired or has another
fingerprint. -/
theorem Fresh.moveState {i : ℤ} (hf : Fresh d key (some p) i) (h0 : fhash key ≠ 0)
    (hne : ∀ q, d.get key' = some q → EventFactory.Expired (d.load q) tags.timestamp →
      fhash key' ≠ fhash key)
    (h : EventFactory.moveState e ev d tags key' = some (d', tags')) :
    Fresh d' key (some p) i := by
  obtain ⟨-, -, -, -, rfl | ⟨q, hg, hexp, hd'⟩⟩ := moveState_cases h
  · exact hf
  · have hne := hne q hg hexp
    have hpq : p ≠ q := by
      rintro rfl
      exact hne ((get_hit hg).1.symm.trans (get_hit hf.1).1)
    rcases hd' with ⟨v, rfl⟩ | ⟨v, w, rfl⟩
    · exact (hf.store_ne hpq v).remove h0 hne
    · exact (hf.store_ne hpq v).store_ne hpq w

theorem receiveMsg_cases {events : List Event} {matcher : String → Bool} {now : UInt64}
    {sent : Bool}
    (h : EventFactory.receiveMsg events d tags matcher now = some (d', tags', sent)) :
    (EventFactory.findEvent events tags.tEventId matcher = some none ∧ d' = d ∧ tags' = tags ∧
      sent = false) ∨
    ∃ e ev key, EventFactory.findEvent events tags.tEventId matcher = some (some e) ∧
      events[e]? = some ev ∧ EventFactory.stateKey ev tags = some key ∧
      EventFactory.moveState e ev d { tags with timestamp := now, stateFlowkey := some key } key =
        some (d', tags') ∧
      ∃ e' i row, tags'.state = some (e', i) ∧ ev.row? i = some row ∧ sent = row.metricSet := by
  obtain ⟨found, hfind, h⟩ := Option.bind_eq_some_iff.1 h
  cases found with
  | none =>
    cases h
    exact .inl ⟨hfind, rfl, rfl, rfl⟩
  | some e =>
    obtain ⟨ev, hev, h⟩ := Option.bind_eq_some_iff.1 h
    obtain ⟨key, hkey, h⟩ := Option.bind_eq_some_iff.1 h
    obtain ⟨⟨d₁, tags₁⟩, hmove, h⟩ := Option.bind_eq_some_iff.1 h
    obtain ⟨⟨e', i⟩, hstate, h⟩ := Option.bind_eq_some_iff.1 h
    obtain ⟨row, hrow, h⟩ := Option.bind_eq_some_iff.1 h
    cases h
    exact .inr ⟨e, ev, key, hfind, hev, hkey, hmove, e', i, row, hstate, hrow, rfl⟩

end Factory

/-! ## `FilteringBlock` -/

section Filtering

variable {ev : Event} {tags : Tags K Slot}

theorem arm_cases {now : UInt64} {info : Option Slot} {next : ℤ}
    (h : FilteringBlock.arm ev d now info next = some d') :
    d' = d ∨ ∃ q v, d' = d.store q v ∧ v.id = (d.load q).id := by
  cases info with
  | none =>
    cases h
    exact .inl rfl
  | some q =>
    simp only [FilteringBlock.arm, Option.bind_eq_bind, Option.bind_eq_some_iff,
      Option.some.injEq] at h
    obtain ⟨row, -, rfl⟩ := h
    split_ifs
    · exact .inr ⟨q, _, rfl, rfl⟩
    · exact .inl rfl

theorem Fresh.arm {i : ℤ} (hf : Fresh d key (some p) i) {now : UInt64} {info : Option Slot}
    {next : ℤ} (h : FilteringBlock.arm ev d now info next = some d') :
    Fresh d' key (some p) i := by
  rcases arm_cases h with rfl | ⟨q, v, rfl, hv⟩
  · exact hf
  · exact hf.store hv

theorem takeTransition_cases {i : ℤ} {t : ConditionTuple} {info : Option Slot} {next : ℤ}
    (h : FilteringBlock.takeTransition d tags i t = some (d', info, next)) :
    (t.nextState = -1 ∧ d' = d ∧ info = tags.stateInfo ∧ next = i) ∨
    (t.nextState ≠ -1 ∧ ∃ key, tags.stateFlowkey = some key ∧
      d.add key ⟨t.nextState, 0⟩ = (d', info) ∧
      next = i - FilteringBlock.stateID d tags.stateInfo + t.nextState) := by
  unfold FilteringBlock.takeTransition at h
  split_ifs at h with hnext
  · obtain ⟨key, hkey, h⟩ := Option.bind_eq_some_iff.1 h
    simp only [Option.some.injEq, Prod.mk.injEq] at h
    obtain ⟨rfl, rfl, rfl⟩ := h
    exact .inr ⟨hnext, key, hkey, rfl, rfl⟩
  · simp only [Option.some.injEq, Prod.mk.injEq] at h
    obtain ⟨rfl, rfl, rfl⟩ := h
    exact .inl ⟨not_not.1 hnext, rfl, rfl, rfl⟩

theorem filterState_cases {events : List Event} {holds : String → Bool} {actions : List Action}
    (h : FilteringBlock.filterState events d tags holds = some (d', actions)) :
    ∃ e i ev row fired, tags.state = some (e, i) ∧ events[e]? = some ev ∧ ev.row? i = some row ∧
      FilteringBlock.fires row holds = some fired ∧
      actions = FilteringBlock.executed row fired ∧ match fired with
        | none => d' = d
        | some t => ∃ d₁ info next, FilteringBlock.takeTransition d tags i t =
            some (d₁, info, next) ∧
              FilteringBlock.arm ev d₁ tags.timestamp info next = some d' := by
  obtain ⟨⟨e, i⟩, hstate, h⟩ := Option.bind_eq_some_iff.1 h
  obtain ⟨ev, hev, h⟩ := Option.bind_eq_some_iff.1 h
  obtain ⟨row, hrow, h⟩ := Option.bind_eq_some_iff.1 h
  obtain ⟨fired, hfires, h⟩ := Option.bind_eq_some_iff.1 h
  refine ⟨e, i, ev, row, fired, hstate, hev, hrow, hfires, ?_⟩
  cases fired with
  | none =>
    cases h
    exact ⟨rfl, rfl⟩
  | some t =>
    obtain ⟨⟨d₁, info, next⟩, ht, h⟩ := Option.bind_eq_some_iff.1 h
    obtain ⟨d₂, ha, h⟩ := Option.bind_eq_some_iff.1 h
    cases h
    exact ⟨rfl, d₁, info, next, ht, ha⟩

end Filtering

end DStreamon
