import DStreamon.Moin
import DStreamon.EventFactory
import DStreamon.Lib.Forall2
import DStreamon.Timeout

/-!
# What the generated tables say

Every row is its state's, in the place of the state's number, and every number in it is one of a
state.  A row carries its state's timeout where the event lists the state, and none where it does
not.  The type a timeout function passes is the place of the class's event among all events.
-/

namespace DStreamon.Moin

open Forall2

theorem ok_of_bind {α β : Type} {x : Except String α} {f : α → Except String β} {b : β}
    (h : x >>= f = .ok b) : ∃ a, x = .ok a ∧ f a = .ok b := by
  cases x with
  | error e => cases h
  | ok a => exact ⟨a, rfl, h⟩

/-! ## Timeout classes -/

/-- The event at place `i` is the timeout event of the class. -/
def TimeoutAt (cfg : Config) (cls : String) (i : ℕ) : Prop :=
  ∃ ev, cfg.events[i]? = some ev ∧ ev.type = "timeout" ∧ ev.cls = cls

theorem fillFromEvents_ok :
    ∀ {events : List EventDef} {index : ℕ} {timeouts timeouts' : List (String × ℕ)},
      fillFromEvents events index timeouts = .ok timeouts' →
      (∀ cls n, timeouts'.lookup cls = some n ↔ timeouts.lookup cls = some n ∨
        ∃ j ev, events[j]? = some ev ∧ ev.type = "timeout" ∧ ev.cls = cls ∧ n = index + j) ∧
      timeouts'.length = timeouts.length + events.countP fun ev => ev.type = "timeout"
  | [], index, timeouts, timeouts', h => by
    cases h
    simp
  | ev :: events, index, timeouts, timeouts', h => by
    have hshift : ∀ cls n, (∃ j ev', events[j]? = some ev' ∧ ev'.type = "timeout" ∧
        ev'.cls = cls ∧ n = index + 1 + j) ↔ ∃ j ev', (ev :: events)[j + 1]? = some ev' ∧
        ev'.type = "timeout" ∧ ev'.cls = cls ∧ n = index + (j + 1) := by
      intro cls n
      simp only [List.getElem?_cons_succ, Nat.add_assoc, Nat.add_comm 1]
    have hsplit : ∀ cls n, (∃ j ev', (ev :: events)[j]? = some ev' ∧ ev'.type = "timeout" ∧
        ev'.cls = cls ∧ n = index + j) ↔ (ev.type = "timeout" ∧ ev.cls = cls ∧ n = index) ∨
        ∃ j ev', (ev :: events)[j + 1]? = some ev' ∧ ev'.type = "timeout" ∧ ev'.cls = cls ∧
          n = index + (j + 1) := by
      intro cls n
      constructor
      · rintro ⟨_ | j, ev', hj, ht, hc, hn⟩
        · cases hj
          exact .inl ⟨ht, hc, hn⟩
        · exact .inr ⟨j, ev', hj, ht, hc, hn⟩
      · rintro (⟨ht, hc, hn⟩ | ⟨j, h⟩)
        · exact ⟨0, ev, rfl, ht, hc, hn⟩
        · exact ⟨j + 1, h⟩
    simp only [fillFromEvents] at h
    split_ifs at h with ht hsome
    · obtain ⟨hlook, hlen⟩ := fillFromEvents_ok h
      have hnone : timeouts.lookup ev.cls = none := Option.not_isSome_iff_eq_none.1 hsome
      refine ⟨fun cls n => ?_, by rw [hlen]; simp [ht]; omega⟩
      rw [hlook, hshift, hsplit, List.lookup_cons]
      by_cases hc : cls = ev.cls
      · subst hc
        simp [ht, hnone, eq_comm]
      · have hne : (cls == ev.cls) = false := beq_false_of_ne hc
        simp [hne, Ne.symm hc]
    · obtain ⟨hlook, hlen⟩ := fillFromEvents_ok h
      refine ⟨fun cls n => ?_, by rw [hlen]; simp [ht]⟩
      rw [hlook, hshift, hsplit]
      simp [ht]

theorem lookup_iff_timeoutAt {cfg : Config} {timeouts : List (String × ℕ)}
    (h : fillFromEvents cfg.events 0 [] = .ok timeouts) {cls : String} {n : ℕ} :
    timeouts.lookup cls = some n ↔ TimeoutAt cfg cls n := by
  rw [(fillFromEvents_ok h).1]
  constructor
  · rintro (h | ⟨j, ev, hj, ht, hc, rfl⟩)
    · cases h
    · exact ⟨ev, by simpa using hj, ht, hc⟩
  · rintro ⟨ev, hj, ht, hc⟩
    exact .inr ⟨n, ev, hj, ht, hc, by omega⟩

/-! ## Rows -/

/-- The function generated for a `timeout_set` element passes the place of its class. -/
def FunctionOf (timeouts : List (String × ℕ)) (f : TimeoutSet × Action) : Prop :=
  ∃ key evid pkey, f.2 = .timeoutSet key f.1.value evid pkey ∧
    timeouts.lookup f.1.cls = some evid

def Lists (ev : EventDef) (name : String) : Prop := ∃ s ∈ ev.states, s.id = name

instance (ev : EventDef) (name : String) : Decidable (Lists ev name) :=
  inferInstanceAs (Decidable (∃ s ∈ ev.states, s.id = name))

/-- What the row of a state's entry in an event's table holds. -/
structure RowOf (timeouts : List (String × ℕ)) (table : List StateEntry) (ev : EventDef)
    (e : StateEntry) (row : Row) : Prop where
  id : row.id = e.id
  listed : Lists ev e.name → row.conditionList.isSome = true ∧ row.timeout = e.timeout ∧
    row.timeoutState = timeoutStateId table e.onTimeout
  unlisted : ¬ Lists ev e.name → row.conditionList = none ∧ row.timeout = 0 ∧
    row.timeoutState = 0
  nextState : ∀ tuples, row.conditionList = some tuples → ∀ t ∈ tuples,
    ∃ e' ∈ table, t.nextState = e'.id
  functions : ∀ f ∈ row.functions, FunctionOf timeouts f
  actions : ∀ a ∈ row.actions, (∃ o, a = .other o) ∨ ∃ f ∈ row.functions, f.2 = a

section Rows

variable {tokens tokens' : Fields} {timeouts : List (String × ℕ)} {table : List StateEntry}

theorem parseOne_ok {ts : TimeoutSet} {a : Action} (h : parseOne tokens timeouts ts = .ok a) :
    FunctionOf timeouts (ts, a) := by
  unfold parseOne at h
  split at h
  · cases h
  · split at h
    · cases h
    · next evid hl =>
      split at h
      · cases h
      · cases h
        exact ⟨_, evid, _, rfl, hl⟩

theorem parseAll_ok : ∀ {sets : List TimeoutSet} {fs : List (TimeoutSet × Action)},
    parseAll tokens timeouts sets = .ok fs → ∀ f ∈ fs, FunctionOf timeouts f
  | [], fs, h => by
    cases h
    simp
  | ts :: rest, fs, h => by
    obtain ⟨a, ha, h⟩ := ok_of_bind h
    obtain ⟨as, has, h⟩ := ok_of_bind h
    cases h
    intro f hf
    rcases List.mem_cons.1 hf with rfl | hf
    · exact parseOne_ok ha
    · exact parseAll_ok has f hf

theorem mem_of_lookupState {name : String} {e : StateEntry} (h : lookupState table name = some e) :
    e ∈ table ∧ e.name = name :=
  ⟨List.mem_of_find?_eq_some h, by simpa using List.find?_some h⟩

/-- What the conditions of a state are generated to. -/
structure ConditionsOf (timeouts : List (String × ℕ)) (table : List StateEntry)
    (tuples : List ConditionTuple) (fs : List (TimeoutSet × Action)) : Prop where
  nextState : ∀ t ∈ tuples, ∃ e ∈ table, t.nextState = e.id
  functions : ∀ f ∈ fs, FunctionOf timeouts f
  actions : ∀ t ∈ tuples, ∀ a ∈ t.action, (∃ o, a = .other o) ∨ ∃ f ∈ fs, f.2 = a

theorem genConditions_ok : ∀ {cs : List Condition} {tuples : List ConditionTuple}
    {fs : List (TimeoutSet × Action)},
    genConditions tokens timeouts table cs = .ok (tuples, fs) →
      ConditionsOf timeouts table tuples fs
  | [], tuples, fs, h => by
    cases h
    exact ⟨by simp, by simp, by simp⟩
  | c :: rest, tuples, fs, h => by
    obtain ⟨functions, hp, h⟩ := ok_of_bind h
    split at h
    · cases h
    · next e he =>
      obtain ⟨⟨tuples', more⟩, hrest, h⟩ := ok_of_bind h
      cases h
      have ih := genConditions_ok hrest
      refine ⟨fun t hmem => ?_, fun f hmem => ?_, fun t hmem a ha => ?_⟩
      · rcases List.mem_cons.1 hmem with rfl | hmem
        · exact ⟨e, (mem_of_lookupState he).1, rfl⟩
        · exact ih.nextState t hmem
      · rcases List.mem_append.1 hmem with hmem | hmem
        · exact parseAll_ok hp f hmem
        · exact ih.functions f hmem
      · rcases List.mem_cons.1 hmem with rfl | hmem
        · rcases List.mem_append.1 ha with ha | ha
          · obtain ⟨f, hf, rfl⟩ := List.mem_map.1 ha
            exact .inr ⟨f, List.mem_append_left _ hf, rfl⟩
          · obtain ⟨o, -, rfl⟩ := List.mem_map.1 ha
            exact .inl ⟨o, rfl⟩
        · refine (ih.actions t hmem a ha).imp_right ?_
          rintro ⟨f, hf, rfl⟩
          exact ⟨f, List.mem_append_right _ hf, rfl⟩

theorem genPostAction_ok {p : Option PostAction} {post : List Action}
    {fs : List (TimeoutSet × Action)} (h : genPostAction tokens timeouts p = .ok (post, fs)) :
    (∀ f ∈ fs, FunctionOf timeouts f) ∧
      ∀ a ∈ post, (∃ o, a = .other o) ∨ ∃ f ∈ fs, f.2 = a := by
  cases p with
  | none =>
    cases h
    simp
  | some p =>
    obtain ⟨functions, hp, h⟩ := ok_of_bind h
    cases h
    refine ⟨parseAll_ok hp, fun a ha => ?_⟩
    rcases List.mem_append.1 ha with ha | ha
    · obtain ⟨o, -, rfl⟩ := List.mem_map.1 ha
      exact .inl ⟨o, rfl⟩
    · obtain ⟨f, hf, rfl⟩ := List.mem_map.1 ha
      exact .inr ⟨f, hf, rfl⟩

theorem genRow_ok {ev : EventDef} {e : StateEntry} {row : Row}
    (h : genRow tokens timeouts table ev e = .ok (tokens', row)) :
    RowOf timeouts table ev e row := by
  unfold genRow at h
  split at h
  · next hnone =>
    cases h
    have hnot : ¬ Lists ev e.name := by
      rintro ⟨s, hs, hid⟩
      have := List.find?_eq_none.1 hnone s (List.mem_reverse.2 hs)
      simp [hid] at this
    refine ⟨rfl, fun hl => absurd hl hnot, fun _ => ⟨rfl, rfl, rfl⟩, fun _ h => ?_, by simp,
      by simp [Row.actions]⟩
    cases h
  · next s hs =>
    have hlists : Lists ev e.name :=
      ⟨s, List.mem_reverse.1 (List.mem_of_find?_eq_some hs), by simpa using List.find?_some hs⟩
    obtain ⟨⟨tuples, functions⟩, hc, h⟩ := ok_of_bind h
    obtain ⟨⟨post, more⟩, hpost, h⟩ := ok_of_bind h
    cases h
    have hcs := genConditions_ok hc
    obtain ⟨hpf, hpa⟩ := genPostAction_ok hpost
    refine ⟨rfl, fun _ => ⟨rfl, rfl, rfl⟩, fun hn => absurd hlists hn, ?_, fun f hmem => ?_,
      fun a ha => ?_⟩
    · rintro _ ⟨⟩
      exact hcs.nextState
    · rcases List.mem_append.1 hmem with hmem | hmem
      · exact hcs.functions f hmem
      · exact hpf f hmem
    · rcases List.mem_append.1 ha with ha | ha
      · obtain ⟨t, ht, ha⟩ := List.mem_flatMap.1 ha
        refine (hcs.actions t ht a ha).imp_right ?_
        rintro ⟨f, hf, rfl⟩
        exact ⟨f, List.mem_append_left _ hf, rfl⟩
      · refine (hpa a ha).imp_right ?_
        rintro ⟨f, hf, rfl⟩
        exact ⟨f, List.mem_append_right _ hf, rfl⟩

theorem genRows_ok {ev : EventDef} : ∀ {entries : List StateEntry} {tokens tokens' : Fields}
    {rows : List Row}, genRows timeouts table ev tokens entries = .ok (tokens', rows) →
      List.Forall₂ (RowOf timeouts table ev) entries rows
  | [], tokens, tokens', rows, h => by
    cases h
    exact .nil
  | e :: rest, tokens, tokens', rows, h => by
    obtain ⟨⟨tokens₁, row⟩, hrow, h⟩ := ok_of_bind h
    obtain ⟨⟨tokens₂, rows'⟩, hrest, h⟩ := ok_of_bind h
    cases h
    exact .cons (genRow_ok hrow) (genRows_ok hrest)

theorem genEvents_ok : ∀ {defs : List EventDef} {tokens : Fields} {events : List GenEvent},
    genEvents timeouts table tokens defs = .ok events →
      List.Forall₂ (fun ev ge => List.Forall₂ (RowOf timeouts table ev) table ge.rows) defs events
  | [], tokens, events, h => by
    cases h
    exact .nil
  | ev :: rest, tokens, events, h => by
    obtain ⟨⟨tokens₁, rows⟩, hrows, h⟩ := ok_of_bind h
    obtain ⟨events', hrest, h⟩ := ok_of_bind h
    cases h
    exact .cons (genRows_ok hrows) (genEvents_ok hrest)

end Rows

variable {cfg : Config} {out : Output}

/-- What is generated from an accepted configuration, row by row. -/
theorem moin_ok (h : moin cfg = .ok out) : ∃ timeouts,
    fillFromEvents cfg.events 0 [] = .ok timeouts ∧ out.timeoutClasses = timeouts.length ∧
      List.Forall₂ (fun ev ge => List.Forall₂ (RowOf timeouts (statesTable cfg) ev)
        (statesTable cfg) ge.rows) cfg.events out.events := by
  obtain ⟨timeouts, ht, h⟩ := ok_of_bind h
  obtain ⟨events, he, h⟩ := ok_of_bind h
  cases h
  exact ⟨timeouts, ht, rfl, genEvents_ok he⟩

/-- Every generated row is the row of some state in the table of some event. -/
theorem moin_row {timeouts : List (String × ℕ)} (h : moin cfg = .ok out)
    (ht : fillFromEvents cfg.events 0 [] = .ok timeouts) {ge : GenEvent} (hge : ge ∈ out.events)
    {row : Row} (hrow : row ∈ ge.rows) :
    ∃ ev ∈ cfg.events, ∃ e ∈ statesTable cfg, RowOf timeouts (statesTable cfg) ev e row := by
  obtain ⟨timeouts', ht', -, hall⟩ := moin_ok h
  obtain rfl : timeouts = timeouts' := Except.ok.inj (ht.symm.trans ht')
  obtain ⟨ev, hev, hrows⟩ := exists_left hall hge
  obtain ⟨e, he, hof⟩ := exists_left hrows hrow
  exact ⟨ev, hev, e, he, hof⟩

/-! ## The types of timers -/

def packets (events : List EventDef) : ℕ := events.countP fun ev => ¬ ev.type = "timeout"

def timeouts (events : List EventDef) : ℕ := events.countP fun ev => ev.type = "timeout"

/-- The type a function passes to `Set` has a table, and it is the place of its class's event, the
one an expiry runs. -/
def TypeAgrees (cfg : Config) (out : Output) (f : TimeoutSet × Action) : Prop :=
  ∀ key value evid pkey, f.2 = .timeoutSet key value evid pkey →
    (UInt16.ofNat evid).toNat <
      (TimeoutManager.new out.timeoutClasses : TimeoutManager ℕ ℕ ℕ).timeoutTables.length ∧
    TimeoutAt cfg f.1.cls (UInt16.ofNat evid).toNat ∧
    ∀ events matcher, out.compile = some events →
      EventFactory.findEvent events (UInt16.ofNat evid).toNat matcher =
        some (some (UInt16.ofNat evid).toNat)

theorem lt_timeouts_iff {events : List EventDef} {i : ℕ} (hi : i < events.length) :
    i < timeouts events ↔ packets (events.take i) < timeouts (events.drop i) := by
  have htake : (events.take i).length = timeouts (events.take i) + packets (events.take i) := by
    rw [timeouts, packets,
      List.length_eq_countP_add_countP fun ev : EventDef => ev.type = "timeout"]
    simp
  have hsplit : timeouts events = timeouts (events.take i) + timeouts (events.drop i) := by
    simp only [timeouts, ← List.countP_append, List.take_append_drop]
  rw [List.length_take, min_eq_left hi.le] at htake
  omega

/-- The types timers are set with agree with the tables and events exactly where every class set
has its event among the first, fewer packet events before it than timeout events from it on. -/
theorem timeout_types_agree (h : moin cfg = .ok out) :
    (∀ ge ∈ out.events, ∀ row ∈ ge.rows, ∀ f ∈ row.functions, TypeAgrees cfg out f) ↔
      ∀ ge ∈ out.events, ∀ row ∈ ge.rows, ∀ f ∈ row.functions, ∀ i, TimeoutAt cfg f.1.cls i →
        packets (cfg.events.take i) < timeouts (cfg.events.drop i) ∧ i < 2 ^ 16 := by
  obtain ⟨classes, ht, hlen, hall⟩ := moin_ok h
  have hcount : out.timeoutClasses = timeouts cfg.events := by
    rw [hlen, (fillFromEvents_ok ht).2]
    exact Nat.zero_add _
  refine forall₂_congr fun ge hge => forall₂_congr fun row hrow => forall₂_congr fun f hf => ?_
  obtain ⟨ev, -, e, -, hof⟩ := moin_row h ht hge hrow
  obtain ⟨key, evid, pkey, hact, hlook⟩ := hof.functions f hf
  have hat := (lookup_iff_timeoutAt ht).1 hlook
  have hlt : evid < cfg.events.length := by
    obtain ⟨ev, hev, -⟩ := hat
    exact (List.getElem?_eq_some_iff.1 hev).1
  have huniq : ∀ {i}, TimeoutAt cfg f.1.cls i → i = evid := fun hi =>
    Option.some.inj (((lookup_iff_timeoutAt ht).2 hi).symm.trans hlook)
  have htables : ∀ n, (TimeoutManager.new n : TimeoutManager ℕ ℕ ℕ).timeoutTables.length = n :=
    fun n => List.length_replicate
  constructor
  · intro hagree i hi
    obtain ⟨hn, hat', -⟩ := hagree _ _ _ _ hact
    obtain rfl := huniq hi
    have hmod := huniq hat'
    have h16 : i < 2 ^ 16 := by
      rw [← hmod]
      exact UInt16.toNat_lt _
    rw [hmod, htables, hcount] at hn
    exact ⟨(lt_timeouts_iff hlt).1 hn, h16⟩
  · intro hcond key' value' evid' pkey' hact'
    rw [hact] at hact'
    obtain ⟨-, -, rfl, -⟩ := Action.timeoutSet.inj hact'
    obtain ⟨hn, h16⟩ := hcond evid hat
    have hmod : (UInt16.ofNat evid).toNat = evid := UInt16.toNat_ofNat_of_lt' h16
    rw [hmod, htables, hcount]
    refine ⟨(lt_timeouts_iff hlt).2 hn, hat, fun events matcher hc => ?_⟩
    have hlen' : events.length = cfg.events.length :=
      (of_mapM hc).length_eq.symm.trans hall.length_eq.symm
    have hne : (evid : ℤ) ≠ -1 := by omega
    simp only [EventFactory.findEvent, hne, ne_eq, not_false_eq_true, if_true, hlen',
      Int.toNat_natCast]
    rw [if_pos (by omega)]

/-- A state in which a packet event, counted by `ip`, sets a timer of class `c`. -/
def armed : State := ⟨"s", ["ip"], [⟨"true", "s", [], [⟨"c", "ip", 5, ""⟩]⟩], none⟩

def packetEvent (states : List State) : EventDef := ⟨"packet", "", "ip", "ip", states⟩

def timeoutEvent (states : List State) : EventDef := ⟨"timeout", "c", "ip", "", states⟩

def timeoutFirst : Config :=
  ⟨[("ip", 0)], [⟨"s", none, ""⟩], [timeoutEvent [], packetEvent [armed]]⟩

def timeoutLast : Config :=
  ⟨[("ip", 0)], [⟨"s", none, ""⟩], [packetEvent [armed], timeoutEvent []]⟩

theorem timeout_types_agree_first : ∃ out, moin timeoutFirst = .ok out ∧
    ∀ ge ∈ out.events, ∀ row ∈ ge.rows, ∀ f ∈ row.functions, TypeAgrees timeoutFirst out f := by
  refine ⟨_, rfl, (timeout_types_agree rfl).2 fun ge _ row _ f _ i hi => ?_⟩
  obtain ⟨ev, hev, ht, -⟩ := hi
  match i, hev with
  | 0, _ => decide
  | 1, hev =>
    cases hev
    exact absurd ht (by decide)

/-- With the packet event first there is one table, and the type is `1`. -/
theorem timeout_types_disagree : ¬ ∀ cfg out, moin cfg = .ok out →
    ∀ ge ∈ out.events, ∀ row ∈ ge.rows, ∀ f ∈ row.functions, TypeAgrees cfg out f := by
  intro h
  have hagree := h timeoutLast _ rfl _ List.mem_cons_self _ List.mem_cons_self _
    List.mem_cons_self
  exact absurd (hagree 0 5 1 none rfl).1 (by decide)

end DStreamon.Moin
