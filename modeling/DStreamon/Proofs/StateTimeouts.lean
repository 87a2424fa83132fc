import DStreamon.Proofs.Xfsm

/-!
# Timeouts of states

Each event has its own row for a state.  When the row carries the timeout its `statedef` declares,
and the machine it makes when every event's does.
-/

namespace DStreamon.Moin

open Forall2 StepRun

/-! ## Rows of a state -/

/-- The number of the state a `statedef` leads to, `0` if none. -/
def nextId (cfg : Config) (s : Statedef) : ℤ := timeoutStateId (statesTable cfg) s.onTimeout

/-- The row of the state in the rows of an event. -/
def IsRowOf (cfg : Config) (ge : GenEvent) (s : Statedef) (row : Row) : Prop :=
  ∃ (j : ℕ) (e : StateEntry),
    (statesTable cfg)[j]? = some e ∧ e.name = s.id ∧ ge.rows[j]? = some row

/-- The row carries the timeout of the `statedef` and the state it leads to. -/
def Carries (cfg : Config) (s : Statedef) (row : Row) : Prop :=
  row.timeout = s.expire ∧ row.timeoutState = nextId cfg s

/-- An event that lists a named state has the timeout of the first `statedef` of the name; any
other has none. -/
def KeepsTimeout (cfg : Config) (evd : EventDef) (s : Statedef) : Prop :=
  if s.id ≠ "" ∧ Lists evd s.id then
    ∀ s₁ ∈ cfg.statedefs.find? fun s' => s'.id = s.id,
      s₁.expire = s.expire ∧ nextId cfg s₁ = nextId cfg s
  else s.expire = 0 ∧ nextId cfg s = 0

instance (cfg : Config) (evd : EventDef) (s : Statedef) : Decidable (KeepsTimeout cfg evd s) := by
  unfold KeepsTimeout
  infer_instance

section Row

variable {cfg : Config} {timeouts : List (String × ℕ)} {evd : EventDef} {e : StateEntry} {row : Row}

/-- What a row holds of its state's first `statedef`. -/
theorem row_of_first (hof : RowOf timeouts (statesTable cfg) evd e row) (he : e ∈ statesTable cfg)
    (hname : e.name ≠ "") (hl : Lists evd e.name) :
    ∃ s₁, cfg.statedefs.find? (fun s => s.id = e.name) = some s₁ ∧ Carries cfg s₁ row := by
  obtain ⟨s₁, hs₁, htimeout, hnext⟩ := statesTable_ofFirst he hname
  obtain ⟨-, hrow, hrow'⟩ := hof.listed hl
  exact ⟨s₁, hs₁, hrow.trans htimeout, hrow'.trans (by rw [hnext, nextId])⟩

theorem row_of_none (hof : RowOf timeouts (statesTable cfg) evd e row) (he : e ∈ statesTable cfg)
    (h : ¬ (e.name ≠ "" ∧ Lists evd e.name)) : row.timeout = 0 ∧ row.timeoutState = 0 := by
  by_cases hl : Lists evd e.name
  · have hname : e.name = "" := by
      by_contra hname
      exact h ⟨hname, hl⟩
    obtain ⟨-, hrow, hrow'⟩ := hof.listed hl
    rw [statesTable_noState he hname] at hrow hrow'
    exact ⟨hrow, hrow'⟩
  · obtain ⟨-, hrow, hrow'⟩ := hof.unlisted hl
    exact ⟨hrow, hrow'⟩

theorem carries_iff (hof : RowOf timeouts (statesTable cfg) evd e row) (he : e ∈ statesTable cfg)
    {s : Statedef} (hname : e.name = s.id) : Carries cfg s row ↔ KeepsTimeout cfg evd s := by
  unfold KeepsTimeout
  split_ifs with hcond
  · rw [← hname] at hcond
    obtain ⟨s₁, hs₁, hrow, hrow'⟩ := row_of_first hof he hcond.1 hcond.2
    rw [hname] at hs₁
    rw [Carries, hrow, hrow']
    constructor
    · rintro h s₂ hs₂
      obtain rfl := Option.some.inj (hs₁.symm.trans hs₂)
      exact h
    · exact fun h => h s₁ hs₁
  · rw [← hname] at hcond
    obtain ⟨hrow, hrow'⟩ := row_of_none hof he hcond
    rw [Carries, hrow, hrow']
    exact and_congr eq_comm eq_comm

end Row

/-! ## The machine of the states -/

/-- The `statedef` whose state has number `i`. -/
def statedef? (cfg : Config) (i : ℤ) : Option Statedef :=
  cfg.statedefs.find? fun s => (lookupState (statesTable cfg) s.id).any fun e => e.id = i

/-- A row with the timeout its state declares. -/
def timedRow (cfg : Config) (i : ℤ) (row : StateTuple) : StateTuple :=
  match statedef? cfg i with
  | none => row
  | some s => { row with timeout := UInt32.ofNat s.expire.toNat, timeoutState := nextId cfg s }

/-- The rows of the events, every event's with the timeouts the states declare. -/
def timedRows (cfg : Config) (events : List Event) (e : ℕ) (i : ℤ) : StateTuple :=
  timedRow cfg i (rowOf events e i)

/-- A state's timeout is the state's: every event's row carries it, and packets run the machine
whose timeouts are the declared ones, whatever the event. -/
structure StateTimeouts (cfg : Config) (out : Output) : Prop where
  carries : ∀ ge ∈ out.events, ∀ s ∈ cfg.statedefs, ∀ row, IsRowOf cfg ge s row →
    Carries cfg s row
  runs : ∀ events, out.compile = some events → ∀ (K : Type) [DecidableEq K]
    (packets : List (Packet K)) (d : FlowMap K),
    run (processPacket events) .empty packets = some d → ∀ k, d.entry k =
      (packets.filter fun p => p.key? events = some k).foldl
        (xfsmStep events (timedRows cfg events)) none

section Timed

variable {cfg : Config} {out : Output} {events : List Event}

/-- The state of a number has its entry with that number. -/
theorem statedef?_entry {i : ℤ} {s : Statedef} (h : statedef? cfg i = some s) :
    s ∈ cfg.statedefs ∧ ∃ e ∈ statesTable cfg, e.name = s.id ∧ e.id = i := by
  have hany := List.find?_some h
  obtain ⟨e, he, hid⟩ := (Option.any_eq_true _ _).1 hany
  obtain ⟨hmem, hname⟩ := mem_of_lookupState he
  exact ⟨List.mem_of_find?_eq_some h, e, hmem, hname, by simpa using hid⟩

theorem timedRows_eq (h : moin cfg = .ok out) (hc : out.compile = some events)
    (hkeeps : ∀ evd ∈ cfg.events, ∀ s ∈ cfg.statedefs, KeepsTimeout cfg evd s)
    {e : ℕ} {ev : Event} (hev : events[e]? = some ev) :
    timedRows cfg events e = rowOf events e := by
  funext i
  unfold timedRows timedRow
  split
  · rfl
  · next s hs =>
    obtain ⟨hmem, entry, hentry, hname, hid⟩ := statedef?_entry hs
    obtain ⟨evd, hevd, hrows⟩ := exists_left (compiled_ok h hc) (List.mem_of_getElem? hev)
    have hkeep := hkeeps evd hevd s hmem
    by_cases hne : entry.name = ""
    · have hi : i = -1 := by rw [← hid, statesTable_noState hentry hne, noState]
      have hrow : rowOf events e i = default := by
        rw [rowOf_eq hev, hi]
        rfl
      have hnot : ¬ (s.id ≠ "" ∧ Lists evd s.id) := fun hn => hn.1 (hname ▸ hne)
      rw [KeepsTimeout, if_neg hnot] at hkeep
      rw [hrow, hkeep.1, hkeep.2]
      rfl
    · obtain ⟨j, hj⟩ := List.mem_iff_getElem?.1 hentry
      have hij : i = j := hid ▸ (statesTable_numbered cfg).id hj hne
      obtain ⟨t, ht, timeouts, row, hof, hcomp⟩ := getElem?_right hrows hj
      have hrow : rowOf events e i = t := by
        rw [rowOf_eq hev, hij, Event.row?, if_pos (by omega), Int.toNat_natCast, ht]
        rfl
      obtain ⟨-, -, rfl⟩ := compile_row hcomp
      obtain ⟨htimeout, hnext⟩ := (carries_iff hof hentry hname).2 hkeep
      rw [hrow, ← htimeout, ← hnext]

theorem xfsmStep_timed (h : moin cfg = .ok out) (hc : out.compile = some events)
    (hkeeps : ∀ evd ∈ cfg.events, ∀ s ∈ cfg.statedefs, KeepsTimeout cfg evd s) {K : Type} :
    xfsmStep (K := K) events (timedRows cfg events) = xfsmStep events (rowOf events) := by
  funext entry p
  unfold xfsmStep
  split
  · rfl
  · next e he =>
    obtain ⟨ev, hev⟩ := event_of_event? he
    rw [timedRows_eq h hc hkeeps hev]

end Timed

/-- Timeouts are the states' own exactly when every event keeps the timeout of every state. -/
theorem state_timeouts_iff {cfg : Config} {out : Output} (h : moin cfg = .ok out) :
    StateTimeouts cfg out ↔
      ∀ evd ∈ cfg.events, ∀ s ∈ cfg.statedefs, KeepsTimeout cfg evd s := by
  obtain ⟨timeouts, ht, -, hall⟩ := moin_ok h
  constructor
  · intro hst evd hevd s hs
    obtain ⟨i, hi⟩ := List.mem_iff_getElem?.1 hevd
    obtain ⟨ge, hge, hrows⟩ := getElem?_right hall hi
    obtain ⟨e, he, hname⟩ := exists_statesTable hs
    obtain ⟨j, hj⟩ := List.mem_iff_getElem?.1 he
    obtain ⟨row, hrow, hof⟩ := getElem?_right hrows hj
    have hcarries := hst.carries ge (List.mem_of_getElem? hge) s hs row ⟨j, e, hj, hname, hrow⟩
    exact (carries_iff hof he hname).1 hcarries
  · intro hkeeps
    refine ⟨?_, fun events hc K _ packets d hd k => ?_⟩
    · rintro ge hge s hs row ⟨j, e, hj, hname, hrow⟩
      obtain ⟨evd, hevd, hrows⟩ := exists_left hall hge
      obtain ⟨row', hrow', hof⟩ := getElem?_right hrows hj
      obtain rfl := Option.some.inj (hrow.symm.trans hrow')
      exact (carries_iff hof (List.mem_of_getElem? hj) hname).2 (hkeeps evd hevd s hs)
    · rw [xfsmStep_timed h hc hkeeps]
      exact run_entry (moin_emitted h hc) packets hd k

theorem state_timeouts_handshake : ∃ out, moin (handshake [packetEvent [idle, busy]]) = .ok out ∧
    StateTimeouts (handshake [packetEvent [idle, busy]]) out :=
  ⟨_, rfl, (state_timeouts_iff rfl).2 (by decide)⟩

/-- The timeout event does not list `busy`: its row has neither the ten seconds nor `idle`. -/
theorem state_timeouts_fail :
    ¬ ∀ cfg out, moin cfg = .ok out → StateTimeouts cfg out := by
  intro h
  have hst := h (handshake [packetEvent [idle, busy], timeoutEvent [idle]]) _ rfl
  have hcarries := hst.carries _ (List.mem_cons_of_mem _ List.mem_cons_self)
    ⟨"busy", some 10, "idle"⟩ (List.mem_cons_of_mem _ List.mem_cons_self) _ ⟨1, _, rfl, rfl, rfl⟩
  exact absurd hcarries.1 (by decide)

end DStreamon.Moin
