import DStreamon.Proofs.StatesTable

/-!
# Packets one at a time run the machine

Over the generated tables the numbers the blocks read as rows stay in range, and a packet through
both blocks is one step of the machine on the entry of its own flow.
-/

namespace DStreamon

open StepRun

section Rows

variable {n : ℕ} {ev : Event}

theorem Emitted.row? (h : Emitted n ev) {i : ℤ} (h0 : 0 ≤ i) (hn : i < n) :
    ∃ row ∈ ev.stateTable, ev.row? i = some row := by
  have hlt : i.toNat < ev.stateTable.length := by
    rw [h.length]
    omega
  refine ⟨ev.stateTable[i.toNat], List.getElem_mem hlt, ?_⟩
  rw [Event.row?, if_pos h0, List.getElem?_eq_getElem hlt]

theorem rowOf_eq {events : List Event} {e : ℕ} (hev : events[e]? = some ev) (i : ℤ) :
    rowOf events e i = (ev.row? i).getD default := by
  rw [rowOf, hev]
  rfl

theorem Emitted.row?_rowOf {events : List Event} {e : ℕ} (h : Emitted n ev)
    (hev : events[e]? = some ev) {i : ℤ} (h0 : 0 ≤ i) (hn : i < n) :
    ev.row? i = some (rowOf events e i) ∧ rowOf events e i ∈ ev.stateTable := by
  obtain ⟨row, hmem, hrow⟩ := h.row? h0 hn
  rw [rowOf_eq hev, hrow]
  exact ⟨rfl, hmem⟩

end Rows

variable {K : Type} [DecidableEq K] {events : List Event} {n : ℕ}

/-- The entry stands at a row. -/
def InRange (n : ℕ) (entry : Option StateData) : Prop := ∀ s, entry = some s → 0 ≤ s.id ∧ s.id < n

/-- Row `i` is the one the entry, if any, stands at. -/
structure Found (n : ℕ) (entry : Option StateData) (i : ℤ) : Prop where
  nonneg : 0 ≤ i
  lt : i < n
  id : (match entry with
    | none => 0
    | some s => s.id) = i

section Packet

variable {e : ℕ} {ev : Event} {d : FlowMap K} {key : K}

theorem load_entry {s : StateData} (h : d.entry key = some s) : IEntries.load d key = s := by
  simp only [IEntries.load, h, Option.getD_some]

theorem expireStep_found (hem : Emitted n ev) (hev : events[e]? = some ev) (now : UInt64)
    {entry : Option StateData} (hentry : InRange n entry) :
    Found n (expireStep (rowOf events e) now entry).1
      (expireStep (rowOf events e) now entry).2 := by
  have hpos : (0 : ℤ) < n := by exact_mod_cast hem.pos
  cases entry with
  | none => exact ⟨le_rfl, hpos, rfl⟩
  | some s =>
    obtain ⟨h0, hn⟩ := hentry s rfl
    obtain ⟨q0, qn⟩ := hem.timeoutState _ (hem.row?_rowOf hev h0 hn).2
    by_cases hexp : EventFactory.Expired s now
    · by_cases hq : (rowOf events e s.id).timeoutState = 0
      · simp only [expireStep, hexp, if_true, hq]
        exact ⟨le_rfl, hpos, rfl⟩
      · simp only [expireStep, hexp, if_true, hq, if_false]
        exact ⟨q0, qn, rfl⟩
    · simp only [expireStep, hexp, if_false]
      exact ⟨h0, hn, rfl⟩

theorem moveState_eq (hem : Emitted n ev) (hev : events[e]? = some ev)
    (hd : InRange n (d.entry key)) (tags : Tags K K) {moved : Option StateData × ℤ}
    (hmoved : expireStep (rowOf events e) tags.timestamp (d.entry key) = moved) :
    EventFactory.moveState e ev d tags key = some (d.set key moved.1,
      { tags with stateInfo := moved.1.map fun _ => key, state := some (e, moved.2) }) := by
  cases hk : d.entry key with
  | none =>
    have hget : IDictionary.get d key = none := by simp only [IDictionary.get, hk, Option.map_none]
    rw [hk] at hmoved
    subst hmoved
    simp only [EventFactory.moveState, hget, expireStep, FlowMap.set_eq_self hk, Option.map_none]
  | some s =>
    obtain ⟨h0, hn⟩ := hd s hk
    obtain ⟨hrow, hmem⟩ := hem.row?_rowOf hev h0 hn
    obtain ⟨q0, qn⟩ := hem.timeoutState _ hmem
    have hget : IDictionary.get d key = some key := by
      simp only [IDictionary.get, hk, Option.map_some]
    rw [hk] at hmoved
    subst hmoved
    simp only [EventFactory.moveState, hget, load_entry hk, hrow, Option.bind_eq_bind,
      Option.bind_some]
    by_cases hexp : EventFactory.Expired s tags.timestamp
    · by_cases hq : (rowOf events e s.id).timeoutState = 0
      · simp only [expireStep, hexp, if_true, hq, IEntries.store, IDictionary.remove,
          FlowMap.set_set, Option.map_none]
      · simp only [expireStep, hexp, if_true, hq, if_false,
          (hem.row?_rowOf hev q0 qn).1, Option.bind_some, IEntries.store,
          load_entry (FlowMap.entry_set_self _ _ _), FlowMap.set_set, Option.map_some]
    · simp only [expireStep, hexp, if_false, FlowMap.set_eq_self hk, Option.map_some]

theorem fires_eq {row : StateTuple} (h : row.metricSet = row.conditionList.isSome)
    (hset : row.metricSet = true) (holds : String → Bool) :
    FilteringBlock.fires row holds =
      some ((row.conditionList.getD []).find? fun t => holds t.condition) := by
  obtain ⟨tuples, ht⟩ := Option.isSome_iff_exists.1 (h ▸ hset)
  simp only [FilteringBlock.fires, ht, Option.map_some, Option.getD_some]

theorem arm_eq (hem : Emitted n ev) (hev : events[e]? = some ev) {i : ℤ} (h0 : 0 ≤ i) (hn : i < n)
    (now : UInt64) :
    FilteringBlock.arm ev d now ((d.entry key).map fun _ => key) i =
      some (d.set key (armStep (rowOf events e i) now (d.entry key))) := by
  cases hk : d.entry key with
  | none =>
    simp only [FilteringBlock.arm, armStep, Option.map_none, ite_self, FlowMap.set_eq_self hk]
  | some s =>
    simp only [FilteringBlock.arm, armStep, Option.map_some, (hem.row?_rowOf hev h0 hn).1,
      Option.bind_eq_bind, Option.bind_some, load_entry hk, IEntries.store]
    split_ifs
    · rfl
    · rw [FlowMap.set_eq_self hk]

/-- The next row counted from the entry's own state is the next state's. -/
theorem next_index {i : ℤ} (hfound : Found n (d.entry key) i) (next : ℤ) :
    i - FilteringBlock.stateID d ((d.entry key).map fun _ => key) + next = next := by
  have hid := hfound.id
  cases hk : d.entry key with
  | none =>
    simp only [hk] at hid
    simp only [Option.map_none, FilteringBlock.stateID]
    omega
  | some s =>
    simp only [hk] at hid
    simp only [Option.map_some, FilteringBlock.stateID, load_entry hk]
    omega

theorem filterState_eq (hem : Emitted n ev) (hev : events[e]? = some ev) {tags : Tags K K}
    {i : ℤ} (hstate : tags.state = some (e, i)) (hkey : tags.stateFlowkey = some key)
    (hinfo : tags.stateInfo = (d.entry key).map fun _ => key) (hfound : Found n (d.entry key) i)
    (hset : (rowOf events e i).metricSet = true) (holds : String → Bool) :
    (FilteringBlock.filterState events d tags holds).map Prod.fst = some (d.set key
      (fireStep (rowOf events e) tags.timestamp holds (d.entry key) i)) := by
  obtain ⟨hrow, hmem⟩ := hem.row?_rowOf hev hfound.nonneg hfound.lt
  have hfires := fires_eq (hem.conditions _ hmem) hset holds
  simp only [FilteringBlock.filterState, fireStep, hstate, hev, hrow, hfires, hset, if_true,
    Option.bind_eq_bind, Option.bind_some]
  cases ht : ((rowOf events e i).conditionList.getD []).find? fun t => holds t.condition with
  | none => simp only [Option.map_some, FlowMap.set_eq_self rfl]
  | some t =>
    by_cases hnext : t.nextState = -1
    · simp only [FilteringBlock.takeTransition, hnext, ne_eq, not_true_eq_false, if_false, if_true,
        hinfo, Option.bind_some, arm_eq hem hev hfound.nonneg hfound.lt, Option.map_some]
    · have hin : 0 ≤ t.nextState ∧ t.nextState < n := by
        obtain ⟨tuples, htup⟩ := Option.isSome_iff_exists.1 ((hem.conditions _ hmem) ▸ hset)
        rw [htup, Option.getD_some] at ht
        exact (hem.nextState _ hmem tuples htup t (List.mem_of_find?_eq_some ht)).resolve_left hnext
      have harm := @arm_eq _ _ _ _ _ _ (d.set key (some ⟨t.nextState, 0⟩)) key hem hev _ hin.1
        hin.2 tags.timestamp
      simp only [FlowMap.entry_set_self, Option.map_some, FlowMap.set_set] at harm
      simp only [FilteringBlock.takeTransition, hnext, ne_eq, not_false_eq_true, if_true, if_false,
        hkey, hinfo, Option.bind_some, next_index hfound, IDictionary.add, harm, Option.map_some,
        Option.bind_eq_bind]

theorem InRange.armStep {entry : Option StateData} (h : InRange n entry) (row : StateTuple)
    (now : UInt64) : InRange n (armStep row now entry) := by
  unfold DStreamon.armStep
  split_ifs
  · intro s hs
    obtain ⟨s', hs', rfl⟩ := Option.map_eq_some_iff.1 hs
    exact h s' hs'
  · exact h

theorem InRange.fireStep (hem : Emitted n ev) (hev : events[e]? = some ev) (now : UInt64)
    (holds : String → Bool) {entry : Option StateData} (hentry : InRange n entry) {i : ℤ}
    (h0 : 0 ≤ i) (hn : i < n) : InRange n (fireStep (rowOf events e) now holds entry i) := by
  obtain ⟨-, hmem⟩ := hem.row?_rowOf hev h0 hn
  unfold DStreamon.fireStep
  split_ifs with hset
  · obtain ⟨tuples, htup⟩ := Option.isSome_iff_exists.1 ((hem.conditions _ hmem) ▸ hset)
    rw [htup, Option.getD_some]
    split
    · exact hentry
    · next t ht =>
      have hnext := hem.nextState _ hmem tuples htup t (List.mem_of_find?_eq_some ht)
      split_ifs with h1
      · exact hentry.armStep _ now
      · refine InRange.armStep ?_ _ now
        rintro s ⟨⟩
        exact hnext.resolve_left h1
  · exact hentry

end Packet

/-! ## Packets -/

section Process

variable {d : FlowMap K} {p : Packet K}

omit [DecidableEq K] in
theorem findEvent_new (p : Packet K) :
    EventFactory.findEvent events (Tags.new p.map : Tags K K).tEventId p.matcher =
      some (p.event? events) := rfl

theorem processPacket_none (he : p.event? events = none) : processPacket events d p = some d := by
  simp only [processPacket, EventFactory.receiveMsg, findEvent_new, he, Option.bind_eq_bind,
    Option.bind_some, Bool.false_eq_true, if_false]

omit [DecidableEq K] in
theorem stateKey_new (ev : Event) (map : ℕ → K) :
    EventFactory.stateKey ev (.new map : Tags K K) =
      (Tags.new map : Tags K K).getFlowkey ev.regId :=
  rfl

omit [DecidableEq K] in
theorem event_of_event? {e : ℕ} (he : p.event? events = some e) : ∃ ev, events[e]? = some ev := by
  obtain ⟨hlt, -⟩ := List.findIdx?_eq_some_iff_getElem.1 he
  exact ⟨events[e], List.getElem?_eq_getElem hlt⟩

theorem processPacket_noKey {e : ℕ} (he : p.event? events = some e)
    (hkey : p.key? events = none) : processPacket events d p = none := by
  obtain ⟨ev, hev⟩ := event_of_event? he
  simp only [Packet.key?, he, hev, Option.bind_some] at hkey
  simp only [processPacket, EventFactory.receiveMsg, findEvent_new, he, hev, Option.bind_eq_bind,
    Option.bind_some]
  simp only [stateKey_new, hkey, Option.bind_none]

/-- A packet through both blocks is a step of the machine on its flow's entry. -/
theorem processPacket_eq (hem : ∀ ev ∈ events, Emitted n ev) (hd : ∀ k, InRange n (d.entry k))
    {key : K} (hkey : p.key? events = some key) :
    processPacket events d p =
      some (d.set key (xfsmStep events (rowOf events) (d.entry key) p)) := by
  obtain ⟨ev, hev, hreg⟩ := Option.bind_eq_some_iff.1 hkey
  obtain ⟨e, he, hev⟩ := Option.bind_eq_some_iff.1 hev
  have hemitted := hem ev (List.mem_of_getElem? hev)
  have hfound := expireStep_found hemitted hev p.now (hd key)
  generalize hmoved : expireStep (rowOf events e) p.now (d.entry key) = moved at hfound
  have hmove := moveState_eq hemitted hev (hd key)
    { (Tags.new p.map : Tags K K) with timestamp := p.now, stateFlowkey := some key } hmoved
  have hrow := (hemitted.row?_rowOf hev hfound.nonneg hfound.lt).1
  have hstep : xfsmStep events (rowOf events) (d.entry key) p =
      fireStep (rowOf events e) p.now p.holds moved.1 moved.2 := by
    simp only [xfsmStep, he, hmoved]
  simp only [processPacket, EventFactory.receiveMsg, findEvent_new, he, hev, hstep,
    Option.bind_eq_bind, Option.bind_some]
  simp only [stateKey_new, hreg, hmove, hrow, Option.bind_some]
  split_ifs with hset
  · have hinfo : (d.set key moved.1).entry key = moved.1 := FlowMap.entry_set_self ..
    rw [@filterState_eq _ _ _ _ _ _ (d.set key moved.1) key hemitted hev _ moved.2 rfl rfl
      (by rw [hinfo]) (by rw [hinfo]; exact hfound) hset, hinfo, FlowMap.set_set]
  · simp only [fireStep, hset, Bool.false_eq_true, if_false]

omit [DecidableEq K] in
theorem xfsmStep_inRange (hem : ∀ ev ∈ events, Emitted n ev) {entry : Option StateData}
    (h : InRange n entry) (p : Packet K) :
    InRange n (xfsmStep events (rowOf events) entry p) := by
  unfold xfsmStep
  split
  · exact h
  · next e he =>
    obtain ⟨ev, hev⟩ := event_of_event? he
    have hemitted := hem ev (List.mem_of_getElem? hev)
    have hfound := expireStep_found hemitted hev p.now h
    refine InRange.fireStep hemitted hev p.now p.holds ?_ hfound.nonneg hfound.lt
    intro s hs
    have hid := hfound.id
    simp only [hs] at hid
    exact ⟨hid ▸ hfound.nonneg, hid ▸ hfound.lt⟩

/-- The event found for the packet, if any, has its key in one of the registers. -/
def Packet.Keyed (events : List Event) (p : Packet K) : Prop :=
  (p.event? events).isSome → (p.key? events).isSome

theorem processPacket_isSome (hem : ∀ ev ∈ events, Emitted n ev)
    (hd : ∀ k, InRange n (d.entry k)) :
    (processPacket events d p).isSome ↔ p.Keyed events := by
  unfold Packet.Keyed
  cases he : p.event? events with
  | none => simp [processPacket_none he]
  | some e =>
    cases hkey : p.key? events with
    | none => simp [processPacket_noKey he hkey]
    | some key => simp [processPacket_eq hem hd hkey]

theorem processPacket_keyed (hem : ∀ ev ∈ events, Emitted n ev)
    (hd : ∀ k, InRange n (d.entry k)) {d' : FlowMap K} (h : processPacket events d p = some d') :
    (∀ k, InRange n (d'.entry k)) ∧ ∀ k, d'.entry k =
      if p.key? events = some k then xfsmStep events (rowOf events) (d.entry k) p
      else d.entry k := by
  have hkeyed := (processPacket_isSome hem hd).1 (Option.isSome_of_mem h)
  cases hkey : p.key? events with
  | none =>
    have he : p.event? events = none := by
      rw [← Option.not_isSome_iff_eq_none]
      intro he
      simpa [hkey] using hkeyed he
    rw [processPacket_none he] at h
    cases h
    exact ⟨hd, fun k => by simp⟩
  | some key =>
    rw [processPacket_eq hem hd hkey] at h
    cases h
    refine ⟨fun k => ?_, fun k => ?_⟩
    · rw [FlowMap.entry_set]
      split_ifs
      · exact xfsmStep_inRange hem (hd key) p
      · exact hd k
    · by_cases hk : k = key
      · subst hk
        simp
      · simp [FlowMap.entry_set, hk, Ne.symm hk]

end Process

omit [DecidableEq K] in
theorem empty_inRange (n : ℕ) (k : K) : InRange n (FlowMap.empty.entry k) := by
  intro s hs
  cases hs

theorem run_isSome (hem : ∀ ev ∈ events, Emitted n ev) (packets : List (Packet K)) :
    (run (processPacket events) .empty packets).isSome ↔ ∀ p ∈ packets, p.Keyed events :=
  run_isSome_iff (fun _ _ _ hd hp => (processPacket_keyed hem hd hp).1)
    (fun _ _ hd => processPacket_isSome hem hd) packets (empty_inRange n)

theorem run_entry (hem : ∀ ev ∈ events, Emitted n ev) (packets : List (Packet K)) {d : FlowMap K}
    (h : run (processPacket events) .empty packets = some d) (k : K) :
    d.entry k = (packets.filter fun p => p.key? events = some k).foldl
      (xfsmStep events (rowOf events)) none :=
  run_keyed (fun _ _ _ hd hp => processPacket_keyed hem hd hp) packets (empty_inRange n) h k

/-- Packets one at a time, from the empty map: no pointer goes wild exactly if every packet's key
is in a register, and then each flow's entry is the fold of the machine's step over the flow's
packets. -/
theorem sequential_xfsm {cfg : Moin.Config} {out : Moin.Output} (h : Moin.moin cfg = .ok out)
    (hc : out.compile = some events) (packets : List (Packet K)) :
    ((run (processPacket events) .empty packets).isSome ↔ ∀ p ∈ packets, p.Keyed events) ∧
      ∀ d, run (processPacket events) .empty packets = some d → ∀ k, d.entry k =
        (packets.filter fun p => p.key? events = some k).foldl
          (xfsmStep events (rowOf events)) none := by
  have hem := Moin.moin_emitted h hc
  exact ⟨run_isSome hem packets, fun d hd k => run_entry hem packets hd k⟩

namespace Moin

/-- By the features `syn` and `fin` of a metric by `ip`: a flow goes busy on the one, and is idle
again on the other or after ten seconds. -/
def idle : State := ⟨"idle", ["ip"], [⟨"syn", "busy", [], []⟩], none⟩

def busy : State := ⟨"busy", ["ip"], [⟨"fin", "idle", [], []⟩], none⟩

def handshake (events : List EventDef) : Config :=
  ⟨[("ip", 0)], [⟨"idle", none, ""⟩, ⟨"busy", some 10, "idle"⟩], events⟩

/-- The table of an event that lists both states. -/
def handshakeTable : List Event :=
  [⟨some "ip", [⟨0, true, some [⟨"syn", [], 1⟩], [], 0, 0⟩,
    ⟨1, true, some [⟨"fin", [], 0⟩], [], 10000000, 0⟩, ⟨-1, false, none, [], 0, 0⟩], 0⟩]

theorem handshake_ok : ∃ out, moin (handshake [packetEvent [idle, busy]]) = .ok out ∧
    out.compile = some handshakeTable := ⟨_, rfl, by decide⟩

end Moin

/-- A packet of flow `k` of which condition `cond` is true. -/
def onlyHolds (k : ℕ) (cond : String) (now : UInt64) : Packet ℕ :=
  ⟨fun _ => k, fun _ => true, fun c => c = cond, now⟩

theorem sequential_xfsm_handshake :
    ((run (processPacket Moin.handshakeTable) .empty
      [onlyHolds 1 "syn" 5, onlyHolds 2 "syn" 6, onlyHolds 1 "fin" 7]).isSome ↔
      ∀ p ∈ [onlyHolds 1 "syn" 5, onlyHolds 2 "syn" 6, onlyHolds 1 "fin" 7],
        p.Keyed Moin.handshakeTable) ∧
      ∀ d, run (processPacket Moin.handshakeTable) .empty
        [onlyHolds 1 "syn" 5, onlyHolds 2 "syn" 6, onlyHolds 1 "fin" 7] = some d → ∀ k, d.entry k =
        ([onlyHolds 1 "syn" 5, onlyHolds 2 "syn" 6, onlyHolds 1 "fin" 7].filter fun p =>
          p.key? Moin.handshakeTable = some k).foldl
            (xfsmStep Moin.handshakeTable (rowOf Moin.handshakeTable)) none := by
  obtain ⟨out, h, hc⟩ := Moin.handshake_ok
  exact sequential_xfsm h hc _

end DStreamon
