import DStreamon.Interleaving
import DStreamon.Proofs.DLeftMap
import DStreamon.Proofs.Entries
import DStreamon.Proofs.Xfsm

/-!
# Rows and flows under interleaving

Until another step moves its flow, a message's pointer is that of the flow's entry, and the entry
stands at the row the message carries.  So the condition it fires leads to the right row, and the
expire time goes to the right flow.
-/

namespace DStreamon

open MutableQueue StepRun DLeft

variable {H K : Type} [DecidableEq H] [Inhabited H] [IReadBuffer K]
  {C : Choice H (TimeoutEvent ℕ (Option ℤ))} {events : List Event}

/-! ## The blocks on an entry found -/

section Blocks

variable {d d' : DLeft StateData} {tags tags' : Tags K Slot} {key : K} {p : Slot} {r : ℤ}

omit [IReadBuffer K] in
theorem fired_of_fires {holds : String → Bool} {e : ℕ} {i : ℤ} {ev : Event} {row : StateTuple}
    {fired' : Option ConditionTuple} (hstate : tags.state = some (e, i))
    (hev : events[e]? = some ev) (hrow : ev.row? i = some row)
    (hfires : FilteringBlock.fires row holds = some fired') :
    fired events tags holds = fired' := by
  simp only [fired, hstate, hev, hrow, hfires, Option.bind_eq_bind, Option.bind_some,
    Option.join_some]

/-- The step of `EventFactory` for another message. -/
theorem Fresh.receiveMsg (hf : Fresh d key (some p) r) (h0 : fhash key ≠ 0)
    {matcher : String → Bool} {now : UInt64} {sent : Bool}
    (hne : expiring events d tags matcher now ≠ some (fhash key))
    (h : EventFactory.receiveMsg events d tags matcher now = some (d', tags', sent)) :
    Fresh d' key (some p) r := by
  rcases receiveMsg_cases h with ⟨-, rfl, -⟩ | ⟨e, ev, key', hfind, hev, hkey, hmove, -⟩
  · exact hf
  · refine hf.moveState h0 (fun q hq hexp he => hne ?_) hmove
    simp only [expiring, hfind, hev, hkey, hq, Option.join_some, Option.bind_eq_bind,
      Option.bind_some, he]
    exact if_pos hexp

/-- The step of `FilteringBlock`. -/
theorem Fresh.filterState (hf : Fresh d key (some p) r) (h0 : fhash key ≠ 0)
    {holds : String → Bool} {actions : List Action}
    (hne : transiting events d tags holds ≠ some (fhash key))
    (h : FilteringBlock.filterState events d tags holds = some (d', actions)) :
    Fresh d' key (some p) r := by
  obtain ⟨e, i, ev, row, fired', hstate, hev, hrow, hfires, -, hd⟩ := filterState_cases h
  have hfired := fired_of_fires hstate hev hrow hfires
  cases fired' with
  | none =>
    subst hd
    exact hf
  | some t =>
    obtain ⟨d₁, info, next, ht, ha⟩ := hd
    refine Fresh.arm ?_ ha
    rcases takeTransition_cases ht with ⟨-, rfl, -, -⟩ | ⟨hnext, key', hkey, hadd, -⟩
    · exact hf
    · have htrans : transiting events d tags holds =
          if t.nextState = -1 ∨ InPlace d key' t.nextState then none else some (fhash key') := by
        simp only [transiting, hfired, hkey, Option.bind_eq_bind, Option.bind_some]
      by_cases hin : InPlace d key' t.nextState
      · obtain ⟨q, hq, hslot⟩ := (Option.any_eq_true _ _).1 hin
        simp only [hadd, decide_eq_true_eq] at hslot
        obtain ⟨hslot, hid⟩ := hslot
        subst hslot
        exact hf.add_inPlace h0 hq hadd hid.symm
      · rw [htrans, if_neg (not_or.2 ⟨hnext, hin⟩)] at hne
        have hfp : fhash key' ≠ fhash key := fun he => hne (congrArg some he)
        have := hf.add (v := ⟨t.nextState, 0⟩) h0 hfp
        rwa [hadd] at this

end Blocks

/-! ## What a message has found -/

/-- A message that found no entry is at the first row; one that found an entry, in a flow not moved
since, has it still. -/
structure Tracks (d : DLeft StateData) (moved : Bool) (tags : Tags K Slot) : Prop where
  absent : ∀ e r, tags.state = some (e, r) → tags.stateInfo = none → r = 0
  entry : ∀ e r key p, tags.state = some (e, r) → tags.stateFlowkey = some key →
    tags.stateInfo = some p → fhash key ≠ 0 → moved = false → Fresh d key (some p) r

/-- Every message. -/
def AllTrack (s : Pipeline H K) (moved : ℕ → Bool) : Prop :=
  ∀ i msg, s.messages[i]? = some msg → Tracks s.statesMap (moved i) msg.tags

section Steps

variable {d d' : DLeft StateData} {tags tags' : Tags K Slot} {moved moved' : Bool}

theorem Tracks.receiveMsg_self {matcher : String → Bool} {now : UInt64} {sent : Bool}
    (hnew : tags.tEventId ≠ -1 ∨ tags.state = none)
    (h : EventFactory.receiveMsg events d tags matcher now = some (d', tags', sent)) :
    Tracks d' moved tags' := by
  rcases receiveMsg_cases h with ⟨hfind, rfl, rfl, -⟩ | ⟨e, ev, key, -, -, -, hmove, -⟩
  · have hstate : tags'.state = none := by
      refine hnew.resolve_left fun hne => ?_
      unfold EventFactory.findEvent at hfind
      rw [if_pos hne] at hfind
      split_ifs at hfind
      cases hfind
    constructor
    · intro e r hs
      rw [hstate] at hs
      cases hs
    · intro e r key p hs
      rw [hstate] at hs
      cases hs
  · obtain ⟨i, info, rfl, hfresh, -⟩ := moveState_cases hmove
    refine ⟨?_, ?_⟩
    · rintro e' r ⟨⟩ hinfo
      simp only at hinfo
      subst hinfo
      exact hfresh
    · rintro e' r key' p ⟨⟩ ⟨⟩ hinfo - -
      simp only at hinfo
      subst hinfo
      exact hfresh

/-- A step that keeps every entry of the message's flow keeps what the message has found. -/
theorem Tracks.mono (hT : Tracks d moved tags) (hmoved : moved' = false → moved = false)
    (hfresh : moved' = false → ∀ key p r, tags.stateFlowkey = some key → fhash key ≠ 0 →
      Fresh d key (some p) r → Fresh d' key (some p) r) : Tracks d' moved' tags :=
  ⟨hT.absent, fun e r key p hs hk hp h0 hm =>
    hfresh hm key p r hk h0 (hT.entry e r key p hs hk hp h0 (hmoved hm))⟩

end Steps

section Messages

variable {s s' : Pipeline H K} {moved' : ℕ → Bool} {i : ℕ} {msg : Message K}

omit [DecidableEq H] [Inhabited H] in
theorem AllTrack.receive (moved : ℕ → Bool) {matcher : String → Bool} {now : UInt64}
    (hT : ∀ j m, j ≠ i → s.messages[j]? = some m → Tracks s.statesMap (moved j) m.tags)
    (hnew : msg.tags.tEventId ≠ -1 ∨ msg.tags.state = none)
    (hmoved : ∀ j m, j ≠ i → s.messages[j]? = some m → moved' j = false → moved j = false ∧
      ∀ key, m.tags.stateFlowkey = some key →
        expiring events s.statesMap msg.tags matcher now ≠ some (fhash key))
    (h : s.receive events i msg matcher now = some s') : AllTrack s' moved' := by
  obtain ⟨⟨d', tags', sent⟩, hrecv, h⟩ := Option.bind_eq_some_iff.1 h
  cases h
  intro j m hm
  rcases getElem?_set_cases hm with ⟨rfl, rfl⟩ | ⟨hji, hm⟩
  · exact Tracks.receiveMsg_self hnew hrecv
  · refine (hT j m hji hm).mono (fun h => (hmoved j m hji hm h).1) fun h key p r hkey h0 hf => ?_
    exact hf.receiveMsg h0 ((hmoved j m hji hm h).2 key hkey) hrecv

end Messages

namespace Traced

variable {t t' : Traced H K} {i : ℕ} {msg : Message K}

omit [Inhabited H] in
/-- A message not marked after a step was not marked before, and the step moved another flow. -/
theorem not_marked {op : Pipeline.Op K} (hne : t.pipeline.finds C op ≠ some i)
    (hmsg : t.pipeline.messages[i]? = some msg) (h : t.mark C events op i = false) :
    t.moved i = false ∧ ∀ key, msg.tags.stateFlowkey = some key →
      t.pipeline.moves C events op ≠ some (fhash key) := by
  rw [mark, if_neg hne, Bool.or_eq_false_iff, Bool.and_eq_false_iff] at h
  refine ⟨h.1, fun key hkey hmoves => ?_⟩
  have hflow : t.pipeline.flow? i = some (fhash key) := by
    simp only [Pipeline.flow?, hmsg, Option.bind_some, hkey, Option.map_some]
  rw [hmoves, hflow] at h
  simp at h

theorem tracks_packet {map : ℕ → K} {matcher : String → Bool} {now : UInt64}
    (hT : AllTrack t.pipeline t.moved) (h : t.step C events (.packet map matcher now) = some t') :
    AllTrack t'.pipeline t'.moved := by
  obtain ⟨s', hs, rfl⟩ := Option.map_eq_some_iff.1 h
  have hold : ∀ j m, j ≠ t.pipeline.messages.length →
      (t.pipeline.messages ++ [Pipeline.newMessage map])[j]? = some m →
        t.pipeline.messages[j]? = some m := by
    intro j m hj hm
    rw [List.getElem?_append] at hm
    split_ifs at hm with hlt
    · exact hm
    · have hone := (List.getElem?_eq_some_iff.1 hm).1
      simp only [List.length_singleton] at hone
      omega
  refine AllTrack.receive t.moved ?_ ?_ ?_ hs
  · exact fun j m hj hm => hT j m (hold j m hj hm)
  · exact .inr rfl
  · intro j m hj hm hmark
    have hfinds : t.pipeline.finds C (.packet map matcher now) ≠ some j := fun he =>
      hj (Option.some.inj (show some t.pipeline.messages.length = some j from he)).symm
    exact not_marked hfinds (hold j m hj hm) hmark

theorem tracks_handleTimer {time now : UInt64}
    (hT : AllTrack t.pipeline t.moved) (h : t.step C events (.handleTimer time now) = some t') :
    AllTrack t'.pipeline t'.moved := by
  obtain ⟨s', hs, rfl⟩ := Option.map_eq_some_iff.1 h
  obtain ⟨⟨tmanager, out⟩, hpop, hs⟩ := Option.bind_eq_some_iff.1 hs
  cases out with
  | none =>
    have hre : t.pipeline.reentry C time = none := by
      simp only [Pipeline.reentry, hpop, Option.bind_eq_bind, Option.bind_some, Option.bind_none]
    cases hs
    intro j m hm
    have hfinds : t.pipeline.finds C (.handleTimer time now) ≠ some j := by
      simp [Pipeline.finds, hre]
    exact (hT j m hm).mono (fun h => (not_marked hfinds hm h).1) fun _ _ _ _ _ _ hf => hf
  | some tmsg =>
    obtain ⟨msg, hmsg, hs⟩ := Option.bind_eq_some_iff.1 hs
    simp only at hmsg
    split_ifs at hs with hkept hvalue
    · have hre : t.pipeline.reentry C time = none := by
        simp only [Pipeline.reentry, hpop, hmsg, hvalue, Option.bind_eq_bind, Option.bind_some,
          ne_eq, not_true_eq_false, and_false, if_false]
      cases hs
      intro j m hm
      have hfinds : t.pipeline.finds C (.handleTimer time now) ≠ some j := by
        simp [Pipeline.finds, hre]
      rcases getElem?_set_cases hm with ⟨rfl, rfl⟩ | ⟨-, hm⟩
      · exact (hT _ msg hmsg).mono (fun h => (not_marked hfinds hmsg h).1)
          fun _ _ _ _ _ _ hf => hf
      · exact (hT j m hm).mono (fun h => (not_marked hfinds hm h).1) fun _ _ _ _ _ _ hf => hf
    · have hre : t.pipeline.reentry C time =
          some (tmsg.context, { msg.tags with tEventId := tmsg.type.toNat }) := by
        simp only [Pipeline.reentry, hpop, hmsg, hkept, hvalue, Option.bind_eq_bind,
          Option.bind_some, ne_eq, not_false_eq_true, and_self, if_true]
      have hmoves : t.pipeline.moves C events (.handleTimer time now) =
          expiring events t.pipeline.statesMap { msg.tags with tEventId := tmsg.type.toNat }
            (fun _ => false) now := by
        simp only [Pipeline.moves, hre, Option.bind_eq_bind, Option.bind_some]
      have hfinds : t.pipeline.finds C (.handleTimer time now) = some tmsg.context := by
        simp only [Pipeline.finds, hre, Option.map_some]
      refine AllTrack.receive t.moved ?_ ?_ ?_ hs
      · exact fun j m _ hm => hT j m hm
      · refine .inl ?_
        simp only [ne_eq]
        omega
      · intro j m hj hm hmark
        rw [← hmoves]
        refine not_marked ?_ hm hmark
        rw [hfinds]
        exact fun he => hj (Option.some.inj he).symm

theorem tracks_filter {i : ℕ} {holds : String → Bool} {clock : ℕ → Timespec}
    (hT : AllTrack t.pipeline t.moved) (h : t.step C events (.filter i holds clock) = some t') :
    AllTrack t'.pipeline t'.moved := by
  obtain ⟨s', hs, rfl⟩ := Option.map_eq_some_iff.1 h
  obtain ⟨msg, hmsg, hs⟩ := Option.bind_eq_some_iff.1 hs
  split_ifs at hs
  obtain ⟨⟨d, actions⟩, hfilter, hs⟩ := Option.bind_eq_some_iff.1 hs
  obtain ⟨tmanager, -, hs⟩ := Option.bind_eq_some_iff.1 hs
  cases hs
  have hfinds : ∀ j, t.pipeline.finds C (.filter i holds clock) ≠ some j := fun j => nofun
  have hmoves : t.pipeline.moves C events (.filter i holds clock) =
      transiting events t.pipeline.statesMap msg.tags holds := by
    simp only [Pipeline.moves, hmsg, Option.bind_eq_bind, Option.bind_some]
  have hkeep : ∀ j m, t.pipeline.messages[j]? = some m →
      Tracks d (t.mark C events (.filter i holds clock) j) m.tags := by
    intro j m hm
    refine (hT j m hm).mono (fun h => (not_marked (hfinds j) hm h).1) ?_
    intro hmark key p r hkey h0 hf
    have hne := (not_marked (hfinds j) hm hmark).2 key hkey
    rw [hmoves] at hne
    exact hf.filterState h0 hne hfilter
  intro j m hm
  rcases getElem?_set_cases hm with ⟨rfl, rfl⟩ | ⟨-, hm⟩
  · obtain ⟨habsent, hentry⟩ := hkeep _ msg hmsg
    exact ⟨habsent, hentry⟩
  · exact hkeep j m hm

theorem tracks_step {op : Pipeline.Op K} (hT : AllTrack t.pipeline t.moved)
    (h : t.step C events op = some t') : AllTrack t'.pipeline t'.moved := by
  cases op with
  | packet map matcher now => exact tracks_packet hT h
  | handleTimer time now => exact tracks_handleTimer hT h
  | filter i holds clock => exact tracks_filter hT h
  | remove key type =>
    obtain ⟨s', hs, rfl⟩ := Option.map_eq_some_iff.1 h
    obtain ⟨tmanager, -, rfl⟩ := Option.map_eq_some_iff.1 hs
    intro j m hm
    have hfinds : t.pipeline.finds C (.remove key type) ≠ some j := nofun
    exact (hT j m hm).mono (fun h => (not_marked hfinds hm h).1) fun _ _ _ _ _ _ hf => hf

/-! ## The row and the flow -/

omit [IReadBuffer K] in
theorem fired_eq_some {tags : Tags K Slot} {holds : String → Bool} {e : ℕ} {r : ℤ} {ev : Event}
    {cond : ConditionTuple} (hstate : tags.state = some (e, r)) (hev : events[e]? = some ev)
    (h : fired events tags holds = some cond) :
    ∃ row tuples, ev.row? r = some row ∧ row.conditionList = some tuples ∧ cond ∈ tuples := by
  simp only [fired, hstate, hev, Option.bind_eq_bind, Option.bind_some,
    Option.bind_eq_some_iff, Option.join_eq_some_iff, FilteringBlock.fires,
    Option.map_eq_some_iff] at h
  obtain ⟨row, hrow, tuples, htuples, hfind⟩ := h
  exact ⟨row, tuples, hrow, htuples, List.mem_of_find?_eq_some hfind⟩

omit [DecidableEq H] [Inhabited H] in
theorem rowKept_of_steady {n : ℕ} (hem : ∀ ev ∈ events, Emitted n ev)
    (hT : AllTrack t.pipeline t.moved) (op : Pipeline.Op K) (hS : Steady events t op) :
    RowKept events t op := by
  cases op with
  | packet map matcher now => trivial
  | handleTimer time now => trivial
  | remove key type => trivial
  | filter i holds clock =>
    intro msg hmsg e r key ev cond hstate hkey hev hfired
    obtain ⟨habsent, hentry⟩ := hT i msg hmsg
    have hsteady := hS msg hmsg (by rw [hfired]; rfl)
    have hfresh : ∀ p, msg.tags.stateInfo = some p →
        Fresh t.pipeline.statesMap key (some p) r := by
      intro p hp
      obtain ⟨hmoved, h0⟩ := hsteady (by rw [hp]; rfl)
      exact hentry e r key p hstate hkey hp (h0 key hkey) hmoved
    refine ⟨fun hnext => ⟨?_, ?_⟩, fun d p next row htake hrow htimeout => ?_⟩
    · have hid : FilteringBlock.stateID t.pipeline.statesMap msg.tags.stateInfo = r := by
        cases hinfo : msg.tags.stateInfo with
        | none => exact (habsent e r hstate hinfo).symm
        | some p => exact (hfresh p hinfo).2
      omega
    · obtain ⟨row, tuples, hrow, htuples, hmem⟩ := fired_eq_some hstate hev hfired
      have hemitted := hem ev (List.mem_of_getElem? hev)
      have hrowmem : row ∈ ev.stateTable := by
        unfold Event.row? at hrow
        split_ifs at hrow
        exact List.mem_of_getElem? hrow
      rw [hemitted.length]
      exact (hemitted.nextState row hrowmem tuples htuples cond hmem).resolve_left hnext
    · rcases takeTransition_cases htake with ⟨-, rfl, hinfo, -⟩ | ⟨-, key', hkey', hadd, -⟩
      · exact (hfresh p hinfo.symm).1
      · rw [hkey] at hkey'
        cases hkey'
        exact (add_some hadd).1

/-- In every run, of any packets and timers in any order, in which no condition fires for a message
whose flow has been moved since it was looked up, every condition that fires leads to the right row
and writes the expire time to the right flow. -/
theorem rows_kept {cfg : Moin.Config} {out : Moin.Output} (h : Moin.moin cfg = .ok out)
    (hc : out.compile = some events) (ops : List (Pipeline.Op K))
    (hS : Meets (Traced.step C events) (Steady events) (.new out.timeoutClasses) ops) :
    Meets (Traced.step C events) (RowKept events) (.new out.timeoutClasses) ops := by
  refine meets_of_inv (fun _ _ _ hT hs => tracks_step hT hs)
    (fun _ op hT hS => rowKept_of_steady (Moin.moin_emitted h hc) hT op hS) ops ?_ hS
  intro i msg hmsg
  cases hmsg

/-- A packet of host `A`, and `FilteringBlock` on message `i` where condition `cond` is true. -/
def arrives (now : UInt64) : Pipeline.Op HashedBuffer :=
  .packet (fun _ => hostA) (fun _ => true) now

def filtered (i : ℕ) (cond : String) : Pipeline.Op HashedBuffer :=
  .filter i (fun c => c = cond) fun _ => ⟨0, 0⟩

theorem rows_kept_handshake :
    Meets (Traced.step (counted _) Moin.handshakeTable) (RowKept Moin.handshakeTable)
      (.new 0) [arrives 1, filtered 0 "syn", arrives 2, filtered 1 "fin"] := by
  obtain ⟨out, h, hc⟩ := Moin.handshake_ok
  have hclasses : out.timeoutClasses = 0 := by
    cases h
    rfl
  rw [← hclasses]
  exact rows_kept h hc _ (by rw [hclasses]; decide)

/-- Two packets find a busy flow, and the first ends it: the second leads to the busy row. -/
theorem rows_not_kept : ¬ ∀ cfg out events, Moin.moin cfg = .ok out → out.compile = some events →
    ∀ ops : List (Pipeline.Op HashedBuffer),
      Meets (Traced.step (counted _) events) (RowKept events) (.new out.timeoutClasses) ops := by
  intro hall
  obtain ⟨out, h, hc⟩ := Moin.handshake_ok
  have hclasses : out.timeoutClasses = 0 := by
    cases h
    rfl
  have hm := hall _ out _ h hc
    ([arrives 1, filtered 0 "syn", arrives 2, arrives 3, filtered 1 "fin"] ++ [filtered 2 "fin"])
  rw [hclasses] at hm
  have hrun : (run (Traced.step (counted _) Moin.handshakeTable) (.new 0)
      [arrives 1, filtered 0 "syn", arrives 2, arrives 3, filtered 1 "fin"]).any fun t =>
        t.pipeline.messages[2]?.any fun msg =>
          msg.tags.state = some (0, 1) ∧ msg.tags.stateFlowkey = some hostA ∧
            fired Moin.handshakeTable msg.tags (fun c => c = "fin") = some ⟨"fin", [], 0⟩ ∧
            FilteringBlock.stateID t.pipeline.statesMap msg.tags.stateInfo = 0 := by
    decide
  obtain ⟨t, ht, hcheck⟩ := (Option.any_eq_true _ _).1 hrun
  obtain ⟨msg, hmsg, hcheck⟩ := (Option.any_eq_true _ _).1 hcheck
  simp only [decide_eq_true_eq] at hcheck
  obtain ⟨hstate, hkey, hfired, hid⟩ := hcheck
  have hrow := (meets_last hm ht msg hmsg 0 1 hostA _ _ hstate hkey rfl hfired).1 (by decide)
  rw [hid] at hrow
  exact absurd hrow.1 (by decide)

end Traced

end DStreamon
