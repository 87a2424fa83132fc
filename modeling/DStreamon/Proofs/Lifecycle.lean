import DStreamon.Lifecycle
import DStreamon.Proofs.Entries
import DStreamon.Proofs.Timeout
import DStreamon.Proofs.Xfsm

/-!
# Ownership of messages over runs

A message is on its way, or kept by a timer of its own, or destroyed, as long as steps are tidy.
-/

namespace DStreamon

open MutableQueue StepRun DLeft TimeoutManager

variable {H K : Type} [DecidableEq H] [Inhabited H] [IReadBuffer K]
  {C : Choice H (TimeoutEvent ℕ (Option ℤ))} {events : List Event}

namespace Pipeline

/-! ## Owners under the calls of the timers -/

section Timers

variable {m m' : TimeoutManager H ℕ (Option ℤ)} {key : K} {value : UInt32} {i : ℕ} {type : UInt16}
  {pkey : Option ℤ} {ts : Timespec}

omit [Inhabited H] in
theorem owns_modify {q : Queue H (TimeoutEvent ℕ (Option ℤ))} {tables : List (DLeft H)} (h : H)
    {f : TimeoutEvent ℕ (Option ℤ) → TimeoutEvent ℕ (Option ℤ)}
    (hf : ∀ ev, (f ev).context = ev.context) (j : ℕ) :
    Owns ⟨q.modify h f, tables⟩ j ↔ Owns ⟨q, tables⟩ j := by
  constructor
  · rintro ⟨c', hc', rfl⟩
    obtain ⟨c, hc, rfl⟩ := Queue.mem_modify.1 hc'
    refine ⟨c, hc, ?_⟩
    split_ifs
    · exact (hf _).symm
    · rfl
  · rintro ⟨c, hc, rfl⟩
    refine ⟨_, Queue.mem_modify.2 ⟨c, hc, rfl⟩, ?_⟩
    split_ifs
    · exact hf _
    · rfl

omit [Inhabited H] in
theorem owns_update {q : Queue H (TimeoutEvent ℕ (Option ℤ))} {tables : List (DLeft H)} (h : H)
    (j : ℕ) : Owns ⟨q.update TimeoutEvent.rank h, tables⟩ j ↔ Owns ⟨q, tables⟩ j := by
  constructor
  · rintro ⟨c', hc', rfl⟩
    obtain ⟨c, hc, rfl⟩ := Queue.mem_update.1 hc'
    refine ⟨c, hc, ?_⟩
    split_ifs <;> rfl
  · rintro ⟨c, hc, rfl⟩
    refine ⟨_, Queue.mem_update.2 ⟨c, hc, rfl⟩, ?_⟩
    split_ifs <;> rfl

omit [Inhabited H] in
theorem owns_reset {q : Queue H (TimeoutEvent ℕ (Option ℤ))} {tables : List (DLeft H)} (h : H)
    (j : ℕ) : Owns ⟨reset q h value ts, tables⟩ j ↔ Owns ⟨q, tables⟩ j := by
  have hvalue : Owns ⟨q.modify h fun ev => { ev with value }, tables⟩ j ↔ Owns ⟨q, tables⟩ j :=
    owns_modify (f := fun ev => { ev with value }) h (fun _ => rfl) j
  unfold reset
  split_ifs
  · rw [owns_update, owns_modify h fun _ => context_setExpireTime .., hvalue]
  · exact hvalue

/-- `Set` makes the message an owner if the key has no timer of the class. -/
theorem owns_set (h : m.set C key value i type pkey ts = some m') :
    (m.timeoutTables[type.toNat]?.any (fun d => (d.get key).isNone) = true ∧
      ∀ j, Owns m' j ↔ Owns m j ∨ j = i) ∨
    (m.timeoutTables[type.toNat]?.any (fun d => (d.get key).isNone) = false ∧
      m'.timeoutTables = m.timeoutTables ∧ ∀ j, Owns m' j ↔ Owns m j) := by
  obtain ⟨d, ht, ⟨hg, d', p, -, rfl⟩ | ⟨p, ev, hg, -, rfl⟩⟩ := set_eq_some_iff.1 h
  · refine .inl ⟨by simp [ht, hg], fun j => ?_⟩
    constructor
    · rintro ⟨c, hc, rfl⟩
      rcases Queue.mem_push.1 hc with rfl | hc
      · exact .inr rfl
      · exact .inl ⟨c, hc, rfl⟩
    · rintro (⟨c, hc, rfl⟩ | rfl)
      · exact ⟨c, Queue.mem_push.2 (.inr hc), rfl⟩
      · exact ⟨_, Queue.mem_push.2 (.inl rfl), rfl⟩
  · exact .inr ⟨by simp [ht, hg], rfl, fun j => owns_reset _ j⟩

omit [DecidableEq H] [Inhabited H] in
theorem lacks_congr (h : m'.timeoutTables = m.timeoutTables) (tags : Tags K Slot) :
    lacks m' tags = lacks m tags := by
  funext a
  cases a with
  | timeoutSet key value evid pkey => simp only [lacks, h]
  | other o => rfl

/-- The actions of a message make it an owner if one of them has no timer yet. -/
theorem owns_runActions {tags : Tags K Slot} {clock : ℕ → Timespec} :
    ∀ {actions : List Action} {n : ℕ} {m m' : TimeoutManager H ℕ (Option ℤ)}, Linked m →
      (∀ a ∈ actions, Marks tags a) → runActions C tags i clock n m actions = some m' →
      Linked m' ∧ ∀ j, Owns m' j ↔ Owns m j ∨ (j = i ∧ actions.any (lacks m tags) = true)
  | [], n, m, m', L, _, h => by
    cases h
    exact ⟨L, by simp⟩
  | .other o :: actions, n, m, m', L, hm, h => by
    have hrest := owns_runActions L (fun a ha => hm a (List.mem_cons_of_mem _ ha)) h
    simpa [lacks] using hrest
  | .timeoutSet key value evid pkey :: actions, n, m, m', L, hm, h => by
    obtain ⟨k, hk, h⟩ := Option.bind_eq_some_iff.1 h
    obtain ⟨m₁, hset, h⟩ := Option.bind_eq_some_iff.1 h
    have h0 : fhash k ≠ 0 := hm _ List.mem_cons_self k hk
    obtain ⟨L', howns⟩ := owns_runActions (L.set h0 hset)
      (fun a ha => hm a (List.mem_cons_of_mem _ ha)) h
    have hlacks : lacks m tags (.timeoutSet key value evid pkey) =
        m.timeoutTables[(UInt16.ofNat evid).toNat]?.any fun d => (d.get k).isNone := by
      simp only [lacks, hk, Option.any_some]
    refine ⟨L', fun j => ?_⟩
    rw [howns, List.any_cons, Bool.or_eq_true, hlacks]
    rcases owns_set hset with ⟨hnone, hj⟩ | ⟨hsome, htables, hj⟩
    · rw [hj, hnone]
      simp only [true_or, and_true]
      tauto
    · rw [hj, hsome, lacks_congr htables]
      simp

omit [Inhabited H] in
theorem owns_remove (h : m.remove key type = some m') (j : ℕ) : Owns m' j ↔ Owns m j := by
  obtain ⟨d, -, ⟨-, rfl⟩ | ⟨p, ev, -, -, rfl⟩⟩ := remove_eq_some_iff.1 h
  · rfl
  · exact owns_modify (f := fun ev => { ev with value := 0 }) _ (fun _ => rfl) j

end Timers

/-! ## `EventFactory` on a message -/

section Receive

variable {d d' : DLeft StateData} {tags tags' : Tags K Slot} {matcher : String → Bool}
  {now : UInt64} {sent : Bool}

theorem receiveMsg_tags
    (h : EventFactory.receiveMsg events d tags matcher now = some (d', tags', sent)) :
    tags'.kept = tags.kept ∧ tags'.tEventId = tags.tEventId := by
  rcases receiveMsg_cases h with ⟨-, -, rfl, -⟩ | ⟨e, ev, key, -, -, -, hmove, -⟩
  · exact ⟨rfl, rfl⟩
  · obtain ⟨i, info, rfl, -⟩ := moveState_cases hmove
    exact ⟨rfl, rfl⟩

/-- The row a flow is found in is the machine's. -/
theorem moveState_row {e : ℕ} {ev : Event} {key : K} (hev : events[e]? = some ev)
    (h : EventFactory.moveState e ev d tags key = some (d', tags')) :
    tags'.state = some (e,
      (expireStep (rowOf events e) tags.timestamp ((d.get key).map d.load)).2) := by
  unfold EventFactory.moveState at h
  rcases hg : d.get key with _ | p
  · simp only [IDictionary.get, hg, Option.some.injEq, Prod.mk.injEq] at h
    obtain ⟨-, rfl⟩ := h
    rfl
  · simp only [IDictionary.get, IEntries.load, hg, Option.bind_eq_bind,
      Option.bind_eq_some_iff] at h
    obtain ⟨row, hrow, h⟩ := h
    have hof : rowOf events e (d.load p).id = row := by
      rw [rowOf_eq hev, hrow]
      rfl
    simp only [Option.map_some, expireStep, hof]
    by_cases hexp : EventFactory.Expired (d.load p) tags.timestamp
    · by_cases hq : row.timeoutState = 0
      · simp only [hexp, hq, if_true, Option.some.injEq, Prod.mk.injEq] at h ⊢
        obtain ⟨-, rfl⟩ := h
        rfl
      · simp only [hexp, hq, if_true, if_false, Option.bind_eq_some_iff, Option.some.injEq,
          Prod.mk.injEq] at h ⊢
        obtain ⟨next, -, -, rfl⟩ := h
        rfl
    · simp only [hexp, if_false, Option.some.injEq, Prod.mk.injEq] at h ⊢
      obtain ⟨-, rfl⟩ := h
      rfl

/-- An event that lists the state sends the message on. -/
theorem sent_of_lists {e : ℕ} (hfind : EventFactory.findEvent events tags.tEventId matcher =
      some (some e)) (hl : lists events d e tags now = true)
    (h : EventFactory.receiveMsg events d tags matcher now = some (d', tags', sent)) :
    sent = true := by
  rcases receiveMsg_cases h with
    ⟨hnone, -⟩ | ⟨e', ev, key, hfind', hev, hkey, hmove, e₁, i, row, hstate, hrow, rfl⟩
  · rw [hfind] at hnone
    cases hnone
  · obtain rfl : e' = e := by
      rw [hfind] at hfind'
      exact (Option.some.inj (Option.some.inj hfind')).symm
    have hstate' := moveState_row hev hmove
    rw [hstate] at hstate'
    simp only [lists, hev, Option.bind_some, hkey, Option.all_some] at hl
    simp only [Option.some.injEq, Prod.mk.injEq] at hstate'
    rw [← hstate'.2, rowOf_eq hev, hrow] at hl
    exact hl

end Receive

/-! ## The invariant -/

/-- A message is on its way at most once until it is kept, and then has a timer until it is
destroyed. -/
structure MessageOk (owned : Prop) (msg : Message K) : Prop where
  once : msg.destroyed ≤ 1
  alive : 0 < msg.inFlight → msg.destroyed = 0
  single : msg.tags.kept = false → msg.inFlight ≤ 1
  fresh : msg.tags.kept = false → msg.tags.tEventId = -1
  owned : msg.tags.kept = true → msg.destroyed = 0 → owned

structure Ownership (s : Pipeline H K) : Prop where
  linked : Linked s.tmanager
  held : ∀ i, Owns s.tmanager i →
    ∃ msg, s.messages[i]? = some msg ∧ msg.destroyed = 0 ∧ msg.tags.kept = true
  message : ∀ i msg, s.messages[i]? = some msg → MessageOk (Owns s.tmanager i) msg

variable {s s' : Pipeline H K}

omit [DecidableEq H] [Inhabited H] [IReadBuffer K] in
theorem MessageOk.congr {p q : Prop} {msg : Message K} (h : MessageOk p msg) (hpq : p → q) :
    MessageOk q msg :=
  ⟨h.once, h.alive, h.single, h.fresh, fun hk hd => hpq (h.owned hk hd)⟩

omit [DecidableEq H] [IReadBuffer K] in
theorem ownership_new (n : ℕ) : Ownership (.new n : Pipeline H K) where
  linked := linked_new n
  held i h := by
    obtain ⟨c, hc, -⟩ := h
    cases hc
  message i msg h := by cases h

omit [DecidableEq H] [Inhabited H] [IReadBuffer K] in
theorem Ownership.spec (h : Ownership s) : Released s where
  alive i hi := by
    obtain ⟨msg, hmsg, hd, -⟩ := h.held i hi
    exact ⟨msg, hmsg, hd⟩
  once msg hmsg := by
    obtain ⟨i, hi⟩ := List.mem_iff_getElem?.1 hmsg
    exact (h.message i msg hi).once
  kept i msg hmsg hk hd := (h.message i msg hmsg).owned hk hd

omit [DecidableEq H] [Inhabited H] [IReadBuffer K] in
/-- Message `i` rewritten, and the owners changed for it alone. -/
theorem Ownership.replace (h : Ownership s) {m : TimeoutManager H ℕ (Option ℤ)}
    {d : DLeft StateData} {i : ℕ} {msg msg' : Message K} (hmsg : s.messages[i]? = some msg)
    (L : Linked m) (howns : ∀ j, j ≠ i → (Owns m j ↔ Owns s.tmanager j))
    (hheld : Owns m i → msg'.destroyed = 0 ∧ msg'.tags.kept = true)
    (hok : MessageOk (Owns m i) msg') : Ownership ⟨d, m, s.messages.set i msg'⟩ where
  linked := L
  held j hj := by
    by_cases hji : j = i
    · subst hji
      have hlt := (List.getElem?_eq_some_iff.1 hmsg).1
      obtain ⟨hd, hk⟩ := hheld hj
      exact ⟨msg', by simp [hlt], hd, hk⟩
    · obtain ⟨m', hm', hd, hk⟩ := h.held j ((howns j hji).1 hj)
      exact ⟨m', by simp [Ne.symm hji, hm'], hd, hk⟩
  message j m' hm' := by
    rcases getElem?_set_cases hm' with ⟨rfl, rfl⟩ | ⟨hji, hm'⟩
    · exact hok
    · exact (h.message j m' hm').congr (howns j hji).2

/-! ## Steps -/

omit [DecidableEq H] [Inhabited H] in
theorem Ownership.packet {map : ℕ → K} {matcher : String → Bool} {now : UInt64}
    (h : Ownership s) (hs : s.packet events map matcher now = some s') : Ownership s' := by
  obtain ⟨⟨d, tags, sent⟩, hrecv, hs⟩ := Option.bind_eq_some_iff.1 hs
  cases hs
  obtain ⟨hkept, hevent⟩ := receiveMsg_tags hrecv
  have hkeptnew : tags.kept = false := hkept
  have heventnew : tags.tEventId = -1 := hevent
  have hnone : ∀ j, Owns s.tmanager j → j < s.messages.length := by
    intro j hj
    obtain ⟨msg, hmsg, -⟩ := h.held j hj
    exact (List.getElem?_eq_some_iff.1 hmsg).1
  refine ⟨h.linked, fun j hj => ?_, fun j msg hmsg => ?_⟩
  · have hlt := hnone j hj
    obtain ⟨msg, hmsg, hd, hk⟩ := h.held j hj
    refine ⟨msg, ?_, hd, hk⟩
    simp only
    rw [List.getElem?_set_ne (Nat.ne_of_gt hlt), List.getElem?_append_left hlt]
    exact hmsg
  · simp only at hmsg
    rcases getElem?_set_cases hmsg with ⟨rfl, rfl⟩ | ⟨hj, hmsg⟩
    · cases sent with
      | false =>
        exact ⟨Nat.le_refl 1, fun hpos => absurd hpos (Nat.lt_irrefl 0), fun _ => Nat.zero_le 1,
          fun _ => heventnew, fun hk => by rw [hkeptnew] at hk; cases hk⟩
      | true =>
        exact ⟨Nat.zero_le 1, fun _ => rfl, fun _ => Nat.le_refl 1, fun _ => heventnew,
          fun hk => by rw [hkeptnew] at hk; cases hk⟩
    · refine h.message j msg ?_
      rw [List.getElem?_append] at hmsg
      split_ifs at hmsg with hlt
      · exact hmsg
      · have hone := (List.getElem?_eq_some_iff.1 hmsg).1
        simp only [List.length_singleton] at hone
        omega

theorem actions_eq {d d' : DLeft StateData} {tags : Tags K Slot} {holds : String → Bool}
    {acts : List Action} (h : FilteringBlock.filterState events d tags holds = some (d', acts)) :
    acts = actions events tags holds := by
  obtain ⟨e, i, ev, row, fired, hstate, hev, hrow, hfires, hacts, -⟩ := filterState_cases h
  simp only [actions, hstate, hev, hrow, hfires, Option.bind_eq_bind, Option.bind_some,
    Option.getD_some, hacts]

theorem Ownership.filter {i : ℕ} {holds : String → Bool} {clock : ℕ → Timespec}
    (h : Ownership s) (ht : Tidy C events s (.filter i holds clock))
    (hs : s.filter C events i holds clock = some s') : Ownership s' := by
  obtain ⟨msg, hmsg, hs⟩ := Option.bind_eq_some_iff.1 hs
  obtain ⟨hmarks, htidy⟩ := ht msg hmsg
  have hok := h.message i msg hmsg
  split_ifs at hs with hflight
  obtain ⟨⟨d, acts⟩, hfilter, hs⟩ := Option.bind_eq_some_iff.1 hs
  obtain ⟨m, hrun, hs⟩ := Option.bind_eq_some_iff.1 hs
  simp only at hrun hs
  rw [actions_eq hfilter] at hrun hs
  cases hs
  obtain ⟨L, howns⟩ := owns_runActions h.linked hmarks hrun
  have hothers : ∀ j, j ≠ i → (Owns m j ↔ Owns s.tmanager j) := by
    intro j hj
    rw [howns]
    simp [hj]
  have halive := hok.alive (Nat.pos_of_ne_zero hflight)
  refine h.replace hmsg L hothers ?_ ?_
  · intro hown
    cases hk : msg.tags.kept with
    | true => exact ⟨by simpa using halive, rfl⟩
    | false =>
      have hnot : ¬ Owns s.tmanager i := by
        intro hi
        obtain ⟨msg', hmsg', -, hk'⟩ := h.held i hi
        rw [hmsg] at hmsg'
        cases hmsg'
        rw [hk] at hk'
        cases hk'
      have hset := (((howns i).1 hown).resolve_left hnot).2
      rw [htidy hk] at hset
      simp [hset, hok.fresh hk, halive]
  · cases hk : msg.tags.kept with
    | true =>
      refine ⟨by simpa using hok.once, fun _ => by simpa using halive, ?_, ?_,
        fun _ _ => (howns i).2 (.inl (hok.owned hk halive))⟩
      · intro hf
        cases hf
      · intro hf
        cases hf
    | false =>
      have hzero : msg.inFlight - 1 = 0 := by
        have := hok.single hk
        omega
      cases hset : setted (actions events msg.tags holds) with
      | true =>
        refine ⟨by simp [hok.fresh hk, halive], fun _ => by simp [hok.fresh hk, halive],
          fun _ => ?_, fun _ => hok.fresh hk,
          fun _ _ => (howns i).2 (.inr ⟨rfl, by rw [htidy hk, hset]⟩)⟩
        simp only
        omega
      | false =>
        refine ⟨by simp [halive], fun hpos => ?_, fun _ => ?_, fun _ => hok.fresh hk,
          fun hf => by simp at hf⟩
        · simp only at hpos
          omega
        · simp only
          omega

omit [DecidableEq H] [Inhabited H] [IReadBuffer K] in
theorem findEvent_type {type : UInt16} {matcher : String → Bool} {found : Option ℕ}
    (h : EventFactory.findEvent events type.toNat matcher = some found) :
    found = some type.toNat := by
  have hne : (type.toNat : ℤ) ≠ -1 := by omega
  simp only [EventFactory.findEvent, if_pos hne] at h
  split_ifs at h
  simpa using h.symm

omit [Inhabited H] in
theorem owns_putOff {m : TimeoutManager H ℕ (Option ℤ)} {time : UInt64}
    {c : Cell H (TimeoutEvent ℕ (Option ℤ))} (j : ℕ) : Owns (m.putOff time c) j ↔ Owns m j := by
  rw [TimeoutManager.putOff, owns_update,
    owns_modify (f := next time) c.handle fun _ => context_setExpireTime ..]

omit [DecidableEq H] [Inhabited H] in
/-- The message of an expired timer goes on. -/
theorem Ownership.expired {i : ℕ} {msg : Message K} {type : UInt16} {now : UInt64}
    (h : Ownership s) (hmsg : s.messages[i]? = some msg) (howned : Owns s.tmanager i)
    (hl : lists events s.statesMap type.toNat msg.tags now = true)
    (hs : s.receive events i { msg with tags := { msg.tags with tEventId := type.toNat } }
      (fun _ => false) now = some s') : Ownership s' := by
  obtain ⟨⟨d, tags, sent⟩, hrecv, hs⟩ := Option.bind_eq_some_iff.1 hs
  cases hs
  obtain ⟨msg', hmsg', hd, hk⟩ := h.held i howned
  obtain rfl : msg = msg' := Option.some.inj (hmsg.symm.trans hmsg')
  have hkept : tags.kept = true := (receiveMsg_tags hrecv).1.trans hk
  have hsent : sent = true := by
    obtain ⟨found, hfind, -⟩ := Option.bind_eq_some_iff.1 hrecv
    have hfound := findEvent_type hfind
    subst hfound
    exact sent_of_lists hfind hl hrecv
  subst hsent
  refine h.replace hmsg h.linked (fun j _ => Iff.rfl) (fun _ => ⟨hd, hkept⟩) ?_
  refine ⟨?_, fun _ => hd, ?_, ?_, fun _ _ => howned⟩
  · simp [hd]
  · intro hf
    rw [hkept] at hf
    cases hf
  · intro hf
    rw [hkept] at hf
    cases hf

omit [Inhabited H] [IReadBuffer K] in
/-- The message of a deleted timer is destroyed. -/
theorem Ownership.deleted {msg : Message K} {m : TimeoutManager H ℕ (Option ℤ)}
    {c : Cell H (TimeoutEvent ℕ (Option ℤ))} (h : Ownership s)
    (hmsg : s.messages[c.value.context]? = some msg) (ht : s.tmanager.queue.top C = some c)
    (hflight : msg.inFlight = 0)
    (hlast : ∀ c' ∈ s.tmanager.queue.cells, c'.value.context = c.value.context →
      c'.handle = c.handle)
    (hp : Popped C s.tmanager c m) :
    Ownership ⟨s.statesMap, m,
      s.messages.set c.value.context { msg with destroyed := msg.destroyed + 1 }⟩ := by
  have hc := C.top_mem ht
  obtain ⟨L, hcells⟩ := h.linked.popped ht hp
  obtain ⟨msg', hmsg', hd, hk⟩ := h.held c.value.context ⟨c, hc, rfl⟩
  obtain rfl : msg = msg' := Option.some.inj (hmsg.symm.trans hmsg')
  have hothers : ∀ j, j ≠ c.value.context → (Owns m j ↔ Owns s.tmanager j) := by
    intro j hj
    constructor
    · rintro ⟨c', hc', rfl⟩
      exact ⟨c', ((hcells c').1 hc').1, rfl⟩
    · rintro ⟨c', hc', rfl⟩
      refine ⟨c', (hcells c').2 ⟨hc', ?_⟩, rfl⟩
      rintro rfl
      exact hj rfl
  refine h.replace hmsg L hothers ?_ ?_
  · rintro ⟨c', hc', hctx⟩
    obtain ⟨hmem, hne⟩ := (hcells c').1 hc'
    exact absurd (Queue.eq_of_handle hmem hc (hlast c' hmem hctx)) hne
  · refine ⟨?_, ?_, ?_, ?_, ?_⟩
    · simp [hd]
    · intro hpos
      simp [hflight] at hpos
    · intro hf
      rw [hk] at hf
      cases hf
    · intro hf
      rw [hk] at hf
      cases hf
    · intro _ hzero
      simp at hzero

omit [Inhabited H] in
theorem Ownership.handleTimer {time now : UInt64} (h : Ownership s)
    (ht : Tidy C events s (.handleTimer time now))
    (hs : s.handleTimer C events time now = some s') : Ownership s' := by
  obtain ⟨⟨m, popped⟩, hpop, hs⟩ := Option.bind_eq_some_iff.1 hs
  rcases h.linked.pop_cases C time with
    ⟨-, hp⟩ | ⟨c, htop, ⟨hv, m', hm', hp⟩ | ⟨hv, hlt, hp⟩ | ⟨-, -, hp⟩⟩
  · rw [hp] at hpop
    cases hpop
    cases hs
    exact h
  · rw [hp] at hpop
    cases hpop
    obtain ⟨msg, hmsg, hs⟩ := Option.bind_eq_some_iff.1 hs
    obtain ⟨hflight, hlast⟩ := (ht c htop msg hmsg).1 hv
    rw [if_pos hv] at hs
    split_ifs at hs
    cases hs
    exact h.deleted hmsg htop hflight hlast hm'
  · rw [hp] at hpop
    cases hpop
    obtain ⟨msg, hmsg, hs⟩ := Option.bind_eq_some_iff.1 hs
    have hl := (ht c htop msg hmsg).2 hv hlt
    rw [if_neg hv] at hs
    split_ifs at hs
    have h' : Ownership { s with tmanager := s.tmanager.putOff time c } :=
      ⟨h.linked.putOff, fun j hj => h.held j ((owns_putOff j).1 hj),
        fun j m' hm' => (h.message j m' hm').congr (owns_putOff j).2⟩
    exact h'.expired hmsg ((owns_putOff _).2 ⟨c, C.top_mem htop, rfl⟩) hl hs
  · rw [hp] at hpop
    cases hpop
    cases hs
    exact h

theorem Ownership.remove {key : K} {type : UInt16} (h : Ownership s)
    (hs : step C events s (.remove key type) = some s') : Ownership s' := by
  obtain ⟨m, hm, rfl⟩ := Option.map_eq_some_iff.1 hs
  exact ⟨h.linked.remove hm, fun j hj => h.held j ((owns_remove hm j).1 hj),
    fun j msg hmsg => (h.message j msg hmsg).congr (owns_remove hm j).2⟩

theorem Ownership.step {op : Op K} (h : Ownership s) (ht : Tidy C events s op)
    (hs : step C events s op = some s') : Ownership s' := by
  cases op with
  | packet map matcher now => exact h.packet hs
  | handleTimer time now => exact h.handleTimer ht hs
  | filter i holds clock => exact h.filter ht hs
  | remove key type => exact h.remove hs

/-- In every run of tidy steps, of any packets, timers and actions in any order, timers belong to
messages not destroyed, no message is destroyed twice and every message kept alive has a timer. -/
theorem released {n : ℕ} {ops : List (Op K)}
    (ht : Meets (Pipeline.step C events) (Tidy C events) (.new n) ops)
    (hs : run (Pipeline.step C events) (.new n) ops = some s) : Released s :=
  (run_keeps (fun _ _ _ h ht hs => h.step ht hs) ops (ownership_new n) ht hs).spec

/-- A packet sets a timer of `value` for its host. -/
def timerTable (value : ℤ) : List Event :=
  [⟨none, [⟨0, true, some [], [], 0, 0⟩], 0⟩,
    ⟨some "ip", [⟨0, true, some [⟨"true", [.timeoutSet 0 value 0 none], 0⟩], [], 0, 0⟩], 0⟩]

def arriving (now : UInt64) : Op HashedBuffer := .packet (fun _ => hostA) (fun _ => true) now

def filtering (i : ℕ) (sec : UInt64) : Op HashedBuffer :=
  .filter i (fun _ => true) fun _ => ⟨sec, 0⟩

/-- The timer of a packet's host is deleted, and later popped. -/
theorem released_timer : ∃ s, run (step (counted _) (timerTable 5)) (.new 1)
      [arriving 1, filtering 0 1, .remove hostA 0, .handleTimer 2 2] = some s ∧ Released s := by
  obtain ⟨s, hs⟩ := Option.isSome_iff_exists.1 (show (run (step (counted _) (timerTable 5)) (.new 1)
    [arriving 1, filtering 0 1, .remove hostA 0, .handleTimer 2 2]).isSome by decide)
  exact ⟨s, hs, released (by decide) hs⟩

/-- A timer of value zero is set on a message destroyed at once. -/
theorem not_released : ¬ ∀ (events : List Event) (ops : List (Op HashedBuffer))
    (s : Pipeline ℕ HashedBuffer),
    run (step (counted _) events) (.new 1) ops = some s → Released s := by
  intro hall
  obtain ⟨s, hs, hcheck⟩ := (Option.any_eq_true _ _).1 (show (run (step (counted _) (timerTable 0))
    (.new 1) [arriving 1, filtering 0 1]).any (fun s =>
      s.tmanager.queue.cells.any (fun c => c.value.context = 0) &&
        s.messages[0]?.any fun msg => msg.destroyed = 1) by decide)
  simp only [Bool.and_eq_true, List.any_eq_true, Option.any_eq_true, decide_eq_true_eq] at hcheck
  obtain ⟨⟨c, hc, hctx⟩, msg, hmsg, hd⟩ := hcheck
  obtain ⟨msg', hmsg', hd'⟩ := (hall _ _ s hs).alive 0 ⟨c, hc, hctx⟩
  rw [hmsg] at hmsg'
  cases hmsg'
  omega

end Pipeline

end DStreamon
