import DStreamon.Lib.StepRun
import DStreamon.Proofs.DLeftMap
import DStreamon.Timeout

/-!
# Queued events and occupied nodes

Over keys with non-zero fingerprints, the queued events and the occupied nodes of the tables point
at each other, whatever creates, updates, deletes and reschedules timers.  So `Pop` always follows
the handle of the event on top, and the node it frees is that event's.
-/

namespace DStreamon

open IReadBuffer FirstFit MutableQueue DLeft

namespace TimeoutManager

variable {H M P K : Type} {C : Choice H (TimeoutEvent M P)} {m m' : TimeoutManager H M P}

theorem node_setExpireTime (ev : TimeoutEvent M P) (time : UInt64) :
    (ev.setExpireTime time).node = ev.node := rfl

theorem type_setExpireTime (ev : TimeoutEvent M P) (time : UInt64) :
    (ev.setExpireTime time).type = ev.type := rfl

theorem context_setExpireTime (ev : TimeoutEvent M P) (time : UInt64) :
    (ev.setExpireTime time).context = ev.context := rfl

theorem expireTime_setExpireTime (ev : TimeoutEvent M P) (time : UInt64) :
    (ev.setExpireTime time).expireTime = time := rfl

theorem value_setExpireTime (ev : TimeoutEvent M P) (time : UInt64) :
    (ev.setExpireTime time).value = ev.value := rfl

/-! ## Nodes -/

/-- The fingerprint in a node, zero where there is none. -/
def fpAt (m : TimeoutManager H M P) (node : ℕ × Slot) : UInt32 :=
  (m.timeoutTables[node.1]?.map fun d => fp d node.2).getD 0

section Tables

variable {t : ℕ} {d d' : DLeft H} {q : Queue H (TimeoutEvent M P)} {node : ℕ × Slot}

theorem fpAt_table (ht : m.timeoutTables[t]? = some d) (p : Slot) : fpAt m (t, p) = fp d p := by
  simp [fpAt, ht]

theorem table_of_fpAt (h : fpAt m node ≠ 0) :
    ∃ d, m.timeoutTables[node.1]? = some d ∧ fp d node.2 ≠ 0 := by
  unfold fpAt at h
  rcases ht : m.timeoutTables[node.1]? with _ | d
  · simp [ht] at h
  · exact ⟨d, rfl, by simpa [ht] using h⟩

theorem getElem?_set_table (ht : m.timeoutTables[t]? = some d) (i : ℕ) :
    (m.timeoutTables.set t d')[i]? = if i = t then some d' else m.timeoutTables[i]? := by
  have hlt : t < m.timeoutTables.length := (List.getElem?_eq_some_iff.1 ht).1
  rw [List.getElem?_set]
  by_cases hi : i = t
  · subst hi
    simp [hlt]
  · simp [hi, Ne.symm hi]

theorem fpAt_set (ht : m.timeoutTables[t]? = some d) :
    fpAt ⟨q, m.timeoutTables.set t d'⟩ node =
      if node.1 = t then fp d' node.2 else fpAt m node := by
  simp only [fpAt, getElem?_set_table ht]
  split_ifs
  · rfl
  · rfl

theorem handleAt_set (ht : m.timeoutTables[t]? = some d) :
    handleAt ⟨q, m.timeoutTables.set t d'⟩ node =
      if node.1 = t then some (d'.load node.2) else m.handleAt node := by
  simp only [handleAt, getElem?_set_table ht]
  split_ifs
  · rfl
  · rfl

end Tables

/-! ## The two structures -/

/-- Every event's node is occupied and refers back to it, every occupied node is an event's. -/
structure Linked (m : TimeoutManager H M P) : Prop where
  settled : m.queue.Settled TimeoutEvent.rank
  tables : ∀ (t : ℕ) (d : DLeft H), m.timeoutTables[t]? = some d →
    d.shash = 20 ∧ ∀ p, fp d p ≠ 0 → p.2 < 2 ^ 20
  type : ∀ c ∈ m.queue.cells, c.value.node.1 = c.value.type.toNat
  occupied : ∀ c ∈ m.queue.cells, fpAt m c.value.node ≠ 0
  handle : ∀ c ∈ m.queue.cells, m.handleAt c.value.node = some c.handle
  event : ∀ node, fpAt m node ≠ 0 → ∃ c ∈ m.queue.cells, c.value.node = node

theorem linked_new [Inhabited H] (n : ℕ) : Linked (new n : TimeoutManager H M P) where
  settled := Queue.settled_empty
  tables t d ht := by
    rw [(List.mem_replicate.1 (List.mem_of_getElem? ht)).2]
    exact ⟨rfl, fun p hp => absurd (congrFun (fp_new 16 8 20) p) hp⟩
  type c hc := by cases hc
  occupied c hc := by cases hc
  handle c hc := by cases hc
  event node h := by
    obtain ⟨d, ht, hp⟩ := table_of_fpAt h
    rw [(List.mem_replicate.1 (List.mem_of_getElem? ht)).2] at hp
    exact absurd (congrFun (fp_new 16 8 20) _) hp

theorem Linked.eq_of_node (L : Linked m) {c c' : Cell H (TimeoutEvent M P)}
    (hc : c ∈ m.queue.cells) (hc' : c' ∈ m.queue.cells) (h : c.value.node = c'.value.node) :
    c = c' :=
  Queue.eq_of_handle hc hc'
    (Option.some.inj ((L.handle c hc).symm.trans ((congrArg _ h).trans (L.handle c' hc'))))

/-- A change of the queue that keeps every event with its handle, node and type. -/
theorem Linked.requeue (L : Linked m) {q : Queue H (TimeoutEvent M P)}
    (hq : q.Settled TimeoutEvent.rank)
    (hold : ∀ c' ∈ q.cells, ∃ c ∈ m.queue.cells, c'.handle = c.handle
      ∧ c'.value.node = c.value.node ∧ c'.value.type = c.value.type)
    (hkept : ∀ c ∈ m.queue.cells, ∃ c' ∈ q.cells, c'.value.node = c.value.node) :
    Linked { m with queue := q } where
  settled := hq
  tables := L.tables
  type c' hc' := by
    obtain ⟨c, hc, -, hn, ht⟩ := hold c' hc'
    rw [hn, ht]
    exact L.type c hc
  occupied c' hc' := by
    obtain ⟨c, hc, -, hn, -⟩ := hold c' hc'
    rw [hn]
    exact L.occupied c hc
  handle c' hc' := by
    obtain ⟨c, hc, hh, hn, -⟩ := hold c' hc'
    rw [hn, hh]
    exact L.handle c hc
  event node h := by
    obtain ⟨c, hc, rfl⟩ := L.event node h
    exact hkept c hc

/-- A write to an event that keeps its node, type and rank. -/
theorem Linked.modify [DecidableEq H] (L : Linked m) (h : H)
    {f : TimeoutEvent M P → TimeoutEvent M P}
    (hr : ∀ ev, (f ev).rank = ev.rank) (hn : ∀ ev, (f ev).node = ev.node)
    (ht : ∀ ev, (f ev).type = ev.type) : Linked { m with queue := m.queue.modify h f } := by
  refine L.requeue (L.settled.modify hr) (fun c' hc' => ?_) fun c hc =>
    ⟨_, Queue.mem_modify.2 ⟨c, hc, rfl⟩, ?_⟩
  · obtain ⟨c, hc, rfl⟩ := Queue.mem_modify.1 hc'
    refine ⟨c, hc, ?_⟩
    split
    · exact ⟨rfl, hn _, ht _⟩
    · exact ⟨rfl, rfl, rfl⟩
  · split
    · exact hn _
    · rfl

/-- A write to an event that keeps its node and type, and the update after it. -/
theorem Linked.modify_update [DecidableEq H] (L : Linked m) (h : H)
    {f : TimeoutEvent M P → TimeoutEvent M P} (hn : ∀ ev, (f ev).node = ev.node)
    (ht : ∀ ev, (f ev).type = ev.type) :
    Linked { m with queue := (m.queue.modify h f).update TimeoutEvent.rank h } := by
  refine L.requeue L.settled.modify_update (fun c' hc' => ?_) fun c hc =>
    ⟨_, Queue.mem_modify_update.2 ⟨c, hc, rfl⟩, ?_⟩
  · obtain ⟨c, hc, rfl⟩ := Queue.mem_modify_update.1 hc'
    refine ⟨c, hc, ?_⟩
    split_ifs with hh
    · exact ⟨hh.symm, hn _, ht _⟩
    · exact ⟨rfl, rfl, rfl⟩
  · split_ifs
    · exact hn _
    · rfl

/-! ## `Set` -/

variable [IReadBuffer K]

/-- The event of a key's node. -/
theorem Linked.found (L : Linked m) {t : ℕ} {d : DLeft H} (ht : m.timeoutTables[t]? = some d)
    {key : K} (h0 : fhash key ≠ 0) {p : Slot} (hg : d.get key = some p) :
    ∃ c ∈ m.queue.cells, c.value.node = (t, p) ∧ c.handle = d.load p := by
  have hp : fp d p = fhash key := ((find_eq_some_iff h0).1 hg).mem
  obtain ⟨c, hc, hn⟩ := L.event (t, p) (by rw [fpAt_table ht, hp]; exact h0)
  refine ⟨c, hc, hn, ?_⟩
  have hh := L.handle c hc
  simp only [hn, handleAt, ht, Option.map_some, Option.some.injEq] at hh
  exact hh.symm

/-- A key that is not found is given a free node. -/
theorem reserve_free [Inhabited H] {d d' : DLeft H} {key : K} (h0 : fhash key ≠ 0) {p : Slot}
    (hg : d.get key = none) (hr : d.reserve key = (d', some p)) :
    fp d p = 0 ∧ (path d.shash key).On p ∧ Grows d d'
      ∧ fp d' = Function.update (fp d) p (fhash key) := by
  rcases d.reserve_cases key with ⟨d₁, p₁, hr₁, hfirst, hgrow, -, hfp⟩ | ⟨d₁, hr₁, -, -⟩
  · rw [hr₁] at hr
    cases hr
    refine ⟨?_, hfirst.on, hgrow, hfp⟩
    rcases hfirst.mem with hz | hf
    · exact hz
    · obtain ⟨j, hj, -, hlow⟩ := hfirst
      have hown : (path d.shash key).First (fun q => fp d q = fhash key) p :=
        ⟨j, hj, hf, fun i hi q hq hfq => hlow i hi q hq (.inr hfq)⟩
      rw [DLeft.get, (find_eq_some_iff h0).2 hown] at hg
      cases hg
  · rw [hr₁] at hr
    cases hr

theorem Linked.push [Inhabited H] (L : Linked m) {d d' : DLeft H} {key : K} {type : UInt16}
    {p : Slot}
    {ev : TimeoutEvent M P} (ht : m.timeoutTables[type.toNat]? = some d) (h0 : fhash key ≠ 0)
    (hg : d.get key = none) (hr : d.reserve key = (d', some p))
    (hnode : ev.node = (type.toNat, p)) (htype : ev.type = type) :
    Linked ⟨(m.queue.push C TimeoutEvent.rank ev).1, m.timeoutTables.set type.toNat
      (d'.store p (m.queue.push C TimeoutEvent.rank ev).2)⟩ := by
  obtain ⟨hfree, hon, hgrow, hfp⟩ := reserve_free h0 hg hr
  set h := (m.queue.push C TimeoutEvent.rank ev).2 with hh
  have hfpAt : ∀ node, fpAt ⟨(m.queue.push C TimeoutEvent.rank ev).1,
      m.timeoutTables.set type.toNat (d'.store p h)⟩ node =
        if node = (type.toNat, p) then fhash key else fpAt m node := by
    intro node
    rw [fpAt_set ht, fp_store, hfp]
    by_cases h1 : node.1 = type.toNat
    · rw [if_pos h1]
      by_cases h2 : node.2 = p
      · rw [if_pos (Prod.ext h1 h2), h2, Function.update_self]
      · rw [if_neg fun e => h2 (congrArg Prod.snd e), Function.update_of_ne h2,
          ← fpAt_table ht, ← h1]
    · rw [if_neg h1, if_neg fun e => h1 (congrArg Prod.fst e)]
  have hne : ∀ c ∈ m.queue.cells, c.value.node ≠ (type.toNat, p) := fun c hc e =>
    L.occupied c hc (by rw [e, fpAt_table ht, hfree])
  have hhandle : ∀ node, fpAt m node ≠ 0 → node ≠ (type.toNat, p) →
      handleAt ⟨(m.queue.push C TimeoutEvent.rank ev).1,
        m.timeoutTables.set type.toNat (d'.store p h)⟩ node = m.handleAt node := by
    intro node hocc hnp
    rw [handleAt_set ht]
    split_ifs with h1
    · obtain ⟨d₁, ht₁, hfp₁⟩ := table_of_fpAt hocc
      rw [h1, ht] at ht₁
      cases ht₁
      rw [load_store, if_neg fun e => hnp (Prod.ext h1 e), hgrow.load _ (lt_of_fp hfp₁)]
      simp [handleAt, h1, ht]
    · rfl
  refine ⟨L.settled.push, fun t d₁ ht₁ => ?_, fun c hc => ?_, fun c hc => ?_, fun c hc => ?_,
    fun node hocc => ?_⟩
  · simp only [getElem?_set_table ht] at ht₁
    split_ifs at ht₁
    · cases ht₁
      obtain ⟨hsh, hpl⟩ := L.tables _ d ht
      refine ⟨hgrow.shash.trans hsh, fun q hq => ?_⟩
      rw [fp_store, hfp] at hq
      by_cases hqp : q = p
      · obtain ⟨j, hj⟩ := hon
        rw [hqp]
        rw [hsh] at hj
        exact cellAt_place (by decide) hj
      · rw [Function.update_of_ne hqp] at hq
        exact hpl q hq
    · exact L.tables t d₁ ht₁
  · rcases Queue.mem_push.1 hc with rfl | hc
    · rw [hnode, htype]
    · exact L.type c hc
  · rw [hfpAt]
    rcases Queue.mem_push.1 hc with rfl | hc
    · rw [if_pos hnode]
      exact h0
    · rw [if_neg (hne c hc)]
      exact L.occupied c hc
  · rcases Queue.mem_push.1 hc with rfl | hc
    · rw [hnode, handleAt_set ht]
      simp [hh]
    · rw [hhandle _ (L.occupied c hc) (hne c hc)]
      exact L.handle c hc
  · rw [hfpAt] at hocc
    split_ifs at hocc with hn
    · exact ⟨_, Queue.mem_push.2 (.inl rfl), hnode.trans hn.symm⟩
    · obtain ⟨c, hc, hcn⟩ := L.event node hocc
      exact ⟨c, Queue.mem_push.2 (.inr hc), hcn⟩

section Calls

variable [DecidableEq H] [Inhabited H] {key : K} {value : UInt32} {context : M} {type : UInt16}
  {primaryKey : P} {ts : Timespec}

/-- The event `Set` creates in a node. -/
def created (value : UInt32) (context : M) (type : UInt16) (primaryKey : P) (ts : Timespec)
    (p : Slot) : TimeoutEvent M P :=
  { expireTime := ts.expiry value, value, primaryFlowkey := primaryKey, context, type
    node := (type.toNat, p) }

/-- The update of an event by `Set`: with a value of zero it keeps its expiry. -/
def reset (q : Queue H (TimeoutEvent M P)) (h : H) (value : UInt32) (ts : Timespec) :
    Queue H (TimeoutEvent M P) :=
  if 0 < value then
    ((q.modify h fun ev => { ev with value }).modify h fun ev =>
      ev.setExpireTime (ts.expiry value)).update TimeoutEvent.rank h
  else q.modify h fun ev => { ev with value }

/-- `Set` creates an event where the key has none, else updates the one it has. -/
theorem set_eq_some_iff : m.set C key value context type primaryKey ts = some m' ↔
    ∃ d, m.timeoutTables[type.toNat]? = some d ∧
      ((d.get key = none ∧ ∃ d' p, d.reserve key = (d', some p) ∧
          m' = ⟨(m.queue.push C TimeoutEvent.rank (created value context type primaryKey ts p)).1,
            m.timeoutTables.set type.toNat (d'.store p
              (m.queue.push C TimeoutEvent.rank (created value context type primaryKey ts p)).2)⟩)
        ∨ ∃ p ev, d.get key = some p ∧ m.queue.deref (d.load p) = some ev ∧
          m' = { m with queue := reset m.queue (d.load p) value ts }) := by
  simp only [TimeoutManager.set, Option.bind_eq_bind, Option.bind_eq_some_iff]
  refine exists_congr fun d => and_congr_right fun _ => ?_
  rcases hg : d.get key with _ | p
  · rcases hr : d.reserve key with ⟨d', _ | p⟩
    · simp
    · simp only [true_and, reduceCtorEq, false_and, exists_false, or_false, Option.some.injEq]
      constructor
      · rintro rfl
        exact ⟨d', p, rfl, rfl⟩
      · rintro ⟨d₁, p₁, h, rfl⟩
        cases h
        rfl
  · simp only [reduceCtorEq, false_and, false_or, Option.some.injEq, exists_and_left,
      Option.bind_eq_some_iff, exists_eq_left']
    refine exists_congr fun ev => and_congr_right fun _ => ?_
    unfold reset
    split_ifs
    · simp [eq_comm]
    · simp [eq_comm]

omit [Inhabited H] in
theorem Linked.reset (L : Linked m) (h : H) :
    Linked { m with queue := reset m.queue h value ts } := by
  have hv := L.modify h (f := fun ev => { ev with value }) (fun _ => rfl) (fun _ => rfl)
    fun _ => rfl
  unfold TimeoutManager.reset
  split_ifs
  · exact hv.modify_update h (fun _ => node_setExpireTime ..) fun _ => type_setExpireTime ..
  · exact hv

theorem Linked.set (L : Linked m) (h0 : fhash key ≠ 0)
    (h : m.set C key value context type primaryKey ts = some m') : Linked m' := by
  obtain ⟨d, ht, ⟨hg, d', p, hr, rfl⟩ | ⟨p, ev, -, -, rfl⟩⟩ := set_eq_some_iff.1 h
  · exact L.push ht h0 hg hr rfl rfl
  · exact L.reset _

/-- `Set` fails only without a table of that type or without a node for the key. -/
theorem Linked.set_none (L : Linked m) (h0 : fhash key ≠ 0)
    (h : m.set C key value context type primaryKey ts = none) {d : DLeft H}
    (ht : m.timeoutTables[type.toNat]? = some d) :
    d.get key = none ∧ (d.reserve key).2 = none := by
  by_contra hne
  have hsome : m.set C key value context type primaryKey ts ≠ none := by
    rw [Option.ne_none_iff_exists']
    rcases hg : d.get key with _ | p
    · rcases hr : d.reserve key with ⟨d', _ | p⟩
      · exact absurd ⟨hg, by rw [hr]⟩ hne
      · exact ⟨_, set_eq_some_iff.2 ⟨d, ht, .inl ⟨hg, d', p, hr, rfl⟩⟩⟩
    · obtain ⟨c, hc, -, hh⟩ := L.found ht h0 hg
      exact ⟨_, set_eq_some_iff.2
        ⟨d, ht, .inr ⟨p, c.value, hg, hh ▸ Queue.deref_of_mem hc, rfl⟩⟩⟩
  exact hsome h

/-! ## `Remove` -/

omit [Inhabited H] in
theorem remove_eq_some_iff : m.remove key type = some m' ↔
    ∃ d, m.timeoutTables[type.toNat]? = some d ∧
      ((d.get key = none ∧ m' = m)
        ∨ ∃ p ev, d.get key = some p ∧ m.queue.deref (d.load p) = some ev ∧
          m' = { m with queue := m.queue.modify (d.load p) fun ev => { ev with value := 0 } }) := by
  simp only [TimeoutManager.remove, Option.bind_eq_bind, Option.bind_eq_some_iff]
  refine exists_congr fun d => and_congr_right fun _ => ?_
  rcases hg : d.get key with _ | p
  · simp [eq_comm]
  · simp only [reduceCtorEq, false_and, false_or, Option.some.injEq, exists_and_left,
      Option.bind_eq_some_iff, exists_eq_left']
    exact exists_congr fun ev => and_congr_right fun _ => eq_comm

omit [Inhabited H] in
theorem Linked.remove (L : Linked m) (h : m.remove key type = some m') : Linked m' := by
  obtain ⟨d, -, ⟨-, rfl⟩ | ⟨p, ev, -, -, rfl⟩⟩ := remove_eq_some_iff.1 h
  · exact L
  · exact L.modify _ (fun _ => rfl) (fun _ => rfl) fun _ => rfl

omit [Inhabited H] in
theorem Linked.remove_none (L : Linked m) (h0 : fhash key ≠ 0) (h : m.remove key type = none) :
    m.timeoutTables[type.toNat]? = none := by
  rcases ht : m.timeoutTables[type.toNat]? with _ | d
  · rfl
  · have hsome : m.remove key type ≠ none := by
      rw [Option.ne_none_iff_exists']
      rcases hg : d.get key with _ | p
      · exact ⟨_, remove_eq_some_iff.2 ⟨d, ht, .inl ⟨hg, rfl⟩⟩⟩
      · obtain ⟨c, hc, -, hh⟩ := L.found ht h0 hg
        exact ⟨_, remove_eq_some_iff.2
          ⟨d, ht, .inr ⟨p, c.value, hg, hh ▸ Queue.deref_of_mem hc, rfl⟩⟩⟩
    exact absurd h hsome

end Calls

/-! ## `Pop` -/

section Pop

variable [DecidableEq H] {time : UInt64} {c : Cell H (TimeoutEvent M P)}

/-- The event on top taken out and its node freed. -/
def Popped (C : Choice H (TimeoutEvent M P)) (m : TimeoutManager H M P)
    (c : Cell H (TimeoutEvent M P)) (m' : TimeoutManager H M P) : Prop :=
  ∃ d, m.timeoutTables[c.value.type.toNat]? = some d ∧
    m' = ⟨m.queue.pop C, m.timeoutTables.set c.value.type.toNat (d.setHashKey c.value.node.2 0)⟩

/-- The event of a timer put off to `time` plus its value. -/
def next (time : UInt64) (ev : TimeoutEvent M P) : TimeoutEvent M P :=
  ev.setExpireTime (time + ev.value.toUInt64 * 1000000)

/-- The event on top put off. -/
def putOff (m : TimeoutManager H M P) (time : UInt64) (c : Cell H (TimeoutEvent M P)) :
    TimeoutManager H M P :=
  { m with
    queue := (m.queue.modify c.handle (next time)).update TimeoutEvent.rank c.handle }

theorem mem_putOff {c' : Cell H (TimeoutEvent M P)} :
    c' ∈ (m.putOff time c).queue.cells ↔ ∃ c₁ ∈ m.queue.cells, c' =
      if c₁.handle = c.handle then ⟨c.handle, next time c₁.value, (next time c₁.value).rank⟩
      else c₁ := by
  rw [putOff]
  exact Queue.mem_modify_update

theorem Linked.pop_lazy (L : Linked m) (ht : m.queue.top C = some c) (hv : c.value.value = 0)
    (time : UInt64) : ∃ m', Popped C m c m' ∧ m.pop C time = some (m', some c.value) := by
  have hc := C.top_mem ht
  obtain ⟨d, hd, hfp⟩ := table_of_fpAt (L.occupied c hc)
  have hlt := lt_of_fp hfp
  obtain ⟨hsh, hpl⟩ := L.tables _ d hd
  have htype := L.type c hc
  rw [htype] at hd
  refine ⟨_, ⟨d, hd, rfl⟩, ?_⟩
  have hpl : c.value.node.2.2 < 1048576 := hpl _ hfp
  simp [TimeoutManager.pop, ht, L.handle c hc, Queue.deref_of_mem hc, hv, free, hd, htype,
    removeNode, hlt, hsh, hpl]

theorem Linked.pop_putOff (L : Linked m) (ht : m.queue.top C = some c) (hv : c.value.value ≠ 0)
    (hlt : c.value.expireTime < time) :
    m.pop C time = some (m.putOff time c, some c.value) := by
  have hc := C.top_mem ht
  simp only [TimeoutManager.pop, ht, L.handle c hc, Queue.deref_of_mem hc, hv, hlt, if_false,
    if_true, Option.bind_eq_bind, Option.bind_some]
  have hnext : (fun ev : TimeoutEvent M P =>
      ev.setExpireTime (time + ev.value.toUInt64 * 1000000)) = next time := rfl
  rw [hnext, TimeoutManager.putOff]

theorem Linked.pop_cases (L : Linked m) (C : Choice H (TimeoutEvent M P)) (time : UInt64) :
    (m.queue.top C = none ∧ m.pop C time = some (m, none))
    ∨ ∃ c, m.queue.top C = some c ∧
      ((c.value.value = 0 ∧ ∃ m', Popped C m c m' ∧ m.pop C time = some (m', some c.value))
      ∨ (c.value.value ≠ 0 ∧ c.value.expireTime < time
          ∧ m.pop C time = some (m.putOff time c, some c.value))
      ∨ (c.value.value ≠ 0 ∧ ¬ c.value.expireTime < time ∧ m.pop C time = some (m, none))) := by
  rcases ht : m.queue.top C with _ | c
  · exact .inl ⟨rfl, by rw [TimeoutManager.pop, ht]⟩
  · refine .inr ⟨c, rfl, ?_⟩
    by_cases hv : c.value.value = 0
    · exact .inl ⟨hv, L.pop_lazy ht hv time⟩
    · by_cases hlt : c.value.expireTime < time
      · exact .inr (.inl ⟨hv, hlt, L.pop_putOff ht hv hlt⟩)
      · refine .inr (.inr ⟨hv, hlt, ?_⟩)
        have hc := C.top_mem ht
        simp [TimeoutManager.pop, ht, L.handle c hc, Queue.deref_of_mem hc, hv, hlt]

theorem Linked.popped (L : Linked m) (ht : m.queue.top C = some c) (h : Popped C m c m') :
    Linked m' ∧ (∀ c', c' ∈ m'.queue.cells ↔ c' ∈ m.queue.cells ∧ c' ≠ c) := by
  obtain ⟨d, hd, rfl⟩ := h
  have hc := C.top_mem ht
  rw [Queue.pop_of_top ht]
  have hmem : ∀ c', c' ∈ (m.queue.erase c.handle).cells ↔ c' ∈ m.queue.cells ∧ c' ≠ c := by
    intro c'
    rw [Queue.mem_erase]
    exact and_congr_right fun hc' => not_congr
      ⟨Queue.eq_of_handle hc' hc, congrArg Cell.handle⟩
  have hfp : fp d c.value.node.2 ≠ 0 := by
    rw [← fpAt_table hd, ← L.type c hc]
    exact L.occupied c hc
  have hfpAt : ∀ node, fpAt ⟨m.queue.erase c.handle,
      m.timeoutTables.set c.value.type.toNat (d.setHashKey c.value.node.2 0)⟩ node =
        if node = c.value.node then 0 else fpAt m node := by
    intro node
    rw [fpAt_set hd, fp_setHashKey (lt_of_fp hfp)]
    by_cases h1 : node.1 = c.value.type.toNat
    · rw [if_pos h1]
      by_cases h2 : node.2 = c.value.node.2
      · rw [if_pos (Prod.ext (h1.trans (L.type c hc).symm) h2), h2, Function.update_self]
      · rw [if_neg fun e => h2 (congrArg Prod.snd e), Function.update_of_ne h2,
          ← fpAt_table hd, ← h1]
    · rw [if_neg h1, if_neg fun e => h1 (by rw [e]; exact L.type c hc)]
  refine ⟨⟨L.settled.erase, fun t d₁ ht₁ => ?_, fun c' hc' => ?_, fun c' hc' => ?_,
    fun c' hc' => ?_, fun node hocc => ?_⟩, hmem⟩
  · simp only [getElem?_set_table hd] at ht₁
    split_ifs at ht₁
    · cases ht₁
      obtain ⟨hsh, hpl⟩ := L.tables _ d hd
      refine ⟨hsh, fun q hq => hpl q ?_⟩
      rw [fp_setHashKey (lt_of_fp hfp)] at hq
      by_cases hqp : q = c.value.node.2
      · simp [hqp] at hq
      · rwa [Function.update_of_ne hqp] at hq
    · exact L.tables t d₁ ht₁
  · exact L.type c' ((hmem c').1 hc').1
  · obtain ⟨hc', hne⟩ := (hmem c').1 hc'
    rw [hfpAt, if_neg fun e => hne (L.eq_of_node hc' hc e)]
    exact L.occupied c' hc'
  · have hc' := ((hmem c').1 hc').1
    rw [handleAt_set hd, ← L.handle c' hc']
    split_ifs with h1
    · rw [load_setHashKey, handleAt, h1, hd]
      rfl
    · rfl
  · rw [hfpAt] at hocc
    split_ifs at hocc with hn
    · exact absurd rfl hocc
    · obtain ⟨c', hc', hcn⟩ := L.event node hocc
      exact ⟨c', (hmem c').2 ⟨hc', fun e => hn (by rw [← hcn, e])⟩, hcn⟩

theorem Linked.putOff (L : Linked m) : Linked (m.putOff time c) :=
  L.modify_update c.handle (fun _ => node_setExpireTime ..) fun _ => type_setExpireTime ..

theorem Linked.pop (L : Linked m) {out : Option (TimeoutEvent M P)}
    (h : m.pop C time = some (m', out)) : Linked m' := by
  rcases L.pop_cases C time with ⟨-, hp⟩ | ⟨c, ht, ⟨-, m₁, hm, hp⟩ | ⟨-, -, hp⟩ | ⟨-, -, hp⟩⟩ <;>
    rw [hp] at h <;> cases h
  · exact L
  · exact (L.popped ht hm).1
  · exact L.putOff
  · exact L

end Pop

/-! ## Runs -/

section Runs

variable [DecidableEq H] [Inhabited H]

theorem Linked.step (L : Linked m) {op : Op K M P} (h0 : ∀ key ∈ op.key?, fhash key ≠ 0)
    (h : step C m op = some m') : Linked m' := by
  cases op with
  | set key value context type primaryKey ts => exact L.set (h0 key rfl) h
  | remove key type => exact L.remove h
  | pop time =>
    obtain ⟨⟨m₁, out⟩, hp, rfl⟩ := Option.map_eq_some_iff.1 h
    exact L.pop hp

theorem linked_of_run {n : ℕ} {ops : List (Op K M P)}
    (h0 : ∀ op ∈ ops, ∀ key ∈ op.key?, fhash key ≠ 0)
    (h : StepRun.run (TimeoutManager.step C) (new n) ops = some m) : Linked m :=
  StepRun.run_keeps (C := fun _ op => ∀ key ∈ op.key?, fhash key ≠ 0)
    (fun _ _ _ L h0 h => L.step h0 h) ops (linked_new n)
    (StepRun.meets_of_forall_mem (fun _ _ h => h) ops _ h0) h

end Runs

end TimeoutManager

end DStreamon
