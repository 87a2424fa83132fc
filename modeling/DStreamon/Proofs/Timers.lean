import DStreamon.Proofs.Timeout
import Mathlib.Data.List.Perm.Subperm

/-!
# Timers over whole runs

Over keys with distinct non-zero fingerprints a key has one event of each type at most
(`timers_paired`).  Draining the queue at a time reports each expired timer once and puts it off,
and leaves none expired (`timers_drained`): a call either takes a deleted event out or moves an
expired one past the time, so each event is reported at most once.

A key of fingerprint zero leaves its node free in the table, so another key can take the node of
its event; and a time near the end of the clock wraps when a timer is put off
(`drain_fails`).
-/

namespace DStreamon

open IReadBuffer FirstFit MutableQueue DLeft

namespace TimeoutManager

variable {H M P K : Type} {C : Choice H (TimeoutEvent M P)} {m m' : TimeoutManager H M P}

/-! ## One event for each key and type -/

section Keys

variable [IReadBuffer K] {keys : Set K}

/-- Each table is a first-fit table of the keys, no two nodes of one alike. -/
def Keyed (keys : Set K) (m : TimeoutManager H M P) : Prop :=
  ∀ (t : ℕ) (d : DLeft H), m.timeoutTables[t]? = some d →
    d.shash = 20 ∧ Owned (fp d) (path 20) fhash keys ∧ Single (fp d)

theorem keyed_new [Inhabited H] (n : ℕ) : Keyed keys (new n : TimeoutManager H M P) :=
  fun t d ht => by
  rw [(List.mem_replicate.1 (List.mem_of_getElem? ht)).2, fp_new]
  exact ⟨rfl, owned_zero, single_zero⟩

theorem Keyed.replace (hK : Keyed keys m) {t : ℕ} {d d' : DLeft H}
    {q : Queue H (TimeoutEvent M P)} (ht : m.timeoutTables[t]? = some d) (hsh : d'.shash = 20)
    (ho : Owned (fp d') (path 20) fhash keys) (hs : Single (fp d')) :
    Keyed keys ⟨q, m.timeoutTables.set t d'⟩ := fun i d₁ hi => by
  simp only [getElem?_set_table ht] at hi
  split_ifs at hi
  · cases hi
    exact ⟨hsh, ho, hs⟩
  · exact hK i d₁ hi

variable [DecidableEq H] [Inhabited H]

theorem Keyed.set (hK : Keyed keys m) (hinj : Set.InjOn fhash keys) {key : K} (hk : key ∈ keys)
    (h0 : fhash key ≠ 0) {value : UInt32} {context : M} {type : UInt16} {primaryKey : P}
    {ts : Timespec} (h : m.set C key value context type primaryKey ts = some m') :
    Keyed keys m' := by
  obtain ⟨d, ht, ⟨hg, d', p, hr, rfl⟩ | ⟨p, ev, -, -, rfl⟩⟩ := set_eq_some_iff.1 h
  · obtain ⟨hsh, ho, hs⟩ := hK _ d ht
    obtain ⟨-, hon, hgrow, hfp⟩ := reserve_free h0 hg hr
    rw [hsh] at hon
    refine hK.replace ht (hgrow.shash.trans hsh) ?_ ?_
    · rw [fp_store, hfp]
      exact ho.take hk hon
    · rw [fp_store, hfp]
      refine hs.take fun q hq => ?_
      obtain ⟨r, hr⟩ := ho.exists_first hinj hk h0 hq
      rw [← hsh] at hr
      rw [DLeft.get, (find_eq_some_iff h0).2 hr] at hg
      cases hg
  · exact hK

theorem Keyed.step (hK : Keyed keys m) (hinj : Set.InjOn fhash keys)
    (h0 : ∀ k ∈ keys, fhash k ≠ 0) (L : Linked m) {op : Op K M P}
    (hop : ∀ k ∈ op.key?, k ∈ keys) (h : step C m op = some m') : Keyed keys m' := by
  cases op with
  | set key value context type primaryKey ts =>
    exact hK.set hinj (hop key rfl) (h0 key (hop key rfl)) h
  | remove key type =>
    obtain ⟨d, -, ⟨-, rfl⟩ | ⟨p, ev, -, -, rfl⟩⟩ := remove_eq_some_iff.1 h
    · exact hK
    · exact hK
  | pop time =>
    obtain ⟨⟨m₁, out⟩, hp, rfl⟩ := Option.map_eq_some_iff.1 h
    rcases L.pop_cases C time with
      ⟨-, hp'⟩ | ⟨c, ht, ⟨-, m₂, ⟨d, hd, rfl⟩, hp'⟩ | ⟨-, -, hp'⟩ | ⟨-, -, hp'⟩⟩ <;>
      rw [hp'] at hp <;> cases hp
    · exact hK
    · obtain ⟨hsh, ho, hs⟩ := hK _ d hd
      have hc := C.top_mem ht
      have hlt : c.value.node.2.1 < d.tableCount := lt_of_fp (d := d) (by
        rw [← fpAt_table hd, ← L.type c hc]
        exact L.occupied c hc)
      refine hK.replace hd hsh ?_ ?_
      · rw [fp_setHashKey hlt]
        exact ho.free _
      · rw [fp_setHashKey hlt]
        exact hs.free _
    · exact hK
    · exact hK

/-- Where a call has no answer: no table of that type, or no node for a new timer. -/
def Fails (m : TimeoutManager H M P) : Op K M P → Prop
  | .set key _ _ type _ _ => ∀ d, m.timeoutTables[type.toNat]? = some d →
      d.get key = none ∧ (d.reserve key).2 = none
  | .remove _ type => m.timeoutTables[type.toNat]? = none
  | .pop _ => False

theorem Linked.step_none (L : Linked m) {op : Op K M P} (h0 : ∀ key ∈ op.key?, fhash key ≠ 0)
    (h : TimeoutManager.step C m op = none) : Fails m op := by
  cases op with
  | set key value context type primaryKey ts => exact fun d ht => L.set_none (h0 key rfl) h ht
  | remove key type => exact L.remove_none (h0 key rfl) h
  | pop time =>
    rw [TimeoutManager.step, Option.map_eq_none_iff] at h
    rcases L.pop_cases C time with ⟨-, hp⟩ | ⟨c, -, ⟨-, m₁, -, hp⟩ | ⟨-, -, hp⟩ | ⟨-, -, hp⟩⟩ <;>
      rw [hp] at h <;> cases h

/-- Queued events and occupied nodes belong together. -/
structure Paired (C : Choice H (TimeoutEvent M P)) (keys : Set K)
    (m : TimeoutManager H M P) : Prop where
  bijection : Set.BijOn (fun c => c.value.node) {c | c ∈ m.queue.cells} {node | fpAt m node ≠ 0}
  /-- The node is one of the event's type, and holds its handle. -/
  handle : ∀ c ∈ m.queue.cells, c.value.node.1 = c.value.type.toNat
    ∧ m.handleAt c.value.node = some c.handle
  /-- A key's node is the one its calls find. -/
  found : ∀ k ∈ keys, ∀ (t : ℕ) (d : DLeft H), m.timeoutTables[t]? = some d →
    ∀ p, d.get k = some p ↔ fp d p = fhash k
  single : ∀ k ∈ keys, ∀ c ∈ m.queue.cells, ∀ c' ∈ m.queue.cells, c.value.type = c'.value.type →
    fpAt m c.value.node = fhash k → fpAt m c'.value.node = fhash k → c = c'
  /-- `Pop` watches the event on top. -/
  watched : ∀ c, m.queue.top C = some c → m.handleAt c.value.node = some c.handle
    ∧ m.queue.deref c.handle = some c.value
  /-- A deleted event goes with its own node. -/
  popped : ∀ c, m.queue.top C = some c → c.value.value = 0 → ∀ time, ∃ m',
    Popped C m c m' ∧ m.pop C time = some (m', some c.value)
  /-- No call goes wrong but for want of a table or a node. -/
  fails : ∀ op : Op K M P, (∀ k ∈ op.key?, k ∈ keys) → step C m op = none → Fails m op

theorem Linked.paired (L : Linked m) (hK : Keyed keys m) (hinj : Set.InjOn fhash keys)
    (h0 : ∀ k ∈ keys, fhash k ≠ 0) : Paired C keys m where
  bijection := ⟨L.occupied, fun _ hc _ hc' h => L.eq_of_node hc hc' h, L.event⟩
  handle c hc := ⟨L.type c hc, L.handle c hc⟩
  found k hk t d ht p := by
    obtain ⟨hsh, ho, hs⟩ := hK t d ht
    rw [DLeft.get, find_eq_some_iff (h0 k hk), hsh]
    exact ⟨Path.First.mem, ho.first hs hinj hk (h0 k hk)⟩
  single k hk c hc c' hc' hty h h' := by
    refine L.eq_of_node hc hc' ?_
    have h1 : c.value.node.1 = c'.value.node.1 := by
      rw [L.type c hc, L.type c' hc', hty]
    obtain ⟨d, ht, -⟩ := table_of_fpAt (h ▸ h0 k hk)
    have hfp : fpAt m c.value.node = fp d c.value.node.2 := fpAt_table ht _
    have hfp' : fpAt m c'.value.node = fp d c'.value.node.2 := fpAt_table (h1 ▸ ht) _
    rw [hfp] at h
    rw [hfp'] at h'
    exact Prod.ext h1 ((hK _ d ht).2.2 _ _ (h.trans h'.symm) (h ▸ h0 k hk))
  watched c ht := ⟨L.handle c (C.top_mem ht), Queue.deref_of_mem (C.top_mem ht)⟩
  popped c ht hv time := L.pop_lazy ht hv time
  fails op hop h := L.step_none (fun k hk => h0 k (hop k hk)) h

/-- After any calls on keys with distinct non-zero fingerprints, the queued events and the
occupied nodes are paired, a key having one event of each type at most. -/
theorem timers_paired (hinj : Set.InjOn fhash keys) (h0 : ∀ k ∈ keys, fhash k ≠ 0) (n : ℕ)
    (ops : List (Op K M P)) (hops : ∀ op ∈ ops, ∀ k ∈ op.key?, k ∈ keys)
    (h : StepRun.run (TimeoutManager.step C) (new n) ops = some m) : Paired C keys m := by
  have hinv : Linked m ∧ Keyed keys m :=
    @StepRun.run_keeps _ _ _ (fun _ op => ∀ k ∈ op.key?, k ∈ keys)
      (fun m : TimeoutManager H M P => Linked m ∧ Keyed keys m)
      (fun m op m' hI hop hs => ⟨hI.1.step (fun k hk => h0 k (hop k hk)) hs,
        hI.2.step hinj h0 hI.1 hop hs⟩)
      ops _ _ ⟨linked_new n, keyed_new n⟩
      (StepRun.meets_of_forall_mem (fun _ _ h => h) ops _ hops) h
  exact hinv.1.paired hinv.2 hinj h0

theorem timers_paired_hosts : ∃ m,
    StepRun.run (TimeoutManager.step (counted (TimeoutEvent ℕ ℕ))) (new 1)
      [.set hostA 10 1 0 1 ⟨0, 0⟩, .set hostB 20 2 0 2 ⟨0, 0⟩, .remove hostA 0, .pop 5] = some m
    ∧ Paired (counted _) {hostA, hostB} m := by
  obtain ⟨m, hm⟩ := Option.isSome_iff_exists.1 (show
    (StepRun.run (TimeoutManager.step (counted (TimeoutEvent ℕ ℕ))) (new 1)
      [.set hostA 10 1 0 1 ⟨0, 0⟩, .set hostB 20 2 0 2 ⟨0, 0⟩, .remove hostA 0,
        .pop 5]).isSome = true by decide)
  have hA : fhash hostA ≠ 0 := by decide
  have hB : fhash hostB ≠ 0 := by decide
  have hAB : fhash hostA ≠ fhash hostB := by decide
  refine ⟨m, hm, timers_paired ?_ (by simp [hA, hB]) 1 _ (by simp [Op.key?]) hm⟩
  rintro k (rfl | rfl) k' (rfl | rfl) h
  · rfl
  · exact absurd h hAB
  · exact absurd h.symm hAB
  · rfl

end Keys

/-! ## Draining -/

section Drain

variable {time : UInt64} {c : Cell H (TimeoutEvent M P)}

/-- A timer `Pop` will report: deleted, or expired. -/
def Due (time : UInt64) (ev : TimeoutEvent M P) : Prop :=
  ev.value = 0 ∨ ev.expireTime < time

instance (ev : TimeoutEvent M P) : Decidable (Due time ev) :=
  inferInstanceAs (Decidable (_ ∨ _))

/-- No expired timer is put off past the end of the clock. -/
def Fits (time : UInt64) (m : TimeoutManager H M P) : Prop :=
  ∀ c ∈ m.queue.cells, c.value.value ≠ 0 → c.value.expireTime < time →
    time.toNat + c.value.value.toNat * 10 ^ 6 < 2 ^ 64

/-- What draining `m` at `time` reports, and the manager it leaves. -/
structure Drained (time : UInt64) (m m' : TimeoutManager H M P)
    (evs : List (TimeoutEvent M P)) : Prop where
  /-- No timer is reported twice. -/
  once : (evs.map TimeoutEvent.node).Nodup
  /-- Every expired timer is reported with its old data, and put off. -/
  expired : ∀ c ∈ m.queue.cells, c.value.value ≠ 0 → c.value.expireTime < time →
    c.value ∈ evs ∧ ∃ c' ∈ m'.queue.cells, c'.handle = c.handle ∧ c'.value = next time c.value
      ∧ c'.value.expireTime.toNat = time.toNat + c.value.value.toNat * 10 ^ 6
  /-- Only timers of the queue are reported, as they were, and only deleted or expired ones. -/
  reported : ∀ ev ∈ evs, Due time ev ∧ ∃ c ∈ m.queue.cells, c.value = ev
  /-- The others stay as they are. -/
  kept : ∀ c ∈ m.queue.cells, ¬ Due time c.value → c ∈ m'.queue.cells
  /-- None is left expired. -/
  left : ∀ c ∈ m'.queue.cells, ¬ c.value.expireTime < time

theorem next_toNat {ev : TimeoutEvent M P}
    (h : time.toNat + ev.value.toNat * 10 ^ 6 < 2 ^ 64) :
    (next time ev).expireTime.toNat = time.toNat + ev.value.toNat * 10 ^ 6 := by
  have hmillion : (1000000 : UInt64).toNat = 10 ^ 6 := by decide
  have hmul : (ev.value.toUInt64 * 1000000).toNat = ev.value.toNat * 10 ^ 6 := by
    rw [UInt64.toNat_mul, UInt32.toNat_toUInt64, hmillion]
    exact Nat.mod_eq_of_lt (by omega)
  unfold next TimeoutEvent.setExpireTime
  rw [UInt64.toNat_add, hmul]
  exact Nat.mod_eq_of_lt h

/-- A call that reports `c` takes it out, or moves it past the time; all else stays. -/
structure Reports (time : UInt64) (m m' : TimeoutManager H M P)
    (c : Cell H (TimeoutEvent M P)) : Prop where
  mem : c ∈ m.queue.cells
  due : Due time c.value
  cells : ∀ c', c' ∈ m'.queue.cells →
    c' ∈ m.queue.cells ∧ c' ≠ c ∨ ¬ Due time c'.value ∧ c'.value.node = c.value.node
  kept : ∀ c' ∈ m.queue.cells, c' ≠ c → c' ∈ m'.queue.cells
  putOff : c.value.value ≠ 0 → c.value.expireTime < time → ∃ c' ∈ m'.queue.cells,
    c'.handle = c.handle ∧ c'.value = next time c.value ∧ ¬ Due time c'.value

theorem Linked.reports_popped [DecidableEq H] (L : Linked m) (ht : m.queue.top C = some c)
    (hv : c.value.value = 0) (h : Popped C m c m') : Reports time m m' c where
  mem := C.top_mem ht
  due := .inl hv
  cells c' hc' := .inl (((L.popped ht h).2 c').1 hc')
  kept c' hc' hne := ((L.popped ht h).2 c').2 ⟨hc', hne⟩
  putOff hne := absurd hv hne

theorem reports_putOff [DecidableEq H] (hF : Fits time m) (ht : m.queue.top C = some c)
    (hv : c.value.value ≠ 0) (hlt : c.value.expireTime < time) :
    Reports time m (m.putOff time c) c := by
  have hc := C.top_mem ht
  have hnext := next_toNat (hF c hc hv hlt)
  have hnot : ¬ Due time (next time c.value) := by
    rintro (h | h)
    · exact hv ((value_setExpireTime ..).symm.trans h)
    · rw [UInt64.lt_iff_toNat_lt, hnext] at h
      omega
  have hcell : ∀ c' ∈ m.queue.cells, c'.handle = c.handle ↔ c' = c := fun c' hc' =>
    ⟨Queue.eq_of_handle hc' hc, congrArg Cell.handle⟩
  refine ⟨hc, .inr hlt, fun c' hc' => ?_, fun c' hc' hne => ?_, fun _ _ => ?_⟩
  · obtain ⟨c₁, hc₁, rfl⟩ := mem_putOff.1 hc'
    by_cases h : c₁ = c
    · subst h
      rw [if_pos rfl]
      exact .inr ⟨hnot, node_setExpireTime ..⟩
    · rw [if_neg fun e => h ((hcell c₁ hc₁).1 e)]
      exact .inl ⟨hc₁, h⟩
  · refine mem_putOff.2 ⟨c', hc', ?_⟩
    rw [if_neg fun e => hne ((hcell c' hc').1 e)]
  · exact ⟨_, mem_putOff.2 ⟨c, hc, (if_pos rfl).symm⟩, rfl, rfl, hnot⟩

theorem Reports.fits {m' : TimeoutManager H M P} (h : Reports time m m' c) (hF : Fits time m) :
    Fits time m' := fun c' hc' hv hlt => by
  rcases h.cells c' hc' with ⟨hc', -⟩ | ⟨hnot, -⟩
  · exact hF c' hc' hv hlt
  · exact absurd (.inr hlt) hnot

/-- Each report leaves one event fewer to report. -/
theorem Reports.countP_lt {m' : TimeoutManager H M P} (h : Reports time m m' c) :
    m'.queue.cells.countP (fun c => Due time c.value) <
      m.queue.cells.countP fun c => Due time c.value := by
  classical
  have hnd : m'.queue.cells.Nodup := m'.queue.nodup.of_map
  have hsub : m'.queue.cells.filter (fun c => Due time c.value) ⊆
      (m.queue.cells.filter fun c => Due time c.value).erase c := by
    intro c' hc'
    rw [List.mem_filter, decide_eq_true_eq] at hc'
    rcases h.cells c' hc'.1 with ⟨hm, hne⟩ | ⟨hnot, -⟩
    · exact (List.mem_erase_of_ne hne).2 (List.mem_filter.2 ⟨hm, decide_eq_true hc'.2⟩)
    · exact absurd hc'.2 hnot
  have hle := (List.subperm_of_subset (hnd.filter _) hsub).length_le
  have hmem : c ∈ m.queue.cells.filter fun c => Due time c.value :=
    List.mem_filter.2 ⟨h.mem, decide_eq_true h.due⟩
  rw [List.length_erase_of_mem hmem] at hle
  have hpos := List.length_pos_of_mem hmem
  rw [List.countP_eq_length_filter, List.countP_eq_length_filter]
  omega

theorem Linked.drained_nil (L : Linked m) (h : ∀ c, m.queue.top C = some c →
    c.value.value ≠ 0 ∧ ¬ c.value.expireTime < time) : Drained time m m [] := by
  have hlast : ∀ c ∈ m.queue.cells, ¬ c.value.expireTime < time := by
    intro c hc
    rcases ht : m.queue.top C with _ | top
    · have hnil : m.queue.cells = [] := C.top_none ht
      rw [hnil] at hc
      cases hc
    · have hle := L.settled.top_le ht hc
      have hnot := (h top ht).2
      rw [UInt64.lt_iff_toNat_lt] at hnot ⊢
      unfold TimeoutEvent.rank at hle
      omega
  refine ⟨List.nodup_nil, fun c hc _ hlt => absurd hlt (hlast c hc), fun ev hev => (by cases hev),
    fun c hc _ => hc, hlast⟩

theorem Reports.drained {m₁ : TimeoutManager H M P} (L : Linked m) (hF : Fits time m)
    (h : Reports time m m₁ c) {evs : List (TimeoutEvent M P)} (hd : Drained time m₁ m' evs) :
    Drained time m m' (c.value :: evs) := by
  refine ⟨?_, fun c' hc' hv hlt => ?_, fun ev hev => ?_, fun c' hc' hnot => ?_, hd.left⟩
  · refine List.nodup_cons.2 ⟨fun hmem => ?_, hd.once⟩
    obtain ⟨ev, hev, hn⟩ := List.mem_map.1 hmem
    obtain ⟨hdue, c₁, hc₁, rfl⟩ := hd.reported ev hev
    rcases h.cells c₁ hc₁ with ⟨hc₁, hne⟩ | ⟨hnot, -⟩
    · exact hne (L.eq_of_node hc₁ h.mem hn)
    · exact hnot hdue
  · by_cases hcc : c' = c
    · subst hcc
      obtain ⟨c₁, hc₁, hh, hval, hnot⟩ := h.putOff hv hlt
      exact ⟨List.mem_cons_self, c₁, hd.kept c₁ hc₁ hnot, hh, hval, by
        rw [hval]
        exact next_toNat (hF c' hc' hv hlt)⟩
    · obtain ⟨hmem, hfin⟩ := hd.expired c' (h.kept c' hc' hcc) hv hlt
      exact ⟨List.mem_cons_of_mem _ hmem, hfin⟩
  · rcases List.mem_cons.1 hev with rfl | hev
    · exact ⟨h.due, c, h.mem, rfl⟩
    · obtain ⟨hdue, c₁, hc₁, rfl⟩ := hd.reported ev hev
      rcases h.cells c₁ hc₁ with ⟨hc₁, -⟩ | ⟨hnot, -⟩
      · exact ⟨hdue, c₁, hc₁, rfl⟩
      · exact absurd hdue hnot
  · exact hd.kept c' (h.kept c' hc' fun e => hnot (e ▸ h.due)) hnot

/-- The loop, by the number of events it has to report. -/
theorem Linked.drain [DecidableEq H] (L : Linked m) (hF : Fits time m) {n : ℕ}
    (hn : m.queue.cells.countP (fun c => Due time c.value) < n) :
    ∃ m' evs, m.drain C time n = some (m', evs) ∧ Drained time m m' evs := by
  induction n generalizing m with
  | zero => omega
  | succ n ih =>
    have hstop : ∀ (_ : ∀ c, m.queue.top C = some c →
        c.value.value ≠ 0 ∧ ¬ c.value.expireTime < time) (_ : m.pop C time = some (m, none)),
        ∃ m' evs, m.drain C time (n + 1) = some (m', evs) ∧ Drained time m m' evs :=
      fun htop hp => ⟨m, [], by simp [TimeoutManager.drain, hp], L.drained_nil htop⟩
    have hmore : ∀ (c : Cell H (TimeoutEvent M P)) (m₁ : TimeoutManager H M P),
        Reports time m m₁ c → m.pop C time = some (m₁, some c.value) →
        ∃ m' evs, m.drain C time (n + 1) = some (m', evs) ∧ Drained time m m' evs := by
      intro c m₁ hr hp
      obtain ⟨m', evs, hm', hd⟩ := ih (L.pop hp) (hr.fits hF)
        (Nat.lt_of_lt_of_le hr.countP_lt (Nat.le_of_lt_succ hn))
      exact ⟨m', c.value :: evs, by simp [TimeoutManager.drain, hp, hm'], hr.drained L hF hd⟩
    rcases L.pop_cases C time with
      ⟨ht, hp⟩ | ⟨c, ht, ⟨hv, m₁, hm, hp⟩ | ⟨hv, hlt, hp⟩ | ⟨hv, hlt, hp⟩⟩
    · exact hstop (fun c hc => by rw [ht] at hc; cases hc) hp
    · exact hmore c m₁ (L.reports_popped ht hv hm) hp
    · exact hmore c _ (reports_putOff hF ht hv hlt) hp
    · refine hstop (fun c' hc' => ?_) hp
      rw [ht] at hc'
      cases hc'
      exact ⟨hv, hlt⟩

/-- Over keys with non-zero fingerprints, and where no expired timer is put off past the end of the
clock, `Pop` answers `false` after at most one call more than there are events, every expired timer
reported once with its old data and put off, and none left expired. -/
theorem timers_drained [DecidableEq H] [Inhabited H] [IReadBuffer K] (n : ℕ) (ops : List (Op K M P))
    (h0 : ∀ op ∈ ops, ∀ key ∈ op.key?, fhash key ≠ 0)
    (h : StepRun.run (TimeoutManager.step C) (new n) ops = some m) (hF : Fits time m) :
    ∃ m' evs, m.drain C time (m.queue.cells.length + 1) = some (m', evs)
      ∧ Drained time m m' evs :=
  (linked_of_run h0 h).drain hF (Nat.lt_succ_of_le List.countP_le_length)

/-- Times that leave room for the largest value fit. -/
theorem fits_of_le (h : time.toNat + 2 ^ 32 * 10 ^ 6 ≤ 2 ^ 64) : Fits time m := fun c _ _ _ => by
  have := c.value.value.toNat_lt
  omega

theorem timers_drained_hosts : ∃ m m' evs,
    StepRun.run (TimeoutManager.step (counted (TimeoutEvent ℕ ℕ))) (new 1)
      [.set hostA 10 1 0 1 ⟨0, 0⟩, .set hostB 20 2 0 2 ⟨0, 0⟩] = some m
    ∧ m.drain (counted _) 15000000 (m.queue.cells.length + 1) = some (m', evs)
    ∧ Drained 15000000 m m' evs := by
  obtain ⟨m, hm⟩ := Option.isSome_iff_exists.1 (show
    (StepRun.run (TimeoutManager.step (counted (TimeoutEvent ℕ ℕ))) (new 1)
      [.set hostA 10 1 0 1 ⟨0, 0⟩, .set hostB 20 2 0 2 ⟨0, 0⟩]).isSome = true by decide)
  have hA : fhash hostA ≠ 0 := by decide
  have hB : fhash hostB ≠ 0 := by decide
  obtain ⟨m', evs, h⟩ := timers_drained 1 _ (by simp [Op.key?, hA, hB]) hm
    (fits_of_le (show (15000000 : UInt64).toNat + 2 ^ 32 * 10 ^ 6 ≤ 2 ^ 64 by decide))
  exact ⟨m, m', evs, hm, h⟩

/-! ## Where draining fails -/

/-- A timer that is still expired once it is put off. -/
def Wraps (time : UInt64) (ev : TimeoutEvent M P) : Prop :=
  ev.value ≠ 0 ∧ ev.expireTime < time ∧ time + ev.value.toUInt64 * 1000000 < time

instance (ev : TimeoutEvent M P) : Decidable (Wraps time ev) :=
  inferInstanceAs (Decidable (_ ∧ _ ∧ _))

theorem Wraps.next {ev : TimeoutEvent M P} (h : Wraps time ev) : Wraps time (next time ev) := by
  unfold Wraps TimeoutManager.next
  rw [value_setExpireTime, expireTime_setExpireTime]
  exact ⟨h.1, h.2.2, h.2.2⟩

/-- Where all timers wrap, `Pop` never answers `false`. -/
theorem Linked.drain_wraps [DecidableEq H] (L : Linked m) (hne : m.queue.cells ≠ [])
    (hw : ∀ c ∈ m.queue.cells, Wraps time c.value) (n : ℕ) : m.drain C time n = none := by
  induction n generalizing m with
  | zero => rfl
  | succ n ih =>
    rcases ht : m.queue.top C with _ | c
    · exact absurd (C.top_none ht) hne
    · have hc := C.top_mem ht
      have hput := L.pop_putOff ht (hw c hc).1 (hw c hc).2.1
      have hrest : (m.putOff time c).drain C time n = none := by
        refine ih L.putOff (fun hnil => ?_) fun c' hc' => ?_
        · obtain ⟨c', hc'⟩ : ∃ c', c' ∈ (m.putOff time c).queue.cells :=
            ⟨_, mem_putOff.2 ⟨c, hc, rfl⟩⟩
          rw [hnil] at hc'
          cases hc'
        · obtain ⟨c₁, hc₁, rfl⟩ := mem_putOff.1 hc'
          split_ifs
          · exact (hw c₁ hc₁).next
          · exact hw c₁ hc₁
      simp [TimeoutManager.drain, hput, hrest]

/-- A key of fingerprint zero. -/
def hostZero : HashedBuffer := ⟨[0xcc, 0x24, 0x31, 0xc4]⟩

/-- A timer set for the last microsecond of the clock is reported for ever; and the event of a key
of fingerprint zero, whose node another key has taken, is left expired. -/
theorem drain_fails :
    (∃ m, StepRun.run (TimeoutManager.step (counted (TimeoutEvent ℕ ℕ))) (new 1)
        [.set hostA 1 0 0 0 ⟨0, 0⟩] = some m
      ∧ ¬ ∃ n r, m.drain (counted _) 0xFFFFFFFFFFFFFFFF n = some r)
    ∧ fhash hostZero = 0
    ∧ ((StepRun.run (TimeoutManager.step (counted (TimeoutEvent ℕ ℕ))) (new 1)
        [.set (⟨[10, 1, 109, 36]⟩ : HashedBuffer) 1000 1 0 1 ⟨0, 0⟩,
          .set ⟨[10, 16, 50, 1]⟩ 1000 2 0 2 ⟨0, 0⟩, .set hostZero 10 3 0 3 ⟨0, 0⟩,
          .set ⟨[10, 1, 249, 133]⟩ 1000 4 0 4 ⟨0, 0⟩]).bind fun m =>
        m.drain (counted _) 11000000 5).map
      (fun r => (r.2.length,
        r.1.queue.cells.countP fun c => c.value.value ≠ 0 ∧ c.value.expireTime < 11000000))
      = some (0, 1) := by
  refine ⟨?_, by decide, by decide⟩
  obtain ⟨m, hm⟩ := Option.isSome_iff_exists.1 (show
    (StepRun.run (TimeoutManager.step (counted (TimeoutEvent ℕ ℕ))) (new 1)
      [.set hostA 1 0 0 0 ⟨0, 0⟩]).isSome = true by decide)
  have hcells : ((StepRun.run (TimeoutManager.step (counted (TimeoutEvent ℕ ℕ))) (new 1)
      [.set hostA 1 0 0 0 ⟨0, 0⟩]).map fun m => (m.queue.cells.isEmpty,
        m.queue.cells.all fun c => Wraps 0xFFFFFFFFFFFFFFFF c.value)) = some (false, true) := by
    decide
  rw [hm, Option.map_some, Option.some.injEq, Prod.mk.injEq] at hcells
  have hA : fhash hostA ≠ 0 := by decide
  refine ⟨m, hm, ?_⟩
  rintro ⟨n, r, hr⟩
  have L := linked_of_run (by simp [Op.key?, hA]) hm
  rw [L.drain_wraps (by simpa using hcells.1) (by simpa using hcells.2)] at hr
  cases hr

end Drain

end TimeoutManager

end DStreamon
