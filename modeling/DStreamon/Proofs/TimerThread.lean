import DStreamon.Lib.StepRun
import DStreamon.TimerThread

/-!
# Timers of blocks that are not removed out of order

Scheduling, draining, firing and rescheduling keep the heap.  Erasing the timers of a block closes
up the others, which puts some of them under new parents and does not restore the order.
-/

namespace DStreamon

namespace TimerThread

variable {B : Type} {d d' : TimerThread B} {t : Timer B} {tnow : ℤ}

theorem insertInHeap_isHeap (h : BinHeap.IsHeap Timer.time d.heap) (t : Timer B) :
    BinHeap.IsHeap Timer.time (d.insertInHeap t).heap :=
  h.push t

theorem foldr_insertInHeap_isHeap (h : BinHeap.IsHeap Timer.time d.heap) :
    ∀ queue : List (Timer B),
      BinHeap.IsHeap Timer.time (queue.foldr (fun t d => d.insertInHeap t) d).heap
  | [] => h
  | t :: queue => insertInHeap_isHeap (foldr_insertInHeap_isHeap h queue) t

theorem drain_isHeap (h : BinHeap.IsHeap Timer.time d.heap) :
    BinHeap.IsHeap Timer.time d.drain.heap :=
  foldr_insertInHeap_isHeap (d := { d with queue := [] }) h d.queue

theorem foldr_insertInHeap_running :
    ∀ queue : List (Timer B), (queue.foldr (fun t d => d.insertInHeap t) d).running = d.running
  | [] => rfl
  | _ :: queue => foldr_insertInHeap_running queue

@[simp] theorem drain_running : d.drain.running = d.running := foldr_insertInHeap_running d.queue

theorem scheduleTimer_foldl : ∀ (scheduled : List (Timer B)) (d : TimerThread B),
    scheduled.foldl (fun d t => d.scheduleTimer t) d = { d with queue := d.queue ++ scheduled }
  | [], d => by simp
  | t :: scheduled, d => by
    rw [List.foldl_cons, scheduleTimer_foldl scheduled]
    simp [scheduleTimer]

/-- What is removed stood in front; the others are kept. -/
theorem removeFromHeap_cases (h : d.removeFromHeap = some (t, d')) :
    ∃ rest heap, d.heap = t :: rest ∧ d' = { d with heap := heap } ∧ heap.Perm rest ∧
      (BinHeap.IsHeap Timer.time d.heap → BinHeap.IsHeap Timer.time heap) := by
  unfold removeFromHeap at h
  rcases hd : d.heap with _ | ⟨u, rest⟩
  · simp [hd, BinHeap.popHeap] at h
  · obtain ⟨heap, hpop, hperm, hheap⟩ := BinHeap.popHeap_cons Timer.time u rest
    rw [hd, hpop] at h
    simp only [List.getLast?_concat, List.dropLast_concat, Option.map_some, Option.some.injEq,
      Prod.mk.injEq] at h
    obtain ⟨rfl, rfl⟩ := h
    exact ⟨rest, heap, rfl, rfl, hperm, hheap⟩

/-- A timer that is due can be removed. -/
theorem removeFromHeap_of_due (h : d.Due tnow) : ∃ r, d.removeFromHeap = some r := by
  obtain ⟨t, ht, _⟩ := h
  obtain ⟨rest, hd⟩ := List.head?_eq_some_iff.1 ht
  obtain ⟨heap, hpop, _, _⟩ := BinHeap.popHeap_cons Timer.time t rest
  exact ⟨_, by rw [removeFromHeap, hd, hpop, List.getLast?_concat]; rfl⟩

theorem reschedule_cases (d : TimerThread B) (now : ℤ) (t : Timer B) :
    d.reschedule now t = d.insertInHeap (t.nextTime now) ∨ d.reschedule now t = d :=
  ite_eq_or_eq _ _ _

theorem reschedule_isHeap (h : BinHeap.IsHeap Timer.time d.heap) (now : ℤ) (t : Timer B) :
    BinHeap.IsHeap Timer.time (d.reschedule now t).heap := by
  rcases reschedule_cases d now t with hr | hr <;> rw [hr]
  · exact insertInHeap_isHeap h _
  · exact h

@[simp] theorem reschedule_running (d : TimerThread B) (now : ℤ) (t : Timer B) :
    (d.reschedule now t).running = d.running := by
  rcases reschedule_cases d now t with hr | hr <;> rw [hr]
  rfl

theorem le_count_reschedule [DecidableEq B] (d : TimerThread B) (now : ℤ) (t u : Timer B) :
    d.heap.count u ≤ (d.reschedule now t).heap.count u := by
  rcases reschedule_cases d now t with hr | hr <;> rw [hr]
  rw [insertInHeap, (BinHeap.pushHeap_perm _ _).count_eq]
  exact List.count_le_count_cons

theorem front_le (h : BinHeap.IsHeap Timer.time d.heap) (ht : t ∈ d.heap.head?) {u : Timer B}
    (hu : u ∈ d.heap) : t.time ≤ u.time :=
  h.root_le_mem (by rwa [← List.head?_eq_getElem?]) hu

/-- With the earliest timer not due, none is. -/
theorem lt_of_not_due (h : BinHeap.IsHeap Timer.time d.heap) (hdue : ¬d.Due tnow) {u : Timer B}
    (hu : u ∈ d.heap) : tnow < u.time := by
  obtain ⟨t, ht⟩ : ∃ t, d.heap.head? = some t :=
    Option.isSome_iff_exists.1 (by simpa using List.ne_nil_of_mem hu)
  have htime : tnow < t.time := by
    by_contra hle
    exact hdue ⟨t, ht, Int.not_lt.1 hle⟩
  exact Int.lt_of_lt_of_le htime (front_le h ht hu)

end TimerThread

namespace TimerSystem

variable {B : Type} [DecidableEq B] {s s' : TimerSystem B} {b : B}

/-- Exactly then the erasure leaves a heap. -/
theorem erasesInOrder_iff {heap : List (Timer B)} : ErasesInOrder b heap ↔
    BinHeap.IsHeap Timer.time (heap.filter fun t => t.owner ≠ b) := by
  rw [BinHeap.isHeap_filter_iff]
  simp only [ErasesInOrder, KeepsOrder, rankWithout, decide_eq_true_eq]

/-- A pass begins and ends while the thread runs, and of the timers it began with those not fired
are in the heap. -/
structure Inv (s : TimerSystem B) : Prop where
  isHeap : BinHeap.IsHeap Timer.time s.thread.heap
  running : ∀ p, s.pass = some p → s.thread.running
  kept : ∀ p, s.pass = some p → ∀ t,
    p.atWake.count t ≤ p.fired.count t + s.thread.heap.count t

theorem inv_new : Inv (new : TimerSystem B) where
  isHeap := BinHeap.isHeap_nil
  running p h := by simp [new] at h
  kept p h := by simp [new] at h

theorem inv_wake {tnow : ℤ} (h : Inv s) (hs : s.step (.wake tnow) = some s') : Inv s' := by
  simp only [step] at hs
  split at hs
  · next hc =>
    simp only [Option.some.injEq] at hs
    subst hs
    refine ⟨TimerThread.drain_isHeap h.isHeap, fun p _ => by simpa using hc.1, fun p hp t => ?_⟩
    simp only [Option.some.injEq] at hp
    subst hp
    simp
  · cases hs

theorem inv_fire {now : ℤ} {scheduled : List (Timer B)} (h : Inv s)
    (hs : s.step (.fire now scheduled) = some s') : Inv s' := by
  simp only [step, Option.bind_eq_some_iff] at hs
  obtain ⟨p, hp, hs⟩ := hs
  split at hs
  · obtain ⟨⟨t, d⟩, hremove, rfl⟩ := Option.map_eq_some_iff.1 hs
    obtain ⟨rest, heap, hheap, rfl, hperm, hisHeap⟩ := TimerThread.removeFromHeap_cases hremove
    simp only [TimerThread.scheduleTimer_foldl]
    refine ⟨TimerThread.reschedule_isHeap (hisHeap h.isHeap) now t,
      fun _ _ => by simpa using h.running p hp, fun q hq u => ?_⟩
    simp only [Option.some.injEq] at hq
    subst hq
    have hkept := h.kept p hp u
    rw [hheap, List.count_cons] at hkept
    have hle := TimerThread.le_count_reschedule { s.thread with
      heap := heap, queue := s.thread.queue ++ scheduled } now t u
    have hheap' : heap.count u = rest.count u := hperm.count_eq u
    simp only [List.count_append, List.count_singleton] at hle ⊢
    omega
  · cases hs

theorem inv_removeReferences (h : Inv s) (ho : Orderly s (.removeReferences b))
    (hs : s.step (.removeReferences b) = some s') : Inv s' := by
  simp only [step, TimerThread.removeReferences] at hs
  by_cases hr : s.thread.running
  · simp only [hr, if_true, Option.some.injEq] at hs
    exact hs ▸ h
  · simp only [hr, Bool.false_eq_true, if_false, Option.some.injEq] at hs
    subst hs
    refine ⟨erasesInOrder_iff.1 (ho.resolve_left hr), fun p hp => absurd (h.running p hp) hr,
      fun p hp => absurd (h.running p hp) hr⟩

theorem inv_step (o : Op B) (h : Inv s) (ho : Orderly s o) (hs : s.step o = some s') : Inv s' := by
  cases o with
  | schedule t =>
    simp only [step, Option.some.injEq] at hs
    subst hs
    exact ⟨h.isHeap, h.running, h.kept⟩
  | start =>
    simp only [step, TimerThread.start] at hs
    by_cases hr : s.thread.running
    · simp only [hr, if_true, Option.some.injEq] at hs
      exact hs ▸ h
    · simp only [hr, Bool.false_eq_true, if_false, Option.some.injEq] at hs
      subst hs
      exact ⟨h.isHeap, fun _ _ => rfl, h.kept⟩
  | wake tnow => exact inv_wake h hs
  | fire now scheduled => exact inv_fire h hs
  | sleep =>
    simp only [step, Option.bind_eq_some_iff] at hs
    obtain ⟨p, _, hs⟩ := hs
    split at hs
    · cases hs
    · simp only [Option.some.injEq] at hs
      subst hs
      exact ⟨h.isHeap, fun q hq => (by simp at hq), fun q hq => (by simp at hq)⟩
  | stop =>
    simp only [step, Option.some.injEq] at hs
    subst hs
    exact ⟨h.isHeap, h.running, h.kept⟩
  | finish =>
    simp only [step] at hs
    split at hs
    · next hc =>
      simp only [Option.some.injEq] at hs
      subst hs
      have hnone : ∀ p, s.pass ≠ some p := fun p hp => by simp [hp] at hc
      exact ⟨h.isHeap, fun p hp => absurd hp (hnone p), fun p hp => absurd hp (hnone p)⟩
    · cases hs
  | removeReferences b => exact inv_removeReferences h ho hs

theorem Inv.sound (h : Inv s) {p : TimerPass B} (hp : s.pass = some p) : Sound s p where
  isHeap := h.isHeap
  earliest _ ht _ hu := TimerThread.front_le h.isHeap ht hu
  none_due hdue _ ht := TimerThread.lt_of_not_due h.isHeap hdue ht
  all_fired hdue t ht := by
    have hkept := h.kept p hp t
    have hzero : s.thread.heap.count t = 0 := List.count_eq_zero.2 fun hmem =>
      absurd (TimerThread.lt_of_not_due h.isHeap hdue hmem) (Int.not_lt.2 ht)
    omega

/-- With a timer due the thread is not stuck. -/
theorem step_fire_isSome {p : TimerPass B} (hp : s.pass = some p) (hdue : s.thread.Due p.tnow)
    (now : ℤ) (scheduled : List (Timer B)) : (s.step (.fire now scheduled)).isSome := by
  obtain ⟨r, hr⟩ := TimerThread.removeFromHeap_of_due hdue
  simp [step, hp, hdue, hr]

theorem sound_of_orderly (ops : List (Op B)) (s : TimerSystem B) (p : TimerPass B)
    (horderly : StepRun.Meets step Orderly new ops) (hrun : StepRun.run step new ops = some s)
    (hp : s.pass = some p) : Sound s p :=
  (StepRun.run_keeps (fun _ o _ => inv_step o) ops inv_new horderly hrun).sound hp

/-- Block 1 is removed, and one of the timers left has expired. -/
theorem sound_removed : ∃ s p, StepRun.run step (new : TimerSystem ℕ)
    [.schedule ⟨0, 2, "tick", 0, .periodic 1⟩, .schedule ⟨1, 5, "once", 0, .oneShot⟩,
      .schedule ⟨2, 7, "once", 0, .oneShot⟩, .start, .wake 0, .sleep, .stop, .finish,
      .removeReferences 1, .start, .wake 3, .fire 3 []] = some s ∧
      s.pass = some p ∧ Sound s p := by
  refine ⟨_, _, rfl, rfl, sound_of_orderly
    [.schedule ⟨0, 2, "tick", 0, .periodic 1⟩, .schedule ⟨1, 5, "once", 0, .oneShot⟩,
      .schedule ⟨2, 7, "once", 0, .oneShot⟩, .start, .wake 0, .sleep, .stop, .finish,
      .removeReferences 1, .start, .wake 3, .fire 3 []] _ _ (by decide +kernel) rfl rfl⟩

/-- The times 1, 5 and 2 are a heap; without the first, 5 stands before 2. -/
theorem not_sound : ¬ ∀ (ops : List (Op ℕ)) (s : TimerSystem ℕ) (p : TimerPass ℕ),
    StepRun.run step new ops = some s → s.pass = some p → Sound s p := by
  intro h
  let late : Timer ℕ := ⟨0, 2, "once", 0, .oneShot⟩
  let ops : List (Op ℕ) := [.schedule late, .schedule ⟨0, 5, "once", 0, .oneShot⟩,
    .schedule ⟨1, 1, "once", 0, .oneShot⟩, .start, .wake 0, .sleep, .stop, .finish,
    .removeReferences 1, .start, .wake 3]
  have hrun : (StepRun.run step new ops).map (fun s => (s.thread.heap, s.pass.map TimerPass.tnow))
      = some ([⟨0, 5, "once", 0, .oneShot⟩, late], some 3) := by decide +kernel
  obtain ⟨s, hs, hend⟩ := Option.map_eq_some_iff.1 hrun
  simp only [Prod.mk.injEq] at hend
  obtain ⟨hheap, hpass⟩ := hend
  obtain ⟨p, hp, htnow⟩ := Option.map_eq_some_iff.1 hpass
  have hunfired := (h ops s p hs hp).none_due (by simp [TimerThread.Due, hheap, htnow]) late
    (by simp [hheap])
  simp [htnow, late] at hunfired

end TimerSystem

end DStreamon
