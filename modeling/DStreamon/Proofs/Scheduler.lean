import DStreamon.Lib.Slots
import DStreamon.Scheduler

/-!
# Blocks in the custody of their pool

A thread's step moves a block between the queue and the thread, and where the main thread is says
which of the threads there are.
-/

namespace DStreamon

namespace Scheduler

variable {B : Type}

namespace ThreadPool

variable {p p' : ThreadPool B} {taken : Option B} {i : ℕ}

/-- A thread's step, with the queue before and after it. -/
inductive Turn : List B → ThreadHandler B → Option B → List B → ThreadHandler B → Prop
  | test (q : List B) (stop : Bool) :
    Turn q ⟨stop, .testing⟩ none q ⟨stop, if stop then .leaving else .requesting⟩
  | take (q : List B) (b : B) (stop : Bool) :
    Turn (b :: q) ⟨stop, .requesting⟩ (some b) q ⟨stop, .running b⟩
  | sleep (stop : Bool) : Turn [] ⟨stop, .requesting⟩ none [] ⟨stop, .sleeping⟩
  | done (q : List B) (b : B) (stop : Bool) :
    Turn q ⟨stop, .running b⟩ none (q ++ [b]) ⟨stop, .testing⟩
  | wake (q : List B) (stop : Bool) : Turn q ⟨stop, .sleeping⟩ none q ⟨stop, .testing⟩
  | leave (q : List B) (stop : Bool) : Turn q ⟨stop, .leaving⟩ none q ⟨false, .ended⟩

theorem turn_cases (h : p.turn i = some (taken, p')) : ∃ th th', p.threads[i]? = some th ∧
    Turn p.queue th taken p'.queue th' ∧
    p' = { p with queue := p'.queue, threads := p.threads.set i th' } := by
  obtain ⟨⟨stop, thread⟩, hth, h⟩ := Option.bind_eq_some_iff.1 h
  cases thread with
  | testing =>
    cases h
    exact ⟨_, _, hth, .test _ _, rfl⟩
  | requesting =>
    cases hq : p.queue with
    | nil =>
      simp only [nextTask, hq, List.head?_nil, Option.some.injEq, Prod.mk.injEq] at h
      obtain ⟨rfl, rfl⟩ := h
      exact ⟨_, _, hth, .sleep _, rfl⟩
    | cons b q =>
      simp only [nextTask, hq, List.head?_cons, Option.some.injEq, Prod.mk.injEq] at h
      obtain ⟨rfl, rfl⟩ := h
      exact ⟨_, _, hth, .take _ _ _, rfl⟩
  | running b =>
    cases h
    exact ⟨_, _, hth, .done _ _ _, rfl⟩
  | sleeping =>
    cases h
    exact ⟨_, _, hth, .wake _ _, rfl⟩
  | leaving =>
    cases h
    exact ⟨_, _, hth, .leave _ _, rfl⟩
  | absent => cases h
  | ended => cases h

/-- What a thread takes from the queue it holds, until it puts it back. -/
theorem Turn.perm {q q' : List B} {th th' : ThreadHandler B} (h : Turn q th taken q' th') :
    (q' ++ holding th').Perm (q ++ holding th) := by
  cases h with
  | test _ stop => cases stop <;> exact .rfl
  | take _ b _ => simp [holding]
  | sleep _ => exact .rfl
  | done _ b _ => simp [holding]
  | wake _ _ => exact .rfl
  | leave _ _ => exact .rfl

/-- Blocks are taken in front and put back behind. -/
theorem Turn.queue {q q' : List B} {th th' : ThreadHandler B} (h : Turn q th taken q' th') :
    (∃ c, q = c :: q' ∧ taken = some c) ∨ (taken = none ∧ ∃ cs, q' = q ++ cs) := by
  cases h with
  | take _ c _ => exact .inl ⟨c, rfl, rfl⟩
  | done _ c _ => exact .inr ⟨rfl, [c], rfl⟩
  | _ => exact .inr ⟨rfl, [], (List.append_nil _).symm⟩

/-- A thread goes to sleep where the queue is empty. -/
theorem Turn.of_sleeping {q q' : List B} {th th' : ThreadHandler B} (h : Turn q th taken q' th')
    (hs : th'.thread = .sleeping) : q = [] ∧ holding th = [] := by
  cases h with
  | test _ stop => cases stop <;> cases hs
  | sleep _ => exact ⟨rfl, rfl⟩
  | _ => cases hs

theorem length_holding (th : ThreadHandler B) : (holding th).length ≤ 1 := by
  unfold holding
  split <;> simp

theorem mem_holding {th : ThreadHandler B} {b : B} : b ∈ holding th ↔ th.thread = .running b := by
  unfold holding
  split <;> simp_all [eq_comm]

theorem held_perm {th th' : ThreadHandler B} (h : p.threads[i]? = some th) :
    (holding th ++ (p.setThread i th').held).Perm (holding th' ++ p.held) :=
  Slots.flatMap_set_perm th' h

theorem runs_iff {b : B} : p.Runs i b ↔ ∃ th, p.threads[i]? = some th ∧ b ∈ holding th := by
  simp only [Runs, mem_holding, Option.mem_def]

theorem mem_held_of_runs {b : B} (h : p.Runs i b) : b ∈ p.held := by
  obtain ⟨th, hth, hb⟩ := runs_iff.1 h
  exact List.mem_flatMap.2 ⟨th, List.mem_of_getElem? hth, hb⟩

end ThreadPool

open Scheduler.ThreadPool (Turn holding)

/-! ## Threads that are there -/

/-- In its loop, and not told to stop. -/
def Live (th : ThreadHandler B) : Prop :=
  th.stop = false ∧ th.thread ≠ .absent ∧ th.thread ≠ .leaving ∧ th.thread ≠ .ended

/-- Told to stop, and not joined. -/
def Told (th : ThreadHandler B) : Prop :=
  (th.stop = true ∧ th.thread ≠ .absent ∧ th.thread ≠ .ended) ∨ th = ⟨false, .ended⟩

def Absent (th : ThreadHandler B) : Prop := th = ⟨false, .absent⟩

section Turns

variable {q q' : List B} {taken : Option B} {th th' : ThreadHandler B}

theorem Live.turn (h : Live th) (ht : Turn q th taken q' th') : Live th' := by
  obtain ⟨hstop, -, hleaving, -⟩ := h
  cases ht <;> simp_all [Live]

theorem Told.turn (h : Told th) (ht : Turn q th taken q' th') : Told th' := by
  rcases h with ⟨hstop, -, -⟩ | rfl
  · cases ht <;> simp_all [Told]
  · cases ht

theorem Absent.not_turn (h : Absent th) : ¬ Turn q th taken q' th' := by
  subst h
  intro ht
  cases ht

/-- How many steps a thread that is told to stop has left. -/
def stepsLeft (th : ThreadHandler B) : ℕ :=
  match th.thread with
  | .requesting => 4
  | .running _ | .sleeping => 3
  | .testing => 2
  | .leaving => 1
  | .absent | .ended => 0

theorem stepsLeft_le (th : ThreadHandler B) : stepsLeft th ≤ 4 := by
  unfold stepsLeft
  split <;> omega

theorem stepsLeft_turn (h : Told th) (ht : Turn q th taken q' th') :
    stepsLeft th' < stepsLeft th := by
  rcases h with ⟨hstop, -, -⟩ | rfl
  · cases ht <;> simp_all [stepsLeft]
  · cases ht

/-- A thread that has not ended has a step. -/
theorem Told.isSome_turn {p : ThreadPool B} {i : ℕ} (hth : p.threads[i]? = some th) (h : Told th)
    (hne : th.thread ≠ .ended) : (p.turn i).isSome := by
  obtain ⟨stop, thread⟩ := th
  rcases h with ⟨-, habsent, -⟩ | h
  · rw [ThreadPool.turn, hth]
    cases thread with
    | absent => exact absurd rfl habsent
    | ended => exact absurd rfl hne
    | requesting =>
      cases hq : p.queue <;> simp [ThreadPool.nextTask, hq]
    | _ => rfl
  · cases h
    exact absurd rfl hne

end Turns

namespace PoolSystem

variable {s s' : PoolSystem B}

/-! ## Steps of the main thread -/

inductive Main (s : PoolSystem B) : PoolSystem B → Prop
  | refuse (i : ℕ) (hc : s.caller = .starting i) (ha : ∃ a ∈ s.pool.affinity, cpuSetSize < a) :
    Main s { s with caller := .outside }
  | start (i : ℕ) (th : ThreadHandler B) (hc : s.caller = .starting i)
    (hth : s.pool.threads[i]? = some th) (ha : ¬∃ a ∈ s.pool.affinity, cpuSetSize < a) :
    Main s { s with
      pool := s.pool.setThread i { th with thread := .testing }
      caller := .starting (i + 1) }
  | started (i : ℕ) (hc : s.caller = .starting i) (hth : s.pool.threads[i]? = none) :
    Main s { s with pool := { s.pool with running := true }, caller := .outside }
  | tell (i : ℕ) (th : ThreadHandler B) (hc : s.caller = .stopping i)
    (hth : s.pool.threads[i]? = some th) :
    Main s { s with
      pool := s.pool.setThread i { th with stop := true }
      caller := .joining i }
  | stopped (i : ℕ) (hc : s.caller = .stopping i) (hth : s.pool.threads[i]? = none) :
    Main s { s with pool := { s.pool with running := false }, caller := .outside }
  | join (i : ℕ) (stop : Bool) (hc : s.caller = .joining i)
    (hth : s.pool.threads[i]? = some ⟨stop, .ended⟩) :
    Main s { s with
      pool := s.pool.setThread i ⟨stop, .absent⟩
      caller := .stopping (i + 1) }

theorem main_cases (h : s.main = some s') : Main s s' := by
  unfold main at h
  split at h
  · cases h
  · next i hc =>
    split at h
    · next th hth =>
      split at h
      · next ha =>
        cases h
        exact .refuse i hc ha
      · next ha =>
        cases h
        exact .start i th hc hth ha
    · next hth =>
      cases h
      exact .started i hc hth
  · next i hc =>
    split at h
    · next th hth =>
      cases h
      exact .tell i th hc hth
    · next hth =>
      cases h
      exact .stopped i hc hth
  · next i hc =>
    split at h
    · next stop hth =>
      cases h
      exact .join i stop hc hth
    · cases h

/-! ## The threads there are -/

/-- What a thread is, by where the main thread is. -/
def Placed (c : Caller) (running : Bool) (i : ℕ) (th : ThreadHandler B) : Prop :=
  match c with
  | .outside => if running then Live th else Absent th
  | .starting k => if i < k then Live th else Absent th
  | .stopping k => if i < k then Absent th else Live th
  | .joining k => if i < k then Absent th else if i = k then Told th else Live th

section Placed

variable {running : Bool} {i k : ℕ} {th : ThreadHandler B}

@[simp] theorem placed_outside :
    Placed .outside running i th ↔ if running then Live th else Absent th := .rfl

@[simp] theorem placed_starting :
    Placed (.starting k) running i th ↔ if i < k then Live th else Absent th := .rfl

@[simp] theorem placed_stopping :
    Placed (.stopping k) running i th ↔ if i < k then Absent th else Live th := .rfl

@[simp] theorem placed_joining : Placed (.joining k) running i th ↔
    if i < k then Absent th else if i = k then Told th else Live th := .rfl

end Placed

/-- A thread is only started with an affinity that all of them can have. -/
def Consistent (s : PoolSystem B) : Prop :=
  match s.caller with
  | .outside => True
  | .starting k => s.pool.running = false ∧ (0 < k → ¬∃ a ∈ s.pool.affinity, cpuSetSize < a)
  | .stopping _ => s.pool.running = true
  | .joining k => s.pool.running = true ∧ k < s.pool.threads.length

structure Inv (s : PoolSystem B) : Prop where
  perm : (s.pool.queue ++ s.pool.held).Perm s.assigned
  placed : ∀ i th, s.pool.threads[i]? = some th → Placed s.caller s.pool.running i th
  consistent : s.Consistent
  busy : ∀ th ∈ s.pool.threads, th.thread = .sleeping →
    s.assigned.length < s.pool.threads.length

theorem Placed.turn {c : Caller} {running : Bool} {i : ℕ} {q q' : List B} {taken : Option B}
    {th th' : ThreadHandler B} (h : Placed c running i th) (ht : Turn q th taken q' th') :
    Placed c running i th' := by
  unfold Placed at h ⊢
  split at h <;> split_ifs at h ⊢
  all_goals first | exact h.turn ht | exact absurd ht h.not_turn

theorem holding_absent {th : ThreadHandler B} (h : Absent th) : holding th = [] := by
  subst h
  rfl

theorem absent_of_stopped (h : Inv s) (hs : s.Stopped) {th : ThreadHandler B}
    (hth : th ∈ s.pool.threads) : Absent th := by
  obtain ⟨i, hi⟩ := List.mem_iff_getElem?.1 hth
  simpa [hs.1, hs.2] using h.placed i th hi

theorem held_of_stopped (h : Inv s) (hs : s.Stopped) : s.pool.held = [] :=
  List.flatMap_eq_nil_iff.2 fun _ hth => holding_absent (absent_of_stopped h hs hth)

theorem queue_perm_of_stopped (h : Inv s) (hs : s.Stopped) : s.pool.queue.Perm s.assigned := by
  simpa [held_of_stopped h hs] using h.perm

theorem inv_new [DecidableEq B] (threadnum : ℤ) (affinity : List ℕ) :
    Inv (new threadnum affinity : PoolSystem B) := by
  have habsent : ∀ th ∈ (new threadnum affinity : PoolSystem B).pool.threads, Absent th :=
    fun th hth => (List.mem_replicate.1 hth).2
  refine ⟨?_, fun i th hth => ?_, trivial, fun th hth hs => ?_⟩
  · have hheld : (new threadnum affinity : PoolSystem B).pool.held = [] :=
      List.flatMap_eq_nil_iff.2 fun th hth => holding_absent (habsent th hth)
    rw [hheld]
    exact .nil
  · exact habsent th (List.mem_of_getElem? hth)
  · rw [habsent th hth] at hs
    cases hs

/-- A step of a thread keeps the blocks of the pool. -/
theorem inv_turn {i : ℕ} {taken : Option B} {p : ThreadPool B} (h : Inv s)
    (ht : s.pool.turn i = some (taken, p)) (started : List B) :
    Inv { s with pool := p, started := started } := by
  obtain ⟨th, th', hth, hturn, hp⟩ := ThreadPool.turn_cases ht
  have hheld : (holding th ++ p.held).Perm (holding th' ++ s.pool.held) := by
    rw [hp]
    exact ThreadPool.held_perm hth
  have hperm : (p.queue ++ p.held).Perm (s.pool.queue ++ s.pool.held) := by
    classical
    refine List.perm_iff_count.2 fun b => ?_
    have hh := hheld.count_eq b
    have hq := hturn.perm.count_eq b
    simp only [List.count_append] at hh hq ⊢
    omega
  have hthreads : p.threads = s.pool.threads.set i th' := by rw [hp]
  refine ⟨hperm.trans h.perm, fun j x hx => ?_, ?_, fun x hx hsleep => ?_⟩
  · have hrunning : p.running = s.pool.running := by rw [hp]
    rw [hthreads] at hx
    rw [hrunning]
    rcases Slots.getElem?_set_cases hx with ⟨rfl, rfl⟩ | ⟨-, hx⟩
    · exact (h.placed j th hth).turn hturn
    · exact h.placed j x hx
  · have hcons := h.consistent
    unfold Consistent at hcons ⊢
    rw [hp]
    simpa only [List.length_set] using hcons
  · rw [hthreads] at hx ⊢
    rw [List.length_set]
    rcases List.mem_or_eq_of_mem_set hx with hx | rfl
    · exact h.busy x hx hsleep
    · obtain ⟨hqueue, hempty⟩ := hturn.of_sleeping hsleep
      rw [← h.perm.length_eq, hqueue, List.nil_append]
      exact Slots.length_flatMap_lt ThreadPool.length_holding (List.mem_of_getElem? hth) hempty

theorem held_setThread {p : ThreadPool B} {i : ℕ} {th th' : ThreadHandler B}
    (hth : p.threads[i]? = some th) (h : holding th' = holding th) :
    (p.setThread i th').held.Perm p.held := by
  have hperm : (holding th ++ (p.setThread i th').held).Perm (holding th' ++ p.held) :=
    ThreadPool.held_perm hth
  rw [h] at hperm
  exact (List.perm_append_left_iff _).1 hperm

/-- The main thread changes no queue, and of the threads the one it is at, which keeps its block. -/
theorem inv_of_setThread {i : ℕ} {th th' : ThreadHandler B} {c : Caller} (h : Inv s)
    (hth : s.pool.threads[i]? = some th) (hhold : holding th' = holding th)
    (hsleep : th'.thread = .sleeping → th.thread = .sleeping)
    (hplaced : ∀ j x, s.pool.threads[j]? = some x →
      Placed c s.pool.running j (if j = i then th' else x))
    (hcons : Consistent { s with pool := s.pool.setThread i th', caller := c }) :
    Inv { s with pool := s.pool.setThread i th', caller := c } := by
  refine ⟨((held_setThread hth hhold).append_left _).trans h.perm, fun j x hx => ?_, hcons,
    fun x hx hs => ?_⟩
  · rcases Slots.getElem?_set_cases hx with ⟨rfl, rfl⟩ | ⟨hne, hx⟩
    · have hj := hplaced j th hth
      rwa [if_pos rfl] at hj
    · have hj := hplaced j x hx
      rwa [if_neg hne] at hj
  · simp only [ThreadPool.setThread, List.length_set]
    rcases List.mem_or_eq_of_mem_set hx with hx | rfl
    · exact h.busy x hx hs
    · exact h.busy th (List.mem_of_getElem? hth) (hsleep hs)

/-- Where only it is other than before, the main thread is elsewhere or the pool runs or not. -/
theorem inv_of_caller {c : Caller} (running : Bool) (h : Inv s)
    (hplaced : ∀ j x, s.pool.threads[j]? = some x → Placed c running j x)
    (hcons : Consistent { s with pool := { s.pool with running := running }, caller := c }) :
    Inv { s with pool := { s.pool with running := running }, caller := c } :=
  ⟨h.perm, hplaced, hcons, h.busy⟩

theorem inv_main (h : Inv s) (hm : s.main = some s') : Inv s' := by
  have hcons := h.consistent
  have hplaced := h.placed
  unfold Consistent at hcons
  cases main_cases hm with
  | refuse i hc ha =>
    rw [hc] at hcons hplaced
    obtain rfl : i = 0 := Nat.eq_zero_of_not_pos fun hi => hcons.2 hi ha
    refine inv_of_caller _ h (fun j x hx => ?_) trivial
    simpa [hcons.1] using hplaced j x hx
  | start i th hc hth ha =>
    rw [hc] at hcons hplaced
    have habsent : Absent th := by simpa using hplaced i th hth
    subst habsent
    refine inv_of_setThread h hth rfl (fun hs => by cases hs) (fun j x hx => ?_)
      ⟨hcons.1, fun _ => ha⟩
    have := hplaced j x hx
    rw [placed_starting] at this ⊢
    split_ifs at this ⊢ <;> first | omega | assumption | simp [Live]
  | started i hc hth =>
    rw [hc] at hcons hplaced
    refine inv_of_caller _ h (fun j x hx => ?_) trivial
    have hj : j < i :=
      Nat.lt_of_lt_of_le (List.getElem?_eq_some_iff.1 hx).1 (List.getElem?_eq_none_iff.1 hth)
    simpa [hj] using hplaced j x hx
  | tell i th hc hth =>
    rw [hc] at hcons hplaced
    have hi : i < (s.pool.setThread i { th with stop := true }).threads.length := by
      simpa [ThreadPool.setThread] using (List.getElem?_eq_some_iff.1 hth).1
    refine inv_of_setThread h hth rfl id (fun j x hx => ?_) ⟨hcons, hi⟩
    have := hplaced j x hx
    have hlive : Live th := by simpa using hplaced i th hth
    rw [placed_stopping] at this
    rw [placed_joining]
    split_ifs at this ⊢ <;> first | omega | assumption | exact .inl ⟨rfl, hlive.2.1, hlive.2.2.2⟩
  | stopped i hc hth =>
    rw [hc] at hcons hplaced
    refine inv_of_caller _ h (fun j x hx => ?_) trivial
    have hj : j < i :=
      Nat.lt_of_lt_of_le (List.getElem?_eq_some_iff.1 hx).1 (List.getElem?_eq_none_iff.1 hth)
    simpa [hj] using hplaced j x hx
  | join i stop hc hth =>
    rw [hc] at hcons hplaced
    have htold : Told (⟨stop, .ended⟩ : ThreadHandler B) := by simpa using hplaced i _ hth
    obtain rfl : stop = false := by simpa [Told] using htold
    refine inv_of_setThread h hth rfl (fun hs => by cases hs) (fun j x hx => ?_) hcons.1
    have := hplaced j x hx
    rw [placed_joining] at this
    rw [placed_stopping]
    split_ifs at this ⊢ <;> first | omega | assumption | rfl

section Calls

variable [DecidableEq B]

theorem inv_step {op : Op B} (h : Inv s) (hs : s.step op = some s') : Inv s' := by
  cases op with
  | addTask b =>
    simp only [step, ThreadPool.addTask] at hs
    split_ifs at hs with hc hr
    · cases hs
      exact h
    · cases hs
      have hstopped : s.Stopped := ⟨hc, by simpa using hr⟩
      refine ⟨?_, h.placed, h.consistent, fun th hth hsleep => ?_⟩
      · change (s.pool.queue ++ [b] ++ s.pool.held).Perm (s.assigned ++ [b])
        rw [held_of_stopped h hstopped, List.append_nil]
        exact (queue_perm_of_stopped h hstopped).append_right [b]
      · rw [absent_of_stopped h hstopped hth] at hsleep
        cases hsleep
  | removeTask b =>
    simp only [step, ThreadPool.removeTask] at hs
    split_ifs at hs with hc hr
    · cases hs
      exact h
    · cases hs
      have hstopped : s.Stopped := ⟨hc, by simpa using hr⟩
      refine ⟨?_, h.placed, h.consistent, fun th hth hsleep => ?_⟩
      · change (s.pool.queue.filter _ ++ s.pool.held).Perm (s.assigned.filter _)
        rw [held_of_stopped h hstopped, List.append_nil]
        exact (queue_perm_of_stopped h hstopped).filter _
      · rw [absent_of_stopped h hstopped hth] at hsleep
        cases hsleep
  | run =>
    simp only [step] at hs
    split_ifs at hs with hc hr
    · cases hs
      exact h
    · cases hs
      refine inv_of_caller _ h (fun j x hx => ?_)
        ⟨by simpa using hr, fun hlt => absurd hlt (Nat.lt_irrefl 0)⟩
      simpa [hc, hr] using h.placed j x hx
  | stop =>
    simp only [step] at hs
    split_ifs at hs with hc hr
    · cases hs
      refine inv_of_caller _ h (fun j x hx => ?_) hr
      simpa [hc, hr] using h.placed j x hx
    · cases hs
      exact h
  | main => exact inv_main h hs
  | turn i =>
    obtain ⟨⟨taken, p⟩, ht, rfl⟩ := Option.map_eq_some_iff.1 hs
    exact inv_turn h ht _

theorem inv_of_run {threadnum : ℤ} {affinity : List ℕ} {ops : List (Op B)}
    (h : StepRun.run step (new threadnum affinity) ops = some s) : Inv s :=
  StepRun.run_keeps (C := fun _ _ => True) (fun _ _ _ hs _ => inv_step hs) ops
    (inv_new threadnum affinity) (StepRun.meets_of_forall (fun _ _ => trivial) ops _) h

end Calls

end PoolSystem

end Scheduler

end DStreamon
