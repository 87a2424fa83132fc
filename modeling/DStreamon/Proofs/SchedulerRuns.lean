import DStreamon.Lib.Awaited
import DStreamon.Proofs.Scheduler

/-!
# Runs of a thread pool

No block is lost or with two threads, a block waits for those ahead of it only, one that has been
removed is not run, and `stop` returns.
-/

namespace DStreamon

namespace Scheduler

namespace PoolSystem

variable {B : Type} [DecidableEq B] {s s' t : PoolSystem B} {b : B} {op : Op B}
  {ops ops' : List (Op B)} {threadnum : ℤ} {affinity : List ℕ}

/-! ## Custody -/

omit [DecidableEq B] in
theorem custody_of_inv (h : Inv s) : Custody s where
  all := h.perm
  apart hnodup i j b hi hj := by
    have hheld := ((h.perm.nodup_iff.2 hnodup).of_append_right : s.pool.held.Nodup)
    obtain ⟨x, hx, hbx⟩ := ThreadPool.runs_iff.1 hi
    obtain ⟨y, hy, hby⟩ := ThreadPool.runs_iff.1 hj
    exact Slots.eq_of_mem_of_nodup hheld hx hy hbx hby
  back hs := ⟨queue_perm_of_stopped h hs, fun _ hth => absent_of_stopped h hs hth⟩
  busy := fun ⟨th, hth, hs⟩ => h.busy th hth hs

theorem custody_of_run (h : StepRun.run step (new threadnum affinity) ops = some s) : Custody s :=
  custody_of_inv (inv_of_run h)

theorem custody_twoThreads : Custody (⟨⟨[], [], true, [⟨false, .running 8⟩, ⟨false, .running 7⟩]⟩,
    .outside, [7, 8], [7, 8]⟩ : PoolSystem ℕ) :=
  custody_of_run (show StepRun.run step (new 2 []) [.addTask 7, .addTask 8, .run, .main, .main,
    .main, .turn 0, .turn 1, .turn 1, .turn 0] = some _ from rfl)

/-! ## Turns -/

/-- What a step does to the queue. -/
theorem step_queue (h : s.step op = some s') :
    (∃ c, s.pool.queue = c :: s'.pool.queue ∧ s'.started = s.started ++ [c]) ∨
    (s'.started = s.started ∧
      ((∃ cs, s'.pool.queue = s.pool.queue ++ cs) ∨
        ∃ c, op = .removeTask c ∧ s'.pool.queue = s.pool.queue.filter fun x => x ≠ c)) := by
  have hsame : ∀ {r : PoolSystem B}, r.started = s.started → r.pool.queue = s.pool.queue →
      r.started = s.started ∧ ((∃ cs, r.pool.queue = s.pool.queue ++ cs) ∨
        ∃ c, op = .removeTask c ∧ r.pool.queue = s.pool.queue.filter fun x => x ≠ c) :=
    fun hs hq => ⟨hs, .inl ⟨[], by rw [hq, List.append_nil]⟩⟩
  cases op with
  | addTask c =>
    simp only [step, ThreadPool.addTask] at h
    split_ifs at h with hc hr
    · cases h
      exact .inr (hsame rfl rfl)
    · cases h
      exact .inr ⟨rfl, .inl ⟨[c], rfl⟩⟩
  | removeTask c =>
    simp only [step, ThreadPool.removeTask] at h
    split_ifs at h with hc hr
    · cases h
      exact .inr (hsame rfl rfl)
    · cases h
      exact .inr ⟨rfl, .inr ⟨c, rfl, rfl⟩⟩
  | run =>
    simp only [step] at h
    split_ifs at h
    all_goals
      cases h
      exact .inr (hsame rfl rfl)
  | stop =>
    simp only [step] at h
    split_ifs at h
    all_goals
      cases h
      exact .inr (hsame rfl rfl)
  | main =>
    refine .inr ?_
    cases main_cases h <;> exact hsame rfl rfl
  | turn i =>
    obtain ⟨⟨taken, p⟩, ht, rfl⟩ := Option.map_eq_some_iff.1 h
    obtain ⟨th, th', -, hturn, -⟩ := ThreadPool.turn_cases ht
    rcases hturn.queue with ⟨c, hq, rfl⟩ | ⟨rfl, hq⟩
    · exact .inl ⟨c, hq, rfl⟩
    · exact .inr ⟨List.append_nil _, .inl hq⟩

/-- `l` has been started and `b` has not, or after blocks that were ahead of it. -/
def Awaits (ahead : List B) (b : B) (started : List B) (t : PoolSystem B) : Prop :=
  ∃ l, t.started = started ++ l ∧
    ((∃ rest behind, t.pool.queue = rest ++ b :: behind ∧ (l ++ rest).Sublist ahead) ∨
      ∃ before after, l = before ++ b :: after ∧ before.Sublist ahead)

theorem awaits_step {ahead started : List B} (h : Awaits ahead b started s)
    (hop : op ≠ .removeTask b) (hs : s.step op = some s') : Awaits ahead b started s' := by
  obtain ⟨l, hl, ⟨rest, behind, hq, hsub⟩ | ⟨before, after, rfl, hsub⟩⟩ := h
  · rcases step_queue hs with ⟨c, hc, hst⟩ | ⟨hst, ⟨cs, hcs⟩ | ⟨c, rfl, hcs⟩⟩
    · rw [hq] at hc
      refine ⟨l ++ [c], by rw [hst, hl, List.append_assoc], ?_⟩
      rcases List.cons_eq_append_iff.1 hc.symm with ⟨rfl, hb⟩ | ⟨rest', rfl, hb⟩
      · obtain ⟨rfl, -⟩ := List.cons_eq_cons.1 hb
        exact .inr ⟨l, [], rfl, by simpa using hsub⟩
      · exact .inl ⟨rest', behind, hb, by simpa using hsub⟩
    · exact ⟨l, hst.trans hl, .inl ⟨rest, behind ++ cs, by simp [hcs, hq], hsub⟩⟩
    · have hcb : b ≠ c := fun heq => hop (heq ▸ rfl)
      refine ⟨l, hst.trans hl, .inl ⟨rest.filter fun x => x ≠ c, behind.filter fun x => x ≠ c,
        by simp [hcs, hq, hcb], ?_⟩⟩
      exact (List.Sublist.append_left List.filter_sublist l).trans hsub
  · rcases step_queue hs with ⟨c, -, hst⟩ | ⟨hst, -⟩
    · exact ⟨before ++ b :: after ++ [c], by rw [hst, hl, List.append_assoc],
        .inr ⟨before, after ++ [c], by simp, hsub⟩⟩
    · exact ⟨_, hst.trans hl, .inr ⟨before, after, rfl, hsub⟩⟩

theorem awaits_run {ahead behind : List B} (hq : s.pool.queue = ahead ++ b :: behind)
    (hb : Op.removeTask b ∉ ops) (h : StepRun.run step s ops = some t) :
    Awaits ahead b s.started t := by
  have hstart : Awaits ahead b s.started s :=
    ⟨[], (List.append_nil _).symm, .inl ⟨ahead, behind, hq, List.Sublist.refl _⟩⟩
  refine StepRun.run_keeps (C := fun _ op => op ≠ .removeTask b)
    (fun _ _ _ ha hop hs => awaits_step ha hop hs) ops hstart ?_ h
  exact StepRun.meets_of_forall_mem (P := fun op => op ≠ .removeTask b) (fun _ _ hop => hop) ops s
    fun op hop heq => hb (heq ▸ hop)

/-- While a block waits, other blocks are started at most once each, and none that a thread had. -/
theorem inTurn_of_run (h : StepRun.run step (new threadnum affinity) ops = some s)
    (hnodup : s.assigned.Nodup) {ahead behind : List B}
    (hq : s.pool.queue = ahead ++ b :: behind) (hb : Op.removeTask b ∉ ops')
    (ht : StepRun.run step s ops' = some t) :
    ahead.Nodup ∧ ahead.length < s.assigned.length ∧ (∀ c ∈ ahead, ∀ i, ¬s.pool.Runs i c) ∧
      ∃ l, t.started = s.started ++ l ∧ InTurn ahead b l := by
  have hperm := (inv_of_run h).perm
  have hall : (s.pool.queue ++ s.pool.held).Nodup := hperm.nodup_iff.2 hnodup
  rw [hq] at hall
  refine ⟨hall.of_append_left.of_append_left, ?_, fun c hc i hi => ?_, ?_⟩
  · rw [← hperm.length_eq, hq]
    simp only [List.length_append, List.length_cons]
    omega
  · exact List.disjoint_of_nodup_append hall (List.mem_append_left _ hc)
      (ThreadPool.mem_held_of_runs hi)
  · obtain ⟨l, hl, ⟨rest, behind', -, hsub⟩ | hstarted⟩ := awaits_run hq hb ht
    · exact ⟨l, hl, .inl ((List.sublist_append_left l rest).trans hsub)⟩
    · exact ⟨l, hl, .inr hstarted⟩

theorem inTurn_thirdBlock : ∃ l : List ℕ, [7, 8, 9] = [7] ++ l ∧ InTurn [8] 9 l :=
  (inTurn_of_run
    (show StepRun.run step (new 2 []) [.addTask 7, .addTask 8, .addTask 9, .run, .main, .main,
      .main, .turn 0, .turn 0] = some _ from rfl)
    (by decide) (show _ = [8] ++ 9 :: [] from rfl) (show Op.removeTask 9 ∉ _ by decide)
    (show StepRun.run step _ [.turn 1, .turn 1, .turn 0, .turn 0, .turn 0] = some _ from rfl)).2.2.2

/-! ## Removed blocks -/

theorem mem_assigned_of_step (hop : op ≠ .addTask b) (h : s.step op = some s')
    (hb : b ∈ s'.assigned) : b ∈ s.assigned := by
  cases op with
  | addTask c =>
    simp only [step, ThreadPool.addTask] at h
    split_ifs at h
    · cases h
      exact hb
    · cases h
      rcases List.mem_append.1 hb with hb | hb
      · exact hb
      · obtain rfl := List.mem_singleton.1 hb
        exact absurd rfl hop
  | removeTask c =>
    simp only [step, ThreadPool.removeTask] at h
    split_ifs at h
    · cases h
      exact hb
    · cases h
      exact List.mem_of_mem_filter hb
  | run =>
    simp only [step] at h
    split_ifs at h
    all_goals
      cases h
      exact hb
  | stop =>
    simp only [step] at h
    split_ifs at h
    all_goals
      cases h
      exact hb
  | main => cases main_cases h <;> exact hb
  | turn i =>
    obtain ⟨_, -, rfl⟩ := Option.map_eq_some_iff.1 h
    exact hb

/-- The block is not among those assigned, and has not been started. -/
structure Gone (b : B) (started : List B) (t : PoolSystem B) : Prop where
  inv : Inv t
  notMem : b ∉ t.assigned
  started : ∃ l, t.started = started ++ l ∧ b ∉ l

theorem gone_step {started : List B} (h : Gone b started s) (hop : op ≠ .addTask b)
    (hs : s.step op = some s') : Gone b started s' := by
  refine ⟨inv_step h.inv hs, fun hb => h.notMem (mem_assigned_of_step hop hs hb), ?_⟩
  obtain ⟨l, hl, hbl⟩ := h.started
  rcases step_queue hs with ⟨c, hc, hst⟩ | ⟨hst, -⟩
  · have hmem : c ∈ s.assigned := h.inv.perm.mem_iff.1 (by simp [hc])
    refine ⟨l ++ [c], by rw [hst, hl, List.append_assoc], fun hb => ?_⟩
    rcases List.mem_append.1 hb with hb | hb
    · exact hbl hb
    · obtain rfl := List.mem_singleton.1 hb
      exact h.notMem hmem
  · exact ⟨l, hst.trans hl, hbl⟩

/-- A block that is removed is neither run nor started until it is added again. -/
theorem removed_of_run (h : StepRun.run step (new threadnum affinity) ops = some s)
    (hstopped : s.Stopped) (hs : s.step (.removeTask b) = some s') (hb : Op.addTask b ∉ ops')
    (ht : StepRun.run step s' ops' = some t) :
    (∀ i, ¬t.pool.Runs i b) ∧ ∃ l, t.started = s.started ++ l ∧ b ∉ l := by
  have hinv := inv_step (inv_of_run h) hs
  have hgone : Gone b s.started s' := by
    simp only [step, ThreadPool.removeTask, hstopped.1, hstopped.2] at hs
    cases hs
    exact ⟨hinv, by simp, [], (List.append_nil _).symm, by simp⟩
  have hend : Gone b s.started t :=
    StepRun.run_keeps (C := fun _ op => op ≠ .addTask b)
      (fun _ _ _ hg hop hs => gone_step hg hop hs) ops' hgone
      (StepRun.meets_of_forall_mem (P := fun op => op ≠ .addTask b) (fun _ _ hop => hop) ops' s'
        fun op hop heq => hb (heq ▸ hop)) ht
  refine ⟨fun i hi => hend.notMem (hend.inv.perm.mem_iff.1 ?_), hend.started⟩
  exact List.mem_append_right _ (ThreadPool.mem_held_of_runs hi)

theorem removed_secondBlock : ∃ l : List ℕ, [7] = [] ++ l ∧ 8 ∉ l :=
  (removed_of_run
    (show StepRun.run step (new 1 []) [.addTask 7, .addTask 8] = some _ from rfl) ⟨rfl, rfl⟩
    (show _ = some _ from rfl) (show Op.addTask 8 ∉ _ by decide)
    (show StepRun.run step _ [.run, .main, .main, .turn 0, .turn 0] = some _ from rfl)).2

/-! ## `stop` -/

/-- How many of the awaited steps are left until `stop` returns. -/
def stopRank (s : PoolSystem B) : ℕ :=
  match s.caller with
  | .stopping i => 6 * (s.pool.threads.length - i) + 1
  | .joining i => 6 * (s.pool.threads.length - (i + 1)) + 2 + s.pool.threads[i]?.elim 0 stepsLeft
  | _ => 0

omit [DecidableEq B] in
theorem stopRank_main (hs : s.InStop) (hm : s.main = some s') :
    stopRank s' < stopRank s ∧ (s'.InStop ∨ s'.Stopped) := by
  unfold InStop at hs
  cases main_cases hm with
  | refuse i hc ha => simp [hc] at hs
  | start i th hc hth ha => simp [hc] at hs
  | started i hc hth => simp [hc] at hs
  | tell i th hc hth =>
    have hi := (List.getElem?_eq_some_iff.1 hth).1
    have hleft := stepsLeft_le { th with stop := true }
    refine ⟨?_, .inl trivial⟩
    simp only [stopRank, hc, ThreadPool.setThread, List.length_set, List.getElem?_set_self hi,
      Option.elim_some]
    omega
  | stopped i hc hth =>
    refine ⟨?_, .inr ⟨rfl, rfl⟩⟩
    simp only [stopRank, hc]
    omega
  | join i stop hc hth =>
    refine ⟨?_, .inl trivial⟩
    simp only [stopRank, hc, ThreadPool.setThread, List.length_set]
    omega

theorem stopRank_turn {i : ℕ} (h : Inv s) (hs : s.InStop) (hstep : s.step (.turn i) = some s') :
    stopRank s' ≤ stopRank s ∧ (s.caller = .joining i → stopRank s' < stopRank s) ∧ s'.InStop := by
  obtain ⟨⟨taken, p⟩, ht, rfl⟩ := Option.map_eq_some_iff.1 hstep
  obtain ⟨th, th', hth, hturn, hp⟩ := ThreadPool.turn_cases ht
  have hthreads : p.threads = s.pool.threads.set i th' := by rw [hp]
  have hi := (List.getElem?_eq_some_iff.1 hth).1
  unfold InStop at hs ⊢
  cases hc : s.caller with
  | outside => simp [hc] at hs
  | starting k => simp [hc] at hs
  | stopping k => simp [stopRank, hc, hthreads]
  | joining k =>
    have hplaced := h.placed i th hth
    rw [hc, placed_joining] at hplaced
    by_cases hk : i = k
    · subst hk
      have htold : Told th := by simpa using hplaced
      have hlt := stepsLeft_turn htold hturn
      simp only [stopRank, hc, hthreads, hth, List.length_set, List.getElem?_set_self hi,
        Option.elim_some]
      exact ⟨by omega, fun _ => by omega, trivial⟩
    · simp only [stopRank, hc, hthreads, List.length_set, List.getElem?_set_ne hk,
        Caller.joining.injEq]
      exact ⟨Nat.le_refl _, fun heq => absurd heq.symm hk, trivial⟩

/-- In `stop` the main thread makes no other call. -/
theorem step_of_inStop (hs : s.InStop) (h : s.step op = some s') :
    op = .main ∨ ∃ i, op = .turn i := by
  have hc : s.caller ≠ .outside := by
    intro hc
    simp [InStop, hc] at hs
  cases op with
  | main => exact .inl rfl
  | turn i => exact .inr ⟨i, rfl⟩
  | _ => simp [step, hc] at h

theorem inStop_or_stopped (h : Inv s) (hs : s.InStop) (hstep : s.step op = some s') :
    s'.InStop ∨ s'.Stopped := by
  rcases step_of_inStop hs hstep with rfl | ⟨i, rfl⟩
  · exact (stopRank_main hs hstep).2
  · exact .inl (stopRank_turn h hs hstep).2.2

theorem isSome_awaited (h : Inv s) (hs : s.InStop) : (s.step s.awaited).isSome := by
  have hcons := h.consistent
  unfold InStop at hs
  unfold Consistent at hcons
  unfold awaited
  cases hc : s.caller with
  | outside => simp [hc] at hs
  | starting k => simp [hc] at hs
  | stopping k =>
    simp only [step, main, hc]
    cases s.pool.threads[k]? <;> rfl
  | joining k =>
    rw [hc] at hcons
    obtain ⟨th, hth⟩ : ∃ th, s.pool.threads[k]? = some th :=
      ⟨_, List.getElem?_eq_getElem hcons.2⟩
    have hplaced := h.placed k th hth
    rw [hc, placed_joining] at hplaced
    have htold : Told th := by simpa using hplaced
    by_cases hended : th.thread = .ended
    · obtain ⟨stop, thread⟩ := th
      subst hended
      simp [step, main, hc, hth]
    · have hturn := htold.isSome_turn hth hended
      obtain ⟨stop, thread⟩ := th
      simpa [step, hth, hended] using hturn

omit [DecidableEq B] in
theorem stopRank_le (h : Inv s) : stopRank s ≤ 6 * s.pool.threads.length + 1 := by
  have hcons := h.consistent
  unfold Consistent at hcons
  unfold stopRank
  split
  · omega
  · next i hc =>
    rw [hc] at hcons
    have hleft : s.pool.threads[i]?.elim 0 stepsLeft ≤ 4 := by
      cases s.pool.threads[i]? with
      | none => exact Nat.zero_le 4
      | some th => exact stepsLeft_le th
    omega
  · exact Nat.zero_le _

/-- Whatever the other threads do, `stop` waits for a step that can be taken, and has returned once
it has got as many as there can be: with all threads joined and all blocks in the queue. -/
theorem stop_returns (h : StepRun.run step (new threadnum affinity) ops = some s)
    (hs : s.InStop) : (s.step s.awaited).isSome ∧
      ∀ ops' t, StepRun.Meets step (fun s _ => s.InStop) s ops' →
        StepRun.run step s ops' = some t →
        StepRun.timesAwaited step awaited s ops' ≤ 6 * s.pool.threads.length + 1 ∧
          (t.InStop ∨ t.Stopped ∧ t.pool.queue.Perm t.assigned ∧
            ∀ th ∈ t.pool.threads, th = ⟨false, .absent⟩) := by
  have hinv := inv_of_run h
  have hle : ∀ (s : PoolSystem B) op s', Inv s → s.InStop → s.step op = some s' →
      stopRank s' ≤ stopRank s := by
    intro s op s' hinv hs hstep
    rcases step_of_inStop hs hstep with rfl | ⟨i, rfl⟩
    · exact Nat.le_of_lt (stopRank_main hs hstep).1
    · exact (stopRank_turn hinv hs hstep).1
  have hlt : ∀ (s s' : PoolSystem B), Inv s → s.InStop → s.step s.awaited = some s' →
      stopRank s' < stopRank s := by
    intro s s' hinv hs hstep
    unfold awaited at hstep
    split at hstep
    · next i hc =>
      split at hstep
      · exact (stopRank_main hs hstep).1
      · exact (stopRank_turn hinv hs hstep).2.1 hc
    · exact (stopRank_main hs hstep).1
  refine ⟨isSome_awaited hinv hs, fun ops' t hm ht => ⟨?_, ?_⟩⟩
  · have hrank : StepRun.timesAwaited step awaited s ops' + stopRank t ≤ stopRank s :=
      StepRun.timesAwaited_add_rank_le (fun _ _ _ hi hs => inv_step hi hs) hle hlt ops' hinv hm
        ht
    have := stopRank_le hinv
    omega
  · have hkeep : ∀ (s : PoolSystem B) op s', Inv s ∧ (s.InStop ∨ s.Stopped) → s.InStop →
        s.step op = some s' → Inv s' ∧ (s'.InStop ∨ s'.Stopped) :=
      fun _ _ _ hi hs hstep => ⟨inv_step hi.1 hstep, inStop_or_stopped hi.1 hs hstep⟩
    have hend := StepRun.run_keeps hkeep ops' ⟨hinv, .inl hs⟩ hm ht
    exact hend.2.imp_right fun hstopped => ⟨hstopped, queue_perm_of_stopped hend.1 hstopped,
      fun _ hth => absent_of_stopped hend.1 hstopped hth⟩

/-- Two threads that run a block each, and the main thread in `stop`. -/
def busyPool : PoolSystem ℕ :=
  ⟨⟨[], [], true, [⟨false, .running 7⟩, ⟨false, .running 8⟩]⟩, .stopping 0, [7, 8], [7, 8]⟩

/-- The second thread goes on with its block while the first one is joined. -/
def stopSteps : List (Op ℕ) :=
  [.main, .turn 0, .turn 1, .turn 0, .turn 1, .turn 1, .turn 0, .main, .main, .turn 1, .turn 1,
    .turn 1, .main, .main]

theorem stop_returns_twoBlocks : ∃ t, StepRun.run step busyPool stopSteps = some t ∧
    StepRun.timesAwaited step awaited busyPool stopSteps ≤ 13 ∧ t.Stopped ∧
      t.pool.queue.Perm [7, 8] ∧ ∀ th ∈ t.pool.threads, th = ⟨false, .absent⟩ := by
  have hrun : StepRun.run step (new 2 []) [.addTask 7, .addTask 8, .run, .main, .main, .main,
      .turn 0, .turn 0, .turn 1, .turn 1, .stop] = some busyPool := rfl
  obtain ⟨hle, hend⟩ := (stop_returns hrun trivial).2 stopSteps _ (by decide) rfl
  exact ⟨_, rfl, hle, hend.resolve_left (by decide)⟩

end PoolSystem

end Scheduler

end DStreamon
