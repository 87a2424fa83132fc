import DStreamon.Calls
import DStreamon.Lib.Slots
import DStreamon.Lib.WaitFor

/-!
# Calls of blocks, and what they wait for

A thread waits for the mutex of a block that its last call leads to, and so does the thread that
holds it, unless it can go on.  Where no block leads to itself some thread can.
-/

namespace DStreamon

open Function (update)

namespace Process

variable {B I O M : Type} {W : Wiring B I O}

/-! ## Steps -/

/-- The messages that calls have not delivered. -/
def undelivered (calls : List (Call B I M)) : List (I × M) := calls.flatMap Call.pending

/-- Calls of a block with its mutex locked. -/
def holds [DecidableEq B] (b : B) (calls : List (Call B I M)) : ℕ :=
  calls.countP fun c => c.block = b ∧ c.locked

/-- Each call is made by the one below it, and delivers to peers of its block. -/
def Linked (W : Wiring B I O) : List (Call B I M) → Prop
  | [] => True
  | c :: calls => (∀ x ∈ c.pending, ∃ o ∈ W.outGates c.block, x.1 ∈ W.peers o) ∧
      (∀ c' ∈ calls.head?, Calls W c'.block c.block) ∧ Linked W calls

/-- The mutexes of synchronized passive blocks are what calls lock. -/
def LocksOwn (W : Wiring B I O) (c : Call B I M) : Prop :=
  c.locked = true ↔ W.active c.block = false ∧ W.synchronized c.block = true

variable [DecidableEq B] {s s' : Process B I O M} {t : ℕ} {b : B}
  {calls calls' : List (Call B I M)}

theorem enter_cases (h : s.enter W t calls b = some s') :
    (W.synchronized b = true → s.mutex b = false) ∧
      s' = { s with
        threads := s.threads.set t (⟨b, W.synchronized b, []⟩ :: calls)
        mutex := if W.synchronized b then update s.mutex b true else s.mutex } := by
  unfold enter at h
  split_ifs at h with hsync hmutex
  · cases h
    exact ⟨fun _ => by simpa using hmutex, by simp [hsync]⟩
  · cases h
    have hsync' : W.synchronized b = false := by simpa using hsync
    exact ⟨fun hs => absurd hs hsync, by simp [hsync', setStack]⟩

/-- The steps, with the stack of their thread before and after. -/
inductive Step (W : Wiring B I O) (s : Process B I O M) : Op B O M → Process B I O M → Prop
  | run (t : ℕ) (b : B) (ht : s.threads[t]? = some []) (hb : W.active b = true) :
    Step W s (.run t b) { s with threads := s.threads.set t [⟨b, false, []⟩] }
  | timer (t : ℕ) (b : B) (s' : Process B I O M) (ht : s.threads[t]? = some [])
    (hb : W.active b = false) (he : s.enter W t [] b = some s') : Step W s (.timer t b) s'
  | send (t : ℕ) (b : B) (locked : Bool) (calls : List (Call B I M)) (o : O) (m : M)
    (ht : s.threads[t]? = some (⟨b, locked, []⟩ :: calls)) (ho : o ∈ W.outGates b)
    (hpeers : 0 < (W.peers o).length) :
    Step W s (.send t o m) { s with
      threads := s.threads.set t (⟨b, locked, (W.peers o).map fun g => (g, m)⟩ :: calls)
      sent := s.sent ++ [(o, m)] }
  | queue (t : ℕ) (b : B) (locked : Bool) (g : I) (m : M) (pending : List (I × M))
    (calls : List (Call B I M))
    (ht : s.threads[t]? = some (⟨b, locked, (g, m) :: pending⟩ :: calls))
    (hg : W.active (W.owner g) = true) :
    Step W s (.deliver t) { s with
      threads := s.threads.set t (⟨b, locked, pending⟩ :: calls)
      received := s.received ++ [(g, m)] }
  | call (t : ℕ) (b : B) (locked : Bool) (g : I) (m : M) (pending : List (I × M))
    (calls : List (Call B I M)) (s' : Process B I O M)
    (ht : s.threads[t]? = some (⟨b, locked, (g, m) :: pending⟩ :: calls))
    (hg : W.active (W.owner g) = false)
    (he : enter W { s with received := s.received ++ [(g, m)] } t (⟨b, locked, pending⟩ :: calls)
      (W.owner g) = some s') : Step W s (.deliver t) s'
  | leave (t : ℕ) (b : B) (locked : Bool) (calls : List (Call B I M))
    (ht : s.threads[t]? = some (⟨b, locked, []⟩ :: calls)) :
    Step W s (.leave t) { s with
      threads := s.threads.set t calls
      mutex := if locked then update s.mutex b false else s.mutex }

theorem step_cases [DecidableEq O] {op : Op B O M} (h : s.step W op = some s') :
    Step W s op s' := by
  cases op with
  | run t b =>
    simp only [step] at h
    split at h
    · next ht =>
      split_ifs at h with hb
      cases h
      exact .run t b ht hb
    · cases h
  | timer t b =>
    simp only [step] at h
    split at h
    · next ht =>
      split_ifs at h with hb
      exact .timer t b s' ht (by simpa using hb) h
    · cases h
  | send t o m =>
    simp only [step] at h
    split at h
    · next b locked calls ht =>
      split_ifs at h with ho
      cases h
      exact .send t b locked calls o m ht ho.1 ho.2
    · cases h
  | deliver t =>
    simp only [step] at h
    split at h
    · next b locked g m pending calls ht =>
      split_ifs at h with hg
      · cases h
        exact .queue t b locked g m pending calls ht hg
      · exact .call t b locked g m pending calls s' ht (by simpa using hg) h
    · cases h
  | leave t =>
    simp only [step] at h
    split at h
    · next b locked calls ht =>
      cases h
      exact .leave t b locked calls ht
    · cases h

/-! ## What steps keep -/

structure Inv (W : Wiring B I O) (s : Process B I O M) : Prop where
  linked : ∀ calls ∈ s.threads, Linked W calls
  locks : ∀ calls ∈ s.threads, ∀ c ∈ calls, LocksOwn W c
  mutex : ∀ b, holds b s.threads.flatten = if s.mutex b then 1 else 0
  messages : (s.received ++ undelivered s.threads.flatten).Perm (s.copies W)

omit [DecidableEq B] in
theorem flatten_set (ht : s.threads[t]? = some calls) (calls' : List (Call B I M)) :
    (calls ++ (s.threads.set t calls').flatten).Perm (calls' ++ s.threads.flatten) := by
  simpa only [List.flatMap_id, id] using Slots.flatMap_set_perm (f := id) calls' ht

theorem holds_append (b : B) (calls calls' : List (Call B I M)) :
    holds b (calls ++ calls') = holds b calls + holds b calls' :=
  List.countP_append

omit [DecidableEq B] in
theorem undelivered_append (calls calls' : List (Call B I M)) :
    undelivered (calls ++ calls') = undelivered calls ++ undelivered calls' :=
  List.flatMap_append

/-- A step that changes the stack of one thread. -/
theorem inv_set (h : Inv W s) (ht : s.threads[t]? = some calls)
    (hthreads : s'.threads = s.threads.set t calls')
    (hlinked : Linked W calls → Linked W calls')
    (hlocks : (∀ c ∈ calls, LocksOwn W c) → ∀ c ∈ calls', LocksOwn W c)
    (hmutex : ∀ b, holds b calls' + (if s.mutex b then 1 else 0) =
      holds b calls + if s'.mutex b then 1 else 0)
    (hmessages : ((s'.received ++ undelivered calls') ++ s.copies W).Perm
      (s'.copies W ++ (s.received ++ undelivered calls))) : Inv W s' := by
  have hmem : calls ∈ s.threads := List.mem_of_getElem? ht
  have hset := flatten_set ht calls'
  rw [← hthreads] at hset
  refine ⟨fun x hx => ?_, fun x hx => ?_, fun b => ?_, ?_⟩
  · rw [hthreads] at hx
    rcases List.mem_or_eq_of_mem_set hx with hx | rfl
    · exact h.linked x hx
    · exact hlinked (h.linked calls hmem)
  · rw [hthreads] at hx
    rcases List.mem_or_eq_of_mem_set hx with hx | rfl
    · exact h.locks x hx
    · exact hlocks (h.locks calls hmem)
  · have hcount : holds b (calls ++ s'.threads.flatten) = holds b (calls' ++ s.threads.flatten) :=
      hset.countP_eq _
    have hb := h.mutex b
    have hm := hmutex b
    rw [holds_append, holds_append] at hcount
    omega
  · classical
    refine List.perm_iff_count.2 fun x => ?_
    have hpend : (undelivered (calls ++ s'.threads.flatten)).Perm
        (undelivered (calls' ++ s.threads.flatten)) := hset.flatMap_right _
    have hp := hpend.count_eq x
    have hm := hmessages.count_eq x
    have hs := h.messages.count_eq x
    simp only [undelivered_append, List.count_append] at hp hm hs ⊢
    omega

/-- The mutex of a call is locked. -/
theorem mutex_of_mem (h : Inv W s) (hcalls : calls ∈ s.threads) {c : Call B I M} (hc : c ∈ calls)
    (hlocked : c.locked = true) : s.mutex c.block = true := by
  have hpos : 0 < holds c.block s.threads.flatten :=
    List.countP_pos_iff.2 ⟨c, List.mem_flatten.2 ⟨calls, hcalls, hc⟩, by simp [hlocked]⟩
  rw [h.mutex] at hpos
  by_contra hm
  simp [hm] at hpos

/-- A call of a passive block. -/
theorem inv_enter {received : List (I × M)} (h : Inv W s) (hb : W.active b = false)
    (ht : s.threads[t]? = some calls)
    (he : enter W { s with received := received } t calls' b = some s')
    (hlinked : Linked W calls → Linked W calls')
    (hhead : ∀ c ∈ calls'.head?, Calls W c.block b)
    (hlocks : (∀ c ∈ calls, LocksOwn W c) → ∀ c ∈ calls', LocksOwn W c)
    (hholds : ∀ b, holds b calls' = holds b calls)
    (hmessages : (received ++ undelivered calls').Perm (s.received ++ undelivered calls)) :
    Inv W s' := by
  obtain ⟨hfree, rfl⟩ := enter_cases he
  refine inv_set h ht rfl (fun hl => ⟨by simp, hhead, hlinked hl⟩) (fun hl => ?_) (fun b' => ?_) ?_
  · refine List.forall_mem_cons.2 ⟨?_, hlocks hl⟩
    simp [LocksOwn, hb]
  · have hcons : holds b' (⟨b, W.synchronized b, []⟩ :: calls') =
        holds b' calls' + if b = b' ∧ W.synchronized b = true then 1 else 0 := by
      simp [holds, List.countP_cons]
    rw [hcons, hholds]
    by_cases hsync : W.synchronized b = true
    · by_cases hbb : b = b'
      · subst hbb
        have hm : s.mutex b = false := hfree hsync
        simp [hsync, hm]
      · simp [hsync, hbb, Function.update_of_ne (Ne.symm hbb)]
    · simp [hsync]
  · classical
    refine List.perm_iff_count.2 fun x => ?_
    have hm := hmessages.count_eq x
    have hnil : undelivered (⟨b, W.synchronized b, []⟩ :: calls') = undelivered calls' := by
      simp [undelivered]
    simp only [hnil, List.count_append, copies] at hm ⊢
    omega

theorem inv_step [DecidableEq O] {op : Op B O M} (h : Inv W s) (hs : s.step W op = some s') :
    Inv W s' := by
  have hsame : ∀ {c c' : Call B I M} {calls : List (Call B I M)}, c'.block = c.block →
      c'.locked = c.locked → (∀ x ∈ c :: calls, LocksOwn W x) →
        ∀ x ∈ c' :: calls, LocksOwn W x := by
    intro c c' calls hb hl hall
    refine List.forall_mem_cons.2 ⟨?_, fun x hx => hall x (List.mem_cons_of_mem _ hx)⟩
    have := hall c List.mem_cons_self
    unfold LocksOwn at this ⊢
    rw [hb, hl]
    exact this
  cases step_cases hs with
  | run t b ht hb =>
    refine inv_set h ht rfl (fun _ => ⟨by simp, by simp, trivial⟩) (fun _ => ?_) (fun b' => ?_) ?_
    · simp [LocksOwn, hb]
    · simp [holds]
    · exact List.perm_append_comm
  | timer t b s' ht hb he =>
    exact inv_enter h hb ht he id (by simp) id (fun _ => rfl) .rfl
  | send t b locked calls o m ht ho hpeers =>
    refine inv_set h ht rfl (fun hl => ⟨fun x hx => ?_, hl.2⟩) (hsame rfl rfl) (fun b' => ?_) ?_
    · obtain ⟨g, hg, rfl⟩ := List.mem_map.1 hx
      exact ⟨o, ho, hg⟩
    · simp [holds, List.countP_cons]
    · classical
      refine List.perm_iff_count.2 fun x => ?_
      simp only [undelivered, copies, List.flatMap_cons, List.flatMap_append, List.flatMap_nil,
        List.count_append, List.count_nil]
      omega
  | queue t b locked g m pending calls ht hg =>
    refine inv_set h ht rfl (fun hl => ⟨fun x hx => hl.1 x (List.mem_cons_of_mem _ hx), hl.2⟩)
      (hsame rfl rfl) (fun b' => ?_) ?_
    · simp [holds, List.countP_cons]
    · classical
      refine List.perm_iff_count.2 fun x => ?_
      simp only [undelivered, copies, List.flatMap_cons, List.count_append, List.count_cons,
        List.count_nil]
      omega
  | call t b locked g m pending calls s' ht hg he =>
    refine inv_enter h hg ht he
      (fun hl => ⟨fun x hx => hl.1 x (List.mem_cons_of_mem _ hx), hl.2⟩) (fun c hc => ?_)
      (hsame rfl rfl) (fun b' => ?_) ?_
    · obtain rfl : c = ⟨b, locked, pending⟩ := by simpa using hc.symm
      have hl : Linked W (⟨b, locked, (g, m) :: pending⟩ :: calls) :=
        h.linked _ (List.mem_of_getElem? ht)
      obtain ⟨o, ho, hgo⟩ := hl.1 (g, m) List.mem_cons_self
      exact ⟨hg, o, ho, g, hgo, rfl⟩
    · simp [holds, List.countP_cons]
    · classical
      refine List.perm_iff_count.2 fun x => ?_
      simp only [undelivered, List.flatMap_cons, List.count_append, List.count_cons, List.count_nil]
      omega
  | leave t b locked calls ht =>
    refine inv_set h ht rfl (fun hl => hl.2.2) (fun hl x hx => hl x (List.mem_cons_of_mem _ hx))
      (fun b' => ?_) ?_
    · have hmutex : locked = true → s.mutex b = true := fun hl =>
        mutex_of_mem h (List.mem_of_getElem? ht) List.mem_cons_self hl
      have hcons : holds b' (⟨b, locked, []⟩ :: calls) =
          holds b' calls + if b = b' ∧ locked = true then 1 else 0 := by
        simp [holds, List.countP_cons]
      rw [hcons]
      by_cases hl : locked = true
      · by_cases hbb : b = b'
        · subst hbb
          simp [hl, hmutex hl]
        · simp [hl, hbb, Function.update_of_ne (Ne.symm hbb)]
      · simp [hl]
    · exact List.perm_append_comm

theorem inv_new (n : ℕ) : Inv W (new n : Process B I O M) := by
  have hnil : ∀ calls ∈ (new n : Process B I O M).threads, calls = [] :=
    fun calls hcalls => (List.mem_replicate.1 hcalls).2
  refine ⟨fun calls hcalls => ?_, fun calls hcalls => ?_, fun b => ?_, ?_⟩
  · rw [hnil calls hcalls]
    trivial
  · simp [hnil calls hcalls]
  · simp [new, holds]
  · simp [new, undelivered, copies]

theorem inv_of_run [DecidableEq O] {n : ℕ} {ops : List (Op B O M)}
    (h : StepRun.run (step W) (new n) ops = some s) : Inv W s :=
  StepRun.run_keeps (C := fun _ _ => True) (fun _ _ _ hs _ => inv_step hs) ops (inv_new n)
    (StepRun.meets_of_forall (fun _ _ => trivial) ops _) h

end Process

end DStreamon
