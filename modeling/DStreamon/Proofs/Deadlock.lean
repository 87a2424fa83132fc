import DStreamon.Proofs.Calls
import Mathlib.Data.Fintype.EquivFin

/-!
# Deadlocks are cycles of passive blocks

A thread that cannot go on waits for the mutex of a block, and its holder for one of a block that
this block leads to.  Where a synchronized block leads to itself, one thread gets to wait for a
mutex it holds.
-/

namespace DStreamon

open Function (update)
open Relation (TransGen ReflTransGen)

namespace Process

variable {B I O M : Type} {W : Wiring B I O} [DecidableEq B] {s s' : Process B I O M}
  {b c : B} {calls : List (Call B I M)}

/-! ## What every run keeps -/

theorem exact_of_inv (h : Inv W s) : Exact W s where
  exclusive b hb hsync := by
    have hcount : (s.threads.flatten.countP fun c => c.block = b) = holds b s.threads.flatten := by
      refine List.countP_congr fun c hc => ?_
      obtain ⟨calls, hcalls, hc⟩ := List.mem_flatten.1 hc
      have hown := h.locks calls hcalls c hc
      simp only [decide_eq_true_eq]
      refine ⟨fun hcb => ⟨hcb, hown.2 ?_⟩, And.left⟩
      rw [hcb]
      exact ⟨hb, hsync⟩
    rw [hcount, h.mutex]
    split_ifs <;> omega
  once := (List.sublist_append_left _ _).subperm.trans h.messages.subperm
  all hidle := by
    have hnil : s.threads.flatten = [] := List.flatten_eq_nil_iff.2 hidle
    simpa [hnil, undelivered] using h.messages

theorem exact_of_run [DecidableEq O] {n : ℕ} {ops : List (Op B O M)}
    (h : StepRun.run (step W) (new n) ops = some s) : Exact W s :=
  exact_of_inv (inv_of_run h)

/-- An active block sends to a passive one and to an active one. -/
def twoPeers : Wiring ℕ ℕ ℕ where
  active b := b ≠ 1
  synchronized _ := true
  outGates b := if b = 0 then [0] else []
  peers _ := [1, 2]
  owner g := g

theorem exact_twoPeers : Exact twoPeers (⟨[[]], update (update (fun _ => false) 1 true) 1 false,
    [(0, 7)], [(1, 7), (2, 7)]⟩ : Process ℕ ℕ ℕ ℕ) :=
  exact_of_run (show StepRun.run (step twoPeers) (new 1)
    [.run 0 0, .send 0 0 7, .deliver 0, .leave 0, .deliver 0, .leave 0] = some _ from rfl)

/-! ## Without cycles -/

omit [DecidableEq B] in
/-- The calls of a thread lead to its last one. -/
theorem Linked.leads {x y : Call B I M} (h : Linked W (x :: calls)) (hy : y ∈ x :: calls) :
    ReflTransGen (Calls W) y.block x.block := by
  induction calls generalizing x with
  | nil =>
    obtain rfl := List.mem_singleton.1 hy
    exact .refl
  | cons z calls ih =>
    rcases List.mem_cons.1 hy with rfl | hy
    · exact .refl
    · exact (ih h.2.2 hy).tail (h.2.1 z rfl)

variable [DecidableEq O]

/-- A thread in a block that cannot go on waits for a mutex that is locked. -/
theorem waits_of_stuck {t : ℕ} {x : Call B I M}
    (hstuck : ∀ op : Op B O M, op.inBlock → s.step W op = none)
    (ht : s.threads[t]? = some (x :: calls)) : ∃ g, (∃ m, (g, m) ∈ x.pending) ∧
      W.active (W.owner g) = false ∧ W.synchronized (W.owner g) = true ∧
      s.mutex (W.owner g) = true := by
  obtain ⟨b, locked, pending⟩ := x
  cases pending with
  | nil =>
    have := hstuck (.leave t) rfl
    simp [step, ht] at this
  | cons y pending =>
    obtain ⟨g, m⟩ := y
    have hdeliver := hstuck (.deliver t) rfl
    simp only [step, ht, enter] at hdeliver
    split_ifs at hdeliver with hg hsync hmutex
    exact ⟨g, ⟨m, List.mem_cons_self⟩, by simpa using hg, hsync, hmutex⟩

theorem not_deadlocked (h : Inv W s) (hW : Acyclic W) : ¬Deadlocked W s := by
  rintro ⟨⟨calls, hcalls, hne⟩, hstuck⟩
  let Waiting := { t : Fin s.threads.length // s.threads[t] ≠ [] }
  have hwaits : ∀ a : Waiting, ∃ d, (W.active d = false ∧ W.synchronized d = true) ∧
      s.mutex d = true ∧ ∀ y ∈ s.threads[a.1], TransGen (Calls W) y.block d := by
    rintro ⟨t, hne⟩
    obtain ⟨x, calls, hx⟩ := List.exists_cons_of_ne_nil hne
    obtain ⟨g, ⟨m, hm⟩, hg, hsync, hmutex⟩ :=
      waits_of_stuck hstuck (t := t) ((List.getElem?_eq_getElem t.2).trans (congrArg some hx))
    have hl : Linked W (x :: calls) := hx ▸ h.linked _ (List.getElem_mem t.2)
    refine ⟨W.owner g, ⟨hg, hsync⟩, hmutex, fun y hy => ?_⟩
    obtain ⟨o, ho, hgo⟩ := hl.1 (g, m) hm
    exact .tail' (hl.leads (hx ▸ hy)) ⟨hg, o, ho, g, hgo, rfl⟩
  choose waits hkind hlocked hleads using hwaits
  have hholder : ∀ a, ∃ a', TransGen (Calls W) (waits a) (waits a') := by
    intro a
    have hpos : 0 < holds (waits a) s.threads.flatten := by simp [h.mutex, hlocked a]
    obtain ⟨y, hy, hblock⟩ := List.countP_pos_iff.1 hpos
    obtain ⟨calls, hcalls, hy⟩ := List.mem_flatten.1 hy
    obtain ⟨t, ht, rfl⟩ := List.mem_iff_getElem.1 hcalls
    have hb : y.block = waits a := by simp_all
    exact ⟨⟨⟨t, ht⟩, List.ne_nil_of_mem hy⟩, hb ▸ hleads ⟨⟨t, ht⟩, List.ne_nil_of_mem hy⟩ y hy⟩
  have : Nonempty Waiting := by
    obtain ⟨t, ht, rfl⟩ := List.mem_iff_getElem.1 hcalls
    exact ⟨⟨t, ht⟩, hne⟩
  have : Finite Waiting := Subtype.finite
  obtain ⟨a, ha⟩ := WaitFor.exists_cycle waits (fun _ _ _ => TransGen.trans) hholder
  exact hW (waits a) (hkind a).1 (hkind a).2 ha

/-! ## With a cycle -/

/-- The only thread waits for a mutex. -/
theorem deadlocked_of_locked {locked : Bool} {g : I} {m : M} {pending : List (I × M)}
    (hs : s.threads = [⟨b, locked, (g, m) :: pending⟩ :: calls])
    (hg : W.active (W.owner g) = false) (hsync : W.synchronized (W.owner g) = true)
    (hmutex : s.mutex (W.owner g) = true) : Deadlocked W s := by
  refine ⟨⟨_, by rw [hs]; exact List.mem_singleton_self _, by simp⟩, fun op hop => ?_⟩
  cases op with
  | run t b => cases hop
  | timer t b => cases hop
  | send t o m => cases t <;> simp [step, hs]
  | deliver t => cases t <;> simp [step, hs, enter, hg, hsync, hmutex]
  | leave t => cases t <;> simp [step, hs]

/-- The only thread gets to call a passive block. -/
theorem deliver_call {locked : Bool} {g : I} {m : M} {pending : List (I × M)}
    (hs : s.threads = [⟨b, locked, (g, m) :: pending⟩ :: calls])
    (hg : W.active (W.owner g) = false)
    (hfree : W.synchronized (W.owner g) = true → s.mutex (W.owner g) = false) :
    step W s (.deliver 0) = some { s with
      threads := [⟨W.owner g, W.synchronized (W.owner g), []⟩ :: ⟨b, locked, pending⟩ :: calls]
      mutex := if W.synchronized (W.owner g) then update s.mutex (W.owner g) true else s.mutex
      received := s.received ++ [(g, m)] } := by
  by_cases hsync : W.synchronized (W.owner g) = true
  · simp [step, hs, hg, enter, hsync, hfree hsync]
  · simp [step, hs, hg, enter, hsync, setStack]

/-- A deadlock is reached. -/
def Deadlocks (W : Wiring B I O) (s : Process B I O M) : Prop :=
  ∃ s', StepRun.Reaches (step W) s s' ∧ Deadlocked W s'

theorem Deadlocks.of_reaches (h : StepRun.Reaches (step W) s s') (hd : Deadlocks W s') :
    Deadlocks W s :=
  let ⟨_, hr, hd⟩ := hd
  ⟨_, h.trans hr, hd⟩

/-- The peers before one that a message is for can all return. -/
theorem reaches_peer {locked : Bool} {x : I × M} :
    ∀ {pending : List (I × M)} {s : Process B I O M}, x ∈ pending →
      s.threads = [⟨b, locked, pending⟩ :: calls] → Deadlocks W s ∨
        ∃ s' pending', StepRun.Reaches (step W) s s' ∧
          s'.threads = [⟨b, locked, x :: pending'⟩ :: calls] ∧ s'.mutex = s.mutex
  | (g, m) :: pending, s, hx, hs => by
    rcases List.mem_cons.1 hx with rfl | hx
    · exact .inr ⟨s, pending, .refl s, hs, rfl⟩
    have hcont : ∀ t, StepRun.Reaches (step W) s t →
        t.threads = [⟨b, locked, pending⟩ :: calls] → t.mutex = s.mutex → Deadlocks W s ∨
          ∃ s' pending', StepRun.Reaches (step W) s s' ∧
            s'.threads = [⟨b, locked, x :: pending'⟩ :: calls] ∧ s'.mutex = s.mutex := by
      intro t hreach ht hmutex
      rcases reaches_peer hx ht with hd | ⟨s', pending', hr, hs', hm⟩
      · exact .inl (.of_reaches hreach hd)
      · exact .inr ⟨s', pending', hreach.trans hr, hs', hm.trans hmutex⟩
    by_cases hg : W.active (W.owner g) = true
    · refine hcont { s with
        threads := [⟨b, locked, pending⟩ :: calls]
        received := s.received ++ [(g, m)] } (.head (o := .deliver 0) ?_ (.refl _)) rfl rfl
      simp [step, hs, hg, setStack]
    · have hg' : W.active (W.owner g) = false := by simpa using hg
      by_cases hlock : W.synchronized (W.owner g) = true ∧ s.mutex (W.owner g) = true
      · exact .inl ⟨s, .refl s, deadlocked_of_locked hs hg' hlock.1 hlock.2⟩
      · have hfree : W.synchronized (W.owner g) = true → s.mutex (W.owner g) = false := by
          simpa using hlock
        refine hcont _ (.head (deliver_call hs hg' hfree) (.head (o := .leave 0) rfl (.refl _)))
          rfl ?_
        by_cases hsync : W.synchronized (W.owner g) = true
        · simp [hsync, ← hfree hsync]
        · simp [hsync]

/-- A block that is called gets to send to the next one. -/
theorem reaches_call [Inhabited M] {locked : Bool} (hs : s.threads = [⟨b, locked, []⟩ :: calls])
    (hcall : Calls W b c) : Deadlocks W s ∨ ∃ s' g m pending, StepRun.Reaches (step W) s s' ∧
      s'.threads = [⟨b, locked, (g, m) :: pending⟩ :: calls] ∧ s'.mutex = s.mutex ∧
      W.owner g = c := by
  obtain ⟨-, o, ho, g, hg, hgc⟩ := hcall
  have hpos : 0 < (W.peers o).length := List.length_pos_of_mem hg
  have hsend : step W s (.send 0 o default) = some { s with
      threads := [⟨b, locked, (W.peers o).map fun g => (g, default)⟩ :: calls]
      sent := s.sent ++ [(o, default)] } := by
    simp [step, hs, ho, hpos]
  have hmem : (g, (default : M)) ∈ (W.peers o).map fun g => (g, default) :=
    List.mem_map.2 ⟨g, hg, rfl⟩
  let sent : Process B I O M := { s with
    threads := [⟨b, locked, (W.peers o).map fun g => (g, default)⟩ :: calls]
    sent := s.sent ++ [(o, default)] }
  rcases reaches_peer (s := sent) hmem rfl with hd | ⟨s', pending, hr, hs', hm⟩
  · exact .inl (.of_reaches (.head hsend (.refl _)) hd)
  · exact .inr ⟨s', g, default, pending, .head hsend hr, hs', hm, hgc⟩

theorem deadlocks_of_leads [Inhabited M] (hb : W.active b = false)
    (hsync : W.synchronized b = true) (h : TransGen (Calls W) c b) :
    ∀ {s : Process B I O M} {locked : Bool} {calls : List (Call B I M)},
      s.threads = [⟨c, locked, []⟩ :: calls] → s.mutex b = true → Deadlocks W s := by
  induction h using TransGen.head_induction_on with
  | single hcall =>
    intro s locked calls hs hmutex
    rcases reaches_call hs hcall with hd | ⟨s', g, m, pending, hr, hs', hm, rfl⟩
    · exact hd
    · exact ⟨s', hr, deadlocked_of_locked hs' hb hsync (hm ▸ hmutex)⟩
  | @head c d hcall _ ih =>
    intro s locked calls hs hmutex
    rcases reaches_call hs hcall with hd | ⟨s', g, m, pending, hr, hs', hm, rfl⟩
    · exact hd
    have hg := hcall.1
    by_cases hlock : W.synchronized (W.owner g) = true ∧ s'.mutex (W.owner g) = true
    · exact ⟨s', hr, deadlocked_of_locked hs' hg hlock.1 hlock.2⟩
    · have hfree : W.synchronized (W.owner g) = true → s'.mutex (W.owner g) = false := by
        simpa using hlock
      refine .of_reaches (hr.trans (.head (deliver_call hs' hg hfree) (.refl _))) (ih rfl ?_)
      have hmutex' : s'.mutex b = true := by rw [hm, hmutex]
      by_cases hsync' : W.synchronized (W.owner g) = true
      · simp [hsync', Function.update_apply, hmutex']
      · simp [hsync', hmutex']

theorem deadlocks_of_cycle [Inhabited M] (hb : W.active b = false)
    (hsync : W.synchronized b = true) (h : TransGen (Calls W) b b) :
    Deadlocks W (new 1 : Process B I O M) := by
  have hstep : step W (new 1 : Process B I O M) (.timer 0 b) =
      some ⟨[[⟨b, true, []⟩]], update (fun _ => false) b true, [], []⟩ := by
    simp [step, new, hb, enter, hsync]
  exact .of_reaches (.head hstep (.refl _)) (deadlocks_of_leads hb hsync h rfl (by simp))

/-- Threads that are in blocks cannot all be stuck, exactly if no synchronized passive block leads
to itself through passive blocks. -/
theorem deadlock_iff [Inhabited M] (W : Wiring B I O) :
    (∀ n ops (s : Process B I O M), StepRun.run (step W) (new n) ops = some s →
      ¬Deadlocked W s) ↔ Acyclic W := by
  constructor
  · intro h b hb hsync hcycle
    obtain ⟨s, ⟨ops, hs⟩, hd⟩ := deadlocks_of_cycle (M := M) hb hsync hcycle
    exact h 1 ops s hs hd
  · exact fun hW n ops s hs => not_deadlocked (inv_of_run hs) hW

end Process

end DStreamon
