import DStreamon.DBQueue
import DStreamon.Lib.StepRun
import Mathlib.Tactic.Common

/-!
# What `DBQueue` delivers

Every slot is in one of four states: not claimed since the buffers were swapped, claimed by one
producer, filled with one message, or read.  The steps of the threads move slots along; as long as
the consumer waits for a claimed slot, a swap finds its buffer read to the end.
-/

namespace DStreamon

open Function (update)

namespace Producer

/-- The message a producer carries. -/
def message : Producer → Option ℕ
  | idle => none
  | checked m | marking m _ _ | claimed m _ _ | written m _ _ => some m

/-- The slot it has claimed. -/
def slot : Producer → Option (ℕ × ℕ)
  | idle | checked _ => none
  | marking _ q i | claimed _ q i | written _ q i => some (q, i)

end Producer

namespace DBQueue

variable {qlen : ℕ} {d : DBQueue ℕ} {at' : ℕ × ℕ}

/-- The slots claimed and not read. -/
def Taken (qlen : ℕ) (d : DBQueue ℕ) (at' : ℕ × ℕ) : Prop :=
  (at'.1 = d.consumerQ ∧ d.read ≤ at'.2 ∧ at'.2 < d.fullSlots) ∨
    (at'.1 = exchangeQueue d.consumerQ ∧ at'.2 < min (mySlot d.pointer) qlen)

/-- The slots read since the last swap. -/
def Read (d : DBQueue ℕ) (at' : ℕ × ℕ) : Prop := at'.1 = d.consumerQ ∧ at'.2 < d.read

end DBQueue

namespace QueueSystem

open DBQueue (Taken Read exchangeQueue mySlot curQueue)

variable {P : Type} {qlen : ℕ} {s s' : QueueSystem P}

/-- The queue's numbers. -/
structure Counters (qlen : ℕ) (d : DBQueue ℕ) : Prop where
  consumerQ : d.consumerQ = 0 ∨ d.consumerQ = 1
  curQueue : curQueue d.pointer = exchangeQueue d.consumerQ
  read : d.read ≤ d.fullSlots
  fullSlots : d.fullSlots ≤ qlen

/-- Which message is where. -/
structure Placed (qlen : ℕ) (s : QueueSystem P) : Prop where
  /-- A claimed slot is not valid, and claimed by one producer. -/
  held : ∀ p at', (s.producer p).slot = some at' →
    Taken qlen s.queue at' ∧ (s.queue.queues at').valid = false
  apart : ∀ p p' at', (s.producer p).slot = some at' → (s.producer p').slot = some at' → p = p'
  written : ∀ p m q i, s.producer p = .written m q i → (s.queue.queues (q, i)).payload = some m
  /-- Any other slot that is taken is filled. -/
  filled : ∀ at', Taken qlen s.queue at' → (∀ p, (s.producer p).slot ≠ some at') →
    ∃ m ∈ s.accepted, m ∉ s.popped ∧ s.queue.queues at' = ⟨true, some m⟩
  blank : ∀ at', ¬ Taken qlen s.queue at' → ¬ Read s.queue at' →
    at'.1 < 2 → (s.queue.queues at').valid = false
  kept : ∀ m ∈ s.accepted, m ∈ s.popped ∨
    ∃ at', Taken qlen s.queue at' ∧ s.queue.queues at' = ⟨true, some m⟩
  once : ∀ at' at'' m, Taken qlen s.queue at' → Taken qlen s.queue at'' →
    s.queue.queues at' = ⟨true, some m⟩ → s.queue.queues at'' = ⟨true, some m⟩ → at' = at''

/-- Which messages there are. -/
structure Numbered (s : QueueSystem P) : Prop where
  carried : ∀ p m, (s.producer p).message = some m → m < s.next ∧ m ∉ s.accepted
  apart : ∀ p p' m, (s.producer p).message = some m → (s.producer p').message = some m → p = p'
  accepted : ∀ m ∈ s.accepted, m < s.next
  popped : ∀ m ∈ s.popped, m ∈ s.accepted
  nodup : s.popped.Nodup

/-- Where the consumer is. -/
structure Reading (s : QueueSystem P) : Prop where
  taking : s.consumer = .taking → s.queue.read < s.queue.fullSlots ∧
    (s.queue.queues (s.queue.consumerQ, s.queue.read)).valid = true
  /-- A pop that returned false has read its buffer. -/
  first : 1 ≤ s.quiet → (s.consumer = .idle ∨ ∃ reads, s.consumer = .reading false reads) →
    s.queue.read = s.queue.fullSlots
  /-- What it swapped in since is all there was. -/
  second : 1 ≤ s.quiet → ∀ reads, s.consumer = .reading true reads → mySlot s.queue.pointer = 0
  both : 2 ≤ s.quiet → s.queue.read = s.queue.fullSlots ∧ mySlot s.queue.pointer = 0

structure Inv (qlen : ℕ) (s : QueueSystem P) : Prop where
  counters : Counters qlen s.queue
  placed : Placed qlen s
  numbered : Numbered s
  reading : Reading s

theorem inv_new : Inv qlen (new : QueueSystem P) := by
  have hzero : mySlot 0 = 0 := rfl
  have hnone : ∀ at', ¬ Taken qlen .new at' := by
    rintro at' (⟨-, -, hlt⟩ | ⟨-, hlt⟩)
    · exact Nat.not_lt_zero _ hlt
    · simp [DBQueue.new, hzero] at hlt
  have hcur : curQueue 0 = exchangeQueue 1 := by decide
  refine ⟨⟨.inr rfl, hcur, Nat.le_refl _, Nat.zero_le _⟩, ⟨fun _ _ h => ?_, fun _ _ _ h => ?_,
    fun _ _ _ _ h => ?_, fun _ h => (hnone _ h).elim, fun _ _ _ _ => rfl, fun _ h => ?_,
    fun _ _ _ h => (hnone _ h).elim⟩, ⟨fun _ _ h => ?_, fun _ _ _ h => ?_, fun _ h => ?_,
    fun _ h => ?_, List.nodup_nil⟩, ⟨fun h => ?_, fun h => ?_, fun h => ?_, fun h => ?_⟩⟩
  all_goals simp [new, Producer.slot, Producer.message] at h

/-! ## What a change that keeps the slots keeps -/

theorem Placed.valid_taken (h : Placed qlen s) {at' : ℕ × ℕ} (ht : Taken qlen s.queue at')
    (hv : (s.queue.queues at').valid = true) :
    ∃ m ∈ s.accepted, m ∉ s.popped ∧ s.queue.queues at' = ⟨true, some m⟩ := by
  refine h.filled at' ht fun p hp => ?_
  rw [(h.held p at' hp).2] at hv
  exact Bool.false_ne_true hv

theorem Placed.not_held (h : Placed qlen s) {at' : ℕ × ℕ} {m : ℕ}
    (hs : s.queue.queues at' = ⟨true, some m⟩) (p : P) : (s.producer p).slot ≠ some at' := by
  intro hp
  have := (h.held p at' hp).2
  rw [hs] at this
  exact Bool.false_ne_true this.symm

/-- A producer goes on with the message and the slot it has. -/
theorem Placed.same (h : Placed qlen s)
    (htaken : ∀ at', Taken qlen s'.queue at' ↔ Taken qlen s.queue at')
    (hread : ∀ at', Read s'.queue at' ↔ Read s.queue at')
    (hqueues : s'.queue.queues = s.queue.queues)
    (hslot : ∀ p, (s'.producer p).slot = (s.producer p).slot)
    (hwritten : ∀ p m q i, s'.producer p = .written m q i → s.producer p = .written m q i)
    (haccepted : s'.accepted = s.accepted) (hpopped : s'.popped = s.popped) : Placed qlen s' where
  held p at' hp := by
    rw [htaken, hqueues]
    exact h.held p at' (hslot p ▸ hp)
  apart p p' at' hp hp' := h.apart p p' at' (hslot p ▸ hp) (hslot p' ▸ hp')
  written p m q i hp := by
    rw [hqueues]
    exact h.written p m q i (hwritten p m q i hp)
  filled at' ht hno := by
    rw [haccepted, hpopped, hqueues]
    exact h.filled at' ((htaken at').1 ht) fun p hp => hno p (hslot p ▸ hp)
  blank at' ht hr hlt := by
    rw [hqueues]
    exact h.blank at' (fun h => ht ((htaken at').2 h)) (fun h => hr ((hread at').2 h)) hlt
  kept m hm := by
    rw [hpopped, hqueues]
    simp only [htaken]
    exact h.kept m (haccepted ▸ hm)
  once at' at'' m ht ht' hs hs' := by
    rw [hqueues] at hs hs'
    exact h.once at' at'' m ((htaken at').1 ht) ((htaken at'').1 ht') hs hs'

theorem Reading.of_quiet (h : Reading s) (hquiet : s'.quiet = 0)
    (hconsumer : s'.consumer = s.consumer)
    (hread : s'.queue.read = s.queue.read) (hfull : s'.queue.fullSlots = s.queue.fullSlots)
    (hcq : s'.queue.consumerQ = s.queue.consumerQ)
    (hvalid : ∀ at', (s.queue.queues at').valid = true → (s'.queue.queues at').valid = true) :
    Reading s' where
  taking ht := by
    obtain ⟨hlt, hv⟩ := h.taking (hconsumer ▸ ht)
    rw [hread, hfull, hcq]
    exact ⟨hlt, hvalid _ hv⟩
  first hq := by omega
  second hq := by omega
  both hq := by omega

theorem Numbered.of_same (h : Numbered s) (hnext : s'.next = s.next)
    (hmessage : ∀ p m, (s'.producer p).message = some m → (s.producer p).message = some m)
    (haccepted : s'.accepted = s.accepted) (hpopped : s'.popped = s.popped) : Numbered s' where
  carried p m hp := by
    rw [hnext, haccepted]
    exact h.carried p m (hmessage p m hp)
  apart p p' m hp hp' := h.apart p p' m (hmessage p m hp) (hmessage p' m hp')
  accepted m hm := hnext ▸ h.accepted m (haccepted ▸ hm)
  popped m hm := haccepted ▸ h.popped m (hpopped ▸ hm)
  nodup := hpopped ▸ h.nodup

/-! ## What they do to the slots -/

theorem exchangeQueue_ne (q : ℕ) : exchangeQueue q ≠ q := by
  unfold exchangeQueue
  split <;> omega

/-- The consumer takes the message of a slot. -/
theorem Placed.of_take (h : Placed qlen s) {d : DBQueue ℕ} {at₀ : ℕ × ℕ} {m : ℕ} {c : Consumer}
    {k : ℕ}
    (hslot : s.queue.queues at₀ = ⟨true, some m⟩)
    (ht₀ : Taken qlen s.queue at₀)
    (hqueues : d.queues = update s.queue.queues at₀ ⟨true, none⟩)
    (htaken : ∀ at', Taken qlen d at' ↔ Taken qlen s.queue at' ∧ at' ≠ at₀)
    (hread : ∀ at', Read s.queue at' ∨ at' = at₀ → Read d at') :
    Placed qlen { s with queue := d, consumer := c, popped := s.popped ++ [m], quiet := k } := by
  have hne : ∀ {at'}, at' ≠ at₀ → d.queues at' = s.queue.queues at' := fun h => by
    rw [hqueues, Function.update_of_ne h]
  have hheld : ∀ {p at'}, (s.producer p).slot = some at' → at' ≠ at₀ := by
    rintro p at' hp rfl
    exact h.not_held hslot p hp
  refine ⟨fun p at' hp => ?_, h.apart, fun p n q i hw => ?_, fun at' ht hno => ?_,
    fun at' ht hr hlt => ?_, fun n hacc => ?_, fun at' at'' n ht ht' hs hs' => ?_⟩
  · obtain ⟨ht, hv⟩ := h.held p at' hp
    exact ⟨(htaken at').2 ⟨ht, hheld hp⟩, by simpa only [hne (hheld hp)] using hv⟩
  · have hslot' : (s.producer p).slot = some (q, i) := by rw [hw]; rfl
    simpa only [hne (hheld hslot')] using h.written p n q i hw
  · obtain ⟨ht, hat'⟩ := (htaken at').1 ht
    obtain ⟨n, hacc, hfresh, hs⟩ := h.filled at' ht hno
    refine ⟨n, hacc, fun hpop => ?_, by simpa only [hne hat'] using hs⟩
    rcases List.mem_append.1 hpop with hpop | hpop
    · exact hfresh hpop
    · rw [List.mem_singleton.1 hpop] at hs
      exact hat' (h.once at' at₀ m ht ht₀ hs hslot)
  · have hat' : at' ≠ at₀ := fun hat' => hr (hread at' (.inr hat'))
    simpa only [hne hat'] using
      h.blank at' (fun ht' => ht ((htaken at').2 ⟨ht', hat'⟩))
        (fun hr' => hr (hread at' (.inl hr'))) hlt
  · rcases h.kept n hacc with hpop | ⟨at', ht, hs⟩
    · exact .inl (List.mem_append_left _ hpop)
    · by_cases hat' : at' = at₀
      · rw [hat', hslot] at hs
        simp only [QueueSlot.mk.injEq, Option.some.injEq, true_and] at hs
        exact .inl (List.mem_append_right _ (List.mem_singleton.2 hs.symm))
      · exact .inr ⟨at', (htaken at').2 ⟨ht, hat'⟩, by simpa only [hne hat'] using hs⟩
  · obtain ⟨ht, hat'⟩ := (htaken at').1 ht
    obtain ⟨ht', hat''⟩ := (htaken at'').1 ht'
    simp only [hne hat'] at hs
    simp only [hne hat''] at hs'
    exact h.once at' at'' n ht ht' hs hs'

theorem taken_swap {d : DBQueue ℕ} {at' : ℕ × ℕ} (hread : d.read = d.fullSlots) :
    Taken qlen (d.swapQueues qlen) at' ↔ Taken qlen d at' := by
  have hzero : mySlot (d.consumerQ * 2 ^ 30) = 0 := Nat.mul_mod_left ..
  simp only [Taken, DBQueue.swapQueues, hzero, hread]
  omega

/-- The buffer swapped out was read to its end, so no slot claimed or filled is in it. -/
theorem Placed.of_swap (h : Placed qlen s) (hread : s.queue.read = s.queue.fullSlots)
    {c : Consumer} :
    Placed qlen { s with queue := s.queue.swapQueues qlen, consumer := c } := by
  have hsame : ∀ {at'}, Taken qlen s.queue at' →
      (s.queue.swapQueues qlen).queues at' = s.queue.queues at' := by
    intro at' ht
    refine if_neg fun hcq => ?_
    rcases ht with ⟨-, hle, hlt⟩ | ⟨hex, -⟩
    · omega
    · exact exchangeQueue_ne _ (hex.symm.trans hcq.1)
  refine ⟨fun p at' hp => ?_, h.apart, fun p n q i hw => ?_, fun at' ht hno => ?_,
    fun at' ht _ hlt => ?_, fun n hacc => ?_, fun at' at'' n ht ht' hs hs' => ?_⟩
  · obtain ⟨ht, hv⟩ := h.held p at' hp
    exact ⟨(taken_swap hread).2 ht, by simpa only [hsame ht] using hv⟩
  · have ht := (h.held p (q, i) (by rw [hw]; rfl)).1
    simpa only [hsame ht] using h.written p n q i hw
  · have ht := (taken_swap hread).1 ht
    simpa only [hsame ht] using h.filled at' ht hno
  · have ht : ¬ Taken qlen s.queue at' := fun ht' => ht ((taken_swap hread).2 ht')
    simp only [DBQueue.swapQueues]
    split
    · rfl
    · next hcq => exact h.blank at' ht (fun hr => hcq ⟨hr.1, hread ▸ hr.2⟩) hlt
  · refine (h.kept n hacc).imp_right fun ⟨at', ht, hs⟩ => ⟨at', (taken_swap hread).2 ht, ?_⟩
    simpa only [hsame ht] using hs
  · have ht := (taken_swap hread).1 ht
    have ht' := (taken_swap hread).1 ht'
    simp only [hsame ht] at hs
    simp only [hsame ht'] at hs'
    exact h.once at' at'' n ht ht' hs hs'

theorem Inv.delivered (h : Inv qlen s) : Delivered s where
  once := h.numbered.nodup
  kept m hacc hpop := by
    obtain ⟨at', -, hat⟩ := (h.placed.kept m hacc).resolve_left hpop
    exact ⟨at', hat⟩
  drained _ hquiet m hacc := by
    refine (h.placed.kept m hacc).resolve_right fun ⟨at', ht, _⟩ => ?_
    obtain ⟨hread, hzero⟩ := h.reading.both hquiet
    rcases ht with ⟨-, hle, hlt⟩ | ⟨-, hlt⟩
    · omega
    · rw [hzero] at hlt
      exact Nat.not_lt_zero _ (Nat.lt_min.1 hlt).1

/-! ## What the steps of the producers keep -/

section Steps

variable [DecidableEq P] {p : P} {m q i : ℕ}

theorem update_eq_some {α : Type} (g : Producer → Option α) {f : P → Producer} {x : Producer}
    {p' : P} {y : α} (h : g (update f p x p') = some y) :
    p' = p ∧ g x = some y ∨ p' ≠ p ∧ g (f p') = some y := by
  by_cases hp : p' = p
  · subst hp
    rw [Function.update_self] at h
    exact .inl ⟨rfl, h⟩
  · rw [Function.update_of_ne hp] at h
    exact .inr ⟨hp, h⟩

/-- A producer that changes neither its message nor its slot. -/
theorem update_same {f : P → Producer} {x : Producer} {α : Type} (g : Producer → α)
    (hx : g x = g (f p)) (p' : P) : g (update f p x p') = g (f p') := by
  by_cases hp : p' = p
  · rw [hp, Function.update_self, hx]
  · rw [Function.update_of_ne hp]

theorem inv_push (h : Inv qlen s) (hs : s.step qlen (.push p) = some s') : Inv qlen s' := by
  obtain ⟨hc, hplaced, hn, hr⟩ := h
  simp only [step] at hs
  split at hs
  next hp =>
    simp only [Option.some.injEq] at hs
    subst hs
    by_cases hf : s.queue.full = true
    · simp only [hf, if_true]
      refine ⟨hc, hplaced.same (fun _ => .rfl) (fun _ => .rfl) rfl (fun _ => rfl)
        (fun _ _ _ _ => id) rfl rfl, ⟨fun p' m hm => ?_, hn.apart, fun m hm => ?_, hn.popped,
        hn.nodup⟩, hr.of_quiet rfl rfl rfl rfl rfl fun _ => id⟩
      · exact ⟨Nat.lt_succ_of_lt (hn.carried p' m hm).1, (hn.carried p' m hm).2⟩
      · exact Nat.lt_succ_of_lt (hn.accepted m hm)
    · simp only [hf]
      refine ⟨hc, hplaced.same (fun _ => .rfl) (fun _ => .rfl) rfl
        (update_same Producer.slot (by rw [hp]; rfl)) (fun p' m q i hw => ?_) rfl rfl,
        ⟨fun p' m hm => ?_, fun p₁ p₂ m h₁ h₂ => ?_, fun m hm => ?_, hn.popped, hn.nodup⟩,
        hr.of_quiet rfl rfl rfl rfl rfl fun _ => id⟩
      · by_cases hpp : p' = p
        · subst hpp
          simp at hw
        · simpa [hpp] using hw
      · rcases update_eq_some Producer.message hm with ⟨-, hm⟩ | ⟨-, hm⟩
        · simp only [Producer.message, Option.some.injEq] at hm
          subst hm
          exact ⟨Nat.lt_succ_self _, fun hacc => absurd (hn.accepted _ hacc) (Nat.lt_irrefl _)⟩
        · exact ⟨Nat.lt_succ_of_lt (hn.carried p' m hm).1, (hn.carried p' m hm).2⟩
      · rcases update_eq_some Producer.message h₁ with ⟨rfl, hm₁⟩ | ⟨-, hm₁⟩ <;>
          rcases update_eq_some Producer.message h₂ with ⟨rfl, hm₂⟩ | ⟨-, hm₂⟩
        · rfl
        · simp only [Producer.message, Option.some.injEq] at hm₁
          exact absurd (hn.carried _ _ hm₂).1 (by omega)
        · simp only [Producer.message, Option.some.injEq] at hm₂
          exact absurd (hn.carried _ _ hm₁).1 (by omega)
        · exact hn.apart p₁ p₂ m hm₁ hm₂
      · exact Nat.lt_succ_of_lt (hn.accepted m hm)
  next => cases hs

theorem inv_mark (h : Inv qlen s) (hs : s.step qlen (.mark p) = some s') : Inv qlen s' := by
  obtain ⟨hc, hplaced, hn, hr⟩ := h
  simp only [step] at hs
  split at hs
  next m q i hp =>
    simp only [Option.some.injEq] at hs
    subst hs
    refine ⟨⟨hc.consumerQ, hc.curQueue, hc.read, hc.fullSlots⟩,
      hplaced.same (fun _ => .rfl) (fun _ => .rfl) rfl
        (update_same Producer.slot (by rw [hp]; rfl)) (fun p' m q i hw => ?_) rfl rfl,
      hn.of_same rfl (fun p' m hm => ?_) rfl rfl, hr.of_quiet rfl rfl rfl rfl rfl fun _ => id⟩
    · by_cases hpp : p' = p
      · subst hpp
        simp at hw
      · simpa [hpp] using hw
    · rwa [update_same Producer.message (by rw [hp]; rfl)] at hm
  next => cases hs

theorem inv_write (h : Inv qlen s) (hs : s.step qlen (.write p) = some s') : Inv qlen s' := by
  obtain ⟨hc, hplaced, hn, hr⟩ := h
  simp only [step] at hs
  split at hs
  next m q i hp =>
    simp only [Option.some.injEq] at hs
    subst hs
    have hslot : (s.producer p).slot = some (q, i) := by rw [hp]; rfl
    have hinvalid := (hplaced.held p (q, i) hslot).2
    have hsame : ∀ p', ((update s.producer p (.written m q i)) p').slot = (s.producer p').slot :=
      update_same Producer.slot (by rw [hp]; rfl)
    have hvalid : ∀ at',
        (update s.queue.queues (q, i) ⟨(s.queue.queues (q, i)).valid, some m⟩ at').valid =
        (s.queue.queues at').valid := by
      intro at'
      by_cases hat : at' = (q, i) <;> simp [hat]
    have hne : ∀ {at' : ℕ × ℕ} {n : ℕ}, s.queue.queues at' = ⟨true, some n⟩ → at' ≠ (q, i) := by
      rintro at' n hat rfl
      simp [hat] at hinvalid
    refine ⟨⟨hc.consumerQ, hc.curQueue, hc.read, hc.fullSlots⟩, ?_,
      hn.of_same rfl (fun p' m hm => ?_) rfl rfl,
      hr.of_quiet rfl rfl rfl rfl rfl fun at' hv => (hvalid at').trans hv⟩
    · refine ⟨fun p' at' hp' => ?_, fun p₁ p₂ at' h₁ h₂ => ?_, fun p' m' q' i' hw => ?_,
        fun at' ht hno => ?_, fun at' ht hread hlt => ?_, fun n hacc => ?_, ?_⟩
      · obtain ⟨ht, hv⟩ := hplaced.held p' at' (hsame p' ▸ hp')
        exact ⟨ht, (hvalid at').trans hv⟩
      · exact hplaced.apart p₁ p₂ at' (hsame p₁ ▸ h₁) (hsame p₂ ▸ h₂)
      · by_cases hpp : p' = p
        · subst hpp
          simp only [Function.update_self, Producer.written.injEq] at hw
          obtain ⟨rfl, rfl, rfl⟩ := hw
          simp
        · simp only [Function.update_of_ne hpp] at hw
          have hat : (q', i') ≠ (q, i) := fun hat =>
            hpp (hplaced.apart p' p (q, i) (by rw [hw, ← hat]; rfl) hslot)
          simp only [Function.update_of_ne hat]
          exact hplaced.written p' m' q' i' hw
      · have hat : at' ≠ (q, i) := fun hat => hno p (by rw [hsame, hslot, hat])
        simp only [Function.update_of_ne hat]
        exact hplaced.filled at' ht fun p' hp' => hno p' (by rw [hsame, hp'])
      · exact (hvalid at').trans (hplaced.blank at' ht hread hlt)
      · refine (hplaced.kept n hacc).imp_right fun ⟨at', ht, hat⟩ => ⟨at', ht, ?_⟩
        simp only [Function.update_of_ne (hne hat)]
        exact hat
      · intro at' at'' n ht ht' hat hat'
        have hv : ∀ {at' : ℕ × ℕ}, update s.queue.queues (q, i)
            ⟨(s.queue.queues (q, i)).valid, some m⟩ at' = ⟨true, some n⟩ →
              s.queue.queues at' = ⟨true, some n⟩ := by
          intro at' h
          have hat : at' ≠ (q, i) := by
            rintro rfl
            simp [hinvalid] at h
          rwa [Function.update_of_ne hat] at h
        exact hplaced.once at' at'' n ht ht' (hv hat) (hv hat')
    · rwa [update_same Producer.message (by rw [hp]; rfl)] at hm
  next => cases hs

/-- Once a producer's message is published in its slot. -/
def published (s : QueueSystem P) (p : P) (m q i : ℕ) : QueueSystem P :=
  { s with
    queue := { s.queue with queues := update s.queue.queues (q, i) ⟨true, some m⟩ }
    producer := update s.producer p .idle
    accepted := s.accepted ++ [m]
    quiet := 0 }

theorem slot_of_published (h : Placed qlen s) (hp : s.producer p = .written m q i) {p' : P}
    {at' : ℕ × ℕ} (hp' : ((s.published p m q i).producer p').slot = some at') :
    p' ≠ p ∧ (s.producer p').slot = some at' ∧ at' ≠ (q, i) := by
  have hslot : (s.producer p).slot = some (q, i) := by rw [hp]; rfl
  rcases update_eq_some Producer.slot hp' with ⟨-, h'⟩ | ⟨hne, h'⟩
  · cases h'
  · exact ⟨hne, h', fun hat => hne (h.apart p' p (q, i) (hat ▸ h') hslot)⟩

omit [DecidableEq P] in
/-- No other slot has the message, which was not accepted before. -/
theorem ne_of_published (h : Placed qlen s) (hfresh : m ∉ s.accepted) {at' : ℕ × ℕ} {n : ℕ}
    (ht : Taken qlen s.queue at') (hat : s.queue.queues at' = ⟨true, some n⟩) : n ≠ m := by
  rintro rfl
  obtain ⟨k, hacc, -, hk⟩ := h.valid_taken ht (by rw [hat])
  rw [hat] at hk
  simp only [QueueSlot.mk.injEq, Option.some.injEq, true_and] at hk
  exact hfresh (hk ▸ hacc)

theorem Placed.published (h : Placed qlen s) (hn : Numbered s)
    (hp : s.producer p = .written m q i) : Placed qlen (s.published p m q i) := by
  have hslot : (s.producer p).slot = some (q, i) := by rw [hp]; rfl
  obtain ⟨htaken, hinvalid⟩ := h.held p (q, i) hslot
  have hfresh : m ∉ s.accepted := (hn.carried p m (by rw [hp]; rfl)).2
  have hpopped : m ∉ s.popped := fun hm => hfresh (hn.popped m hm)
  have hself : (s.published p m q i).queue.queues (q, i) = ⟨true, some m⟩ :=
    Function.update_self ..
  have hother : ∀ {at'}, at' ≠ (q, i) →
      (s.published p m q i).queue.queues at' = s.queue.queues at' := fun hat =>
    Function.update_of_ne hat _ _
  constructor
  case held =>
    intro p' at' hp'
    obtain ⟨-, hp', hat⟩ := slot_of_published h hp hp'
    rw [hother hat]
    exact h.held p' at' hp'
  case apart =>
    intro p₁ p₂ at' h₁ h₂
    exact h.apart p₁ p₂ at' (slot_of_published h hp h₁).2.1 (slot_of_published h hp h₂).2.1
  case written =>
    intro p' m' q' i' hw
    have hslot' : ((s.published p m q i).producer p').slot = some (q', i') := by rw [hw]; rfl
    obtain ⟨hne, -, hat⟩ := slot_of_published h hp hslot'
    rw [hother hat]
    exact h.written p' m' q' i' ((Function.update_of_ne hne _ _).symm.trans hw)
  case filled =>
    intro at' ht hno
    by_cases hat : at' = (q, i)
    · subst hat
      exact ⟨m, List.mem_append_right _ (List.mem_singleton_self m), hpopped, hself⟩
    · obtain ⟨n, hacc, hno, hat'⟩ := h.filled at' ht fun p' hp' => by
        by_cases hpp : p' = p
        · subst hpp
          exact hat (Option.some.inj (hp'.symm.trans hslot))
        · exact hno p' (by rw [← hp']; exact congrArg _ (Function.update_of_ne hpp _ _))
      exact ⟨n, List.mem_append_left _ hacc, hno, (hother hat).trans hat'⟩
  case blank =>
    intro at' ht hread hlt
    have hat : at' ≠ (q, i) := fun hat => ht (hat ▸ htaken)
    rw [hother hat]
    exact h.blank at' ht hread hlt
  case kept =>
    intro n hacc
    rcases List.mem_append.1 hacc with hacc | hacc
    · refine (h.kept n hacc).imp_right fun ⟨at', ht, hat⟩ => ⟨at', ht, ?_⟩
      have hne : at' ≠ (q, i) := by
        rintro rfl
        simp [hat] at hinvalid
      exact (hother hne).trans hat
    · rw [List.mem_singleton.1 hacc]
      exact .inr ⟨(q, i), htaken, hself⟩
  case once =>
    intro at' at'' n ht ht' hat hat'
    by_cases h₁ : at' = (q, i) <;> by_cases h₂ : at'' = (q, i)
    · rw [h₁, h₂]
    · rw [h₁, hself] at hat
      rw [hother h₂] at hat'
      cases hat
      exact absurd rfl (ne_of_published h hfresh ht' hat')
    · rw [h₂, hself] at hat'
      rw [hother h₁] at hat
      cases hat'
      exact absurd rfl (ne_of_published h hfresh ht hat)
    · rw [hother h₁] at hat
      rw [hother h₂] at hat'
      exact h.once at' at'' n ht ht' hat hat'

theorem Numbered.published (h : Numbered s) (hp : s.producer p = .written m q i) :
    Numbered (s.published p m q i) := by
  have hm : (s.producer p).message = some m := by rw [hp]; rfl
  constructor
  case carried =>
    intro p' n hn
    rcases update_eq_some Producer.message hn with ⟨-, hn⟩ | ⟨hne, hn⟩
    · cases hn
    · refine ⟨(h.carried p' n hn).1, fun hacc => ?_⟩
      rcases List.mem_append.1 hacc with hacc | hacc
      · exact (h.carried p' n hn).2 hacc
      · rw [List.mem_singleton.1 hacc] at hn
        exact hne (h.apart p' p m hn hm)
  case apart =>
    intro p₁ p₂ n h₁ h₂
    rcases update_eq_some Producer.message h₁ with ⟨-, hm₁⟩ | ⟨-, hm₁⟩
    · cases hm₁
    · rcases update_eq_some Producer.message h₂ with ⟨-, hm₂⟩ | ⟨-, hm₂⟩
      · cases hm₂
      · exact h.apart p₁ p₂ n hm₁ hm₂
  case accepted =>
    intro n hacc
    rcases List.mem_append.1 hacc with hacc | hacc
    · exact h.accepted n hacc
    · exact List.mem_singleton.1 hacc ▸ (h.carried p m hm).1
  case popped => exact fun n hpop => List.mem_append_left _ (h.popped n hpop)
  case nodup => exact h.nodup

theorem Reading.published (h : Reading s) : Reading (s.published p m q i) := by
  have hself : (s.published p m q i).queue.queues (q, i) = ⟨true, some m⟩ :=
    Function.update_self ..
  refine h.of_quiet rfl rfl rfl rfl rfl fun at' hv => ?_
  by_cases hat : at' = (q, i)
  · rw [hat, hself]
  · exact (congrArg QueueSlot.valid (Function.update_of_ne hat _ _)).trans hv

theorem inv_publish (h : Inv qlen s) (hs : s.step qlen (.publish p) = some s') : Inv qlen s' := by
  obtain ⟨hc, hplaced, hn, hr⟩ := h
  simp only [step] at hs
  split at hs
  next m q i hp =>
    simp only [Option.some.injEq, hplaced.written p m q i hp] at hs
    subst hs
    exact ⟨⟨hc.consumerQ, hc.curQueue, hc.read, hc.fullSlots⟩, hplaced.published hn hp,
      hn.published hp, hr.published⟩
  next => cases hs

/-- A claim takes the slot the pointer is at, if the buffer has it. -/
theorem taken_claim {d : DBQueue ℕ} (at' : ℕ × ℕ) (hc : Counters qlen d)
    (hsteady : mySlot d.pointer ≠ 2 ^ 30 - 1) :
    curQueue ((d.pointer + 1) % 2 ^ 32) = curQueue d.pointer ∧
      (Taken qlen { d with pointer := (d.pointer + 1) % 2 ^ 32 } at' ↔
        Taken qlen d at' ∨ mySlot d.pointer < qlen ∧
          at' = (curQueue d.pointer, mySlot d.pointer)) := by
  have hq : curQueue d.pointer < 2 := by
    rw [hc.curQueue]
    unfold exchangeQueue
    split <;> omega
  have hcur : curQueue ((d.pointer + 1) % 2 ^ 32) = curQueue d.pointer ∧
      mySlot ((d.pointer + 1) % 2 ^ 32) = mySlot d.pointer + 1 := by
    unfold curQueue at hq ⊢
    unfold mySlot at hsteady ⊢
    omega
  refine ⟨hcur.1, ?_⟩
  simp only [Taken, hcur.2, hc.curQueue, Prod.ext_iff]
  omega

/-- A producer that takes a slot nobody has. -/
theorem Placed.of_claim (h : Placed qlen s) {d : DBQueue ℕ} {x : Producer} {k : ℕ}
    (hnone : (s.producer p).slot = none) (hslot : x.slot = some (q, i))
    (hw : ∀ n q' i', x ≠ .written n q' i') (hq2 : q < 2 ∧ q ≠ s.queue.consumerQ)
    (hfresh : ¬ Taken qlen s.queue (q, i))
    (htaken : ∀ at', Taken qlen d at' ↔ Taken qlen s.queue at' ∨ at' = (q, i))
    (hqueues : d.queues = s.queue.queues) (hread : ∀ at', Read d at' ↔ Read s.queue at') :
    Placed qlen { s with queue := d, producer := update s.producer p x, quiet := k } := by
  have hblank : (s.queue.queues (q, i)).valid = false :=
    h.blank (q, i) hfresh (fun hr => hq2.2 hr.1) hq2.1
  have hcase : ∀ {p' : P} {at' : ℕ × ℕ}, (update s.producer p x p').slot = some at' →
      p' = p ∧ at' = (q, i) ∨ (s.producer p').slot = some at' ∧ Taken qlen s.queue at' := by
    intro p' at' hp'
    rcases update_eq_some Producer.slot hp' with ⟨hpp, hx⟩ | ⟨-, hp'⟩
    · exact .inl ⟨hpp, Option.some.inj (hx.symm.trans hslot)⟩
    · exact .inr ⟨hp', (h.held p' at' hp').1⟩
  have hvalid : ∀ {at' : ℕ × ℕ} {n : ℕ}, Taken qlen d at' → d.queues at' = ⟨true, some n⟩ →
      Taken qlen s.queue at' ∧ s.queue.queues at' = ⟨true, some n⟩ := by
    intro at' n ht hat
    rw [hqueues] at hat
    rcases (htaken at').1 ht with ht | rfl
    · exact ⟨ht, hat⟩
    · simp [hat] at hblank
  refine ⟨fun p' at' hp' => ?_, fun p₁ p₂ at' h₁ h₂ => ?_, fun p' n q' i' hw' => ?_,
    fun at' ht hno => ?_, fun at' ht hr hlt => ?_, fun n hacc => ?_,
    fun at' at'' n ht ht' hat hat' => ?_⟩
  · rcases hcase hp' with ⟨-, rfl⟩ | ⟨hp', ht⟩
    · exact ⟨(htaken _).2 (.inr rfl), by simpa only [hqueues] using hblank⟩
    · exact ⟨(htaken _).2 (.inl ht), by simpa only [hqueues] using (h.held p' at' hp').2⟩
  · rcases hcase h₁ with ⟨hp₁, hat⟩ | ⟨h₁, ht⟩ <;> rcases hcase h₂ with ⟨hp₂, hat'⟩ | ⟨h₂, ht'⟩
    · rw [hp₁, hp₂]
    · exact absurd (hat ▸ ht') hfresh
    · exact absurd (hat' ▸ ht) hfresh
    · exact h.apart p₁ p₂ at' h₁ h₂
  · by_cases hpp : p' = p
    · subst hpp
      simp only [Function.update_self] at hw'
      exact absurd hw' (hw n q' i')
    · simp only [Function.update_of_ne hpp] at hw'
      simpa only [hqueues] using h.written p' n q' i' hw'
  · have hat : at' ≠ (q, i) := fun hat => hno p (by simp only [Function.update_self, hslot, hat])
    obtain ⟨n, hn⟩ := h.filled at' (((htaken at').1 ht).resolve_right hat) fun p' hp' => by
      by_cases hpp : p' = p
      · rw [hpp, hnone] at hp'
        cases hp'
      · exact hno p' (by simp only [Function.update_of_ne hpp, hp'])
    exact ⟨n, by simpa only [hqueues] using hn⟩
  · simpa only [hqueues] using h.blank at' (fun ht' => ht ((htaken at').2 (.inl ht')))
      (fun hr' => hr ((hread at').2 hr')) hlt
  · refine (h.kept n hacc).imp_right fun ⟨at', ht, hat⟩ => ⟨at', (htaken at').2 (.inl ht), ?_⟩
    simpa only [hqueues] using hat
  · obtain ⟨ht, hat⟩ := hvalid ht hat
    obtain ⟨ht', hat'⟩ := hvalid ht' hat'
    exact h.once at' at'' n ht ht' hat hat'

theorem inv_claim (hqlen : 0 < qlen) (h : Inv qlen s) (hsteady : Steady s (.claim p))
    (hs : s.step qlen (.claim p) = some s') : Inv qlen s' := by
  obtain ⟨hc, hplaced, hn, hr⟩ := h
  simp only [step] at hs
  split at hs
  next m hp =>
    unfold claim at hs
    simp only at hs
    split at hs
    next =>
      simp only [Option.some.injEq] at hs
      subst hs
      have htaken := fun at' => taken_claim at' hc hsteady
      generalize hq : curQueue s.queue.pointer = q at htaken
      generalize hi : mySlot s.queue.pointer = i at htaken
      have hcounters : Counters qlen { s.queue with pointer := (s.queue.pointer + 1) % 2 ^ 32 } :=
        ⟨hc.consumerQ, (htaken (0, 0)).1.trans (hq.symm.trans hc.curQueue), hc.read, hc.fullSlots⟩
      have hmessage : (s.producer p).message = some m := by rw [hp]; rfl
      have hnone : (s.producer p).slot = none := by rw [hp]; rfl
      generalize hx : (if qlen - 1 ≤ i then if i = qlen - 1 then Producer.marking m q i else .idle
        else .claimed m q i) = x
      have hxm : ∀ n, x.message = some n → n = m := by
        rintro n hn
        subst hx
        split at hn
        · split at hn <;> simp_all [Producer.message]
        · simp_all [Producer.message]
      have hxw : ∀ n q' i', x ≠ .written n q' i' := by
        rintro n q' i' hw
        subst hx
        split at hw
        · split at hw <;> simp at hw
        · simp at hw
      refine ⟨hcounters, ?_, hn.of_same rfl (fun p' n hm => ?_) rfl rfl,
        hr.of_quiet rfl rfl rfl rfl rfl fun _ => id⟩
      · by_cases hlt : i < qlen
        · have hslot : x.slot = some (q, i) := by
            subst hx
            split
            · rw [if_pos (by omega)]
              rfl
            · rfl
          have hq2 : q < 2 ∧ q ≠ s.queue.consumerQ := by
            have := hc.consumerQ
            rw [← hq, hc.curQueue]
            unfold exchangeQueue
            split <;> omega
          have hfresh : ¬ Taken qlen s.queue (q, i) := by
            rintro (⟨hcq, -⟩ | ⟨-, hlt⟩)
            · exact hq2.2 hcq
            · exact Nat.lt_irrefl _ (hi ▸ (Nat.lt_min.1 hlt).1)
          exact hplaced.of_claim hnone hslot hxw hq2 hfresh
            (fun at' => (htaken at').2.trans (or_congr_right (and_iff_right hlt))) rfl fun _ => .rfl
        · have hx' : x = .idle := by
            subst hx
            rw [if_pos (by omega), if_neg (by omega)]
          refine hplaced.same (fun at' => (htaken at').2.trans (or_iff_left fun h => hlt h.1))
            (fun _ => .rfl) rfl (update_same Producer.slot (by rw [hx', hnone]; rfl))
            (fun p' n q' i' hw => ?_) rfl rfl
          by_cases hpp : p' = p
          · subst hpp
            simp [hx'] at hw
          · simpa [hpp] using hw
      · rcases update_eq_some Producer.message hm with ⟨hpp, hx⟩ | ⟨-, hp'⟩
        · rw [hpp, hxm n hx, hmessage]
        · exact hp'
    next => cases hs
  next => cases hs

end Steps

/-! ## What the steps of the consumer keep -/

section Consumer

variable [DecidableEq P]

theorem inv_pop (h : Inv qlen s) (hs : s.step qlen .pop = some s') : Inv qlen s' := by
  obtain ⟨hc, hplaced, hn, hr⟩ := h
  simp only [step] at hs
  split at hs
  next hidle =>
    simp only [Option.some.injEq] at hs
    subst hs
    exact ⟨hc, hplaced.same (fun _ => .rfl) (fun _ => .rfl) rfl (fun _ => rfl) (fun _ _ _ _ => id)
      rfl rfl, hn.of_same rfl (fun _ _ => id) rfl rfl,
      ⟨fun h => by simp at h, fun hq _ => hr.first hq (.inl hidle), fun _ _ h => by simp at h,
        hr.both⟩⟩
  next => cases hs

theorem inv_readValid (h : Inv qlen s) (hs : s.step qlen .readValid = some s') : Inv qlen s' := by
  obtain ⟨hc, hplaced, hn, hr⟩ := h
  simp only [step] at hs
  split at hs
  next again reads hreading =>
    split at hs
    next hlt =>
      simp only [Option.some.injEq] at hs
      subst hs
      refine ⟨hc, hplaced.same (fun _ => .rfl) (fun _ => .rfl) rfl (fun _ => rfl)
        (fun _ _ _ _ => id) rfl rfl, hn.of_same rfl (fun _ _ => id) rfl rfl, ?_⟩
      split
      next hvalid =>
        exact ⟨fun _ => ⟨hlt.1, hvalid⟩, fun _ h => by simp at h, fun _ _ h => by simp at h,
          hr.both⟩
      next =>
        refine ⟨fun h => by simp at h, fun hq h => ?_, fun hq n h => ?_, hr.both⟩
        · rcases h with h | ⟨n, h⟩
          · simp at h
          · simp only [Consumer.reading.injEq] at h
            exact hr.first hq (.inr ⟨reads, by rw [hreading, h.1]⟩)
        · simp only [Consumer.reading.injEq] at h
          exact hr.second hq reads (by rw [hreading, h.1])
    next => cases hs
  next => cases hs

theorem inv_take (h : Inv qlen s) (hs : s.step qlen .take = some s') : Inv qlen s' := by
  obtain ⟨hc, hplaced, hn, hr⟩ := h
  simp only [step] at hs
  split at hs
  next htaking =>
    simp only [Option.some.injEq] at hs
    subst hs
    obtain ⟨hlt, hvalid⟩ := hr.taking htaking
    generalize hat : (s.queue.consumerQ, s.queue.read) = at₀ at hvalid ⊢
    have ht₀ : Taken qlen s.queue at₀ := .inl (hat ▸ ⟨rfl, Nat.le_refl _, hlt⟩)
    obtain ⟨m, hacc, hfresh, hslot⟩ := hplaced.valid_taken ht₀ hvalid
    simp only [hslot, Option.toList]
    refine ⟨⟨hc.consumerQ, hc.curQueue, hlt, hc.fullSlots⟩, hplaced.of_take hslot ht₀ rfl ?_ ?_,
      ⟨hn.carried, hn.apart, hn.accepted, fun n hpop => ?_, ?_⟩,
      ⟨fun h => by simp at h, fun hq => by simp at hq, fun hq => by simp at hq,
        fun hq => by simp at hq⟩⟩
    · intro at'
      simp only [Taken, ← hat, ne_eq, Prod.ext_iff]
      have hne := exchangeQueue_ne s.queue.consumerQ
      omega
    · intro at' hr
      simp only [Read, ← hat, Prod.ext_iff] at hr ⊢
      omega
    · rcases List.mem_append.1 hpop with hpop | hpop
      · exact hn.popped n hpop
      · rw [List.mem_singleton.1 hpop]
        exact hacc
    · exact List.nodup_append.2 ⟨hn.nodup, List.nodup_singleton m, fun a ha b hb hab =>
        hfresh (List.mem_singleton.1 hb ▸ hab ▸ ha)⟩
  next => cases hs

theorem inv_swap (h : Inv qlen s) (hs : s.step qlen .swap = some s') : Inv qlen s' := by
  obtain ⟨hc, hplaced, hn, hr⟩ := h
  simp only [step] at hs
  split at hs
  next reads hreading =>
    split at hs
    next => cases hs
    next hread =>
      simp only [Option.some.injEq] at hs
      subst hs
      have hread : s.queue.read = s.queue.fullSlots := by
        have := hc.read
        omega
      have hzero : mySlot (s.queue.consumerQ * 2 ^ 30) = 0 := Nat.mul_mod_left ..
      refine ⟨⟨?_, ?_, Nat.zero_le _, Nat.min_le_right ..⟩, hplaced.of_swap hread,
        hn.of_same rfl (fun _ _ => id) rfl rfl, ⟨fun h => by simp at h, fun _ h => by simp at h,
          fun _ _ _ => hzero, fun hq => ⟨?_, hzero⟩⟩⟩
      · rcases hc.consumerQ with h | h <;> simp [DBQueue.swapQueues, exchangeQueue, h]
      · rcases hc.consumerQ with h | h <;>
          simp [DBQueue.swapQueues, exchangeQueue, curQueue, h]
      · simp [DBQueue.swapQueues, (hr.both hq).2]
  next => cases hs

theorem inv_finish (h : Inv qlen s) (hs : s.step qlen .finish = some s') : Inv qlen s' := by
  obtain ⟨hc, hplaced, hn, hr⟩ := h
  simp only [step] at hs
  split at hs
  next reads hreading =>
    split at hs
    next => cases hs
    next hread =>
      simp only [Option.some.injEq] at hs
      subst hs
      have hread : s.queue.read = s.queue.fullSlots := by
        have := hc.read
        omega
      refine ⟨hc, hplaced.same (fun _ => .rfl) (fun _ => .rfl) rfl (fun _ => rfl)
        (fun _ _ _ _ => id) rfl rfl, hn.of_same rfl (fun _ _ => id) rfl rfl,
        ⟨fun h => by simp at h, fun _ _ => hread, fun _ _ h => by simp at h, fun hq => ?_⟩⟩
      exact ⟨hread, hr.second (Nat.le_of_succ_le_succ hq) reads hreading⟩
  next => cases hs

theorem inv_step (hqlen : 0 < qlen) (o : Op P) (h : Inv qlen s) (hsteady : Steady s o)
    (hs : s.step qlen o = some s') : Inv qlen s' := by
  cases o with
  | push p => exact inv_push h hs
  | claim p => exact inv_claim hqlen h hsteady hs
  | mark p => exact inv_mark h hs
  | write p => exact inv_write h hs
  | publish p => exact inv_publish h hs
  | pop => exact inv_pop h hs
  | readValid => exact inv_readValid h hs
  | skip => exact hsteady.elim
  | take => exact inv_take h hs
  | swap => exact inv_swap h hs
  | finish => exact inv_finish h hs

theorem delivered_of_steady (qlen : ℕ) (hqlen : 0 < qlen) (ops : List (Op P)) (s : QueueSystem P)
    (hsteady : StepRun.Meets (step qlen) Steady new ops)
    (hrun : StepRun.run (step qlen) new ops = some s) : Delivered s :=
  (StepRun.run_keeps (fun _ o _ h hC hs => inv_step hqlen o h hC hs) ops inv_new hsteady
    hrun).delivered

/-- A push and the pop of its message. -/
theorem delivered_pushed : ∃ s, StepRun.run (step 2)
    (new : QueueSystem Unit)
    [.push (), .claim (), .write (), .publish (), .pop, .swap, .readValid, .take] = some s ∧
      Delivered s :=
  ⟨_, rfl, delivered_of_steady 2 (by decide)
    [.push (), .claim (), .write (), .publish (), .pop, .swap, .readValid, .take] _ (by decide) rfl⟩

/-- The consumer gives up on a slot just before it is published. -/
theorem not_delivered : ¬ ∀ (qlen : ℕ) (ops : List (Op Unit)) (s : QueueSystem Unit), 0 < qlen →
    StepRun.run (step qlen) new ops = some s → Delivered s := by
  intro h
  let ops : List (Op Unit) := [.push (), .claim (), .pop, .swap] ++
    List.replicate patience .readValid ++ [.skip, .finish, .write (), .publish (),
      .pop, .swap, .finish, .pop, .swap, .finish]
  have hrun : (StepRun.run (step 2) new ops).map
      (fun s => (s.accepted, s.popped, s.quiet, s.producer ())) = some ([0], [], 2, .idle) := by
    decide +kernel
  obtain ⟨s, hs, hend⟩ := Option.map_eq_some_iff.1 hrun
  simp only [Prod.mk.injEq] at hend
  obtain ⟨haccepted, hpopped, hquiet, hidle⟩ := hend
  have hlost := (h 2 ops s (by omega) hs).drained (fun _ => hidle) (by omega) 0
    (by simp [haccepted])
  simp [hpopped] at hlost

end Consumer

end QueueSystem

end DStreamon
