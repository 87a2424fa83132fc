import DStreamon.Proofs.DBQueue
import Mathlib.Tactic.IntervalCases

/-!
# A caller alone has a queue

With no thread between, the slots not read and those filled since the swap hold the values that
are outstanding, in order.
-/

namespace DStreamon

open Function (update)

namespace DBQueue

variable {T : Type} {qlen : ℕ} {d : DBQueue T} {x : T} {xs ys : List T}

/-- `xs` is left to read, and `ys` filled since the swap. -/
structure Holds (qlen : ℕ) (d : DBQueue T) (xs ys : List T) : Prop where
  consumerQ : d.consumerQ < 2
  pointer : d.pointer = exchangeQueue d.consumerQ * 2 ^ 30 + ys.length
  room : ys.length ≤ qlen
  full : d.full = true ↔ ys.length = qlen
  fullSlots : d.fullSlots = d.read + xs.length
  front : ∀ i x, xs[i]? = some x → d.queues (d.consumerQ, d.read + i) = ⟨true, some x⟩
  back : ∀ i x, ys[i]? = some x → d.queues (exchangeQueue d.consumerQ, i) = ⟨true, some x⟩

theorem exchangeQueue_lt (q : ℕ) : exchangeQueue q < 2 := by
  unfold exchangeQueue
  split_ifs <;> omega

theorem exchangeQueue_exchangeQueue {q : ℕ} (hq : q < 2) :
    exchangeQueue (exchangeQueue q) = q := by
  interval_cases q <;> rfl

theorem ne_exchangeQueue {q i j : ℕ} : (q, i) ≠ (exchangeQueue q, j) :=
  fun h => QueueSystem.exchangeQueue_ne q (congrArg Prod.fst h).symm

/-- A swap clears the slots of the one buffer only. -/
theorem swapQueues_of_ne {at' : ℕ × ℕ} (h : at'.1 ≠ d.consumerQ) :
    (d.swapQueues qlen).queues at' = d.queues at' :=
  if_neg fun hc => h hc.1

theorem holds_new (hpos : 0 < qlen) : Holds qlen (new : DBQueue T) [] [] where
  consumerQ := Nat.one_lt_two
  pointer := by simp [new, exchangeQueue]
  room := Nat.zero_le _
  full := by
    simp only [new, List.length_nil, Bool.false_eq_true, false_iff]
    omega
  fullSlots := rfl
  front _ _ h := by simp at h
  back _ _ h := by simp at h

/-! ## `consume` and the swap -/

theorem consume_nil (h : Holds qlen d [] ys) : d.consume = (d, none) := by
  have hfuel : d.fullSlots - d.read = 0 := by
    rw [h.fullSlots, List.length_nil]
    omega
  unfold consume
  rw [hfuel, consumeLoop]

theorem consume_cons (h : Holds qlen d (x :: xs) ys) :
    ∃ d', d.consume = (d', some (some x)) ∧ Holds qlen d' xs ys := by
  have hslots := h.fullSlots
  rw [List.length_cons] at hslots
  have hslot : d.queues (d.consumerQ, d.read) = ⟨true, some x⟩ := h.front 0 x rfl
  refine ⟨{ d with
    read := d.read + 1
    queues := update d.queues (d.consumerQ, d.read) ⟨true, none⟩ }, ?_, ?_⟩
  · unfold consume
    rw [show d.fullSlots - d.read = xs.length + 1 by omega, consumeLoop, if_pos (by omega)]
    dsimp only
    rw [hslot, if_pos rfl]
  · refine ⟨h.consumerQ, h.pointer, h.room, h.full, ?_, fun i y hy => ?_, fun i y hy => ?_⟩
    · change d.fullSlots = d.read + 1 + xs.length
      omega
    · have hfront := h.front (i + 1) y (by rwa [List.getElem?_cons_succ])
      have hne : (d.consumerQ, d.read + 1 + i) ≠ (d.consumerQ, d.read) := by
        simp only [ne_eq, Prod.mk.injEq, true_and]
        omega
      change update d.queues _ _ (d.consumerQ, d.read + 1 + i) = _
      rw [Function.update_of_ne hne, ← hfront]
      congr 2
      omega
    · change update d.queues _ _ (exchangeQueue d.consumerQ, i) = _
      rw [Function.update_of_ne ne_exchangeQueue.symm]
      exact h.back i y hy

/-- The buffer read to the end is the next to be filled. -/
theorem Holds.swap (hlt : qlen < 2 ^ 30) (hpos : 0 < qlen) (h : Holds qlen d [] ys) :
    Holds qlen (d.swapQueues qlen) ys [] := by
  have hroom := h.room
  refine ⟨exchangeQueue_lt _, ?_, Nat.zero_le _, ?_, ?_, fun i y hy => ?_, fun i y hy => ?_⟩
  · change d.consumerQ * 2 ^ 30 = exchangeQueue (exchangeQueue d.consumerQ) * 2 ^ 30 + 0
    rw [exchangeQueue_exchangeQueue h.consumerQ, add_zero]
  · simp only [swapQueues, List.length_nil, Bool.false_eq_true, false_iff]
    omega
  · change min (mySlot d.pointer) qlen = 0 + ys.length
    rw [h.pointer, mySlot]
    omega
  · rw [swapQueues_of_ne (QueueSystem.exchangeQueue_ne _)]
    change d.queues (exchangeQueue d.consumerQ, 0 + i) = _
    rw [zero_add]
    exact h.back i y hy
  · simp at hy

/-! ## The calls -/

theorem pop_front (h : Holds qlen d (x :: xs) ys) :
    ∃ d', d.pop qlen = (d', some (some x)) ∧ Holds qlen d' xs ys := by
  obtain ⟨d', hconsume, hd'⟩ := consume_cons h
  refine ⟨d', ?_, hd'⟩
  unfold pop
  rw [hconsume]

theorem pop_read (h : Holds qlen d [] ys) : d.pop qlen = consume (d.swapQueues qlen) := by
  unfold pop
  rw [consume_nil h]

/-- A push is refused when the buffer is full, and else stores its value. -/
theorem push_full (h : Holds qlen d xs ys) (hfull : ys.length = qlen) :
    d.push qlen x = some (d, false) := by
  unfold push
  rw [if_pos (h.full.2 hfull)]

theorem push_room (hlt : qlen < 2 ^ 30) (h : Holds qlen d xs ys) (hroom : ys.length < qlen) :
    ∃ d', d.push qlen x = some (d', true) ∧ Holds qlen d' xs (ys ++ [x]) := by
  have hq := exchangeQueue_lt d.consumerQ
  have hcur : curQueue d.pointer = exchangeQueue d.consumerQ := by
    rw [h.pointer, curQueue]
    omega
  have hslot : mySlot d.pointer = ys.length := by
    rw [h.pointer, mySlot]
    omega
  have hnot : d.full = false := by
    rw [← Bool.not_eq_true, h.full]
    omega
  refine ⟨{ d with
    pointer := (d.pointer + 1) % 2 ^ 32
    full := d.full || ys.length = qlen - 1
    queues := update d.queues (exchangeQueue d.consumerQ, ys.length) ⟨true, some x⟩ }, ?_, ?_⟩
  · unfold push
    dsimp only
    rw [hnot, if_neg Bool.false_ne_true, hcur, hslot, if_pos (by omega), if_neg (by omega)]
  · refine ⟨h.consumerQ, ?_, ?_, ?_, h.fullSlots, fun i y hy => ?_, fun i y hy => ?_⟩
    · change (d.pointer + 1) % 2 ^ 32 = exchangeQueue d.consumerQ * 2 ^ 30 + (ys ++ [x]).length
      rw [h.pointer, List.length_append, List.length_singleton]
      omega
    · rw [List.length_append, List.length_singleton]
      omega
    · change (d.full || decide (ys.length = qlen - 1)) = true ↔ _
      rw [hnot, Bool.false_or, decide_eq_true_eq, List.length_append, List.length_singleton]
      omega
    · change update d.queues _ _ (d.consumerQ, d.read + i) = _
      rw [Function.update_of_ne ne_exchangeQueue]
      exact h.front i y hy
    · change update d.queues _ _ (exchangeQueue d.consumerQ, i) = _
      rcases Nat.lt_trichotomy i ys.length with hi | hi | hi
      · have hne : (exchangeQueue d.consumerQ, i) ≠ (exchangeQueue d.consumerQ, ys.length) := by
          simp only [ne_eq, Prod.mk.injEq, true_and]
          omega
        rw [Function.update_of_ne hne]
        rw [List.getElem?_append_left hi] at hy
        exact h.back i y hy
      · subst hi
        rw [List.getElem?_concat_length, Option.some.injEq] at hy
        rw [Function.update_self, hy]
      · rw [List.getElem?_eq_none (by simpa using Nat.succ_le_of_lt hi)] at hy
        cases hy

end DBQueue

namespace QueueRun

open DBQueue

variable {T : Type} {qlen : ℕ} {s : QueueRun T}

/-- What was accepted has been popped or is outstanding. -/
def Inv (qlen : ℕ) (s : QueueRun T) : Prop :=
  ∃ xs ys, Holds qlen s.queue xs ys ∧ s.accepted.map some = s.popped ++ (xs ++ ys).map some ∧
    s.sinceSwap = ys.length

theorem inv_push (hlt : qlen < 2 ^ 30) (h : Inv qlen s) (x : T) :
    ∃ s', s.call qlen (.push x) = some s' ∧ Inv qlen s' := by
  obtain ⟨xs, ys, hd, hall, hsince⟩ := h
  rcases Nat.lt_or_eq_of_le hd.room with hroom | hfull
  · obtain ⟨d', hpush, hd'⟩ := push_room (x := x) hlt hd hroom
    refine ⟨_, by rw [call, hpush, Option.map_some], xs, ys ++ [x], hd', ?_, ?_⟩
    · change (s.accepted ++ [x]).map some = _
      rw [List.map_append, hall, ← List.append_assoc, List.map_append, ← List.append_assoc]
      simp only [List.map_append, List.append_assoc]
    · change s.sinceSwap + 1 = _
      rw [List.length_append, List.length_singleton, hsince]
  · refine ⟨_, by rw [call, push_full hd hfull]; rfl, xs, ys, hd, hall, hsince⟩

theorem inv_pop (hlt : qlen < 2 ^ 30) (hpos : 0 < qlen) (h : Inv qlen s) :
    ∃ s', s.call qlen .pop = some s' ∧ Inv qlen s' := by
  obtain ⟨xs, ys, hd, hall, hsince⟩ := h
  refine ⟨_, rfl, ?_⟩
  rcases xs with _ | ⟨x, xs⟩
  · have hswap := hd.swap hlt hpos
    have hpop := pop_read hd
    have hnone := consume_nil hd
    rcases ys with _ | ⟨y, ys⟩
    · rw [consume_nil hswap] at hpop
      refine ⟨[], [], by rwa [hpop], ?_, by rw [hnone]; rfl⟩
      rw [hpop, hall]
      simp
    · obtain ⟨d', hconsume, hd'⟩ := consume_cons hswap
      rw [hconsume] at hpop
      refine ⟨ys, [], by rwa [hpop], ?_, by rw [hnone]; rfl⟩
      rw [hpop, hall]
      simp
  · obtain ⟨d', hpop, hd'⟩ := pop_front hd
    obtain ⟨_, hconsume, -⟩ := consume_cons hd
    refine ⟨xs, ys, by rwa [hpop], ?_, by rw [hconsume]; exact hsince⟩
    rw [hpop, hall]
    simp

theorem Inv.fifo (hlt : qlen < 2 ^ 30) (hpos : 0 < qlen) (h : Inv qlen s) : Fifo qlen s := by
  obtain ⟨xs, ys, hd, hall, hsince⟩ := h
  have hlength : s.accepted.length = s.popped.length + (xs.length + ys.length) := by
    have := congrArg List.length hall
    simpa using this
  refine ⟨⟨(xs ++ ys).map some, hall.symm⟩, ?_, fun x d hpush => ?_⟩
  · rcases xs with _ | ⟨x, xs⟩
    · have hswap := hd.swap hlt hpos
      rw [pop_read hd]
      rcases ys with _ | ⟨y, ys⟩
      · rw [consume_nil hswap]
        simpa using hlength.symm
      · obtain ⟨d', hconsume, -⟩ := consume_cons hswap
        rw [hconsume]
        simp at hlength ⊢
        omega
    · obtain ⟨d', hpop, -⟩ := pop_front hd
      rw [hpop]
      simp at hlength ⊢
      omega
  · rcases Nat.lt_or_eq_of_le hd.room with hroom | hfull
    · obtain ⟨d', hroom, -⟩ := push_room (x := x) hlt hd hroom
      rw [hroom] at hpush
      cases hpush
    · exact hsince.trans hfull

/-- Whole calls never fail, and whatever they are, a caller alone sees a queue. -/
theorem fifo_of_calls (hpos : 0 < qlen) (hlt : qlen < 2 ^ 30) (calls : List (QueueCall T)) :
    ∃ s, StepRun.run (call qlen) new calls = some s ∧ Fifo qlen s := by
  have hnew : Inv qlen (new : QueueRun T) := ⟨[], [], holds_new hpos, rfl, rfl⟩
  have hcall : ∀ (s : QueueRun T) c, Inv qlen s → ∃ s', s.call qlen c = some s' ∧ Inv qlen s' := by
    intro s c h
    cases c with
    | push x => exact inv_push hlt h x
    | pop => exact inv_pop hlt hpos h
  obtain ⟨s, hrun, hs⟩ := StepRun.run_total hcall calls hnew
  exact ⟨s, hrun, hs.fifo hlt hpos⟩

/-- Two slots: a refused push, and two swaps. -/
theorem fifo_of_calls_refused : ∃ s, StepRun.run (call 2) (new : QueueRun Bool)
    [.push true, .push false, .push true, .pop, .push false, .pop, .pop, .pop] = some s ∧
      Fifo 2 s :=
  fifo_of_calls (by decide) (by decide)
    [.push true, .push false, .push true, .pop, .push false, .pop, .pop, .pop]

end QueueRun

end DStreamon
