import DStreamon.Proofs.Visits
import Mathlib.Data.Rat.Floor

/-!
# A new key counted once

A key that was marked, or that a packet found known, is known from then on, while its pair is
neither swapped nor cleared.  So two packets find one key new only if the second looks between the
first one's look and its mark.
-/

namespace DStreamon

open Function (update)

namespace Shared

variable {τ F S : Type} {T : Threshold τ} {ofBytes : List UInt8 → F} {fuel block i : ℕ}
  {s s' : Shared τ F S} {v : Visit F} {r : StageResult τ F S} {x : HashedBuffer}

/-! ## Keys that are known -/

/-- The detector of metric `i` knows the key. -/
def Known (i : ℕ) (x : HashedBuffer) (s : Shared τ F S) : Prop :=
  BloomPair.checkBits i s.metrics.det (MetricBlock.bits x) = .ok true

/-- A key that was marked or not found new is known, unless the pair was swapped or cleared. -/
structure Inv (i : ℕ) (x : HashedBuffer) (s : Shared τ F S) : Prop where
  nested : BloomPair.AllNested s.metrics.det
  booked : Booked s
  marked : s.history.changes i = 0 →
    ∀ n ∈ s.history.marked, s.history.carried n = some (i, x) → Known i x s
  old : s.history.changes i = 0 →
    ∀ n ∈ s.history.looked, n ∉ s.history.new → s.history.carried n = some (i, x) → Known i x s

/-- What later states keep of the history. -/
structure Grows (h h' : History) : Prop where
  changes : ∀ i, h'.changes i = 0 → h.changes i = 0
  carried : ∀ n, n < h.next → h'.carried n = h.carried n
  new : ∀ n ∈ h.new, n ∈ h'.new

theorem grows_turn : Grows s.history (s.turn block i v r).history where
  changes j hj := by
    simp only [turn, record] at hj
    omega
  carried _ _ := rfl
  new n hn := mem_new_turn.2 (.inl hn)

theorem count_changed {j : ℕ} (h : (s.turn block i v r).history.changes j = 0) :
    r.changed.count j = 0 := by
  simp only [turn, record] at h
  omega

theorem Inv.of_same (h : Inv i x s) (hdet : s'.metrics.det = s.metrics.det) (hb : Booked s')
    (hg : Grows s.history s'.history) (hmarked : s'.history.marked = s.history.marked)
    (hlooked : s'.history.looked = s.history.looked) :
    Inv i x s' := by
  have hknown : Known i x s → Known i x s' := fun hk => by rwa [Known, hdet]
  refine ⟨hdet ▸ h.nested, hb, fun hc n hn hx => ?_, fun hc n hn hnew hx => ?_⟩
  · rw [hmarked] at hn
    rw [hg.carried n (h.booked.marked_lt n hn)] at hx
    exact hknown (h.marked (hg.changes i hc) n hn hx)
  · rw [hlooked] at hn
    rw [hg.carried n (h.booked.looked_lt n hn)] at hx
    exact hknown (h.old (hg.changes i hc) n hn (fun hm => hnew (hg.new n hm)) hx)

/-- No two packets found the key new, and if one has been looked up then one did. -/
def Once (i : ℕ) (x : HashedBuffer) (s : Shared τ F S) : Prop :=
  s.history.changes i = 0 →
    (∀ n ∈ s.history.new, ∀ n' ∈ s.history.new, s.history.carried n = some (i, x) →
      s.history.carried n' = some (i, x) → n = n') ∧
    ∀ n ∈ s.history.looked, s.history.carried n = some (i, x) →
      ∃ n' ∈ s.history.new, s.history.carried n' = some (i, x)

/-- Two packets found the key new. -/
def Twice (i : ℕ) (x : HashedBuffer) (s : Shared τ F S) : Prop :=
  ∃ n ∈ s.history.new, ∃ n' ∈ s.history.new, s.history.carried n = some (i, x) ∧
    s.history.carried n' = some (i, x) ∧ n ≠ n'

theorem inv_start {metrics : Metrics τ S} (hw : BloomPair.AllNested metrics.det)
    (blocks : ℕ → MetricBlock F) : Inv i x (start metrics blocks) where
  nested := hw
  booked := booked_start metrics blocks
  marked _ n hn := by simp [start] at hn
  old _ n hn := by simp [start] at hn

theorem once_start (metrics : Metrics τ S) (blocks : ℕ → MetricBlock F) :
    Once i x (start metrics blocks) := by
  intro _
  simp [start]

theorem Twice.grows (h : Twice i x s) (hb : Booked s) (hg : Grows s.history s'.history) :
    Twice i x s' := by
  obtain ⟨n, hn, n', hn', hx, hx', hne⟩ := h
  refine ⟨n, hg.new n hn, n', hg.new n' hn', ?_, ?_, hne⟩
  · rwa [hg.carried n (hb.looked_lt n (hb.new_looked n hn))]
  · rwa [hg.carried n' (hb.looked_lt n' (hb.new_looked n' hn'))]

theorem Once.of_same (h : Once i x s) (hb : Booked s) (hg : Grows s.history s'.history)
    (hlooked : s'.history.looked = s.history.looked) (hnew : s'.history.new = s.history.new) :
    Once i x s' := by
  intro hc
  obtain ⟨hunique, hsome⟩ := h (hg.changes i hc)
  have hcarried : ∀ n ∈ s.history.looked, s'.history.carried n = s.history.carried n :=
    fun n hn => hg.carried n (hb.looked_lt n hn)
  rw [hlooked, hnew]
  refine ⟨fun n hn n' hn' hx hx' => ?_, fun n hn hx => ?_⟩
  · rw [hcarried n (hb.new_looked n hn)] at hx
    rw [hcarried n' (hb.new_looked n' hn')] at hx'
    exact hunique n hn n' hn' hx hx'
  · rw [hcarried n hn] at hx
    obtain ⟨n', hn', hx'⟩ := hsome n hn hx
    exact ⟨n', hn', by rwa [hcarried n' (hb.new_looked n' hn')]⟩

section Steps

variable [Field F] [ICounter S F HashedBuffer]

theorem grows_step {op : Op F} (h : step T ofBytes s op = some s') :
    Grows s.history s'.history := by
  have hsame : Grows s.history s.history := ⟨fun _ h => h, fun _ _ => rfl, fun _ h => h⟩
  cases op with
  | reset metricId resetKey map =>
    cases h
    exact hsame
  | receive block m =>
    obtain ⟨-, -, ⟨-, hh⟩ | ⟨op, -, -, hh⟩⟩ := receive_cases h
    · rw [hh]
      exact hsame
    · rw [hh]
      exact ⟨fun _ h => h, fun n hn => Function.update_of_ne (Nat.ne_of_lt hn) _ _, fun _ h => h⟩
  | advance block fuel =>
    obtain ⟨v, i, r, -, -, -, rfl⟩ := advance_cases h
    exact grows_turn

theorem Inv.turn (h : Inv i x s) (hv : s.visits block = some v) {j : ℕ}
    (hj : (s.blocks block).place = some j)
    (hr : MetricBlock.act T ofBytes fuel s.metrics (s.blocks block) j v = some r) :
    Inv i x (s.turn block j v r) := by
  have hknows := MetricBlock.act_knows h.nested hr
  have hcarries := h.booked.carried block v hv
  have hstill : (s.turn block j v r).history.changes i = 0 → Known i x s →
      Known i x (s.turn block j v r) := fun hc hk => hknows.known (count_changed hc) hk
  have hplace : s.history.carried v.n = some (i, x) →
      j = i ∧ (s.blocks block).carries v.msg v.op = some (i, x) := fun hx => by
    have hx := hcarries.symm.trans hx
    exact ⟨Option.some.inj (hj.symm.trans (MetricBlock.carries_eq_some hx).1), hx⟩
  refine ⟨hknows.nested, h.booked.turn hv hj hr, fun hc n hn hx => ?_,
    fun hc n hn hnew hx => ?_⟩
  · rcases mem_marked_turn.1 hn with hn | ⟨hst, rfl⟩
    · exact hstill hc (h.marked (grows_turn.changes i hc) n hn hx)
    · obtain ⟨rfl, hx⟩ := hplace hx
      exact MetricBlock.act_mark h.nested hr hst hx (count_changed hc)
  · rw [mem_new_turn, not_or] at hnew
    rcases mem_looked_turn.1 hn with hn | ⟨hst, rfl⟩
    · exact hstill hc (h.old (grows_turn.changes i hc) n hn hnew.1 hx)
    · obtain ⟨rfl, hx⟩ := hplace hx
      have hseen : r.isFlowNew = false := by simpa [hst] using hnew.2
      refine hstill hc ?_
      have hlook := MetricBlock.act_look hr hst hx
      rwa [hseen] at hlook

theorem Inv.step {op : Op F} (h : Inv i x s) (hs : step T ofBytes s op = some s') :
    Inv i x s' := by
  have hg := grows_step hs
  cases op with
  | reset metricId resetKey map =>
    cases hs
    exact h.of_same rfl (h.booked.congr rfl rfl rfl) hg rfl rfl
  | receive block m =>
    have hb := h.booked.receive hs
    obtain ⟨hdet, -, ⟨-, hh⟩ | ⟨op, -, -, hh⟩⟩ := receive_cases hs <;>
      exact h.of_same (by rw [hdet]) hb hg (by rw [hh]) (by rw [hh])
  | advance block fuel =>
    obtain ⟨v, j, r, hv, hj, hr, rfl⟩ := advance_cases hs
    exact h.turn hv hj hr

/-- What a packet with the key finds. -/
theorem look_finds (h : Inv i x s) {j : ℕ} (hv : s.visits block = some v)
    (hj : (s.blocks block).place = some j)
    (hr : MetricBlock.act T ofBytes fuel s.metrics (s.blocks block) j v = some r)
    (hst : v.stage = .look) (hx : s.history.carried v.n = some (i, x)) :
    BloomPair.checkBits i s.metrics.det (MetricBlock.bits x) = .ok (!r.isFlowNew) := by
  have hx := (h.booked.carried block v hv).symm.trans hx
  obtain rfl : j = i := Option.some.inj (hj.symm.trans (MetricBlock.carries_eq_some hx).1)
  exact MetricBlock.act_look hr hst hx

theorem Once.turn (ho : Once i x s) (h : Inv i x s) {j : ℕ} (hv : s.visits block = some v)
    (hj : (s.blocks block).place = some j)
    (hr : MetricBlock.act T ofBytes fuel s.metrics (s.blocks block) j v = some r)
    (hfirst : FirstNew i x s (.advance block fuel)) (hsep : Separate i x s (.advance block fuel)) :
    Once i x (s.turn block j v r) := by
  intro hc
  have hc₀ := grows_turn.changes i hc
  obtain ⟨hunique, hsome⟩ := ho hc₀
  by_cases hlook : v.stage = .look ∧ s.history.carried v.n = some (i, x)
  · obtain ⟨hst, hx⟩ := hlook
    have hlooks : Looks s i x (.advance block fuel) := ⟨v, hv, hst, hx⟩
    have hfinds := look_finds h hv hj hr hst hx
    rcases hnew : r.isFlowNew with _ | _ <;> rw [hnew] at hfinds
    · have hmem : ∀ {n}, n ∈ (s.turn block j v r).history.new ↔ n ∈ s.history.new := by
        simp [mem_new_turn, hnew]
      obtain ⟨n₀, hn₀, hx₀⟩ : ∃ n ∈ s.history.looked, s.history.carried n = some (i, x) := by
        by_contra hnone
        push Not at hnone
        have habsent := hfirst hlooks hnone
        rw [Absent, hfinds] at habsent
        cases habsent
      obtain ⟨n', hn', hx'⟩ := hsome n₀ hn₀ hx₀
      exact ⟨fun n hn n' hn' => hunique n (hmem.1 hn) n' (hmem.1 hn'),
        fun _ _ _ => ⟨n', hmem.2 hn', hx'⟩⟩
    · have hnone : ∀ n ∈ s.history.looked, s.history.carried n ≠ some (i, x) := fun n hn hxn => by
        have hknown := h.marked hc₀ n (hsep hlooks hfinds n hn hxn) hxn
        rw [Known, hfinds] at hknown
        cases hknown
      have honly : ∀ {n}, n ∈ (s.turn block j v r).history.new →
          s.history.carried n = some (i, x) → n = v.n := fun {n} hn hxn => by
        rcases mem_new_turn.1 hn with hn | ⟨-, rfl⟩
        · exact absurd hxn (hnone n (h.booked.new_looked n hn))
        · rfl
      exact ⟨fun n hn n' hn' hxn hxn' => (honly hn hxn).trans (honly hn' hxn').symm,
        fun _ _ _ => ⟨v.n, mem_new_turn.2 (.inr ⟨⟨hst, hnew⟩, rfl⟩), hx⟩⟩
  · have hmem : ∀ {n}, s.history.carried n = some (i, x) →
        ((n ∈ (s.turn block j v r).history.new ↔ n ∈ s.history.new) ∧
          (n ∈ (s.turn block j v r).history.looked ↔ n ∈ s.history.looked)) := fun {n} hxn => by
      have hne : ¬(v.stage = .look ∧ n = v.n) := fun ⟨hst, hn⟩ => hlook ⟨hst, hn ▸ hxn⟩
      rw [mem_new_turn, mem_looked_turn]
      tauto
    refine ⟨fun n hn n' hn' hx hx' => hunique n ((hmem hx).1.1 hn) n' ((hmem hx').1.1 hn') hx hx',
      fun n hn hx => ?_⟩
    obtain ⟨n', hn', hx'⟩ := hsome n ((hmem hx).2.1 hn) hx
    exact ⟨n', (hmem hx').1.2 hn', hx'⟩

theorem Once.step {op : Op F} (ho : Once i x s) (h : Inv i x s) (hfirst : FirstNew i x s op)
    (hsep : Separate i x s op) (hs : step T ofBytes s op = some s') : Once i x s' := by
  have hg := grows_step hs
  cases op with
  | reset metricId resetKey map =>
    cases hs
    exact ho.of_same h.booked hg rfl rfl
  | receive block m =>
    obtain ⟨-, -, ⟨-, hh⟩ | ⟨op, -, -, hh⟩⟩ := receive_cases hs <;>
      exact ho.of_same h.booked hg (by rw [hh]) (by rw [hh])
  | advance block fuel =>
    obtain ⟨v, j, r, hv, hj, hr, rfl⟩ := advance_cases hs
    exact ho.turn h hv hj hr hfirst hsep

/-- Looked up between another packet's look and mark, an absent key is found new twice. -/
theorem twice_of_not_separate {op : Op F} (h : Inv i x s) (hsep : ¬Separate i x s op)
    (hs : step T ofBytes s op = some s') : s'.history.changes i ≠ 0 ∨ Twice i x s' := by
  by_cases hc : s'.history.changes i = 0
  · refine .inr ?_
    have hg := grows_step hs
    simp only [Separate, not_forall] at hsep
    obtain ⟨hlooks, habsent, n, hn, hxn, hmark⟩ := hsep
    cases op with
    | reset metricId resetKey map => exact hlooks.elim
    | receive block m => exact hlooks.elim
    | advance block fuel =>
      obtain ⟨v, hv, hst, hx⟩ := hlooks
      obtain ⟨v', j, r, hv', hj, hr, rfl⟩ := advance_cases hs
      obtain rfl : v' = v := Option.some.inj (hv'.symm.trans hv)
      have hfinds := look_finds h hv hj hr hst hx
      have hnew : r.isFlowNew = true := by
        rw [Absent, hfinds] at habsent
        simpa using habsent
      have hnewn : n ∈ s.history.new := by
        by_contra hnew
        have hknown := h.old (hg.changes i hc) n hn hnew hxn
        rw [Known, habsent] at hknown
        cases hknown
      refine ⟨n, hg.new n hnewn, v'.n, mem_new_turn.2 (.inr ⟨⟨hst, hnew⟩, rfl⟩), hxn, hx, ?_⟩
      rintro rfl
      simpa [hst] using (h.booked.looked_iff block v' hv).1 hn
  · exact .inl hc

end Steps

/-! ## Counted once -/

/-- No packet with the key is at a block. -/
def Through (i : ℕ) (x : HashedBuffer) (s : Shared τ F S) : Prop :=
  ∀ b v, s.visits b = some v → s.history.carried v.n ≠ some (i, x)

/-- Once they are through, the packets counted are those that found the key new. -/
theorem mem_added_iff (hb : Booked s) (hthrough : Through i x s) {n : ℕ}
    (hx : s.history.carried n = some (i, x)) : n ∈ s.history.added ↔ n ∈ s.history.new := by
  have hne : s.history.carried n ≠ none := by simp [hx]
  refine ⟨fun hn => hb.added_new n hn hne, fun hn => ?_⟩
  rcases hb.added_or n hn hne with hn | ⟨b, v, hv, rfl, -⟩
  · exact hn
  · exact absurd hx (hthrough b v hv)

/-- Through, and found new by one, a key is counted once. -/
theorem Once.countedOnce (h : Inv i x s) (ho : Once i x s) (hkept : s.history.changes i = 0)
    (hthrough : Through i x s) (hsome : ∃ n, s.history.carried n = some (i, x)) :
    CountedOnce i x s := by
  obtain ⟨hunique, hnew⟩ := ho hkept
  obtain ⟨n, hx⟩ := hsome
  have hlooked : n ∈ s.history.looked := by
    rcases h.booked.looked_or n (by simp [hx]) with hn | ⟨b, v, hv, rfl⟩
    · exact hn
    · exact absurd hx (hthrough b v hv)
  obtain ⟨n', hn', hx'⟩ := hnew n hlooked hx
  refine ⟨n', ⟨hx', (mem_added_iff h.booked hthrough hx').2 hn'⟩, fun m hm => ?_⟩
  exact hunique m ((mem_added_iff h.booked hthrough hm.1).1 hm.2) n' hn' hm.1 hx'

section Runs

variable [Field F] [ICounter S F HashedBuffer] {ops : List (Op F)}

theorem Inv.run (h : Inv i x s) (hrun : StepRun.run (Shared.step T ofBytes) s ops = some s') :
    Inv i x s' :=
  StepRun.run_keeps (C := fun _ _ => True) (fun _ _ _ h _ hs => h.step hs) ops h
    (StepRun.meets_of_forall (fun _ _ => trivial) ops _) hrun

theorem Once.run (ho : Once i x s) (h : Inv i x s)
    (hfirst : StepRun.Meets (Shared.step T ofBytes) (FirstNew i x) s ops)
    (hsep : StepRun.Meets (Shared.step T ofBytes) (Separate i x) s ops)
    (hrun : StepRun.run (Shared.step T ofBytes) s ops = some s') : Once i x s' :=
  have hkeep : ∀ s o s', Inv i x s ∧ Once i x s →
      FirstNew i x s o ∧ Separate i x s o → Shared.step T ofBytes s o = some s' →
      Inv i x s' ∧ Once i x s' :=
    fun _ _ _ h hc hs => ⟨h.1.step hs, h.2.step h.1 hc.1 hc.2 hs⟩
  (StepRun.run_keeps hkeep ops ⟨h, ho⟩ (StepRun.meets_and hfirst hsep) hrun).2

/-- No two packets find the key absent at once, or two found it new. -/
theorem separate_or_twice (h : Inv i x s) (hrun : StepRun.run (step T ofBytes) s ops = some s') :
    StepRun.Meets (step T ofBytes) (Separate i x) s ops ∨
      s'.history.changes i ≠ 0 ∨ Twice i x s' := by
  refine (StepRun.meets_or_of_run (Separate i x) (Inv i x)
    (fun s => Inv i x s ∧ (s.history.changes i ≠ 0 ∨ Twice i x s))
    (fun _ _ _ h hs => h.step hs) (fun s o s' h hs => ⟨h.1.step hs, ?_⟩)
    (fun s o s' h hsep hs => ⟨h.step hs, twice_of_not_separate h hsep hs⟩) ops h hrun).imp_right
      And.right
  rcases h.2 with hc | ht
  · exact .inl fun hc' => hc ((grows_step hs).changes i hc')
  · exact .inr (ht.grows h.1.booked (grows_step hs))

/-- Of the packets with a key that its detector keeps and did not know when it first saw one, the
counter is increased for exactly one, if and only if no two find the key absent at once. -/
theorem counted_once_iff (T : Threshold τ) (ofBytes : List UInt8 → F)
    (before : List (ℕ × BloomPair.Op)) {det : DetInstances τ} {log : List ℕ}
    (hbefore : BloomPair.runs T BloomPair.noPairs before = .ok (det, log))
    (counters : ℕ → Option S) (resetOps : ℕ → ResetAction) (blocks : ℕ → MetricBlock F)
    (ops : List (Op F)) {s : Shared τ F S}
    (hrun : StepRun.run (step T ofBytes) (start ⟨det, counters, resetOps⟩ blocks) ops = some s)
    {i : ℕ} {x : HashedBuffer} (hkept : s.history.changes i = 0) (hthrough : Through i x s)
    (hsome : ∃ n, s.history.carried n = some (i, x))
    (hfirst : StepRun.Meets (step T ofBytes) (FirstNew i x)
      (start ⟨det, counters, resetOps⟩ blocks) ops) :
    CountedOnce i x s ↔ StepRun.Meets (step T ofBytes) (Separate i x)
      (start ⟨det, counters, resetOps⟩ blocks) ops := by
  have hstart : Inv i x (start ⟨det, counters, resetOps⟩ blocks) :=
    inv_start (BloomPair.allNested_noPairs.runs hbefore) blocks
  have hend : Inv i x s := hstart.run hrun
  constructor
  · rintro ⟨n, -, hunique⟩
    rcases separate_or_twice hstart hrun with hmeets | hc | ⟨n₁, hn₁, n₂, hn₂, hx₁, hx₂, hne⟩
    · exact hmeets
    · exact absurd hkept hc
    · refine absurd ((hunique n₁ ⟨hx₁, ?_⟩).trans (hunique n₂ ⟨hx₂, ?_⟩).symm) hne
      · exact (mem_added_iff hend.booked hthrough hx₁).2 hn₁
      · exact (mem_added_iff hend.booked hthrough hx₂).2 hn₂
  · intro hsep
    have honce : Once i x s := (once_start _ blocks).run hstart hfirst hsep hrun
    exact honce.countedOnce hend hkept hthrough hsome

/-- A block that no operation is about stays without a packet. -/
theorem visits_untouched {b : ℕ} {ops : List (Op F)} (hops : ∀ op ∈ ops, op.block? ≠ some b)
    (hs : s.visits b = none) (hrun : StepRun.run (step T ofBytes) s ops = some s') :
    s'.visits b = none := by
  suffices hkeep : ∀ (s : Shared τ F S) (op : Op F) (s' : Shared τ F S), s.visits b = none →
      op.block? ≠ some b → step T ofBytes s op = some s' → s'.visits b = none by
    have hmeets : StepRun.Meets (step T ofBytes) (fun _ op => op.block? ≠ some b) s ops :=
      StepRun.meets_of_forall_mem (fun _ _ h => h) ops s hops
    have hend := StepRun.run_keeps hkeep ops hs hmeets hrun
    exact hend
  intro s op s' hs hop h
  cases op with
  | reset metricId resetKey map =>
    cases h
    exact hs
  | receive block m =>
    have hb : b ≠ block := fun hb => hop (congrArg some hb.symm)
    obtain ⟨-, -, ⟨hvisits, -⟩ | ⟨op, -, hvisits, -⟩⟩ := receive_cases h
    · rwa [hvisits]
    · rwa [hvisits, Function.update_of_ne hb]
  | advance block fuel =>
    have hb : b ≠ block := fun hb => hop (congrArg some hb.symm)
    obtain ⟨v, j, r, -, -, -, rfl⟩ := advance_cases h
    simp only [turn, Function.update_of_ne hb]
    exact hs

end Runs

/-- The pair of metric 0, new. -/
def newPair : DetInstances ℕ :=
  update BloomPair.noPairs 0 (BloomPair.new BloomPair.fixedPoint 2 4 none).toOption

theorem runs_newPair :
    BloomPair.runs BloomPair.fixedPoint BloomPair.noPairs [(0, .create 0 2 4 none)] =
      .ok (newPair, []) := rfl

/-- Blocks of metric 0, with detector and monitor, and its counter. -/
def twoSided : Shared ℕ ℚ (Counter ℚ) :=
  start ⟨newPair, fun i => if i = 0 then some (.simple ⟨0⟩) else none,
    fun _ => ⟨false, false, ⟨[]⟩⟩⟩ fun _ =>
      { MetricBlock.new with
        metricId := some 0, variationDetector := true, variationMonitor := true }

/-- A packet with one key for all. -/
def keyed : MetricMessage ℚ where
  metricOps i := if i = 0 then some ⟨0, 0, 0, 0⟩ else none
  metrics _ := 0
  map _ := ⟨[7]⟩
  timestampUs := 0

/-- Two packets, in blocks 0 and 1, are through. -/
theorem through_two {ops : List (Op ℚ)} {s : Shared ℕ ℚ (Counter ℚ)}
    (hrun : StepRun.run (step BloomPair.fixedPoint fun _ => 0) twoSided ops = some s)
    (hops : ∀ op ∈ ops, op.block? = some 0 ∨ op.block? = some 1)
    (h0 : (s.visits 0).isNone) (h1 : (s.visits 1).isNone) {i : ℕ} {x : HashedBuffer} :
    Through i x s := by
  intro b v hv
  have hb : b = 0 ∨ b = 1 := by
    by_contra hb
    rw [visits_untouched (b := b) (fun op hop hblock => ?_) rfl hrun] at hv
    · cases hv
    · rcases hops op hop with h | h <;> rw [h] at hblock <;> simp_all
  rcases hb with rfl | rfl <;> simp [hv] at h0 h1

/-- One block after the other. -/
theorem counted_once_inTurn :
    ∃ s, StepRun.run (step BloomPair.fixedPoint fun _ => 0) twoSided
      (.receive 0 keyed :: List.replicate 6 (.advance 0 0) ++
        .receive 1 keyed :: List.replicate 6 (.advance 1 0)) = some s ∧
      (CountedOnce 0 ⟨[7]⟩ s ↔ StepRun.Meets (step BloomPair.fixedPoint fun _ => 0)
        (Separate 0 ⟨[7]⟩) twoSided (.receive 0 keyed :: List.replicate 6 (.advance 0 0) ++
          .receive 1 keyed :: List.replicate 6 (.advance 1 0))) := by
  have hend : (StepRun.run (step BloomPair.fixedPoint fun _ => 0) twoSided
      (.receive 0 keyed :: List.replicate 6 (.advance 0 0) ++
        .receive 1 keyed :: List.replicate 6 (.advance 1 0))).map (fun s =>
          (s.history.changes 0, s.history.carried 0, (s.visits 0).isNone, (s.visits 1).isNone)) =
      some (0, some (0, ⟨[7]⟩), true, true) := by decide +kernel
  obtain ⟨s, hrun, hs⟩ := Option.map_eq_some_iff.1 hend
  simp only [Prod.mk.injEq] at hs
  obtain ⟨hchanges, hcarried, h0, h1⟩ := hs
  exact ⟨s, hrun, counted_once_iff BloomPair.fixedPoint (fun _ => 0) [(0, .create 0 2 4 none)]
    runs_newPair _ _ _ _ hrun hchanges (through_two hrun (by simp [Op.block?]) h0 h1)
    ⟨0, hcarried⟩ (by decide +kernel)⟩

/-- Both blocks look before either marks. -/
theorem not_counted_once : ¬ ∀ (before : List (ℕ × BloomPair.Op)) (det : DetInstances ℕ)
    (log : List ℕ) (counters : ℕ → Option (Counter ℚ)) (resetOps : ℕ → ResetAction)
    (blocks : ℕ → MetricBlock ℚ) (ops : List (Op ℚ)) (s : Shared ℕ ℚ (Counter ℚ)) (i : ℕ)
    (x : HashedBuffer),
    BloomPair.runs BloomPair.fixedPoint BloomPair.noPairs before = .ok (det, log) →
    StepRun.run (step BloomPair.fixedPoint fun _ => 0) (start ⟨det, counters, resetOps⟩ blocks) ops
      = some s →
    s.history.changes i = 0 → Through i x s → (∃ n, s.history.carried n = some (i, x)) →
    StepRun.Meets (step BloomPair.fixedPoint fun _ => 0) (FirstNew i x)
      (start ⟨det, counters, resetOps⟩ blocks) ops → CountedOnce i x s := by
  intro h
  let crossed : List (Op ℚ) :=
    [.receive 0 keyed, .receive 1 keyed, .advance 0 0, .advance 0 0, .advance 1 0, .advance 1 0] ++
      List.replicate 4 (.advance 0 0) ++ List.replicate 4 (.advance 1 0)
  have hend : (StepRun.run (step BloomPair.fixedPoint fun _ => 0) twoSided crossed).map (fun s =>
      (s.history.changes 0, [s.history.carried 0, s.history.carried 1], s.history.added,
        [(s.visits 0).isNone, (s.visits 1).isNone])) =
      some (0, [some (0, ⟨[7]⟩), some (0, ⟨[7]⟩)], [1, 0], [true, true]) := by decide +kernel
  obtain ⟨s, hrun, hs⟩ := Option.map_eq_some_iff.1 hend
  simp only [Prod.mk.injEq, List.cons.injEq] at hs
  obtain ⟨hchanges, ⟨hcarried, hcarried', -⟩, hadded, h0, h1, -⟩ := hs
  obtain ⟨n, -, hunique⟩ := h [(0, .create 0 2 4 none)] _ _ _ _ _ _ s 0 ⟨[7]⟩ runs_newPair hrun
    hchanges (through_two hrun (by simp [crossed, Op.block?]) h0 h1) ⟨0, hcarried⟩
    (by decide +kernel)
  have hboth := (hunique 0 ⟨hcarried, by simp [hadded]⟩).trans
    (hunique 1 ⟨hcarried', by simp [hadded]⟩).symm
  cases hboth

/-! ## One packet after another -/

/-- No other block is at a packet. -/
def Alone (s : Shared τ F S) : Op F → Prop
  | .advance block _ => ∀ b, b ≠ block → s.visits b = none
  | _ => True

theorem separate_of_alone {op : Op F} (hb : Booked s) (halone : Alone s op) :
    Separate i x s op := by
  intro hlooks _ n hn _
  cases op with
  | reset metricId resetKey map => exact hlooks.elim
  | receive block m => exact hlooks.elim
  | advance block fuel =>
    obtain ⟨v, hv, hst, -⟩ := hlooks
    rcases hb.marked_or n hn with hn | ⟨b, v', hv', -, hst'⟩
    · exact hn
    · by_cases hbb : b = block
      · subst hbb
        obtain rfl : v' = v := Option.some.inj (hv'.symm.trans hv)
        rw [hst] at hst'
        cases hst'
      · rw [halone b hbb] at hv'
        cases hv'

theorem alone_counted_once [Field F] [ICounter S F HashedBuffer] {ops : List (Op F)}
    (h : Inv i x s) (ho : Once i x s) (hrun : StepRun.run (step T ofBytes) s ops = some s')
    (halone : StepRun.Meets (step T ofBytes) Alone s ops)
    (hfirst : StepRun.Meets (step T ofBytes) (FirstNew i x) s ops)
    (hkept : s'.history.changes i = 0) (hthrough : Through i x s')
    (hsome : ∃ n, s'.history.carried n = some (i, x)) : CountedOnce i x s' := by
  have hsep : StepRun.Meets (step T ofBytes) (Separate i x) s ops :=
    StepRun.meets_of_inv (fun _ _ _ (h : Inv i x _) hs => h.step hs)
      (fun _ _ h halone => separate_of_alone h.booked halone) ops h halone
  exact (ho.run h hfirst hsep hrun).countedOnce (h.run hrun) hkept hthrough hsome

/-- The stages of a packet from one on, undisturbed, with the instances, the block and the value
they end with. -/
inductive Acts [Field F] [ICounter S F HashedBuffer] (T : Threshold τ) (ofBytes : List UInt8 → F)
    (fuel i : ℕ) : Metrics τ S → MetricBlock F → Visit F → Metrics τ S → MetricBlock F → F → Prop
  | last {w b v r} (hr : MetricBlock.act T ofBytes fuel w b i v = some r)
      (hlast : v.stage.next = none) : Acts T ofBytes fuel i w b v r.metrics r.block r.value
  | more {w b v r stage w' b' value} (hr : MetricBlock.act T ofBytes fuel w b i v = some r)
      (hnext : v.stage.next = some stage)
      (hrest : Acts T ofBytes fuel i r.metrics r.block
        { v with stage, isFlowNew := r.isFlowNew, value := r.value } w' b' value) :
      Acts T ofBytes fuel i w b v w' b' value

/-- A block that goes on alone takes its packet through the stages. -/
theorem run_of_acts [Field F] [ICounter S F HashedBuffer] {w w' : Metrics τ S}
    {b b' : MetricBlock F} {value : F} (h : Acts T ofBytes fuel i w b v w' b' value)
    (hi : b.place = some i) : ∀ {s : Shared τ F S}, s.metrics = w → s.blocks block = b →
      s.visits block = some v → ∃ k s',
        StepRun.run (step T ofBytes) s (List.replicate k (.advance block fuel)) = some s' ∧
        s'.metrics = w' ∧ s'.blocks = update s.blocks block b' ∧
        s'.visits = update s.visits block none ∧
        s'.sent = s.sent ++ [(block, v.msg.setMetrics i value)] := by
  induction h with
  | @last w b v r hr hlast =>
    rintro s rfl rfl hv
    refine ⟨1, s.turn block i v r, ?_, rfl, rfl, ?_, ?_⟩
    · simp [StepRun.run_cons, step, advance, hv, hi, hr]
    · simp [turn, hlast]
    · simp [turn, hlast]
  | @more w b v r stage w' b' value hr hnext _ ih =>
    rintro s rfl rfl hv
    have hplace : r.block.place = some i := by
      rw [MetricBlock.place, (MetricBlock.act_sameSet hr).metricId]
      exact hi
    obtain ⟨k, s', hrun, hw, hb, hvisits, hsent⟩ := ih hplace (s := s.turn block i v r) rfl
      (Function.update_self ..) (by simp [turn, hnext])
    refine ⟨k + 1, s', ?_, hw, ?_, ?_, ?_⟩
    · simpa [List.replicate_succ, StepRun.run_cons, step, advance, hv, hi, hr] using hrun
    · rw [hb]
      exact Function.update_idem ..
    · rw [hvisits]
      exact Function.update_idem ..
    · rw [hsent]
      simp [turn, hnext]

section Receive

variable [Field F] [ICounter S F HashedBuffer] {w w' w₁ : Metrics τ S} {b b' b₁ : MetricBlock F}
  {m m' : MetricMessage F} {op : MetricOp} {n : ℕ} {isFlowNew : Bool} {value value' : F}

/-- The detector's part of `receiveMsg` is the first three stages. -/
theorem acts_of_detector (h : (if b.variationDetector then do
      let (w, b) ← MetricBlock.resetDetector T w b i m.timePacket
      let (w, isFlowNew, value) ← MetricBlock.detect T fuel w i (m.getFlowkey op.vdFlowkeyGet)
        (m.getFlowkey op.vdFlowkeySet)
      some (w, b, isFlowNew, value)
    else some (w, b, true, 0)) = some (w₁, b₁, isFlowNew, value))
    (hrest : Acts T ofBytes fuel i w₁ b₁ ⟨n, m, op, .resetMonitor, isFlowNew, value⟩ w' b' value') :
    Acts T ofBytes fuel i w b ⟨n, m, op, .resetDetector, true, 0⟩ w' b' value' := by
  by_cases hd : b.variationDetector = true
  · rw [if_pos hd] at h
    obtain ⟨⟨w₀, b₀⟩, hreset, h⟩ := Option.bind_eq_some_iff.1 h
    obtain ⟨⟨w₂, new, value₂⟩, hdetect, h⟩ := Option.bind_eq_some_iff.1 h
    cases h
    rw [MetricBlock.detect_eq] at hdetect
    obtain ⟨⟨new, value₀⟩, hlook, hdetect⟩ := Option.bind_eq_some_iff.1 hdetect
    obtain ⟨⟨w₂, changed⟩, hmark, hdetect⟩ := Option.map_eq_some_iff.1 hdetect
    cases hdetect
    have hd₁ : b₁.variationDetector = true :=
      (MetricBlock.resetDetector_sameSet hreset).detector.trans hd
    have hacts : MetricBlock.act T ofBytes fuel w b i ⟨n, m, op, .resetDetector, true, 0⟩ =
        some ⟨w₀, b₁, true, 0, false,
          if MetricBlock.ResetDue w b i m.timePacket then [i] else []⟩ := by
      simp [MetricBlock.act, hd, hreset]
    have hacts₁ : MetricBlock.act T ofBytes fuel w₀ b₁ i ⟨n, m, op, .look, true, 0⟩ =
        some ⟨w₀, b₁, isFlowNew, value, false, []⟩ := by
      simp [MetricBlock.act, hd₁, hlook]
    have hacts₂ : MetricBlock.act T ofBytes fuel w₀ b₁ i ⟨n, m, op, .mark, isFlowNew, value⟩ =
        some ⟨w₂, b₁, isFlowNew, value, false, changed⟩ := by
      simp [MetricBlock.act, hd₁, hmark]
    exact .more hacts rfl (.more hacts₁ rfl (.more hacts₂ rfl hrest))
  · rw [if_neg hd] at h
    cases h
    refine .more (r := ⟨w, b, true, 0, false, []⟩) ?_ rfl
      (.more (r := ⟨w, b, true, 0, false, []⟩) ?_ rfl
        (.more (r := ⟨w, b, true, 0, false, []⟩) ?_ rfl hrest)) <;>
      simp [MetricBlock.act, hd]

/-- The monitor's part is the last three. -/
theorem acts_of_monitor (h : (if b.variationMonitor then
      MetricBlock.monitor ofBytes w b i m op isFlowNew value
    else some (w, b, value)) = some (w', b', value')) :
    Acts T ofBytes fuel i w b ⟨n, m, op, .resetMonitor, isFlowNew, value⟩ w' b' value' := by
  by_cases hm : b.variationMonitor = true
  · rw [if_pos hm] at h
    obtain ⟨c, hc, h⟩ := Option.bind_eq_some_iff.1 h
    obtain ⟨⟨ra, c₁⟩, hreset, h⟩ := Option.bind_eq_some_iff.1 h
    obtain ⟨⟨b₂, c₂, value₂⟩, hcount, h⟩ := Option.bind_eq_some_iff.1 h
    cases h
    rw [MetricBlock.count_eq] at hcount
    obtain ⟨⟨b₃, c₃, value₃, added⟩, hadd, hcount⟩ := Option.bind_eq_some_iff.1 hcount
    obtain ⟨⟨c₄, value₄⟩, hget, hcount⟩ := Option.map_eq_some_iff.1 hcount
    cases hcount
    have hm₃ : b₃.variationMonitor = true := (MetricBlock.addNew_sameSet hadd).monitor.trans hm
    have hlast : MetricBlock.act T ofBytes fuel
        { w with
          counters := update (update w.counters i (some c₁)) i (some c₃)
          resetOps := update w.resetOps i ra } b₃ i ⟨n, m, op, .getCount, isFlowNew, value₃⟩ =
        some ⟨{ w with
          counters := update w.counters i (some c₂)
          resetOps := update w.resetOps i ra }, b₃, isFlowNew, value', false, []⟩ := by
      simp [MetricBlock.act, hm₃, hget]
    refine .more (r := ⟨{ w with
        counters := update w.counters i (some c₁)
        resetOps := update w.resetOps i ra }, b, isFlowNew, value, false, []⟩) ?_ rfl
      (.more (r := ⟨{ w with
        counters := update (update w.counters i (some c₁)) i (some c₃)
        resetOps := update w.resetOps i ra }, b₃, isFlowNew, value₃, added, []⟩) ?_ rfl
        (.last hlast rfl))
    · simp [MetricBlock.act, hm, hc, hreset]
    · simp [MetricBlock.act, hm, hadd]
  · rw [if_neg hm] at h
    cases h
    have hlast : MetricBlock.act T ofBytes fuel w b i ⟨n, m, op, .getCount, isFlowNew, value⟩ =
        some ⟨w, b, isFlowNew, value, false, []⟩ := by
      simp [MetricBlock.act, hm]
    refine .more (r := ⟨w, b, isFlowNew, value, false, []⟩) ?_ rfl
      (.more (r := ⟨w, b, isFlowNew, value, false, []⟩) ?_ rfl (.last hlast rfl)) <;>
      simp [MetricBlock.act, hm]

/-- A packet received and taken through its stages alone leaves what `receiveMsg` leaves. -/
theorem run_receiveMsg (hidle : s.visits block = none)
    (h : MetricBlock.receiveMsg T ofBytes fuel s.metrics (s.blocks block) m = some (w', b', m')) :
    ∃ k s', StepRun.run (step T ofBytes) s
        (.receive block m :: List.replicate k (.advance block fuel)) = some s' ∧
      s'.metrics = w' ∧ s'.blocks = update s.blocks block b' ∧ s'.visits = s.visits ∧
        s'.sent = s.sent ++ [(block, m')] := by
  obtain ⟨i, hi, ⟨hop, rfl, rfl, rfl⟩ | ⟨op, hop, ⟨hoff, value, hvalue, rfl, rfl, rfl⟩ |
    ⟨hon, w₁, b₁, new, value, value', hdetector, hmonitor, rfl⟩⟩⟩ :=
      MetricBlock.receiveMsg_cases T ofBytes h
  · exact ⟨0, { s with sent := s.sent ++ [(block, m')] },
      by simp [StepRun.run_cons, step, receive, hidle, hi, hop], rfl,
      (Function.update_eq_self block s.blocks).symm, rfl, rfl⟩
  · refine ⟨0, { s with sent := s.sent ++ [(block, m.setMetrics i value)] }, ?_, rfl,
      (Function.update_eq_self block s.blocks).symm, rfl, rfl⟩
    simp only [List.replicate_zero, StepRun.run_cons, step, receive, hidle, Option.isSome_none,
      Bool.false_eq_true, if_false, hi, Option.bind_some, hop, hoff, and_self, if_true, hvalue,
      Option.map_some, StepRun.run_nil]
  · let t : Shared τ F S := { s with
      visits := update s.visits block (some ⟨s.history.next, m, op, .resetDetector, true, 0⟩)
      history := { s.history with
        next := s.history.next + 1
        carried := update s.history.carried s.history.next ((s.blocks block).carries m op) } }
    obtain ⟨k, s', hrun, hw, hb, hvisits, hsent⟩ :=
      run_of_acts (acts_of_detector (n := s.history.next) hdetector (acts_of_monitor hmonitor)) hi
        (s := t) rfl rfl (Function.update_self ..)
    refine ⟨k, s', ?_, hw, hb, ?_, hsent⟩
    · rw [StepRun.run_cons, show step T ofBytes s (.receive block m) = some t by
        simp [step, receive, hidle, hi, hop, hon, t]]
      exact hrun
    · rw [hvisits, ← hidle]
      simp [t]

end Receive

end Shared

end DStreamon
