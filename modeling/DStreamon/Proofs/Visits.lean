import DStreamon.Lib.StepRun
import DStreamon.Novelty
import DStreamon.Proofs.BloomPair

/-!
# Stages of `_receive_msg`

What a stage does to what the detector knows, and the history of the packets as the blocks take
turns.
-/

namespace DStreamon

open Function (update)

namespace Bloomfilter

variable {f : Bloomfilter} {H : ℕ → UInt32}

theorem has_of_checkLoop :
    ∀ {n i : ℕ}, f.checkLoop H n i = .ok true → ∀ k, i ≤ k → k < i + n → f.Has (H k).toNat
  | 0, _, _, k, hk, hkn => by omega
  | n + 1, i, h, k, hk, hkn => by
    simp only [checkLoop, BitArray.test_eq_false_iff] at h
    split_ifs at h with hb hset
    · simp at h
    · rcases Nat.eq_or_lt_of_le hk with rfl | hk
      · exact ⟨hb, by simpa using hset⟩
      · exact has_of_checkLoop h k hk (by omega)

end Bloomfilter

namespace BloomPair

variable {τ : Type} {T : Threshold τ} {w w' : DetInstances τ} {i j fuel : ℕ} {log : List ℕ}
  {r : Bool} {bits : ℕ → UInt32}

/-! ## Known keys -/

theorem hasAll_of_checkBits (h : checkBits i w bits = .ok true) :
    ∃ p H, w i = some p ∧
      split p.detecting.nhash p.detecting.shash p.detecting.norep bits = .ok H ∧
      p.detecting.HasAll H := by
  unfold checkBits at h
  split at h
  · cases h
  · next p hp =>
    obtain ⟨H, hH, h⟩ := bind_ok h
    exact ⟨p, H, hp, hH, fun k hk hkn => Bloomfilter.has_of_checkLoop h k hk (by omega)⟩

/-- What is known stays known when any pair is marked and this one is not swapped. -/
theorem checkBits_setBits {bits' : ℕ → UInt32} (hw : AllNested w)
    (h : setBits T fuel j w bits' = .ok (w', log, r)) (hlog : log.count i = 0)
    (hp : checkBits i w bits = .ok true) : checkBits i w' bits = .ok true := by
  obtain ⟨p, H, hi, hH, hall⟩ := hasAll_of_checkBits hp
  have hrem : Remembers p.detecting H 1 p :=
    ⟨⟨rfl, rfl, rfl, rfl⟩, (hw i p hi).alike, fun h => absurd h (by omega), fun _ => hall⟩
  obtain ⟨p', hi', hp'⟩ := (kept_remembers p.detecting H).exec (o := .setBits j bits')
    (fun j q hj => (hw j q hj).alike) (fun e => by cases e) h hi hrem
  exact hp'.checkBits hi' (hp'.detecting (by omega)) hH

theorem checkBits_of_setBits (hw : AllNested w) (h : setBits T fuel i w bits = .ok (w', log, r))
    (hlog : log.count i = 0) : checkBits i w' bits = .ok true := by
  obtain ⟨f, H, p, hH, hi, hp⟩ := update'_remembers (Bloomfilter.cuts_setBits bits) hw h
  exact hp.checkBits hi (hp.detecting (by omega)) hH

theorem AllNested.setBits (hw : AllNested w) (h : setBits T fuel j w bits = .ok (w', log, r)) :
    AllNested w' :=
  AllNested.exec (o := .setBits j bits) hw h

theorem AllNested.clear (hw : AllNested w) (h : clear T j w = .ok w') : AllNested w' :=
  have hexec : BloomPair.exec T 0 w (.clear j) = .ok (w', [], true) :=
    congrArg (· >>= fun w => Except.ok (w, [], true)) h
  AllNested.exec hw hexec

end BloomPair

/-! ## One stage -/

namespace MetricBlock

variable {τ F S : Type} {T : Threshold τ} {fuel i : ℕ} {w w' : Metrics τ S} {b b' : MetricBlock F}
  {m : MetricMessage F} {op : MetricOp} {x : HashedBuffer}

/-- What makes the block of metric `i` look up, mark and count `x` with a packet. -/
theorem carries_eq_some {i' : ℕ} (h : b.carries m op = some (i', x)) :
    b.place = some i' ∧ m.getFlowkey op.vdFlowkeyGet = some x ∧ b.variationDetector = true ∧
      b.variationMonitor = true ∧ m.getFlowkey op.vdFlowkeySet = some x ∧
        ∃ key, m.getFlowkey op.vmFlowkeySet = some key := by
  obtain ⟨i₀, hi, h⟩ := Option.bind_eq_some_iff.1 h
  obtain ⟨key, hkey, h⟩ := Option.bind_eq_some_iff.1 h
  split at h
  · next hc =>
    simp only [Option.some.injEq, Prod.mk.injEq] at h
    obtain ⟨rfl, rfl⟩ := h
    exact ⟨hi, hkey, hc.1, hc.2.1, hc.2.2.1, Option.isSome_iff_exists.1 hc.2.2.2⟩
  · cases h

/-- The parts of a block that decide what a packet carries. -/
structure SameSet (b b' : MetricBlock F) : Prop where
  metricId : b'.metricId = b.metricId
  detector : b'.variationDetector = b.variationDetector
  monitor : b'.variationMonitor = b.variationMonitor

theorem SameSet.carries (h : SameSet b b') : b'.carries m op = b.carries m op := by
  simp only [MetricBlock.carries, place, h.metricId, h.detector, h.monitor]

/-- What is known at a place stays known, where its pair is not among the changed. -/
structure Knows (changed : List ℕ) (det det' : DetInstances τ) : Prop where
  nested : BloomPair.AllNested det'
  known : ∀ {j bits}, changed.count j = 0 → BloomPair.checkBits j det bits = .ok true →
    BloomPair.checkBits j det' bits = .ok true

theorem Knows.refl {det : DetInstances τ} (h : BloomPair.AllNested det) (changed : List ℕ) :
    Knows changed det det :=
  ⟨h, fun _ hknown => hknown⟩

theorem checkBits_clear {det det' : DetInstances τ} {j : ℕ} {bits : ℕ → UInt32}
    (h : BloomPair.clear T i det = .ok det') (hj : j ≠ i) :
    BloomPair.checkBits j det' bits = BloomPair.checkBits j det bits := by
  unfold BloomPair.clear at h
  split at h
  · cases h
  · simp only [Except.ok.injEq] at h
    subst h
    simp only [BloomPair.checkBits, Function.update_of_ne hj]

theorem knows_clear {det det' : DetInstances τ} (hw : BloomPair.AllNested det)
    (h : BloomPair.clear T i det = .ok det') : Knows [i] det det' := by
  refine ⟨hw.clear h, fun {j bits} hj hknown => ?_⟩
  have hji : j ≠ i := by
    rintro rfl
    simp at hj
  rwa [checkBits_clear h hji]

theorem Knows.trans {changed : List ℕ} {det det₁ det₂ : DetInstances τ} (h : Knows changed det det₁)
    (h' : Knows changed det₁ det₂) : Knows changed det det₂ :=
  ⟨h'.nested, fun hj hknown => h'.known hj (h.known hj hknown)⟩

theorem toOption_eq_some {ε α : Type} {e : Except ε α} {a : α} (h : e.toOption = some a) :
    e = .ok a := by
  cases e with
  | error => cases h
  | ok a' => exact congrArg Except.ok (Option.some.inj h)

theorem resetDetector_sameSet {timePacket : UInt64}
    (h : resetDetector T w b i timePacket = some (w', b')) : SameSet b b' := by
  obtain ⟨w₁, -, h⟩ := Option.bind_eq_some_iff.1 h
  split_ifs at h
  · obtain ⟨det, -, h⟩ := Option.bind_eq_some_iff.1 h
    cases h
    exact ⟨rfl, rfl, rfl⟩
  · cases h
    exact ⟨rfl, rfl, rfl⟩

theorem resetDetector_knows {timePacket : UInt64} (hw : BloomPair.AllNested w.det)
    (h : resetDetector T w b i timePacket = some (w', b')) :
    Knows (if ResetDue w b i timePacket then [i] else []) w.det w'.det := by
  obtain ⟨w₁, hw₁, h⟩ := Option.bind_eq_some_iff.1 h
  have hpending : Knows (if (w.resetOps i).vdReset then [i] else []) w.det w₁.det := by
    split_ifs at hw₁ ⊢
    · obtain ⟨det, hdet, hw₁⟩ := Option.bind_eq_some_iff.1 hw₁
      cases hw₁
      exact knows_clear hw (toOption_eq_some hdet)
    · cases hw₁
      exact .refl hw _
  split_ifs at h with htimed
  · obtain ⟨det, hdet, h⟩ := Option.bind_eq_some_iff.1 h
    cases h
    rw [if_pos (show ResetDue w b i timePacket from .inr htimed)]
    refine Knows.trans ⟨hpending.nested, fun {j bits} hj hknown => ?_⟩
      (knows_clear hpending.nested (toOption_eq_some hdet))
    refine hpending.known ?_ hknown
    split_ifs
    · exact hj
    · rfl
  · cases h
    simpa only [ResetDue, htimed, or_false] using hpending

theorem mark_knows {setKey : Option HashedBuffer} {changed : List ℕ}
    (hw : BloomPair.AllNested w.det) (h : mark T fuel w i setKey = some (w', changed)) :
    Knows changed w.det w'.det := by
  rcases setKey with _ | key
  · simp only [mark, Option.some.injEq, Prod.mk.injEq] at h
    obtain ⟨rfl, rfl⟩ := h
    exact .refl hw _
  · obtain ⟨⟨det, log, a⟩, hset, h⟩ := Option.bind_eq_some_iff.1 h
    simp only [Option.some.injEq, Prod.mk.injEq] at h
    obtain ⟨rfl, rfl⟩ := h
    have hset := toOption_eq_some hset
    exact ⟨hw.setBits hset, fun hj hknown => BloomPair.checkBits_setBits hw hset hj hknown⟩

/-- The key that is marked. -/
theorem checkBits_of_mark {changed : List ℕ} (hw : BloomPair.AllNested w.det)
    (h : mark T fuel w i (some x) = some (w', changed)) (hi : changed.count i = 0) :
    BloomPair.checkBits i w'.det (bits x) = .ok true := by
  obtain ⟨⟨det, log, a⟩, hset, h⟩ := Option.bind_eq_some_iff.1 h
  simp only [Option.some.injEq, Prod.mk.injEq] at h
  obtain ⟨rfl, rfl⟩ := h
  exact BloomPair.checkBits_of_setBits hw (toOption_eq_some hset) hi

theorem addNew_sameSet [ICounter S F HashedBuffer] {ofBytes : List UInt8 → F} {isFlowNew : Bool}
    {value value' : F} {c c' : S} {added : Bool}
    (h : addNew ofBytes b m op isFlowNew value c = some (b', c', value', added)) :
    SameSet b b' := by
  unfold addNew at h
  split at h
  · obtain ⟨insertValue, -, h⟩ := Option.bind_eq_some_iff.1 h
    obtain ⟨⟨c₁, value₁⟩, -, h⟩ := Option.bind_eq_some_iff.1 h
    cases h
    exact ⟨rfl, rfl, rfl⟩
  · cases h
    exact ⟨rfl, rfl, rfl⟩

/-- With a key to count under, a new flow is counted and no other. -/
theorem addNew_added [ICounter S F HashedBuffer] {ofBytes : List UInt8 → F} {isFlowNew : Bool}
    {value value' : F} {c c' : S} {added : Bool} {key : HashedBuffer}
    (h : addNew ofBytes b m op isFlowNew value c = some (b', c', value', added))
    (hkey : m.getFlowkey op.vmFlowkeySet = some key) : added = isFlowNew := by
  unfold addNew at h
  rw [hkey] at h
  rcases isFlowNew with _ | _
  · cases h
    rfl
  · obtain ⟨insertValue, -, h⟩ := Option.bind_eq_some_iff.1 h
    obtain ⟨⟨c₁, value₁⟩, -, h⟩ := Option.bind_eq_some_iff.1 h
    cases h
    rfl

/-- `look` and `mark` are `detect` in two. -/
theorem detect_eq [Field F] (getKey setKey : Option HashedBuffer) :
    (detect T fuel w i getKey setKey : Option (Metrics τ S × Bool × F)) =
      (look w i getKey).bind fun seen => (mark T fuel w i setKey).map fun r => (r.1, seen) := by
  rcases getKey with _ | key <;> rcases setKey with _ | key'
  · simp [detect, look, mark]
  · rcases hset : (BloomPair.setBits T fuel i w.det (bits key')).toOption <;>
      simp [detect, look, mark, hset]
  · rcases hseen : (BloomPair.checkBits i w.det (bits key)).toOption with _ | _ | _ <;>
      simp [detect, look, mark, hseen]
  · rcases hseen : (BloomPair.checkBits i w.det (bits key)).toOption with _ | _ | _ <;>
      rcases hset : (BloomPair.setBits T fuel i w.det (bits key')).toOption <;>
        simp [detect, look, mark, hseen, hset]

/-- `addNew` and `getCount` are `count` in two. -/
theorem count_eq [ICounter S F HashedBuffer] {ofBytes : List UInt8 → F} (isFlowNew : Bool)
    (value : F) (c : S) : count ofBytes b m op isFlowNew value c =
      (addNew ofBytes b m op isFlowNew value c).bind fun a =>
        (getCount m op a.2.2.1 a.2.1).map fun r => (a.1, r) := by
  rcases hget : m.getFlowkey op.vmFlowkeyGet with _ | key <;>
    rcases hset : m.getFlowkey op.vmFlowkeySet with _ | key' <;> rcases isFlowNew with _ | _ <;>
      simp [count, addNew, getCount, hget, hset, Option.map_eq_bind, Option.bind_assoc]

section Act

variable [Field F] [ICounter S F HashedBuffer] {ofBytes : List UInt8 → F} {v : Visit F}
  {r : StageResult τ F S}

/-- What a stage does, by the call it makes; at the others nothing changes. -/
theorem act_cases (h : act T ofBytes fuel w b i v = some r) :
    (∃ w' b', v.stage = .resetDetector ∧ resetDetector T w b i v.msg.timePacket = some (w', b') ∧
        r = ⟨w', b', v.isFlowNew, v.value, false,
          if ResetDue w b i v.msg.timePacket then [i] else []⟩) ∨
      (∃ isFlowNew value, v.stage = .look ∧ r = ⟨w, b, isFlowNew, value, false, []⟩) ∨
      (∃ w' changed, v.stage = .mark ∧
        mark T fuel w i (v.msg.getFlowkey v.op.vdFlowkeySet) = some (w', changed) ∧
        r = ⟨w', b, v.isFlowNew, v.value, false, changed⟩) ∨
      (∃ c b' c' value added, v.stage = .addNew ∧
        addNew ofBytes b v.msg v.op v.isFlowNew v.value c = some (b', c', value, added) ∧
        r = ⟨{ w with counters := update w.counters i (some c') }, b', v.isFlowNew, value, added,
          []⟩) ∨
      (r.metrics.det = w.det ∧ r.block = b ∧ r.isFlowNew = v.isFlowNew ∧ r.added = false ∧
        r.changed = []) := by
  unfold act at h
  rcases hstage : v.stage <;> rw [hstage] at h <;> simp only at h <;> split at h
  case resetDetector.isTrue =>
    obtain ⟨⟨w', b'⟩, hreset, rfl⟩ := Option.map_eq_some_iff.1 h
    exact .inl ⟨w', b', rfl, hreset, rfl⟩
  case look.isTrue =>
    obtain ⟨⟨isFlowNew, value⟩, -, rfl⟩ := Option.map_eq_some_iff.1 h
    exact .inr (.inl ⟨isFlowNew, value, rfl, rfl⟩)
  case look.isFalse =>
    cases h
    exact .inr (.inl ⟨true, 0, rfl, rfl⟩)
  case mark.isTrue =>
    obtain ⟨⟨w', changed⟩, hmark, rfl⟩ := Option.map_eq_some_iff.1 h
    exact .inr (.inr (.inl ⟨w', changed, rfl, hmark, rfl⟩))
  case addNew.isTrue =>
    obtain ⟨c, -, h⟩ := Option.bind_eq_some_iff.1 h
    obtain ⟨⟨b', c', value, added⟩, hadd, h⟩ := Option.bind_eq_some_iff.1 h
    cases h
    exact .inr (.inr (.inr (.inl ⟨c, b', c', value, added, rfl, hadd, rfl⟩)))
  case resetMonitor.isTrue | getCount.isTrue =>
    obtain ⟨c, -, h⟩ := Option.bind_eq_some_iff.1 h
    obtain ⟨a, -, h⟩ := Option.bind_eq_some_iff.1 h
    cases h
    exact .inr (.inr (.inr (.inr ⟨rfl, rfl, rfl, rfl, rfl⟩)))
  all_goals
    cases h
    exact .inr (.inr (.inr (.inr ⟨rfl, rfl, rfl, rfl, rfl⟩)))

theorem act_sameSet (h : act T ofBytes fuel w b i v = some r) : SameSet b r.block := by
  rcases act_cases h with ⟨w', b', -, hreset, rfl⟩ | ⟨isFlowNew, value, -, rfl⟩ |
    ⟨w', changed, -, -, rfl⟩ | ⟨c, b', c', value, added, -, hadd, rfl⟩ | ⟨-, hb, -⟩
  · exact resetDetector_sameSet hreset
  · exact ⟨rfl, rfl, rfl⟩
  · exact ⟨rfl, rfl, rfl⟩
  · exact addNew_sameSet hadd
  · rw [hb]
    exact ⟨rfl, rfl, rfl⟩

theorem act_knows (hw : BloomPair.AllNested w.det) (h : act T ofBytes fuel w b i v = some r) :
    Knows r.changed w.det r.metrics.det := by
  rcases act_cases h with ⟨w', b', -, hreset, rfl⟩ | ⟨isFlowNew, value, -, rfl⟩ |
    ⟨w', changed, -, hmark, rfl⟩ | ⟨c, b', c', value, added, -, -, rfl⟩ | ⟨hdet, -⟩
  · exact resetDetector_knows hw hreset
  · exact .refl hw _
  · exact mark_knows hw hmark
  · exact .refl hw _
  · rw [hdet]
    exact .refl hw _

/-- A packet that carries a key learns whether the detector knows it. -/
theorem act_look (h : act T ofBytes fuel w b i v = some r) (hstage : v.stage = .look)
    (hx : b.carries v.msg v.op = some (i, x)) :
    BloomPair.checkBits i w.det (bits x) = .ok (!r.isFlowNew) := by
  obtain ⟨-, hget, hdet, -⟩ := carries_eq_some hx
  simp only [act, hstage, hdet, if_true, look, hget] at h
  obtain ⟨⟨isFlowNew, value⟩, hlook, rfl⟩ := Option.map_eq_some_iff.1 h
  obtain ⟨seen, hseen, hlook⟩ := Option.bind_eq_some_iff.1 hlook
  cases hlook
  simpa using toOption_eq_some hseen

theorem act_mark (hw : BloomPair.AllNested w.det) (h : act T ofBytes fuel w b i v = some r)
    (hstage : v.stage = .mark) (hx : b.carries v.msg v.op = some (i, x))
    (hi : r.changed.count i = 0) :
    BloomPair.checkBits i r.metrics.det (bits x) = .ok true := by
  obtain ⟨-, -, hdet, -, hset, -⟩ := carries_eq_some hx
  simp only [act, hstage, hdet, if_true, hset] at h
  obtain ⟨⟨w', changed⟩, hmark, rfl⟩ := Option.map_eq_some_iff.1 h
  exact checkBits_of_mark hw hmark hi

theorem act_addNew (h : act T ofBytes fuel w b i v = some r) (hstage : v.stage = .addNew)
    (hx : b.carries v.msg v.op = some (i, x)) : r.added = v.isFlowNew := by
  obtain ⟨-, -, -, hmon, -, key, hkey⟩ := carries_eq_some hx
  simp only [act, hstage, hmon, if_true] at h
  obtain ⟨c, -, h⟩ := Option.bind_eq_some_iff.1 h
  obtain ⟨⟨b', c', value, added⟩, hadd, h⟩ := Option.bind_eq_some_iff.1 h
  cases h
  exact addNew_added hadd hkey

/-- No other stage counts, and only `look` finds out about the flow. -/
theorem act_other (h : act T ofBytes fuel w b i v = some r) :
    (v.stage ≠ .addNew → r.added = false) ∧ (v.stage ≠ .look → r.isFlowNew = v.isFlowNew) := by
  rcases act_cases h with ⟨w', b', -, -, rfl⟩ | ⟨isFlowNew, value, hst, rfl⟩ |
    ⟨w', changed, -, -, rfl⟩ | ⟨c, b', c', value, added, hst, -, rfl⟩ | ⟨-, -, hflow, hadded, -⟩
  · exact ⟨fun _ => rfl, fun _ => rfl⟩
  · exact ⟨fun _ => rfl, fun hne => absurd hst hne⟩
  · exact ⟨fun _ => rfl, fun _ => rfl⟩
  · exact ⟨fun hne => absurd hst hne, fun _ => rfl⟩
  · exact ⟨fun _ => hadded, fun _ => hflow⟩

end Act

end MetricBlock

/-! ## Visits and their history -/

namespace Stage

variable {stage next : Stage}

theorem mem_looked_next (h : stage.next = some next) :
    next ∈ [mark, resetMonitor, addNew, getCount] ↔
      stage ∈ [mark, resetMonitor, addNew, getCount] ∨ stage = look := by
  cases stage <;> cases h <;> simp

theorem mem_looked_of_last (h : stage.next = none) :
    stage ∈ [mark, resetMonitor, addNew, getCount] := by
  cases stage <;> cases h
  simp

theorem open_or_look_of_next (h : stage.next = some next)
    (hopen : next ∈ [mark, resetMonitor, addNew]) :
    stage ∈ [mark, resetMonitor, addNew] ∨ stage = look := by
  cases stage <;> cases h <;> simp_all

theorem next_of_open (h : stage ∈ [mark, resetMonitor, addNew]) (hne : stage ≠ addNew) :
    ∃ next, stage.next = some next ∧ next ∈ [mark, resetMonitor, addNew] := by
  cases stage <;> simp_all [Stage.next]

end Stage

namespace Shared

variable {τ F S : Type} {T : Threshold τ} {ofBytes : List UInt8 → F} {fuel block i : ℕ}
  {s s' : Shared τ F S} {v : Visit F} {r : StageResult τ F S} {x : HashedBuffer}

/-- Each packet is at one block. -/
structure Placed (s : Shared τ F S) : Prop where
  lt_next : ∀ b v, s.visits b = some v → v.n < s.history.next
  unique : ∀ b b' v v', s.visits b = some v → s.visits b' = some v' → v.n = v'.n → b = b'
  carried : ∀ b v, s.visits b = some v →
    s.history.carried v.n = (s.blocks b).carries v.msg v.op
  carried_lt : ∀ n, s.history.carried n ≠ none → n < s.history.next

/-- The lists are of packets that have come. -/
structure Listed (s : Shared τ F S) : Prop where
  looked_lt : ∀ n ∈ s.history.looked, n < s.history.next
  marked_lt : ∀ n ∈ s.history.marked, n < s.history.next
  added_lt : ∀ n ∈ s.history.added, n < s.history.next
  new_looked : ∀ n ∈ s.history.new, n ∈ s.history.looked

/-- A packet is looked up and then marked, or is on its way there. -/
structure Looked (s : Shared τ F S) : Prop where
  looked_iff : ∀ b v, s.visits b = some v →
    (v.n ∈ s.history.looked ↔ v.stage ∈ [.mark, .resetMonitor, .addNew, .getCount])
  looked_or : ∀ n, s.history.carried n ≠ none →
    n ∈ s.history.looked ∨ ∃ b v, s.visits b = some v ∧ v.n = n
  marked_or : ∀ n ∈ s.history.looked,
    n ∈ s.history.marked ∨ ∃ b v, s.visits b = some v ∧ v.n = n ∧ v.stage = .mark

/-- A packet that was found new is counted, or is on its way there. -/
structure Counted (s : Shared τ F S) : Prop where
  new_iff : ∀ b v, s.visits b = some v → v.stage ∈ [.mark, .resetMonitor, .addNew] →
    (v.isFlowNew = true ↔ v.n ∈ s.history.new)
  added_new : ∀ n ∈ s.history.added, s.history.carried n ≠ none → n ∈ s.history.new
  added_or : ∀ n ∈ s.history.new, s.history.carried n ≠ none → n ∈ s.history.added ∨
    ∃ b v, s.visits b = some v ∧ v.n = n ∧ v.stage ∈ [.mark, .resetMonitor, .addNew]

/-- The lists tell at which stage a packet is or that it has been through. -/
structure Booked (s : Shared τ F S) : Prop extends Placed s, Listed s, Looked s, Counted s

theorem booked_start (metrics : Metrics τ S) (blocks : ℕ → MetricBlock F) :
    Booked (start metrics blocks) := by
  refine ⟨⟨?_, ?_, ?_, ?_⟩, ⟨?_, ?_, ?_, ?_⟩, ⟨?_, ?_, ?_⟩, ⟨?_, ?_, ?_⟩⟩ <;> simp [start]

/-- After a turn the block is at the next stage, and the other blocks are where they were. -/
theorem Placed.visits_turn (hs : Placed s) (hv : s.visits block = some v) {b : ℕ} {v' : Visit F}
    (h : (s.turn block i v r).visits b = some v') :
    (b = block ∧ v'.n = v.n ∧ v'.msg = v.msg ∧ v'.op = v.op ∧ v.stage.next = some v'.stage ∧
        v'.isFlowNew = r.isFlowNew) ∨
      (b ≠ block ∧ s.visits b = some v' ∧ v'.n ≠ v.n) := by
  by_cases hb : b = block
  · subst hb
    simp only [turn, Function.update_self] at h
    obtain ⟨stage, hstage, rfl⟩ := Option.map_eq_some_iff.1 h
    exact .inl ⟨rfl, rfl, rfl, rfl, hstage, rfl⟩
  · simp only [turn, Function.update_of_ne hb] at h
    exact .inr ⟨hb, h, fun hn => hb (hs.unique _ _ _ _ h hv hn)⟩

theorem visits_turn_self (s : Shared τ F S) (block i : ℕ) (r : StageResult τ F S) {stage : Stage}
    (h : v.stage.next = some stage) :
    ∃ v', (s.turn block i v r).visits block = some v' ∧ v'.n = v.n ∧ v'.stage = stage := by
  simp only [turn, Function.update_self, h]
  exact ⟨_, rfl, rfl, rfl⟩

theorem visits_turn_other (hv : s.visits block = some v) {b : ℕ} {v' : Visit F}
    (h : s.visits b = some v') : (s.turn block i v r).visits b = some v' ∨ b = block ∧ v' = v := by
  by_cases hb : b = block
  · subst hb
    exact .inr ⟨rfl, Option.some.inj (h.symm.trans hv)⟩
  · exact .inl (by simpa only [turn, Function.update_of_ne hb] using h)

theorem mem_looked_turn {n : ℕ} : n ∈ (s.turn block i v r).history.looked ↔
    n ∈ s.history.looked ∨ v.stage = .look ∧ n = v.n := by
  simp only [turn, record]
  split_ifs with h <;> simp [h, or_comm]

theorem mem_new_turn {n : ℕ} : n ∈ (s.turn block i v r).history.new ↔
    n ∈ s.history.new ∨ (v.stage = .look ∧ r.isFlowNew = true) ∧ n = v.n := by
  simp only [turn, record]
  split_ifs with h
  · simp [h, or_comm]
  · simp only [h, false_and, or_false]

theorem mem_marked_turn {n : ℕ} : n ∈ (s.turn block i v r).history.marked ↔
    n ∈ s.history.marked ∨ v.stage = .mark ∧ n = v.n := by
  simp only [turn, record]
  split_ifs with h <;> simp [h, or_comm]

theorem mem_added_turn {n : ℕ} : n ∈ (s.turn block i v r).history.added ↔
    n ∈ s.history.added ∨ r.added = true ∧ n = v.n := by
  simp only [turn, record]
  split_ifs with h <;> simp [h, or_comm]

theorem Booked.congr (hs : Booked s) (hv : s'.visits = s.visits) (hb : s'.blocks = s.blocks)
    (hh : s'.history = s.history) : Booked s' := by
  obtain ⟨hplaced, hlisted, hlooked, hcounted⟩ := hs
  refine ⟨⟨?_, ?_, ?_, ?_⟩, ⟨?_, ?_, ?_, ?_⟩, ⟨?_, ?_, ?_⟩, ⟨?_, ?_, ?_⟩⟩ <;> simp only [hv, hb, hh]
  exacts [hplaced.lt_next, hplaced.unique, hplaced.carried, hplaced.carried_lt, hlisted.looked_lt,
    hlisted.marked_lt, hlisted.added_lt, hlisted.new_looked, hlooked.looked_iff, hlooked.looked_or,
    hlooked.marked_or, hcounted.new_iff, hcounted.added_new, hcounted.added_or]

section Came

variable [Field F]

/-- A message has become the next packet, at the first stage of a block that was free. -/
structure Came (block : ℕ) (m : MetricMessage F) (op : MetricOp) (s s' : Shared τ F S) : Prop where
  blocks : s'.blocks = s.blocks
  free : s.visits block = none
  visits : s'.visits = update s.visits block
    (some ⟨s.history.next, m, op, .resetDetector, true, 0⟩)
  history : s'.history = { s.history with
    next := s.history.next + 1
    carried := update s.history.carried s.history.next ((s.blocks block).carries m op) }

variable {m : MetricMessage F} {op : MetricOp} (hcame : Came block m op s s')
include hcame

theorem Came.visits_cases (hs : Placed s) {b : ℕ} {v : Visit F} (hv : s'.visits b = some v) :
    b = block ∧ v = ⟨s.history.next, m, op, .resetDetector, true, 0⟩ ∨
      b ≠ block ∧ s.visits b = some v ∧ v.n < s.history.next := by
  rw [hcame.visits] at hv
  by_cases hb : b = block
  · subst hb
    exact .inl ⟨rfl, by simpa using hv.symm⟩
  · rw [Function.update_of_ne hb] at hv
    exact .inr ⟨hb, hv, hs.lt_next b v hv⟩

theorem Came.visits_other {b : ℕ} {v : Visit F} (hv : s.visits b = some v) :
    s'.visits b = some v := by
  have hb : b ≠ block := by
    rintro rfl
    simp [hcame.free] at hv
  rw [hcame.visits, Function.update_of_ne hb, hv]

theorem Came.carried_of_ne {n : ℕ} (hn : n ≠ s.history.next) :
    s'.history.carried n = s.history.carried n := by
  rw [hcame.history]
  exact Function.update_of_ne hn _ _

theorem Placed.came (hs : Placed s) : Placed s' := by
  constructor
  case lt_next =>
    intro b v hv
    rw [hcame.history]
    rcases hcame.visits_cases hs hv with ⟨-, rfl⟩ | ⟨-, -, hlt⟩
    · exact Nat.lt_succ_self _
    · exact Nat.lt_succ_of_lt hlt
  case unique =>
    intro b b' v v' hv hv' hn
    rcases hcame.visits_cases hs hv with ⟨rfl, rfl⟩ | ⟨-, hv, hlt⟩ <;>
      rcases hcame.visits_cases hs hv' with ⟨rfl, rfl⟩ | ⟨-, hv', hlt'⟩
    · rfl
    · exact absurd hn (Nat.ne_of_gt hlt')
    · exact absurd hn (Nat.ne_of_lt hlt)
    · exact hs.unique _ _ _ _ hv hv' hn
  case carried =>
    intro b v hv
    rw [hcame.blocks]
    rcases hcame.visits_cases hs hv with ⟨rfl, rfl⟩ | ⟨-, hv, hlt⟩
    · rw [hcame.history]
      exact Function.update_self ..
    · rw [hcame.carried_of_ne (Nat.ne_of_lt hlt), hs.carried b v hv]
  case carried_lt =>
    intro n hn
    by_cases hlt : n = s.history.next
    · rw [hlt, hcame.history]
      exact Nat.lt_succ_self _
    · rw [hcame.carried_of_ne hlt] at hn
      rw [hcame.history]
      exact Nat.lt_succ_of_lt (hs.carried_lt n hn)

theorem Listed.came (hs : Listed s) : Listed s' := by
  constructor <;> rw [hcame.history]
  case looked_lt => exact fun n hn => Nat.lt_succ_of_lt (hs.looked_lt n hn)
  case marked_lt => exact fun n hn => Nat.lt_succ_of_lt (hs.marked_lt n hn)
  case added_lt => exact fun n hn => Nat.lt_succ_of_lt (hs.added_lt n hn)
  case new_looked => exact hs.new_looked

theorem Looked.came (hs : Looked s) (hplaced : Placed s) (hlisted : Listed s) : Looked s' := by
  have hfresh : s.history.next ∉ s.history.looked := fun hn =>
    absurd (hlisted.looked_lt _ hn) (Nat.lt_irrefl _)
  constructor
  case looked_iff =>
    intro b v hv
    rw [hcame.history]
    rcases hcame.visits_cases hplaced hv with ⟨-, rfl⟩ | ⟨-, hv, -⟩
    · simpa using hfresh
    · exact hs.looked_iff b v hv
  case looked_or =>
    intro n hn
    by_cases hlt : n = s.history.next
    · exact .inr ⟨block, _, by rw [hcame.visits, Function.update_self], hlt.symm⟩
    · rw [hcame.carried_of_ne hlt] at hn
      rw [hcame.history]
      rcases hs.looked_or n hn with hn | ⟨b, v, hv, hn⟩
      · exact .inl hn
      · exact .inr ⟨b, v, hcame.visits_other hv, hn⟩
  case marked_or =>
    intro n hn
    rw [hcame.history] at hn ⊢
    rcases hs.marked_or n hn with hn | ⟨b, v, hv, hn⟩
    · exact .inl hn
    · exact .inr ⟨b, v, hcame.visits_other hv, hn⟩

theorem Counted.came (hs : Counted s) (hplaced : Placed s) (hlisted : Listed s) : Counted s' := by
  constructor
  case new_iff =>
    intro b v hv hstage
    rw [hcame.history]
    rcases hcame.visits_cases hplaced hv with ⟨-, rfl⟩ | ⟨-, hv, -⟩
    · simp at hstage
    · exact hs.new_iff b v hv hstage
  case added_new =>
    intro n hn hc
    have hadded : n ∈ s.history.added := by rwa [hcame.history] at hn
    rw [hcame.carried_of_ne (Nat.ne_of_lt (hlisted.added_lt n hadded))] at hc
    rw [hcame.history]
    exact hs.added_new n hadded hc
  case added_or =>
    intro n hn hc
    have hnew : n ∈ s.history.new := by rwa [hcame.history] at hn
    rw [hcame.carried_of_ne (Nat.ne_of_lt (hlisted.looked_lt n (hlisted.new_looked n hnew)))] at hc
    rw [hcame.history]
    rcases hs.added_or n hnew hc with hn | ⟨b, v, hv, hn⟩
    · exact .inl hn
    · exact .inr ⟨b, v, hcame.visits_other hv, hn⟩

end Came

section Steps

variable [Field F] [ICounter S F HashedBuffer]

theorem advance_cases (h : advance T ofBytes s block fuel = some s') :
    ∃ v i r, s.visits block = some v ∧ (s.blocks block).place = some i ∧
      MetricBlock.act T ofBytes fuel s.metrics (s.blocks block) i v = some r ∧
      s' = s.turn block i v r := by
  obtain ⟨v, hv, h⟩ := Option.bind_eq_some_iff.1 h
  obtain ⟨i, hi, h⟩ := Option.bind_eq_some_iff.1 h
  obtain ⟨r, hr, h⟩ := Option.bind_eq_some_iff.1 h
  exact ⟨v, i, r, hv, hi, hr, (Option.some.inj h).symm⟩

/-- A packet that carries a key is counted if the flow is new. -/
theorem Placed.added_eq (hs : Placed s) (hv : s.visits block = some v)
    (hi : (s.blocks block).place = some i)
    (hr : MetricBlock.act T ofBytes fuel s.metrics (s.blocks block) i v = some r)
    (hst : v.stage = .addNew) (hc : s.history.carried v.n ≠ none) : r.added = v.isFlowNew := by
  obtain ⟨⟨j, x⟩, hx⟩ := Option.ne_none_iff_exists'.1 hc
  have hx : (s.blocks block).carries v.msg v.op = some (j, x) :=
    (hs.carried block v hv).symm.trans hx
  obtain rfl : i = j := Option.some.inj (hi.symm.trans (MetricBlock.carries_eq_some hx).1)
  exact MetricBlock.act_addNew hr hst hx

theorem Placed.turn (hs : Placed s) (hv : s.visits block = some v)
    (hr : MetricBlock.act T ofBytes fuel s.metrics (s.blocks block) i v = some r) :
    Placed (s.turn block i v r) := by
  have hsame := MetricBlock.act_sameSet hr
  constructor
  case lt_next =>
    intro b v' h
    rcases hs.visits_turn hv h with ⟨-, hn, -⟩ | ⟨-, h, -⟩
    · exact hn ▸ hs.lt_next block v hv
    · exact hs.lt_next b v' h
  case unique =>
    intro b b' v₁ v₂ h₁ h₂ hn
    rcases hs.visits_turn hv h₁ with ⟨rfl, hn₁, -⟩ | ⟨-, h₁, hn₁⟩ <;>
      rcases hs.visits_turn hv h₂ with ⟨rfl, hn₂, -⟩ | ⟨-, h₂, hn₂⟩
    · rfl
    · exact absurd (hn.symm.trans hn₁) hn₂
    · exact absurd (hn.trans hn₂) hn₁
    · exact hs.unique _ _ _ _ h₁ h₂ hn
  case carried =>
    intro b v' h
    rcases hs.visits_turn hv h with ⟨rfl, hn, hmsg, hop, -⟩ | ⟨hb, h, -⟩
    · simp only [Shared.turn, record, Function.update_self, hn, hmsg, hop, hsame.carries]
      exact hs.carried b v hv
    · simp only [Shared.turn, record, Function.update_of_ne hb]
      exact hs.carried b v' h
  case carried_lt => exact hs.carried_lt

omit [Field F] [ICounter S F HashedBuffer] in
theorem Listed.turn (hs : Listed s) (hplaced : Placed s) (hv : s.visits block = some v) :
    Listed (s.turn block i v r) := by
  constructor
  case looked_lt =>
    intro n hn
    rcases mem_looked_turn.1 hn with hn | ⟨-, rfl⟩
    · exact hs.looked_lt n hn
    · exact hplaced.lt_next block v hv
  case marked_lt =>
    intro n hn
    rcases mem_marked_turn.1 hn with hn | ⟨-, rfl⟩
    · exact hs.marked_lt n hn
    · exact hplaced.lt_next block v hv
  case added_lt =>
    intro n hn
    rcases mem_added_turn.1 hn with hn | ⟨-, rfl⟩
    · exact hs.added_lt n hn
    · exact hplaced.lt_next block v hv
  case new_looked =>
    intro n hn
    rw [mem_looked_turn]
    rcases mem_new_turn.1 hn with hn | ⟨hst, rfl⟩
    · exact .inl (hs.new_looked n hn)
    · exact .inr ⟨hst.1, rfl⟩

omit [Field F] [ICounter S F HashedBuffer] in
theorem Looked.turn (hs : Looked s) (hplaced : Placed s) (hv : s.visits block = some v) :
    Looked (s.turn block i v r) := by
  have hlooked := hs.looked_iff block v hv
  constructor
  case looked_iff =>
    intro b v' h
    rw [mem_looked_turn]
    rcases hplaced.visits_turn hv h with ⟨rfl, hn, -, -, hst, -⟩ | ⟨-, h, hn⟩
    · rw [hn, hlooked, Stage.mem_looked_next hst]
      simp only [and_true]
    · simp only [hn, and_false, or_false]
      exact hs.looked_iff b v' h
  case looked_or =>
    intro n hn
    rw [mem_looked_turn]
    rcases hs.looked_or n hn with hn | ⟨b, v', h, rfl⟩
    · exact .inl (.inl hn)
    · rcases visits_turn_other (i := i) (r := r) hv h with h | ⟨rfl, rfl⟩
      · exact .inr ⟨b, v', h, rfl⟩
      · rcases hst : v'.stage.next with _ | stage
        · exact .inl (.inl (hlooked.2 (Stage.mem_looked_of_last hst)))
        · obtain ⟨v₁, h₁, hn₁, -⟩ := visits_turn_self _ _ _ _ hst
          exact .inr ⟨b, v₁, h₁, hn₁⟩
  case marked_or =>
    intro n hn
    rw [mem_marked_turn]
    rcases mem_looked_turn.1 hn with hn | ⟨hst, rfl⟩
    · rcases hs.marked_or n hn with hn | ⟨b, v', h, rfl, hst⟩
      · exact .inl (.inl hn)
      · rcases visits_turn_other (i := i) (r := r) hv h with h | ⟨rfl, rfl⟩
        · exact .inr ⟨b, v', h, rfl, hst⟩
        · exact .inl (.inr ⟨hst, rfl⟩)
    · obtain ⟨v₁, h₁, hn₁, hst₁⟩ := visits_turn_self s block i r
        (show v.stage.next = some .mark by rw [hst]; rfl)
      exact .inr ⟨block, v₁, h₁, hn₁, hst₁⟩

theorem Counted.turn (hs : Counted s) (hplaced : Placed s) (hv : s.visits block = some v)
    (hnotNew : v.stage = .look → v.n ∉ s.history.new) (hi : (s.blocks block).place = some i)
    (hr : MetricBlock.act T ofBytes fuel s.metrics (s.blocks block) i v = some r) :
    Counted (s.turn block i v r) := by
  have hnew := hs.new_iff block v hv
  obtain ⟨hadded, hflow⟩ := MetricBlock.act_other hr
  constructor
  case new_iff =>
    intro b v' h hstage
    rw [mem_new_turn]
    rcases hplaced.visits_turn hv h with ⟨rfl, hn, -, -, hst, hflow'⟩ | ⟨-, h, hn⟩
    · rw [hn, hflow']
      rcases Stage.open_or_look_of_next hst hstage with hopen | hlook
      · have hlook : v.stage ≠ .look := fun hlook => by simp [hlook] at hopen
        simp only [hflow hlook, hlook, false_and, or_false]
        exact hnew hopen
      · simp [hlook, hnotNew hlook]
    · simp only [hn, and_false, or_false]
      exact hs.new_iff b v' h hstage
  case added_new =>
    intro n hn hc
    rw [mem_new_turn]
    rcases mem_added_turn.1 hn with hn | ⟨hadd, rfl⟩
    · exact .inl (hs.added_new n hn hc)
    · have hst : v.stage = .addNew := by
        by_contra hst
        simp [hadded hst] at hadd
      rw [hplaced.added_eq hv hi hr hst hc] at hadd
      exact .inl ((hnew (by simp [hst])).1 hadd)
  case added_or =>
    intro n hn hc
    rw [mem_added_turn]
    rcases mem_new_turn.1 hn with hnew' | ⟨⟨hst, -⟩, rfl⟩
    · rcases hs.added_or n hnew' hc with hadded' | ⟨b, v', h, rfl, hst⟩
      · exact .inl (.inl hadded')
      · rcases visits_turn_other (i := i) (r := r) hv h with h | ⟨rfl, rfl⟩
        · exact .inr ⟨b, v', h, rfl, hst⟩
        · by_cases hadd : v'.stage = .addNew
          · refine .inl (.inr ⟨?_, rfl⟩)
            rw [hplaced.added_eq hv hi hr hadd hc]
            exact (hnew hst).2 hnew'
          · obtain ⟨stage, hstage, hmem⟩ := Stage.next_of_open hst hadd
            obtain ⟨v₁, h₁, hn₁, rfl⟩ := visits_turn_self _ _ _ _ hstage
            exact .inr ⟨b, v₁, h₁, hn₁, hmem⟩
    · obtain ⟨v₁, h₁, hn₁, hst₁⟩ := visits_turn_self s block i r
        (show v.stage.next = some .mark by rw [hst]; rfl)
      exact .inr ⟨block, v₁, h₁, hn₁, by simp [hst₁]⟩

theorem Booked.turn (hs : Booked s) (hv : s.visits block = some v)
    (hi : (s.blocks block).place = some i)
    (hr : MetricBlock.act T ofBytes fuel s.metrics (s.blocks block) i v = some r) :
    Booked (s.turn block i v r) := by
  have hnotNew : v.stage = .look → v.n ∉ s.history.new := fun hst hn => by
    simpa [hst] using (hs.looked_iff block v hv).1 (hs.new_looked _ hn)
  exact ⟨hs.toPlaced.turn hv hr, hs.toListed.turn hs.toPlaced hv, hs.toLooked.turn hs.toPlaced hv,
    hs.toCounted.turn hs.toPlaced hv hnotNew hi hr⟩

omit [ICounter S F HashedBuffer] in
/-- A message is sent at once, or becomes the next packet, at the first stage. -/
theorem receive_cases {m : MetricMessage F} (h : receive ofBytes s block m = some s') :
    s'.metrics = s.metrics ∧ s'.blocks = s.blocks ∧
      (s'.visits = s.visits ∧ s'.history = s.history ∨
        ∃ op, s.visits block = none ∧
          s'.visits = update s.visits block
            (some ⟨s.history.next, m, op, .resetDetector, true, 0⟩) ∧
          s'.history = { s.history with
            next := s.history.next + 1
            carried :=
              update s.history.carried s.history.next ((s.blocks block).carries m op) }) := by
  simp only [receive] at h
  split at h
  · cases h
  · next hnone =>
    obtain ⟨i, hi, h⟩ := Option.bind_eq_some_iff.1 h
    split at h
    · cases h
      exact ⟨rfl, rfl, .inl ⟨rfl, rfl⟩⟩
    · next op hop =>
      split at h
      · obtain ⟨value, -, rfl⟩ := Option.map_eq_some_iff.1 h
        exact ⟨rfl, rfl, .inl ⟨rfl, rfl⟩⟩
      · cases h
        exact ⟨rfl, rfl, .inr ⟨op, by simpa using hnone, rfl, rfl⟩⟩

omit [ICounter S F HashedBuffer] in
theorem Booked.receive {m : MetricMessage F} (hs : Booked s)
    (h : receive ofBytes s block m = some s') : Booked s' := by
  obtain ⟨-, hblocks, ⟨hvisits, hhistory⟩ | ⟨op, hfree, hvisits, hhistory⟩⟩ := receive_cases h
  · exact hs.congr hvisits hblocks hhistory
  · have hcame : Came block m op s s' := ⟨hblocks, hfree, hvisits, hhistory⟩
    exact ⟨hs.toPlaced.came hcame, hs.toListed.came hcame,
      hs.toLooked.came hcame hs.toPlaced hs.toListed,
      hs.toCounted.came hcame hs.toPlaced hs.toListed⟩

end Steps

end Shared

end DStreamon
