import DStreamon.MetricReset
import DStreamon.Threshold
import DStreamon.Proofs.Contract

/-!
# What a mailbox keeps of the requests

The mailbox of a metric says whether there are requests and, of their keys, the last.  That is all
of them only if the counter is 0 already where the others would have made it so, and not where an
empty key clears what nobody named.
-/

namespace DStreamon

open Function (update)
open StepRun (Meets)

variable {τ F S S' : Type}

/-! ## The mailbox -/

/-- The key of the last reset that names one. -/
def lastKey (reqs : List (Option HashedBuffer)) : Option HashedBuffer :=
  (reqs.filterMap id).getLast?

/-- The mailbox after some requests. -/
structure Mail (reqs : List (Option HashedBuffer)) (r : ResetAction) : Prop where
  asked : r.vmReset = !reqs.isEmpty
  key : r.vmResetKey = (lastKey reqs).getD ⟨[]⟩

/-- The counter's part of a mailbox is as it was. -/
structure SameMail (r r' : ResetAction) : Prop where
  vmReset : r'.vmReset = r.vmReset
  vmResetKey : r'.vmResetKey = r.vmResetKey

variable {reqs : List (Option HashedBuffer)} {r r' r'' : ResetAction}

theorem SameMail.refl (r : ResetAction) : SameMail r r := ⟨rfl, rfl⟩

theorem SameMail.trans (h : SameMail r r') (h' : SameMail r' r'') : SameMail r r'' :=
  ⟨h'.vmReset.trans h.vmReset, h'.vmResetKey.trans h.vmResetKey⟩

theorem Mail.same (h : Mail reqs r) (hs : SameMail r r') : Mail reqs r' :=
  ⟨hs.vmReset.trans h.asked, hs.vmResetKey.trans h.key⟩

theorem lastKey_none (reqs : List (Option HashedBuffer)) :
    lastKey (reqs ++ [none]) = lastKey reqs := by
  simp [lastKey]

theorem lastKey_some (reqs : List (Option HashedBuffer)) (k : HashedBuffer) :
    lastKey (reqs ++ [some k]) = some k := by
  simp [lastKey]

theorem mem_of_lastKey {k : HashedBuffer} (h : lastKey reqs = some k) : some k ∈ reqs := by
  have := List.mem_of_getLast? h
  simpa using this

/-- Requests without a key are of all keys. -/
theorem none_mem_of_lastKey (h : lastKey reqs = none) (hne : reqs ≠ []) : none ∈ reqs := by
  obtain ⟨x, hx⟩ := List.exists_mem_of_ne_nil reqs hne
  rw [lastKey, List.getLast?_eq_none_iff, List.filterMap_eq_nil_iff] at h
  obtain rfl : x = none := h x hx
  exact hx

namespace MetricBlock

variable {w w' : Metrics τ S} {b b' : MetricBlock F} {m m' : MetricMessage F} {c c' : S}
  {i fuel : ℕ} {T : Threshold τ} {ofBytes : List UInt8 → F}

theorem resetDetector_mail {timePacket : UInt64}
    (h : resetDetector T w b i timePacket = some (w', b')) :
    (∀ j, SameMail (w.resetOps j) (w'.resetOps j)) ∧
      b'.variationMonitor = b.variationMonitor := by
  obtain ⟨w₁, hw₁, h⟩ := Option.bind_eq_some_iff.1 h
  have hmail : ∀ j, SameMail (w.resetOps j) (w₁.resetOps j) := by
    intro j
    split_ifs at hw₁
    · obtain ⟨det, -, hw₁⟩ := Option.bind_eq_some_iff.1 hw₁
      cases hw₁
      by_cases hji : j = i
      · subst hji
        simp only [Function.update_self]
        exact ⟨rfl, rfl⟩
      · simp only [Function.update_of_ne hji]
        exact .refl _
    · cases hw₁
      exact .refl _
  split_ifs at h
  · obtain ⟨det, -, h⟩ := Option.bind_eq_some_iff.1 h
    cases h
    exact ⟨hmail, rfl⟩
  · cases h
    exact ⟨hmail, rfl⟩

theorem detect_resetOps [Field F] {getKey setKey : Option HashedBuffer} {isFlowNew : Bool}
    {value : F}
    (h : detect T fuel w i getKey setKey = some (w', isFlowNew, value)) :
    w'.resetOps = w.resetOps := by
  obtain ⟨⟨new, v⟩, -, h⟩ := Option.bind_eq_some_iff.1 h
  cases setKey with
  | none =>
    cases h
    rfl
  | some key =>
    obtain ⟨⟨det, log⟩, -, h⟩ := Option.bind_eq_some_iff.1 h
    cases h
    rfl

/-- The detector's part of a message. -/
theorem detector_mail [Field F] {getKey setKey : Option HashedBuffer} {timePacket : UInt64}
    {isFlowNew : Bool} {value : F}
    (h : (if b.variationDetector then do
        let (w, b) ← resetDetector T w b i timePacket
        let (w, isFlowNew, value) ← detect T fuel w i getKey setKey
        some (w, b, isFlowNew, value)
      else some (w, b, true, 0)) = some (w', b', isFlowNew, value)) :
    (∀ j, SameMail (w.resetOps j) (w'.resetOps j)) ∧
      b'.variationMonitor = b.variationMonitor := by
  split_ifs at h
  · obtain ⟨⟨w₁, b₁⟩, hreset, h⟩ := Option.bind_eq_some_iff.1 h
    obtain ⟨⟨w₂, new, v⟩, hdetect, h⟩ := Option.bind_eq_some_iff.1 h
    cases h
    obtain ⟨hmail, hvm⟩ := resetDetector_mail hreset
    exact ⟨fun j => detect_resetOps hdetect ▸ hmail j, hvm⟩
  · cases h
    exact ⟨fun j => .refl _, rfl⟩

variable [ICounter S F HashedBuffer]

/-- Past the counter the mailbox is empty. -/
theorem resetMonitor_mail (hmail : Mail reqs r)
    (h : resetMonitor F r c = some (r', c')) : Mail [] r' := by
  unfold resetMonitor at h
  split_ifs at h with hasked hempty
  · obtain ⟨c₁, -, h⟩ := Option.map_eq_some_iff.1 h
    cases h
    refine ⟨rfl, ?_⟩
    have hkey : r.vmResetKey = ⟨r.vmResetKey.data⟩ := rfl
    rw [hkey, List.eq_nil_of_length_eq_zero hempty]
    rfl
  · obtain ⟨c₁, -, h⟩ := Option.map_eq_some_iff.1 h
    cases h
    exact ⟨rfl, rfl⟩
  · cases h
    rw [hmail.asked] at hasked
    obtain rfl : reqs = [] := by simpa using hasked
    exact hmail

theorem monitor_resetOps {op : MetricOp} {isFlowNew : Bool} {value value' : F}
    (h : monitor ofBytes w b i m op isFlowNew value = some (w', b', value')) :
    ∃ (c : S) (r : ResetAction) (c' : S), resetMonitor F (w.resetOps i) c = some (r, c') ∧
      w'.resetOps = update w.resetOps i r := by
  obtain ⟨c, -, h⟩ := Option.bind_eq_some_iff.1 h
  obtain ⟨⟨r, c'⟩, hr, h⟩ := Option.bind_eq_some_iff.1 h
  obtain ⟨⟨b₁, c₁, v₁⟩, -, h⟩ := Option.bind_eq_some_iff.1 h
  cases h
  exact ⟨c, r, c', hr, rfl⟩

/-- A message leaves the mailboxes, but for that of the metric whose counter it comes to, which it
empties. -/
theorem receiveMsg_mail [Field F] {pending : ℕ → List (Option HashedBuffer)}
    (hmail : ∀ j, Mail (pending j) (w.resetOps j))
    (h : receiveMsg T ofBytes fuel w b m = some (w', b', m')) : ∃ i, b.place = some i ∧
      ∀ j, Mail ((if b.variationMonitor ∧ (m.metricOps i).isSome then update pending i []
        else pending) j) (w'.resetOps j) := by
  obtain ⟨i, hi, ⟨hop, rfl, rfl, rfl⟩ | ⟨op, hop, ⟨hoff, value, -, rfl, rfl, rfl⟩ |
    ⟨-, w₁, b₁, isFlowNew, value, value', hdet, hmon, rfl⟩⟩⟩ := receiveMsg_cases T ofBytes h <;>
    refine ⟨i, hi, fun j => ?_⟩
  · simpa [hop] using hmail j
  · simpa [hoff.2] using hmail j
  · obtain ⟨hsame, hvm⟩ := detector_mail hdet
    rw [hvm] at hmon
    by_cases hon : b.variationMonitor
    · rw [if_pos hon] at hmon
      obtain ⟨c, r, c', hr, hw₂⟩ := monitor_resetOps hmon
      rw [if_pos ⟨hon, hop ▸ rfl⟩, hw₂]
      by_cases hji : j = i
      · rw [hji, Function.update_self, Function.update_self]
        exact resetMonitor_mail ((hmail i).same (hsame i)) hr
      · rw [Function.update_of_ne hji, Function.update_of_ne hji]
        exact (hmail j).same (hsame j)
    · rw [if_neg hon] at hmon
      cases hmon
      rw [if_neg fun h => hon h.1]
      exact (hmail j).same (hsame j)

end MetricBlock

/-! ## What it amounts to -/

namespace MetricSystem

variable {T : Threshold τ} {ofBytes : List UInt8 → F} {pending : ℕ → List (Option HashedBuffer)}

theorem mail_append {metricId : ℕ} {w : Metrics τ S} (hmail : ∀ j, Mail (pending j) (w.resetOps j))
    (resetKey : Option ℕ) (map : ℕ → HashedBuffer) (j : ℕ) :
    Mail (update pending metricId (pending metricId ++ [resetKey.map map]) j)
      ((resetMetric w metricId resetKey map).resetOps j) := by
  by_cases hj : j = metricId
  · subst hj
    simp only [resetMetric, Function.update_self]
    cases resetKey with
    | none => exact ⟨by simp, (hmail j).key.trans (by rw [Option.map_none, lastKey_none])⟩
    | some key => exact ⟨by simp, by rw [Option.map_some, lastKey_some]; rfl⟩
  · simp only [resetMetric, Function.update_of_ne hj]
    exact hmail j

variable [Field F]

theorem step_mail [ICounter S F HashedBuffer] {s s' : MetricSystem τ F S} {e : MetricEvent F}
    (hmail : ∀ j, Mail (s.pending j) (s.metrics.resetOps j))
    (h : step T ofBytes s e = some s') : ∀ j, Mail (s'.pending j) (s'.metrics.resetOps j) := by
  cases e with
  | reset metricId resetKey map =>
    cases h
    exact mail_append hmail resetKey map
  | packet block fuel m =>
    obtain ⟨⟨w, b, m'⟩, hr, h⟩ := Option.bind_eq_some_iff.1 h
    obtain ⟨i, hi, hnew⟩ := MetricBlock.receiveMsg_mail hmail hr
    cases h
    intro j
    have hj := hnew j
    simp only [monitored, hi, Option.bind_eq_bind, Option.bind_some]
    split_ifs at hj ⊢
    · exact hj
    · exact hj

variable [LinearOrder F] [FloorRing F] [ICounter S' F HashedBuffer]
  {reqs : List (Option HashedBuffer)} {r : ResetAction} {c : ExactCounter}

/-- The map after the reset, and the map with the requests applied. -/
theorem exactly_iff (hmail : Mail reqs r) :
    (MetricBlock.resetMonitor F r (.inr c : S' ⊕ ExactCounter)).map Prod.snd =
      some (.inr (c.applied reqs)) ↔ Meant reqs c := by
  have heq : ∀ d : HashedBuffer → UInt32,
      some (Sum.inr ⟨d⟩ : S' ⊕ ExactCounter) = some (.inr (c.applied reqs)) ↔
        ∀ k, d k = if none ∈ reqs ∨ some k ∈ reqs then 0 else c.count k := by
    intro d
    simp [ExactCounter.applied, funext_iff]
  by_cases hne : reqs = []
  · subst hne
    have hoff : r.vmReset = false := hmail.asked
    simp [MetricBlock.resetMonitor, hoff, Meant, ExactCounter.applied]
  have hon : r.vmReset = true := by
    rw [hmail.asked]
    simpa using hne
  have hkey := hmail.key
  rw [Meant, MetricBlock.resetMonitor, if_pos hon, ← lastKey]
  cases hlast : lastKey reqs with
  | none =>
    rw [hlast, Option.getD_none] at hkey
    rw [hkey]
    simp only [List.length_nil, if_true, iff_true]
    refine (heq _).2 fun k => ?_
    rw [if_pos (.inl (none_mem_of_lastKey hlast hne))]
  | some key =>
    rw [hlast, Option.getD_some] at hkey
    rw [hkey]
    simp only [List.length_eq_zero_iff]
    split_ifs with hempty
    · refine (heq _).trans ⟨fun h => ?_, fun h k => ?_⟩
      · by_cases hall : none ∈ reqs
        · exact .inl hall
        · refine .inr fun k hk => ?_
          have := h k
          rwa [if_neg (not_or.2 ⟨hall, hk⟩), eq_comm] at this
      · split_ifs with hk
        · rfl
        · obtain ⟨hall, hk⟩ := not_or.1 hk
          exact ((h.resolve_left hall) k hk).symm
    · refine (heq _).trans ⟨fun h k hk hreq => ?_, fun h k => ?_⟩
      · have := h k
        rwa [Function.update_of_ne hk, if_pos hreq] at this
      · by_cases hk : k = key
        · rw [hk, Function.update_self, if_pos (.inr (mem_of_lastKey hlast))]
        · rw [Function.update_of_ne hk]
          split_ifs with hreq
          · exact h k hk hreq
          · rfl

omit [Field F] [LinearOrder F] [FloorRing F] in
theorem mail_start (det : DetInstances τ) (counters : ℕ → Option S) (blocks : ℕ → MetricBlock F)
    (j : ℕ) : Mail ((start det counters blocks).pending j)
      ((start det counters blocks).metrics.resetOps j) :=
  ⟨rfl, rfl⟩

/-- In every run of resets and messages each message processed finds the map of its metric with
exactly the requests applied, if and only if every mailbox amounts to its requests when a message
comes to it. -/
theorem resets_exactly_iff {det : DetInstances τ} {counters : ℕ → Option (S' ⊕ ExactCounter)}
    {blocks : ℕ → MetricBlock F} {events : List (MetricEvent F)} :
    Meets (step T ofBytes) (Exactly T ofBytes) (start det counters blocks) events ↔
      Meets (step T ofBytes) (Clear T ofBytes) (start det counters blocks) events := by
  have hstep : ∀ (s : MetricSystem τ F (S' ⊕ ExactCounter)) e s',
      (∀ j, Mail (s.pending j) (s.metrics.resetOps j)) → True → Clear T ofBytes s e →
      step T ofBytes s e = some s' → ∀ j, Mail (s'.pending j) (s'.metrics.resetOps j) :=
    fun s e s' hmail _ _ h => step_mail hmail h
  refine StepRun.meets_iff hstep (fun s e hmail _ => ?_) events (fun _ _ => trivial)
    (mail_start det counters blocks)
  cases e with
  | reset metricId resetKey map => exact Iff.rfl
  | packet block fuel m =>
    exact forall_congr' fun _ => forall₄_congr fun i c _ _ => exactly_iff (hmail i)

/-- A message that counts `key` for metric 0. -/
def counting (key : HashedBuffer) : MetricMessage ℚ where
  metricOps i := if i = 0 then some ⟨-1, -1, -1, 0⟩ else none
  metrics _ := 0
  map _ := key
  timestampUs := 0

/-- A counter for metric 0 alone. -/
def oneCounter : MetricSystem (Option ℚ) ℚ (Counter ℚ ⊕ ExactCounter) :=
  start (fun _ => none) (fun i => if i = 0 then some (.inr ⟨fun _ => 0⟩) else none)
    fun _ => { MetricBlock.new with metricId := some 0, variationMonitor := true }

/-- Resets of two keys, of which the first has been counted. -/
def twoResets : List (MetricEvent ℚ) :=
  [.packet 0 0 (counting ⟨[1]⟩), .reset 0 (some 0) fun _ => ⟨[1]⟩, .reset 0 (some 0) fun _ => ⟨[2]⟩]

/-- The first key is not reset. -/
theorem resets_not_exactly : ¬ ∀ (det : DetInstances (Option ℚ))
    (counters : ℕ → Option (Counter ℚ ⊕ ExactCounter)) (blocks : ℕ → MetricBlock ℚ)
    (events : List (MetricEvent ℚ)),
    Meets (step BloomPair.squared fun _ => 0) (Exactly BloomPair.squared fun _ => 0)
      (start det counters blocks) events := by
  intro hall
  have hm : Meets (step BloomPair.squared fun _ => 0) (Exactly BloomPair.squared fun _ => 0)
      oneCounter (twoResets ++ [.packet 0 0 (counting ⟨[3]⟩)]) := hall _ _ _ _
  have hlost : (StepRun.run (step BloomPair.squared fun _ => 0) oneCounter twoResets).any fun s =>
      (step BloomPair.squared (fun _ => 0) s (.packet 0 0 (counting ⟨[3]⟩))).isSome ∧
      s.monitored 0 (counting ⟨[3]⟩) = some 0 ∧
      (s.metrics.counters 0).any fun
        | .inl _ => false
        | .inr c => ((MetricBlock.resetMonitor ℚ (s.metrics.resetOps 0)
            (.inr c : Counter ℚ ⊕ ExactCounter)).map Prod.snd).any fun
          | .inl _ => false
          | .inr d => d.count ⟨[1]⟩ ≠ (c.applied (s.pending 0)).count ⟨[1]⟩ := by decide +kernel
  obtain ⟨s, hrun, hs⟩ := (Option.any_eq_true _ _).1 hlost
  obtain ⟨hstep, hmon, hs⟩ := of_decide_eq_true hs
  obtain ⟨c | c, hc, hs⟩ := (Option.any_eq_true _ _).1 hs
  · cases hs
  have hexact := StepRun.meets_last hm hrun hstep 0 c hmon hc
  dsimp only at hs
  rw [hexact] at hs
  simp at hs

end MetricSystem

/-! ## The map is what the d-left counter holds -/

namespace DLeftCounter

open DLeft

variable {keys : Set HashedBuffer} {s s' : DLeftCounter} {c : ExactCounter} {key : HashedBuffer}

/-- A key without a node counts 0. -/
structure Refines (keys : Set HashedBuffer) (s : DLeftCounter) (c : ExactCounter) : Prop where
  exact : Exact keys s.table
  count : ∀ k ∈ keys, (s.table.entry k).getD 0 = c.count k

theorem refines_new {nhash shash : ℕ} (h : DLeftCounter.new nhash shash = some s) :
    Refines keys s ⟨fun _ => 0⟩ := by
  unfold DLeftCounter.new at h
  split_ifs at h
  cases h
  refine ⟨exact_new, fun k _ => ?_⟩
  rw [entry]
  cases (DLeft.new 8 nhash shash : DLeft UInt32).get k <;> rfl

theorem Refines.reset (h : Refines keys s c) (ht : Told keys) (hkey : key ∈ keys) :
    Refines keys ⟨(s.table.remove key).1⟩ ⟨update c.count key 0⟩ := by
  obtain ⟨hexact, hnone, -, -, hother⟩ := h.exact.remove ht hkey
  refine ⟨hexact, fun k hk => ?_⟩
  change _ = update c.count key 0 k
  by_cases hkk : k = key
  · rw [hkk, hnone, Function.update_self]
    rfl
  · rw [hother k hk hkk, Function.update_of_ne hkk, h.count k hk]

theorem Refines.clear (h : Refines keys s c) (ht : Told keys)
    (hfit : 2 ^ s.table.shash * s.table.nodeSize < 2 ^ 32) (hsize : 0 < s.table.nodeSize) :
    Refines keys ⟨s.table.clear⟩ ⟨fun _ => 0⟩ := by
  obtain ⟨hexact, hnone⟩ := h.exact.clear ht hfit hsize
  exact ⟨hexact, fun k hk => by rw [hnone k hk]; rfl⟩

variable [Field F]

theorem Refines.get (h : Refines keys s c) (hkey : key ∈ keys) :
    (s.get key : F) = ofUInt32 (c.count key) := by
  rw [← h.count key hkey, entry, DLeftCounter.get]
  cases s.table.get key with
  | none => simp [ofUInt32]
  | some p => rfl

variable [LinearOrder F] [FloorRing F]

theorem Refines.add {quantity value : F} (h : Refines keys s c) (ht : Told keys) (hkey : key ∈ keys)
    (ha : s.add key quantity = some (s', value)) :
    Refines keys s' ⟨update c.count key (toUInt32 (ofUInt32 (c.count key) + quantity))⟩ ∧
      value = ofUInt32 (toUInt32 (ofUInt32 (c.count key) + quantity)) := by
  obtain ⟨n, hn, rfl, hexact, -, -, hentry, hother⟩ := add_entry h.exact ht hkey ha
  rw [h.count key hkey] at hn
  refine ⟨⟨hexact, fun k hk => ?_⟩, by rw [hn]⟩
  change _ = update c.count key _ k
  by_cases hkk : k = key
  · rw [hkk, hentry, Function.update_self, Option.getD_some, hn]
  · rw [hother k hk hkk, Function.update_of_ne hkk, h.count k hk]

end DLeftCounter

end DStreamon
