import DStreamon.WireTemplate
import DStreamon.Proofs.Transcoder
import Mathlib.Algebra.Order.BigOperators.Group.List
import Mathlib.Algebra.GroupWithZero.Nat

/-!
# The size of a template record

The size is kept along with the elements, from that of the header on.  `clear` sets it to zero and
leaves the header out, so that after a `clear` or a `mimic` the space that is asked for is four
bytes short.
-/

namespace DStreamon.Ipfix

namespace WireTemplate

open Transcoder

/-! ## What a template record is on the wire -/

def fieldBytes (ie : InfoElement) : List UInt8 :=
  if ie.pen ≠ 0 then
    uint16Bytes (ie.number ||| kEnterpriseBit) ++ (uint16Bytes ie.len ++ uint32Bytes ie.pen)
  else uint16Bytes ie.number ++ uint16Bytes ie.len

def templateRecord (wt : WireTemplate) : List UInt8 :=
  uint16Bytes wt.tid ++ (uint16Bytes (UInt16.ofNat wt.ies.length) ++ wt.ies.flatMap fieldBytes)

theorem length_fieldBytes (ie : InfoElement) :
    (fieldBytes ie).length = if ie.pen ≠ 0 then 8 else 4 := by
  rw [fieldBytes]
  split_ifs <;> simp

/-- The bytes of all the fields. -/
def fieldsLen (ies : List InfoElement) : ℕ := (ies.map fun ie => if ie.pen ≠ 0 then 8 else 4).sum

theorem length_templateRecord (wt : WireTemplate) :
    wt.templateRecord.length = kTemplateHeaderLen + fieldsLen wt.ies := by
  have hfields : (wt.ies.flatMap fieldBytes).length = fieldsLen wt.ies := by
    rw [List.length_flatMap, fieldsLen]
    simp only [length_fieldBytes]
  rw [templateRecord, List.length_append, List.length_append, length_uint16Bytes,
    length_uint16Bytes, hfields, kTemplateHeaderLen]
  omega

theorem writes_encodeField (ie : InfoElement) : Writes (encodeField ie) () (fieldBytes ie) := by
  rw [encodeField, fieldBytes]
  split_ifs
  · refine Writes.of_eq ((writes_encodeUint16 _).bind ((writes_encodeUint16 _).bind
      ((writes_encodeUint32 _).bind (writes_pure ())))) ?_
    rw [List.append_nil]
  · refine Writes.of_eq ((writes_encodeUint16 _).bind ((writes_encodeUint16 _).bind
      (writes_pure ()))) ?_
    rw [List.append_nil]

theorem stays_encodeField (ie : InfoElement) : Stays (encodeField ie) fun _ => True := by
  rw [encodeField]
  split_ifs
  · exact (stays_encodeUint16 _).bind fun _ => (stays_encodeUint16 _).bind fun _ =>
      (stays_encodeUint32 _).bind fun _ => stays_pure trivial
  · exact (stays_encodeUint16 _).bind fun _ => (stays_encodeUint16 _).bind fun _ =>
      stays_pure trivial

/-- The record, once the space has been asked for. -/
def recordBody (wt : WireTemplate) : Attempt Error Transcoder Bool := do
  let _ ← encodeUint16 wt.tid
  let _ ← encodeUint16 (UInt16.ofNat wt.ies.length)
  Attempt.forEach encodeField wt.ies
  pure true

theorem writes_recordBody (wt : WireTemplate) : Writes wt.recordBody true wt.templateRecord := by
  refine Writes.of_eq ((writes_encodeUint16 _).bind ((writes_encodeUint16 _).bind
    ((writes_forEach writes_encodeField wt.ies).bind (writes_pure true)))) ?_
  rw [List.append_nil, templateRecord]

/-- The calls in it may fail, and the result is `true`. -/
theorem stays_recordBody (wt : WireTemplate) : Stays wt.recordBody fun b => b = true :=
  (stays_encodeUint16 _).bind fun _ => (stays_encodeUint16 _).bind fun _ =>
    (stays_forEach stays_encodeField wt.ies).bind fun _ => stays_pure rfl

variable {wt : WireTemplate} {xc : Transcoder}

theorem run_encodeTemplateRecord (hactive : wt.active = true) :
    wt.encodeTemplateRecord.run xc =
      if xc.avail < wt.trlen then (.ok false, xc) else wt.recordBody.run xc := by
  rw [encodeTemplateRecord, hactive, if_neg (by simp), Attempt.run_get_bind]
  split_ifs <;> rfl

/-- Where the template asks for no more than there is, and there is room for its record. -/
theorem run_encodeTemplateRecord_room (hactive : wt.active = true) (h : xc.Sound)
    (htrlen : wt.trlen ≤ xc.avail) (hroom : wt.templateRecord.length ≤ xc.avail) :
    wt.encodeTemplateRecord.run xc = (.ok true, xc.put wt.templateRecord) := by
  rw [run_encodeTemplateRecord hactive, if_neg (Nat.not_lt.2 htrlen)]
  exact writes_recordBody wt xc h hroom

/-- `true` is returned only with the whole record written, `false` with nothing. -/
def RecordSound (wt : WireTemplate) (xc : Transcoder) : Prop :=
  ∀ b t, wt.encodeTemplateRecord.run xc = (.ok b, t) →
    t.written = if b then xc.written ++ wt.templateRecord else xc.written

theorem recordSound_iff (hactive : wt.active = true) (h : xc.Sound) :
    wt.RecordSound xc ↔ xc.avail < wt.trlen ∨ wt.templateRecord.length ≤ xc.avail := by
  rw [RecordSound, run_encodeTemplateRecord hactive]
  by_cases hspace : xc.avail < wt.trlen
  · simp only [hspace, true_or, iff_true]
    rintro b t ⟨⟩
    rfl
  · simp only [hspace, false_or]
    constructor
    · intro hall
      obtain ⟨b, t, hrun, rfl, hsound, hmax⟩ := stays_recordBody wt xc h
      have hlen := congrArg List.length (hall true t hrun)
      rw [if_pos rfl, List.length_append, h.length_written, hsound.length_written] at hlen
      have hcur := hsound.cur_le
      rw [hmax] at hcur
      rw [avail_of_le h.cur_le]
      omega
    · intro hroom b t hrun
      rw [writes_recordBody wt xc h hroom] at hrun
      cases hrun
      rw [if_pos rfl, written_put h]

/-! ## The size along a history -/

inductive Op
  | add (ie : InfoElement)
  | clear
  | mimic (rhs : List InfoElement)
  | activate

/-- What is left of the template, also where the call throws. -/
def step (wt : WireTemplate) : Op → WireTemplate
  | .add ie => ((add ie).run wt).2
  | .clear => wt.clear
  | .mimic rhs => ((mimic rhs).run wt).2
  | .activate => (activate.run wt).2

def Op.resets : Op → Bool
  | .clear => true
  | .mimic _ => true
  | _ => false

/-- A template with a history. -/
def after (domain : UInt32) (tid : UInt16) (ops : List Op) : WireTemplate :=
  ops.foldl step (new domain tid)

section Keeps

variable {P : WireTemplate → Prop}

theorem add_keeps (hpush : ∀ wt ie, P wt → P (push ie wt)) (ie : InfoElement) (h : P wt) :
    P ((add ie).run wt).2 := by
  rw [add, Attempt.run_get_bind]
  split_ifs
  · exact h
  · exact hpush wt ie h

theorem activate_keeps (hactive : ∀ wt, P wt → P { wt with active := true }) (h : P wt) :
    P (activate.run wt).2 := by
  rw [activate, Attempt.run_get_bind]
  split_ifs
  · exact h
  · exact hactive wt h

theorem adds_keep (hpush : ∀ wt ie, P wt → P (push ie wt)) : ∀ {ies : List InfoElement}
    {wt : WireTemplate}, P wt → P ((Attempt.forEach add ies).run wt).2
  | [], _, h => h
  | ie :: ies, wt, h => by
    have hadd := add_keeps hpush ie h
    rw [Attempt.forEach_cons, Attempt.run_bind]
    rcases hrun : (add ie).run wt with ⟨e | _, t⟩ <;> rw [hrun] at hadd
    · exact hadd
    · exact adds_keep hpush hadd

/-- What holds of the cleared template holds of one that mimics another. -/
theorem mimic_keeps (hpush : ∀ wt ie, P wt → P (push ie wt))
    (hactive : ∀ wt, P wt → P { wt with active := true }) (rhs : List InfoElement)
    (h : P wt.clear) : P ((mimic rhs).run wt).2 := by
  have hadds : P ((Attempt.forEach add rhs).run wt.clear).2 := adds_keep hpush h
  rw [mimic, Attempt.run_modify_bind, Attempt.run_bind]
  rcases hrun : (Attempt.forEach add rhs).run wt.clear with ⟨e | _, t⟩ <;> rw [hrun] at hadds
  · exact hadds
  · exact activate_keeps hactive hadds

/-- Every history keeps what adding and activating keep and what holds of a cleared template. -/
theorem after_keeps (hpush : ∀ wt ie, P wt → P (push ie wt)) (hclear : ∀ wt, P (clear wt))
    (hactive : ∀ wt, P wt → P { wt with active := true }) :
    ∀ {ops : List Op} {wt : WireTemplate}, P wt → P (ops.foldl step wt)
  | [], _, h => h
  | op :: ops, wt, h => by
    show P (ops.foldl step (wt.step op))
    refine after_keeps hpush hclear hactive ?_
    cases op with
    | add ie => exact add_keeps hpush ie h
    | clear => exact hclear wt
    | mimic rhs => exact mimic_keeps hpush hactive rhs (hclear wt)
    | activate => exact activate_keeps hactive h

end Keeps

/-- The size kept, and what it lacks. -/
def Lacks (n : ℕ) (wt : WireTemplate) : Prop := wt.trlen + n = kTemplateHeaderLen + fieldsLen wt.ies

theorem fieldsLen_append (a b : List InfoElement) :
    fieldsLen (a ++ b) = fieldsLen a + fieldsLen b := by
  rw [fieldsLen, List.map_append, List.sum_append, fieldsLen, fieldsLen]

theorem Lacks.push {n : ℕ} (wt : WireTemplate) (ie : InfoElement) (h : Lacks n wt) :
    Lacks n (wt.push ie) := by
  have hie : fieldsLen [ie] = if ie.pen ≠ 0 then 8 else 4 := by simp [fieldsLen]
  rw [Lacks] at h ⊢
  rw [WireTemplate.push]
  simp only [fieldsLen_append, hie]
  omega

theorem clear_lacks (wt : WireTemplate) : Lacks kTemplateHeaderLen wt.clear := rfl

/-- Only a reset changes what the size lacks. -/
theorem Lacks.step {n : ℕ} (h : Lacks n wt) (op : Op) :
    Lacks (if op.resets then kTemplateHeaderLen else n) (wt.step op) := by
  cases op with
  | add ie => exact add_keeps Lacks.push ie h
  | clear => exact clear_lacks wt
  | mimic rhs => exact mimic_keeps Lacks.push (fun _ h => h) rhs (clear_lacks wt)
  | activate => exact activate_keeps (fun _ h => h) h

theorem Lacks.foldl {n : ℕ} : ∀ {ops : List Op} {wt : WireTemplate}, Lacks n wt →
    Lacks (if ops.any Op.resets then kTemplateHeaderLen else n) (ops.foldl WireTemplate.step wt)
  | [], _, h => h
  | op :: ops, wt, h => by
    have hops : Lacks _ (ops.foldl WireTemplate.step (wt.step op)) := (h.step op).foldl
    rw [List.foldl_cons, List.any_cons]
    cases hop : op.resets <;> rw [hop] at hops
    · exact hops
    · simpa using hops

theorem after_lacks (domain : UInt32) (tid : UInt16) (ops : List Op) :
    Lacks (if ops.any Op.resets then kTemplateHeaderLen else 0) (after domain tid ops) :=
  Lacks.foldl rfl

/-- The size is exact along histories without a `clear` or a `mimic`.  After one, a record that is
refused by less than a header is cut short and reported as written. -/
theorem record_size_exact_iff (domain : UInt32) (tid : UInt16) (ops : List Op) :
    ((after domain tid ops).trlen = (after domain tid ops).templateRecord.length ↔
      ∀ op ∈ ops, op.resets = false) ∧
    ∀ xc : Transcoder, (after domain tid ops).active = true → xc.Sound →
      ((after domain tid ops).RecordSound xc ↔ (∀ op ∈ ops, op.resets = false) ∨
        ¬ (fieldsLen (after domain tid ops).ies ≤ xc.avail ∧
          xc.avail < kTemplateHeaderLen + fieldsLen (after domain tid ops).ies)) := by
  have hlacks := after_lacks domain tid ops
  have hreset : (∀ op ∈ ops, op.resets = false) ↔ ops.any Op.resets = false := by
    rw [List.any_eq_false]
    simp only [Bool.not_eq_true]
  rw [Lacks, kTemplateHeaderLen] at hlacks
  refine ⟨?_, fun xc hactive hsound => ?_⟩
  · rw [length_templateRecord, hreset, kTemplateHeaderLen]
    split_ifs at hlacks with hany
    · simp only [hany, Bool.true_eq_false, iff_false]
      omega
    · simp only [hany, iff_true]
      omega
  · rw [recordSound_iff hactive hsound, length_templateRecord, hreset, kTemplateHeaderLen]
    split_ifs at hlacks with hany
    · simp only [hany, Bool.true_eq_false, false_or]
      omega
    · simp only [hany, true_or, iff_true]
      omega

def octetDeltaCount : InfoElement := ⟨"octetDeltaCount", 0, 1, IEType.unsigned64, 8⟩

def blank (room : ℕ) : Transcoder := ⟨List.replicate room 0, 0, none, room, none, none, none⟩

def oneElement : WireTemplate := after 1 256 [.add octetDeltaCount, .activate]

/-- Seven bytes are too few for its record, and eight are enough. -/
theorem record_size_exact_one :
    (∃ t, oneElement.encodeTemplateRecord.run (blank 7) = (.ok false, t) ∧ t.written = []) ∧
      ∃ t, oneElement.encodeTemplateRecord.run (blank 8) = (.ok true, t) ∧
        t.written = oneElement.templateRecord := by
  have hreset : ∀ op ∈ [Op.add octetDeltaCount, .activate], op.resets = false := by
    simp [Op.resets]
  have hiff := (record_size_exact_iff 1 256 [.add octetDeltaCount, .activate]).2
  have hseven : oneElement.RecordSound (blank 7) :=
    (hiff (blank 7) rfl ⟨by decide, by decide⟩).2 (.inl hreset)
  have height : oneElement.RecordSound (blank 8) :=
    (hiff (blank 8) rfl ⟨by decide, by decide⟩).2 (.inl hreset)
  exact ⟨⟨_, rfl, hseven false _ rfl⟩, ⟨_, rfl, height true _ rfl⟩⟩

/-- A template with the same elements as another: half of its record is written into four bytes. -/
theorem not_record_size_exact : ¬ ∀ (domain : UInt32) (tid : UInt16) (ops : List Op),
    (after domain tid ops).trlen = (after domain tid ops).templateRecord.length ∧
      ∀ xc : Transcoder, (after domain tid ops).active = true → xc.Sound →
        (after domain tid ops).RecordSound xc := fun h => by
  have hsound := (h 1 256 [.mimic [octetDeltaCount]]).2
    ⟨List.replicate 4 0, 0, none, 4, none, none, none⟩ rfl ⟨by decide, by decide⟩
  rw [recordSound_iff rfl ⟨by decide, by decide⟩] at hsound
  exact absurd hsound (by decide)

end WireTemplate

end DStreamon.Ipfix
