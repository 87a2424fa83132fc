import DStreamon.Files
import DStreamon.Proofs.Collector
import DStreamon.Proofs.ExporterRuns
import DStreamon.Proofs.Records
import DStreamon.Proofs.TemplateRecords

/-!
# Files read

A file of messages is read message by message up to its end.  What the template sets of a message
say is known before its data sets are handed out, whose contents are those that were written.
-/

namespace DStreamon.Ipfix

open Transcoder

variable {model : InfoModel} {xc : Transcoder} {b : List UInt8}

/-! ## Message headers -/

theorem run_decodeUint16_at {i : ℕ} {v : UInt16} (h : xc.Sound) (hi : i ≤ xc.max)
    (hmem : xc.mem.drop i = uint16Bytes v ++ b) :
    decodeUint16.run (xc.seek i) = (.ok (some v), xc.seek (i + 2)) ∧ i + 2 ≤ xc.max := by
  have hv : Bytes.be16 (xc.seek i).mem (xc.seek i).cur = some v := be16_of_drop hmem
  obtain ⟨v', hv', hroom, hrun⟩ | ⟨hnone, -⟩ := decodeUint16_cases (sound_seek h hi)
  · obtain rfl := Option.some.inj (hv'.symm.trans hv)
    exact ⟨hrun, hroom⟩
  · rw [hv] at hnone
    cases hnone

theorem run_decodeUint32_at {i : ℕ} {v : UInt32} (h : xc.Sound) (hi : i ≤ xc.max)
    (hmem : xc.mem.drop i = uint32Bytes v ++ b) :
    decodeUint32.run (xc.seek i) = (.ok (some v), xc.seek (i + 4)) ∧ i + 4 ≤ xc.max := by
  have hv : Bytes.be32 (xc.seek i).mem (xc.seek i).cur = some v := be32_of_drop hmem
  obtain ⟨v', hv', hroom, hrun⟩ | ⟨hnone, -⟩ := decodeUint32_cases (sound_seek h hi)
  · obtain rfl := Option.some.inj (hv'.symm.trans hv)
    exact ⟨hrun, hroom⟩
  · rw [hv] at hnone
    cases hnone

theorem drop_uint32 {mem : List UInt8} {i : ℕ} {v : UInt32}
    (h : mem.drop i = uint32Bytes v ++ b) : mem.drop (i + 4) = b := by
  have hdrop := drop_add_of_drop h
  rwa [length_uint32Bytes] at hdrop

namespace MessageHeader

variable {header : MessageHeader}

theorem run_insist_bind {α β : Type} {x : Attempt Error Transcoder (Option α)} {v : α}
    {t : Transcoder} (h : x.run xc = (.ok (some v), t)) (f : α → Attempt Error Decoder β) :
    (insist x >>= f).run (xc, header) = (f v).run (t, header) := by
  have hzoom : (Attempt.zoom Prod.fst (fun xc d => (xc, d.2)) x : Attempt Error Decoder _).run
      (xc, header) = (.ok (some v), (t, header)) := by
    rw [Attempt.run_zoom, h]
  have hinsist : (insist x).run (xc, header) = (.ok v, (t, header)) := by
    rw [insist, Attempt.run_bind_of_ok hzoom]
    rfl
  exact Attempt.run_bind_of_ok hinsist

/-- A header of this version is read. -/
theorem run_decodeMessageHeader {len : UInt16} {exportTime sequence domain : UInt32} (h : xc.Sound)
    (hlen : kMessageHeaderLen ≤ len.toNat)
    (hmem : xc.mem.drop xc.cur = messageHeader len exportTime sequence domain ++ b) :
    decodeMessageHeader.run (xc, header) = (.ok true, (xc.seek (xc.cur + kMessageHeaderLen),
      ⟨len, exportTime, sequence, domain⟩)) := by
  have hroom := length_of_drop hmem (by rw [length_messageHeader]; decide)
  rw [length_messageHeader, h.length_mem] at hroom
  have havail : ¬ kMessageHeaderLen > xc.avail := by
    rw [avail_of_le h.cur_le]
    omega
  rw [messageHeader] at hmem
  simp only [List.append_assoc] at hmem
  obtain ⟨hversion, hcur⟩ := run_decodeUint16_at h h.cur_le hmem
  have hmem₂ := drop_uint16 hmem
  obtain ⟨hrunLen, hcur₂⟩ := run_decodeUint16_at h hcur hmem₂
  have hmem₄ := drop_uint16 hmem₂
  obtain ⟨hrunTime, hcur₄⟩ := run_decodeUint32_at h hcur₂ hmem₄
  have hmem₈ := drop_uint32 hmem₄
  obtain ⟨hrunSequence, hcur₈⟩ := run_decodeUint32_at h hcur₄ hmem₈
  obtain ⟨hrunDomain, -⟩ := run_decodeUint32_at h hcur₈ (drop_uint32 hmem₈)
  rw [decodeMessageHeader, Attempt.run_get_bind, if_neg havail]
  refine (run_insist_bind hversion _).trans ?_
  rw [if_neg (by decide)]
  refine (run_insist_bind hrunLen _).trans ?_
  rw [set, Attempt.run_modify_bind, if_neg (Nat.not_lt.2 hlen)]
  refine (run_insist_bind hrunTime _).trans ?_
  rw [set, Attempt.run_modify_bind]
  refine (run_insist_bind hrunSequence _).trans ?_
  rw [set, Attempt.run_modify_bind]
  exact run_insist_bind hrunDomain _

end MessageHeader

/-! ## Templates with a history -/

namespace Session

/-- Each template is what its key and some operations have made of it. -/
def Grown (s : Session) : Prop :=
  ∀ e ∈ s.tib, ¬ e.1.2 < kMinSetID ∧ ∃ ops, e.2 = WireTemplate.after e.1.1 e.1.2 ops

section Grown

variable {s : Session} {k : WireTemplateKey} {wt : WireTemplate}

theorem key_step (wt : WireTemplate) (op : WireTemplate.Op) :
    Collector.key (wt.step op) = Collector.key wt := by
  have hpush : ∀ t ie, Collector.key t = Collector.key wt →
      Collector.key (WireTemplate.push ie t) = Collector.key wt := fun _ _ h => h
  cases op with
  | add ie => exact key_add ie wt
  | clear => rfl
  | mimic rhs => exact WireTemplate.mimic_keeps hpush (fun _ h => h) rhs rfl
  | activate => exact key_activate wt

theorem key_steps : ∀ (ops : List WireTemplate.Op) (wt : WireTemplate),
    Collector.key (ops.foldl WireTemplate.step wt) = Collector.key wt
  | [], _ => rfl
  | op :: ops, wt => (key_steps ops (wt.step op)).trans (key_step wt op)

theorem Grown.of_find (h : Grown s) (hfind : s.find k = some wt) :
    ¬ k.2 < kMinSetID ∧ ∃ ops, wt = WireTemplate.after k.1 k.2 ops :=
  h (k, wt) (SortedAssoc.mem_of_lookup hfind)

theorem Grown.keyed (h : Grown s) : Keyed s := fun k wt hfind => by
  obtain ⟨-, ops, rfl⟩ := h.of_find hfind
  exact key_steps ops _

theorem Grown.minlen (h : Grown s) (hfind : s.find k = some wt) :
    wt.minlen = WireTemplate.minLen wt.ies := by
  obtain ⟨-, ops, rfl⟩ := h.of_find hfind
  exact WireTemplate.after_minlen k.1 k.2 ops

theorem Grown.put (h : Grown s) (hk : ¬ k.2 < kMinSetID) (ops : List WireTemplate.Op) :
    Grown (s.put k (WireTemplate.after k.1 k.2 ops)) := by
  intro e he
  rcases SortedAssoc.mem_insert he with rfl | he
  · exact ⟨hk, ops, rfl⟩
  · exact h e he

/-- One more operation is one more in the history. -/
theorem Grown.step (h : Grown s) (hfind : s.find k = some wt) (op : WireTemplate.Op) :
    Grown (s.put k (wt.step op)) := by
  obtain ⟨hk, ops, rfl⟩ := h.of_find hfind
  have hput := h.put hk (ops ++ [op])
  rwa [WireTemplate.after, List.foldl_append, List.foldl_cons, List.foldl_nil] at hput

theorem Grown.deleteTemplate (h : Grown s) (domain : UInt32) (tid : UInt16) :
    Grown (s.deleteTemplate domain tid) := fun e he => h e (List.mem_of_mem_filter he)

theorem Grown.getTemplate {domain : UInt32} {tid : UInt16} (h : Grown s) :
    (getTemplate domain tid).Ends s (fun _ t => Grown t) fun _ t => Grown t := by
  rw [Session.getTemplate]
  split_ifs with htid
  · exact Attempt.ends_throw h
  · refine Attempt.ends_get_bind ?_
    cases hfind : s.find (domain, tid) with
    | some wt => exact Attempt.ends_pure h
    | none => exact h.put (k := (domain, tid)) htid []

/-- A call that is an operation of the template. -/
theorem Grown.onTemplate (op : WireTemplate.Op) {x : Attempt Error WireTemplate Unit}
    (hx : ∀ wt : WireTemplate, (x.run wt).2 = wt.step op) (h : Grown s) :
    (onTemplate k x).Ends s (fun _ t => Grown t) fun _ t => Grown t := by
  cases hfind : s.find k with
  | none =>
    rw [Session.onTemplate]
    refine Attempt.ends_get_bind ?_
    rw [hfind]
    exact Attempt.ends_throw h
  | some wt =>
    have hput : Grown (s.put k (x.run wt).2) := by
      rw [hx]
      exact h.step hfind op
    have hrun := run_onTemplate (x := x) hfind
    rcases hrun' : x.run wt with ⟨er | a, wt'⟩ <;> rw [hrun'] at hrun hput
    · exact Attempt.ends_of_error hrun hput
    · exact Attempt.ends_of_ok hrun hput

theorem ends_inSession_grown {α : Type} {x : Attempt Error Session α}
    (h : x.Ends s (fun _ t => Grown t) fun _ t => Grown t) :
    (inSession x).Ends (xc, s) (fun _ d => Grown d.2) fun _ d => Grown d.2 := Attempt.ends_zoom h

theorem ends_reading_grown {α : Type} (x : Attempt Error Transcoder α) (h : Grown s) :
    (reading x).Ends (xc, s) (fun _ d => Grown d.2) fun _ d => Grown d.2 := by
  rcases hrun : x.run xc with ⟨er | a, t⟩
  · exact Attempt.ends_of_error (run_reading hrun) h
  · exact Attempt.ends_of_ok (run_reading hrun) h

theorem ends_decodeFields_grown (model : InfoModel) : ∀ (n : ℕ) {xc : Transcoder} {s : Session},
    Grown s → (decodeFields model k n).Ends (xc, s) (fun _ d => Grown d.2) fun _ d => Grown d.2
  | 0, _, _, h => Attempt.ends_pure h
  | n + 1, xc, s, h => by
    rw [decodeFields]
    refine (ends_reading_grown _ h).bind fun ie d hd => ?_
    cases ie with
    | none => exact Attempt.ends_pure hd
    | some ie =>
      exact (ends_inSession_grown (hd.onTemplate (.add ie) fun _ => rfl)).bind
        fun _ _ ht => ends_decodeFields_grown model n ht

theorem ends_decodeDefinition_grown (model : InfoModel) (count : UInt16) (h : Grown s) :
    (decodeTemplateRecord.decodeDefinition model k count).Ends (xc, s) (fun _ d => Grown d.2)
      fun _ d => Grown d.2 := by
  rw [decodeTemplateRecord.decodeDefinition]
  refine (ends_decodeFields_grown model count.toNat h).bind fun b d hd => ?_
  split_ifs
  · exact (ends_inSession_grown (hd.onTemplate .activate fun _ => rfl)).bind
      fun _ _ ht => Attempt.ends_pure ht
  · exact Attempt.ends_pure hd

/-- What a template record does to its template are operations. -/
theorem ends_decodeTemplateRecord_grown (model : InfoModel) (domain : UInt32) (h : Grown s) :
    (decodeTemplateRecord model domain).Ends (xc, s) (fun _ d => Grown d.2)
      fun _ d => Grown d.2 := by
  rw [decodeTemplateRecord]
  refine Attempt.ends_get_bind ?_
  split_ifs
  · exact Attempt.ends_pure h
  refine (ends_reading_grown _ h).bind fun tid _ hd => (ends_reading_grown _ hd).bind
    fun count _ hd => ?_
  cases tid with
  | none =>
    exact Attempt.Ends.bind (Q := fun _ (_ : Decoder) => False) (Attempt.ends_throw hd)
      fun _ _ hfalse => hfalse.elim
  | some tid =>
    rw [Attempt.orThrow_some, pure_bind]
    cases count with
    | none =>
      exact Attempt.Ends.bind (Q := fun _ (_ : Decoder) => False) (Attempt.ends_throw hd)
        fun _ _ hfalse => hfalse.elim
    | some count =>
      rw [Attempt.orThrow_some, pure_bind]
      split_ifs
      · exact (ends_inSession_grown (Attempt.ends_modify (hd.deleteTemplate domain tid))).bind
          fun _ _ hd => Attempt.ends_pure hd
      · refine (ends_inSession_grown hd.getTemplate).bind fun wt _ hd => ?_
        split_ifs
        · exact (ends_inSession_grown (hd.onTemplate .clear fun _ => rfl)).bind
            fun _ _ hd => ends_decodeDefinition_grown model count hd
        · exact ends_decodeDefinition_grown model count hd

end Grown

end Session

/-! ## Sets -/

namespace Session

/-- What is known of the templates, when none of them is unfinished. -/
structure Knows (s : Session) (known : WireTemplateKey → Option (List InfoElement)) : Prop where
  grown : s.Grown
  neat : s.Neat
  known : s.known = known

/-- What definitions make of what is known, one after the other. -/
def learnAll (domain : UInt32) (ds : List Definition)
    (known : WireTemplateKey → Option (List InfoElement)) :
    WireTemplateKey → Option (List InfoElement) :=
  ds.foldl (fun known d => learn domain d known) known

variable {s : Session} {known : WireTemplateKey → Option (List InfoElement)} {d : Definition}
  {bytes : List UInt8}

theorem Knows.decodeTemplateRecord (hknows : s.Knows known) (domain : UInt32) (h : xc.Sound)
    (htells : Tells model bytes d) (hmem : xc.mem.drop xc.cur = bytes ++ b) :
    ∃ t, (decodeTemplateRecord model domain).run (xc, s) =
        (.ok true, (xc.seek (xc.cur + bytes.length), t)) ∧
      t.Knows (learn domain d known) := by
  obtain ⟨t, hrun, -, hneat, hknown⟩ :=
    run_decodeTemplateRecord domain h hknows.neat (htells.record hmem) htells.usable
  have hgrown : t.Grown := (ends_decodeTemplateRecord_grown model domain hknows.grown).of_ok hrun
  exact ⟨t, hrun, hgrown, hneat, by rw [hknown, hknows.known]⟩

end Session

/-- What a set says to a reader with the model: a template set defines a template with each of its
records, and a data set none. -/
inductive SetWritten.Defines (model : InfoModel) (s : SetWritten) : List Definition → Prop
  | templates {ds : List Definition} (hid : s.id = kTemplateSetID)
      (hrecords : List.Forall₂ (fun r d => Tells model r.bytes d) s.records ds) : Defines model s ds
  | data (hid : ¬ s.id < kMinSetID) : Defines model s []

namespace MBuf

variable {m : Scan} {known : WireTemplateKey → Option (List InfoElement)}

/-- The records that fill a template set. -/
theorem run_decodeTemplates : ∀ {records : List Written} {ds : List Definition} {fuel stop : ℕ}
    {m : Scan} {known : WireTemplateKey → Option (List InfoElement)} {b : List UInt8},
    List.Forall₂ (fun r d => Tells model r.bytes d) records ds → m.session.Knows known →
    m.xc.Sound → m.xc.mem.drop m.xc.cur = records.flatMap Written.bytes ++ b →
    stop = m.xc.cur + (records.flatMap Written.bytes).length → stop < m.xc.cur + fuel →
    ∃ s, (decodeTemplates model stop fuel).run m =
        (.ok (some ()), { m with xc := m.xc.seek stop, session := s }) ∧
      s.Knows (Session.learnAll m.mbuf.domain ds known)
  | _, _, 0, _, _, _, _, _, _, _, _, _, hfuel => absurd hfuel (by omega)
  | [], _, fuel + 1, _, m, _, _, .nil, hknows, _, _, hstop, _ => by
    rw [List.flatMap_nil, List.length_nil, Nat.add_zero] at hstop
    subst hstop
    have hend : ¬ kTemplateHeaderLen ≤ sizeSub m.xc.cur m.xc.cur := by
      rw [sizeSub, if_pos (Nat.le_refl _), Nat.sub_self]
      decide
    rw [decodeTemplates, Attempt.run_get_bind, if_neg hend]
    exact ⟨m.session, rfl, hknows⟩
  | r :: records, d :: ds, fuel + 1, stop, m, known, b, .cons htells hrecords, hknows, h, hmem,
      hstop, hfuel => by
    have hge := htells.length_ge
    simp only [kTemplateHeaderLen] at hge
    rw [List.flatMap_cons, List.length_append] at hstop
    have hmore : kTemplateHeaderLen ≤ sizeSub stop m.xc.cur := by
      rw [sizeSub, if_pos (by omega), kTemplateHeaderLen]
      omega
    rw [List.flatMap_cons, List.append_assoc] at hmem
    obtain ⟨t, hrun, ht⟩ := hknows.decodeTemplateRecord m.mbuf.domain h htells hmem
    have hroom := length_of_drop hmem (by omega)
    rw [h.length_mem] at hroom
    rw [decodeTemplates, Attempt.run_get_bind, if_pos hmore,
      Attempt.run_bind_of_ok (run_decoding hrun), if_pos rfl]
    have hfuel : stop < m.xc.cur + r.bytes.length + fuel := by omega
    obtain ⟨s, hrest, hs⟩ := run_decodeTemplates (m := { m with
        xc := m.xc.seek (m.xc.cur + r.bytes.length), session := t }) hrecords ht
      (sound_seek h hroom) (drop_add_of_drop hmem) (hstop.trans (Nat.add_assoc _ _ _).symm) hfuel
    exact ⟨s, hrest, hs⟩

end MBuf

/-- What is on a message's list for the set at `i`. -/
def SetWritten.entry (i : ℕ) (s : SetWritten) : List SetListEntry :=
  if s.id < kMinSetID then [] else [⟨s.id, UInt16.ofNat (kSetHeaderLen + s.content.length), i⟩]

/-- And for the sets from `i` on. -/
def entries : ℕ → List SetWritten → List SetListEntry
  | _, [] => []
  | i, s :: sets => s.entry i ++ entries (i + s.wire.length) sets

/-- The length fits its field. -/
theorem SetWritten.toNat_length {s : SetWritten} (h : s.wire.length ≤ kMaxSetLen) :
    (UInt16.ofNat (kSetHeaderLen + s.content.length)).toNat = kSetHeaderLen + s.content.length := by
  rw [s.length_wire] at h
  rw [UInt16.toNat_ofNat', Nat.mod_eq_of_lt]
  simp only [kMaxSetLen] at h
  omega

namespace MBuf

variable {m : Scan} {known : WireTemplateKey → Option (List InfoElement)} {s : SetWritten}
  {ds : List Definition} {i : ℕ} {len : UInt16}

theorem run_scanSet (hdefines : s.Defines model ds) (hknows : m.session.Knows known)
    (h : m.xc.Sound) (hmem : m.xc.mem.drop m.xc.cur = s.content ++ b)
    (hlen : UInt16.ofNat (kSetHeaderLen + s.content.length) = len)
    (htoNat : len.toNat = kSetHeaderLen + s.content.length)
    (hroom : m.xc.cur + s.content.length ≤ m.xc.max) :
    ∃ t, (scanSet model ⟨s.id, len, i⟩).run m = (.ok (some ()), ⟨{ m.mbuf with
        setlist := m.mbuf.setlist ++ s.entry i }, m.xc.seek (m.xc.cur + s.content.length), t⟩) ∧
      t.Knows (Session.learnAll m.mbuf.domain ds known) := by
  have hsub : sizeSub len.toNat kSetHeaderLen = s.content.length := by
    rw [sizeSub, htoNat, if_pos (Nat.le_add_right _ _), Nat.add_sub_cancel_left]
  cases hdefines with
  | templates hid hrecords =>
    have hentry : s.entry i = [] := if_pos (hid ▸ by decide)
    have hfuel : m.xc.cur + s.content.length < m.xc.cur + (m.xc.avail + 1) := by
      rw [avail_of_le h.cur_le]
      omega
    obtain ⟨t, hrun, ht⟩ := run_decodeTemplates hrecords hknows h hmem rfl hfuel
    refine ⟨t, ?_, ht⟩
    rw [scanSet, if_pos hid, Attempt.run_get_bind, hsub, hentry, List.append_nil]
    exact hrun
  | data hid =>
    have hrun := run_scanSet_data model ⟨s.id, len, i⟩ h hid (htoNat ▸ Nat.le_add_right _ _)
      (by rw [htoNat, Nat.add_sub_cancel_left]; exact hroom)
    rw [htoNat, Nat.add_sub_cancel_left] at hrun
    refine ⟨m.session, hrun.trans ?_, hknows⟩
    rw [SetWritten.entry, if_neg hid, hlen]
    rfl

/-- One round of the scan, for the set that is next. -/
theorem run_set {garbage : ℕ → UInt16 × UInt16} {round fuel : ℕ} {m : Scan}
    {known : WireTemplateKey → Option (List InfoElement)} (hdefines : s.Defines model ds)
    (hknows : m.session.Knows known) (h : m.xc.Sound)
    (hmem : m.xc.mem.drop m.xc.cur = s.wire ++ b)
    (hmax : s.wire.length ≤ kMaxSetLen) : m.xc.cur + s.wire.length ≤ m.xc.max ∧
    ∃ t, (populateSetlist model garbage round (fuel + 1)).run m =
        (populateSetlist model garbage (round + 1) fuel).run ⟨{ m.mbuf with
          setlist := m.mbuf.setlist ++ s.entry m.xc.cur },
          m.xc.seek (m.xc.cur + s.wire.length), t⟩ ∧
      t.Knows (Session.learnAll m.mbuf.domain ds known) := by
  have hroom := length_of_drop hmem (by rw [s.length_wire, kSetHeaderLen]; omega)
  rw [h.length_mem] at hroom
  refine ⟨hroom, ?_⟩
  have htoNat := s.toNat_length hmax
  rw [s.length_wire] at hroom hmax ⊢
  rw [SetWritten.wire, setHeader, List.append_assoc, List.append_assoc] at hmem
  have hlenAt := drop_uint16 hmem
  have hcontent := drop_uint16 hlenAt
  have hheader : HeaderAt m.xc.mem m.xc.cur s.id
      (UInt16.ofNat (kSetHeaderLen + s.content.length)) :=
    ⟨be16_of_drop hmem, be16_of_drop hlenAt⟩
  have hsensible : Sensible s.id (UInt16.ofNat (kSetHeaderLen + s.content.length)) := by
    refine ⟨?_, by rw [htoNat]; omega, by rw [htoNat]; omega⟩
    cases hdefines with
    | templates hid => exact .inr (.inl hid)
    | data hid => exact .inl hid
  obtain ⟨hbehind, ⟨-, hrun⟩ | ⟨hnot, -⟩⟩ := header_cases h hheader
  swap
  · exact absurd hsensible hnot
  obtain ⟨t, hset, ht⟩ := run_scanSet (m := { m with xc := m.xc.seek (m.xc.cur + kSetHeaderLen) })
    (i := m.xc.cur) hdefines hknows (sound_seek h hbehind) hcontent rfl htoNat
    (by change m.xc.cur + kSetHeaderLen + s.content.length ≤ m.xc.max; omega)
  have hlt : m.xc.cur < m.xc.max := by
    simp only [kSetHeaderLen] at hbehind
    omega
  refine ⟨t, ?_, ht⟩
  rw [run_round h hlt hrun hset, ← Nat.add_assoc]
  rfl

/-- The sets that fill a message. -/
theorem run_populateSetlist {garbage : ℕ → UInt16 × UInt16} : ∀ {sets : List SetWritten}
    {dss : List (List Definition)} {round fuel : ℕ} {m : Scan}
    {known : WireTemplateKey → Option (List InfoElement)},
    List.Forall₂ (fun s ds => s.Defines model ds) sets dss → m.session.Knows known → m.xc.Sound →
    m.xc.mem.drop m.xc.cur = setsWire sets → (setsWire sets).length ≤ kMaxSetLen →
    m.xc.max - m.xc.cur < fuel →
    ∃ t, (populateSetlist model garbage round fuel).run m = (.ok (some ()), ⟨{ m.mbuf with
        setlist := m.mbuf.setlist ++ entries m.xc.cur sets }, m.xc.seek m.xc.max, t⟩) ∧
      t.Knows (Session.learnAll m.mbuf.domain dss.flatten known)
  | _, _, _, 0, _, _, _, _, _, _, _, hfuel => absurd hfuel (Nat.not_lt_zero _)
  | [], _, round, fuel + 1, m, _, .nil, hknows, h, hmem, _, _ => by
    have hend : m.xc.cur = m.xc.max := by
      have hlen := congrArg List.length hmem
      rw [List.length_drop, h.length_mem, setsWire, List.flatMap_nil, List.length_nil] at hlen
      have hcur := h.cur_le
      omega
    have havail : m.xc.avail = 0 := by
      rw [avail_of_le h.cur_le, hend, Nat.sub_self]
    rw [populateSetlist, Attempt.run_get_bind, if_pos havail]
    refine ⟨m.session, ?_, hknows⟩
    rw [entries, List.append_nil, ← hend]
    rfl
  | s :: sets, ds :: dss, round, fuel + 1, m, known, .cons hdefines hall, hknows, h, hmem, hmax,
      hfuel => by
    rw [setsWire, List.flatMap_cons] at hmem hmax
    rw [List.length_append] at hmax
    have hpos := s.length_wire
    obtain ⟨hroom, t, hset, ht⟩ := run_set hdefines hknows h hmem (by omega)
    have hfuel : m.xc.max - (m.xc.cur + s.wire.length) < fuel := by
      simp only [kSetHeaderLen] at hpos
      omega
    obtain ⟨u, hmore, hu⟩ := run_populateSetlist (m := ⟨{ m.mbuf with
        setlist := m.mbuf.setlist ++ s.entry m.xc.cur },
        m.xc.seek (m.xc.cur + s.wire.length), t⟩) hall ht
      (sound_seek h hroom) (drop_add_of_drop hmem) (by rw [setsWire]; omega) hfuel
    refine ⟨u, hset.trans (hmore.trans ?_), ?_⟩
    · rw [entries, ← List.append_assoc]
      rfl
    · rw [List.flatten_cons, Session.learnAll, List.foldl_append]
      exact hu

end MBuf

/-! ## Messages -/

/-- A message that was written whole, and what it says of templates. -/
structure Message.Readable (model : InfoModel) (m : Message) (ds : List Definition) : Prop where
  bytes : ∃ exportTime, m.bytes = m.wire exportTime
  length : m.bytes.length < 2 ^ 16
  nonempty : m.sets ≠ []
  defines : ∃ dss, List.Forall₂ (fun s ds => s.Defines model ds) m.sets dss ∧ dss.flatten = ds

namespace Framing

variable {f : Framing} {u : Unset}

theorem splice_behind {a x bs : List UInt8} {i : ℕ} (hi : a.length = i)
    (hroom : bs.length ≤ x.length) :
    Bytes.splice (a ++ x) i bs = a ++ (bs ++ x.drop bs.length) := by
  conv_lhs => rw [← List.take_append_drop bs.length x]
  exact Bytes.splice_append hi (List.length_take_of_le hroom)

/-- What was in the buffer is still there. -/
theorem ensure_eq (u : Unset) (length : ℕ) (f : Framing) : ∃ more,
    ensure u length f = { f with
      buffer := { f.buffer with buf := f.buffer.buf ++ more } } ∧
    length ≤ (f.buffer.buf ++ more).length := by
  rw [ensure]
  dsimp only
  split_ifs with hlen
  · exact ⟨[], by rw [List.append_nil], by rw [List.append_nil]; omega⟩
  · refine ⟨_, rfl, ?_⟩
    rw [List.length_append, List.length_map, List.length_range']
    omega

theorem run_consume {bs rest : List UInt8} (hbs : bs ≠ []) (hahead : f.file.ahead = bs ++ rest)
    (off : ℕ) : (consume u bs.length off).run f = (.ok true, { f with
      file := ⟨rest, f.file.eof⟩
      buffer := { f.buffer with buf := Bytes.splice f.buffer.buf off bs } }) := by
  have hlen : bs.length ≠ 0 ∧ bs.length ≤ f.file.ahead.length := by
    rw [hahead, List.length_append]
    exact ⟨List.length_eq_zero_iff.not.2 hbs, Nat.le_add_right _ _⟩
  have hfread : fread bs.length off f = { f with
      file := ⟨rest, f.file.eof⟩
      buffer := { f.buffer with buf := Bytes.splice f.buffer.buf off bs } } := by
    rw [fread, decide_eq_false (Nat.not_lt.2 hlen.2), Bool.or_false, hahead, List.drop_left,
      List.take_left]
  rw [consume, Attempt.run_get_bind, Attempt.run_modify_bind, if_pos hlen, hfread,
    Attempt.run_pure]

/-- Bytes from the file behind the first `off` of the buffer, which is made large enough. -/
theorem run_fill {a x bs rest : List UInt8} {off len length : ℕ} (hbuf : f.buffer.buf = a ++ x)
    (hoff : a.length = off) (hlen : bs.length = len) (hlength : off + len = length)
    (hbs : bs ≠ []) (hahead : f.file.ahead = bs ++ rest) : ∃ y,
    (consume u len off).run (ensure u length f) = (.ok true, { f with
      file := ⟨rest, f.file.eof⟩
      buffer := { f.buffer with buf := a ++ (bs ++ y) } }) := by
  subst hoff hlen hlength
  obtain ⟨more, hensure, hroom⟩ := ensure_eq u (a.length + bs.length) f
  rw [hbuf, List.append_assoc] at hensure hroom
  rw [List.length_append] at hroom
  refine ⟨(x ++ more).drop bs.length, ?_⟩
  rw [hensure]
  refine (run_consume (f := { f with buffer := { f.buffer with buf := a ++ (x ++ more) } })
    hbs hahead a.length).trans ?_
  dsimp only
  rw [splice_behind rfl (by omega)]

theorem run_decoding {α : Type} {x : Attempt Error MessageHeader.Decoder α} {a : α}
    {xc : Transcoder} {header : MessageHeader}
    (h : x.run (Transcoder.new.setBase f.buffer.buf kMessageHeaderLen,
      ⟨f.buffer.len, f.buffer.exportTime, f.buffer.sequence, f.buffer.domain⟩) =
        (.ok a, (xc, header))) :
    (decoding x).run f = (.ok a, { f with buffer := { f.buffer with
      len := header.len
      exportTime := header.exportTime
      sequence := header.sequence
      domain := header.domain } }) := by
  rw [decoding, Attempt.run_zoom, h]

/-- The header that is in front of the buffer. -/
theorem run_decodeHeader {len : UInt16} {exportTime domain : UInt32} {y : List UInt8}
    (hlen : kMessageHeaderLen ≤ len.toNat)
    (hbuf : f.buffer.buf = messageHeader len exportTime 0 domain ++ y) :
    (decoding MessageHeader.decodeMessageHeader).run f = (.ok true, { f with buffer := {
      f.buffer with
        len := len
        exportTime := exportTime
        sequence := 0
        domain := domain } }) := by
  have hheader : (messageHeader len exportTime 0 domain).length = kMessageHeaderLen :=
    length_messageHeader _ _ _ _
  have hsound : (Transcoder.new.setBase f.buffer.buf kMessageHeaderLen).Sound := by
    refine ⟨Nat.zero_le _, ?_⟩
    change kMessageHeaderLen ≤ f.buffer.buf.length
    rw [hbuf, List.length_append]
    omega
  have hmem : (f.buffer.buf.take kMessageHeaderLen).drop 0 =
      messageHeader len exportTime 0 domain ++ [] := by
    rw [hbuf, List.take_left' hheader, List.append_nil, List.drop_zero]
  exact run_decoding (MessageHeader.run_decodeMessageHeader hsound hlen hmem)

theorem run_scanning {α : Type} {x : Attempt Error Scan α} {a : α} {m : Scan}
    (h : x.run ⟨f.buffer.toMBuf, Transcoder.new.setBase f.buffer.buf f.buffer.len.toNat,
      f.session⟩ = (.ok a, m)) :
    (scanning x).run f = (.ok a, { f with
      buffer := { f.buffer with toMBuf := m.mbuf }
      session := m.session }) := by
  rw [scanning, Attempt.run_zoom, h]

/-- The scan of a buffer that a message is in. -/
theorem run_scan {known : WireTemplateKey → Option (List InfoElement)} {m : Message}
    {ds : List Definition} {fuel : ℕ} (hm : m.Readable model ds) (hknows : f.session.Knows known)
    (hlen : f.buffer.len.toNat = m.bytes.length) (hroom : f.buffer.len.toNat ≤ f.buffer.buf.length)
    (hbuf : f.buffer.buf.take f.buffer.len.toNat = m.bytes) (hdomain : f.buffer.domain = m.domain)
    (hfuel : m.bytes.length < fuel) : ∃ t,
      (scanning do
        let _ ← MBuf.transcoding (Transcoder.advance kMessageHeaderLen)
        MBuf.populateSetlist model u.header 0 fuel).run f = (.ok (some ()), { f with
          buffer := { f.buffer with
            setlist := f.buffer.setlist ++ entries kMessageHeaderLen m.sets }
          session := t }) ∧
      t.Knows (Session.learnAll m.domain ds known) := by
  obtain ⟨⟨exportTime, hbytes⟩, hlt, -, dss, hdss, rfl⟩ := hm
  have hlength : m.bytes.length = kMessageHeaderLen + (setsWire m.sets).length := by
    rw [hbytes, Message.wire, List.length_append, length_messageHeader]
  have hsound : (Transcoder.new.setBase f.buffer.buf f.buffer.len.toNat).Sound :=
    ⟨Nat.zero_le _, hroom⟩
  have hbehind : kMessageHeaderLen ≤
      (Transcoder.new.setBase f.buffer.buf f.buffer.len.toNat).max := by
    change kMessageHeaderLen ≤ f.buffer.len.toNat
    omega
  have hadvance : (Transcoder.advance kMessageHeaderLen).run
      (Transcoder.new.setBase f.buffer.buf f.buffer.len.toNat) =
      (.ok true,
        (Transcoder.new.setBase f.buffer.buf f.buffer.len.toNat).seek (0 + kMessageHeaderLen)) :=
    run_advance hsound (by change 0 + _ ≤ _; omega)
  rw [Nat.zero_add] at hadvance
  have hmem : (f.buffer.buf.take f.buffer.len.toNat).drop kMessageHeaderLen = setsWire m.sets := by
    rw [hbuf, hbytes, Message.wire]
    exact List.drop_left' (length_messageHeader _ _ _ _)
  have hmax : (setsWire m.sets).length ≤ kMaxSetLen := by
    simp only [kMessageHeaderLen, kMaxSetLen] at hlength ⊢
    omega
  have hscan : f.buffer.len.toNat - kMessageHeaderLen < fuel := by omega
  obtain ⟨t, hrun, ht⟩ := MBuf.run_populateSetlist (m := ⟨f.buffer.toMBuf,
    (Transcoder.new.setBase f.buffer.buf f.buffer.len.toNat).seek kMessageHeaderLen, f.session⟩)
    hdss hknows (sound_seek hsound hbehind) hmem hmax hscan
  have hwhole : (MBuf.transcoding (Transcoder.advance kMessageHeaderLen) >>= fun _ =>
      MBuf.populateSetlist model u.header 0 fuel).run ⟨f.buffer.toMBuf,
        Transcoder.new.setBase f.buffer.buf f.buffer.len.toNat, f.session⟩ = _ :=
    (Attempt.run_bind_of_ok (MBuf.run_transcoding hadvance)).trans hrun
  refine ⟨t, run_scanning hwhole, ?_⟩
  rwa [hdomain] at ht

/-- What is left when a message has been read. -/
structure Framed (f f' : Framing) (m : Message) (rest : List UInt8) : Prop where
  ahead : f'.file.ahead = rest
  eof : f'.file.eof = f.file.eof
  len : f'.buffer.len.toNat = m.bytes.length
  buf : f'.buffer.buf.take f'.buffer.len.toNat = m.bytes
  domain : f'.buffer.domain = m.domain
  setlist : f'.buffer.setlist = f.buffer.setlist ++ entries kMessageHeaderLen m.sets

theorem run_deframe {known : WireTemplateKey → Option (List InfoElement)} {m : Message}
    {ds : List Definition} {fuel : ℕ} {rest : List UInt8} (hm : m.Readable model ds)
    (hknows : f.session.Knows known) (hahead : f.file.ahead = m.bytes ++ rest)
    (hfuel : m.bytes.length < fuel) : ∃ f', (deframe model u fuel).run f = (.ok (some true), f') ∧
      Framed f f' m rest ∧ f'.session.Knows (Session.learnAll m.domain ds known) := by
  obtain ⟨exportTime, hbytes⟩ := hm.bytes
  have hlength : m.bytes.length = kMessageHeaderLen + (setsWire m.sets).length := by
    rw [hbytes, Message.wire, List.length_append, length_messageHeader]
  have hbody : setsWire m.sets ≠ [] := fun hnil =>
    hm.nonempty (setsWire_eq_nil (List.length_eq_zero_iff.2 hnil))
  set len := UInt16.ofNat (kMessageHeaderLen + (setsWire m.sets).length) with hlen
  have htoNat : len.toNat = kMessageHeaderLen + (setsWire m.sets).length := by
    rw [hlen, UInt16.toNat_ofNat', Nat.mod_eq_of_lt (hlength ▸ hm.length)]
  set header := messageHeader len exportTime 0 m.domain with hheader
  have hheaderLen : header.length = kMessageHeaderLen := length_messageHeader _ _ _ _
  have hwire : m.bytes = header ++ setsWire m.sets := hbytes
  rw [hwire, List.append_assoc] at hahead
  obtain ⟨y, hfirst⟩ := run_fill (a := []) (u := u) (f := f) rfl rfl hheaderLen (Nat.zero_add _)
    (List.ne_nil_of_length_pos (by rw [hheaderLen]; decide)) hahead
  set f₁ : Framing := { f with
    file := ⟨setsWire m.sets ++ rest, f.file.eof⟩
    buffer := { f.buffer with buf := header ++ y } } with hf₁
  have hfirst : (consume u kMessageHeaderLen 0).run (ensure u kMessageHeaderLen f) =
      (.ok true, f₁) := hfirst
  have hfits : kMessageHeaderLen ≤ len.toNat := htoNat.ge.trans' (Nat.le_add_right _ _)
  set f₂ : Framing := { f₁ with buffer := { f₁.buffer with
    len := len
    exportTime := exportTime
    sequence := 0
    domain := m.domain } } with hf₂
  have hsub : MBuf.sizeSub f₂.buffer.len.toNat kMessageHeaderLen = (setsWire m.sets).length := by
    change MBuf.sizeSub len.toNat kMessageHeaderLen = _
    rw [MBuf.sizeSub, htoNat, if_pos (Nat.le_add_right _ _), Nat.add_sub_cancel_left]
  have hahead₂ : f₂.file.ahead = setsWire m.sets ++ rest := rfl
  obtain ⟨z, hsecond⟩ := run_fill (a := header) (u := u) (f := f₂) rfl hheaderLen rfl
    htoNat.symm hbody hahead₂
  rw [← hsub] at hsecond
  set f₃ : Framing := { f₂ with
    file := ⟨rest, f.file.eof⟩
    buffer := { f₂.buffer with buf := header ++ (setsWire m.sets ++ z) } } with hf₃
  have hsecond : (consume u (MBuf.sizeSub f₂.buffer.len.toNat kMessageHeaderLen)
      kMessageHeaderLen).run (ensure u f₂.buffer.len.toNat f₂) = (.ok true, f₃) := hsecond
  have hbuf : f₃.buffer.buf.take f₃.buffer.len.toNat = m.bytes := by
    change (header ++ (setsWire m.sets ++ z)).take len.toNat = _
    rw [htoNat, ← hheaderLen, ← List.append_assoc, ← List.length_append, List.take_left, hwire]
  have hroom : f₃.buffer.len.toNat ≤ f₃.buffer.buf.length := by
    change len.toNat ≤ (header ++ (setsWire m.sets ++ z)).length
    rw [htoNat, List.length_append, List.length_append, hheaderLen]
    omega
  obtain ⟨t, hscan, ht⟩ := run_scan (u := u) (f := f₃) hm hknows (htoNat.trans hlength.symm) hroom
    hbuf rfl hfuel
  rw [deframe, Attempt.run_modify_bind, Attempt.run_bind_of_ok hfirst, if_pos rfl,
    Attempt.run_bind_of_ok (run_decodeHeader (f := f₁) hfits rfl), Attempt.run_get_bind,
    Attempt.run_modify_bind, Attempt.run_bind_of_ok hsecond, if_pos rfl,
    Attempt.run_bind_of_ok hscan]
  exact ⟨_, rfl, ⟨rfl, rfl, htoNat.trans hlength.symm, hbuf, rfl, rfl⟩, ht⟩

end Framing

end DStreamon.Ipfix
