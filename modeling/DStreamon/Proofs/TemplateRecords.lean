import DStreamon.Proofs.InfoModel
import DStreamon.Proofs.MBuf
import DStreamon.Proofs.WireTemplate

/-!
# Template records read back

A template record is read back field by field.  The number of an element with an enterprise number
is looked up as it is on the wire, with the enterprise bit in it, and not as it was given.
-/

namespace DStreamon.Ipfix

open Transcoder

/-- The number of an element in a template record. -/
def InfoElement.wireNumber (ie : InfoElement) : UInt16 :=
  if ie.pen ≠ 0 then ie.number ||| kEnterpriseBit else ie.number

/-- Its number does not say that an enterprise number follows where none does. -/
def InfoElement.Told (ie : InfoElement) : Prop := ie.pen = 0 → ie.number &&& kEnterpriseBit = 0

instance (ie : InfoElement) : Decidable ie.Told := inferInstanceAs (Decidable (_ → _))

/-- What a reader with the model makes of the element's field. -/
def InfoModel.received (model : InfoModel) (ie : InfoElement) : Option InfoElement :=
  model.lookupIE ie.pen ie.wireNumber ie.len

variable {model : InfoModel} {mem b : List UInt8} {i : ℕ} {ie : InfoElement}

/-! ## Bytes ahead -/

theorem length_of_drop {bs : List UInt8} (h : mem.drop i = bs ++ b) (hbs : 0 < bs.length) :
    i + bs.length ≤ mem.length := by
  have hlen := congrArg List.length h
  rw [List.length_drop, List.length_append] at hlen
  omega

theorem drop_add_of_drop {bs : List UInt8} (h : mem.drop i = bs ++ b) :
    mem.drop (i + bs.length) = b := by
  rw [← List.drop_drop, h, List.drop_left]

theorem be16_of_drop {v : UInt16} (h : mem.drop i = uint16Bytes v ++ b) :
    Bytes.be16 mem i = some v := by
  have hlen := length_of_drop h (by simp)
  rw [length_uint16Bytes] at hlen
  have htake : (uint16Bytes v ++ b).take 2 = uint16Bytes v := List.take_left' (length_uint16Bytes v)
  rw [Bytes.be16_eq hlen, h, htake, uint16Bytes, List.reverse_reverse, Bytes.value_le v.toNat_lt,
    UInt16.ofNat_toNat]

theorem be32_of_drop {v : UInt32} (h : mem.drop i = uint32Bytes v ++ b) :
    Bytes.be32 mem i = some v := by
  have hlen := length_of_drop h (by simp)
  rw [length_uint32Bytes] at hlen
  have htake : (uint32Bytes v ++ b).take 4 = uint32Bytes v := List.take_left' (length_uint32Bytes v)
  rw [Bytes.be32_eq hlen, h, htake, uint32Bytes, List.reverse_reverse, Bytes.value_le v.toNat_lt,
    UInt32.ofNat_toNat]

theorem drop_uint16 {v : UInt16} (h : mem.drop i = uint16Bytes v ++ b) : mem.drop (i + 2) = b := by
  have hdrop := drop_add_of_drop h
  rwa [length_uint16Bytes] at hdrop

/-! ## Fields -/

theorem enterpriseBit_of_wireNumber (n : UInt16) :
    (n ||| kEnterpriseBit) &&& kEnterpriseBit = kEnterpriseBit := by
  rw [← UInt16.toBitVec_inj]
  simp only [UInt16.toBitVec_and, UInt16.toBitVec_or, BitVec.and_or_distrib_right]
  ext j hj
  simp only [BitVec.getElem_or, BitVec.getElem_and]
  cases n.toBitVec[j] <;> simp

theorem fieldAt_of_drop (htold : ie.Told) (h : mem.drop i = WireTemplate.fieldBytes ie ++ b) :
    fieldAt model mem i =
      (model.received ie).map fun ie' => (ie', i + (WireTemplate.fieldBytes ie).length) := by
  rw [WireTemplate.length_fieldBytes, InfoModel.received, InfoElement.wireNumber, fieldAt]
  rw [WireTemplate.fieldBytes] at h
  by_cases hpen : ie.pen ≠ 0
  · rw [if_pos hpen, List.append_assoc, List.append_assoc] at h
    have hlen := drop_uint16 h
    have hnum := drop_uint16 hlen
    rw [if_pos hpen, if_pos hpen, be16_of_drop h, be16_of_drop hlen]
    simp only [Option.bind_eq_bind, Option.bind_some]
    rw [penAt, enterpriseBit_of_wireNumber, if_pos (by decide), be32_of_drop hnum]
    simp only [Option.map_some, Option.bind_some]
    rcases model.lookupIE ie.pen (ie.number ||| kEnterpriseBit) ie.len with _ | ie' <;> rfl
  · rw [if_neg hpen, List.append_assoc] at h
    have hlen := drop_uint16 h
    rw [if_neg hpen, if_neg hpen, be16_of_drop h, be16_of_drop hlen]
    rw [not_not] at hpen
    simp only [Option.bind_eq_bind, Option.bind_some]
    rw [penAt, htold hpen, if_neg (by simp), hpen]
    simp only [Option.bind_some]
    rcases model.lookupIE 0 ie.number ie.len with _ | ie' <;> rfl

theorem fieldsAt_of_drop : ∀ {ies : List InfoElement} {i : ℕ}, (∀ ie ∈ ies, ie.Told) →
    mem.drop i = ies.flatMap WireTemplate.fieldBytes ++ b → fieldsAt model mem ies.length i =
      (ies.mapM model.received).map fun ies' => (ies', i + WireTemplate.fieldsLen ies)
  | [], i, _, _ => rfl
  | ie :: ies, i, htold, h => by
    obtain ⟨hie, hies⟩ := List.forall_mem_cons.1 htold
    rw [List.flatMap_cons, List.append_assoc] at h
    have hrest := drop_add_of_drop h
    rw [List.length_cons, fieldsAt, fieldAt_of_drop hie h, List.mapM_cons]
    rcases model.received ie with _ | ie'
    · rfl
    · simp only [Option.map_some, Option.bind_some, Option.bind_eq_bind]
      rw [fieldsAt_of_drop hies hrest, WireTemplate.length_fieldBytes]
      rcases ies.mapM model.received with _ | ies'
      · rfl
      · simp [WireTemplate.fieldsLen, Nat.add_assoc]

/-! ## Records -/

/-- The record of a template is legible: it says how many fields there are, and each says how long
it is. -/
structure WireTemplate.Legible (wt : WireTemplate) : Prop where
  count : wt.ies.length < 2 ^ 16
  told : ∀ ie ∈ wt.ies, ie.Told

theorem recordAt_of_drop {wt : WireTemplate} (hwt : wt.Legible)
    (h : mem.drop i = wt.templateRecord ++ b) : recordAt model mem i =
      (wt.ies.mapM model.received).map fun ies =>
        (⟨wt.tid, ies⟩, i + wt.templateRecord.length) := by
  rw [WireTemplate.length_templateRecord, kTemplateHeaderLen]
  rw [WireTemplate.templateRecord, List.append_assoc, List.append_assoc] at h
  have hcount := drop_uint16 h
  have hfields := drop_uint16 hcount
  have htoNat : (UInt16.ofNat wt.ies.length).toNat = wt.ies.length := by
    rw [UInt16.toNat_ofNat', Nat.mod_eq_of_lt hwt.count]
  rw [recordAt, be16_of_drop h, be16_of_drop hcount]
  simp only [Option.bind_eq_bind, Option.bind_some]
  rw [htoNat, fieldsAt_of_drop hwt.told hfields]
  rcases wt.ies.mapM model.received with _ | ies
  · rfl
  · simp [Nat.add_assoc]

/-- The bytes are a record that says `d` to a reader with the model, wherever they stand. -/
structure Tells (model : InfoModel) (bytes : List UInt8) (d : Definition) : Prop where
  record : ∀ {mem b : List UInt8} {i : ℕ}, mem.drop i = bytes ++ b →
    recordAt model mem i = some (d, i + bytes.length)
  usable : Session.Usable d

theorem Tells.length_ge {bytes : List UInt8} {d : Definition} (h : Tells model bytes d) :
    kTemplateHeaderLen ≤ bytes.length := by
  have hrecord : recordAt model bytes 0 = some (d, 0 + bytes.length) :=
    h.record (List.append_nil bytes).symm
  have hle := le_of_recordAt hrecord
  omega

/-! ## The session -/

namespace Session

/-- The elements of the active templates. -/
def known (s : Session) (k : WireTemplateKey) : Option (List InfoElement) :=
  (s.find k).bind fun wt => if wt.active then some wt.ies else none

/-- No template is unfinished. -/
def Neat (s : Session) : Prop := ∀ k, leftover k s = []

/-- What a definition makes of what is known. -/
def learn (domain : UInt32) (d : Definition)
    (known : WireTemplateKey → Option (List InfoElement)) :
    WireTemplateKey → Option (List InfoElement) :=
  Function.update known (domain, d.tid) (if d.ies = [] then none else some d.ies)

variable {s t : Session} {k : WireTemplateKey} {d : Definition} {domain : UInt32}
  {xc : Transcoder}

theorem neat_new : Neat new := fun _ => rfl

theorem known_of_find {wt : WireTemplate} (h : s.find k = some wt) (hactive : wt.active = true) :
    s.known k = some wt.ies := by
  rw [known, h, Option.bind_some, if_pos hactive]

theorem find_of_known {ies : List InfoElement} (h : s.known k = some ies) :
    ∃ wt, s.find k = some wt ∧ wt.active = true ∧ wt.ies = ies := by
  obtain ⟨wt, hfind, h⟩ := Option.bind_eq_some_iff.1 h
  split_ifs at h with hactive
  cases h
  exact ⟨wt, hfind, hactive, rfl⟩

theorem known_of_defined (hsame : SameBut (domain, d.tid) s t)
    (hdef : Defined (domain, d.tid) [] d.ies t) : t.known = learn domain d s.known := by
  funext k
  by_cases hk : k = (domain, d.tid)
  · subst hk
    rw [learn, Function.update_self]
    split_ifs with hies
    · rw [known, hdef.withdrawn hies, Option.bind_none]
    · obtain ⟨wt, hfind, hactive, hwt⟩ := hdef.redefined hies
      rw [known_of_find hfind hactive, hwt, List.nil_append]
  · rw [learn, Function.update_of_ne hk, known, hsame k hk, known]

theorem neat_of_defined (h : Neat s) (hsame : SameBut (domain, d.tid) s t)
    (hdef : Defined (domain, d.tid) [] d.ies t) : Neat t := by
  intro k
  by_cases hk : k = (domain, d.tid)
  · subst hk
    by_cases hies : d.ies = []
    · rw [leftover, hdef.withdrawn hies]
    · obtain ⟨wt, hfind, hactive, -⟩ := hdef.redefined hies
      rw [leftover, hfind]
      exact if_pos hactive
  · rw [leftover, hsame k hk]
    exact h k

/-- A record ahead is read, and then its template is known. -/
theorem run_decodeTemplateRecord (domain : UInt32) {n : ℕ} (h : xc.Sound) (hneat : Neat s)
    (hrecord : recordAt model xc.mem xc.cur = some (d, n)) (hd : Usable d) :
    ∃ t, (decodeTemplateRecord model domain).run (xc, s) = (.ok true, (xc.seek n, t)) ∧
      OnTo xc n ∧ Neat t ∧ t.known = learn domain d s.known := by
  obtain ⟨t, n', hn, ⟨d', hd', -, hsame, hdef, hrun⟩ | ⟨hnot, -⟩⟩ :=
    decodeTemplateRecord_cases model domain s h
  · rw [hrecord] at hd'
    cases hd'
    rw [hneat] at hdef
    exact ⟨t, hrun, hn, neat_of_defined hneat hsame hdef, known_of_defined hsame hdef⟩
  · exact absurd hd (hnot d n hrecord)

end Session

/-! ## Templates that come back -/

/-- Elements that a model has at their lengths. -/
def InfoModel.Has (model : InfoModel) (ie : InfoElement) : Prop :=
  model.lookupIE ie.pen ie.number ie.len = some ie

instance : Decidable (model.Has ie) := inferInstanceAs (Decidable (_ = _))

theorem or_enterpriseBit {n : UInt16} (h : n &&& kEnterpriseBit ≠ 0) :
    n ||| kEnterpriseBit = n := by
  have hbit : kEnterpriseBit.toBitVec = BitVec.twoPow 16 15 := by decide
  have hset : n.toBitVec.getLsbD 15 = true := by
    by_contra hnot
    refine h (UInt16.toBitVec_inj.1 ?_)
    rw [UInt16.toBitVec_and, hbit, BitVec.and_twoPow, if_neg hnot]
    rfl
  rw [← UInt16.toBitVec_inj, UInt16.toBitVec_or, hbit]
  ext j hj
  rw [BitVec.getElem_or, BitVec.getElem_twoPow]
  by_cases hj' : j = 15
  · subst hj'
    rw [← BitVec.getLsbD_eq_getElem, hset]
    rfl
  · simp [hj']

theorem mapM_received : ∀ {ies : List InfoElement},
    ies.mapM model.received = some ies ↔ ∀ ie ∈ ies, model.received ie = some ie
  | [] => by simp
  | ie :: ies => by
    rw [List.mapM_cons, List.forall_mem_cons, ← mapM_received]
    rcases model.received ie with _ | ie'
    · simp
    · rcases ies.mapM model.received with _ | ies'
      · simp
      · simp

theorem key_of_lookupIE (hfiled : model.Filed) {pen : UInt32} {number len : UInt16}
    (h : model.lookupIE pen number len = some ie) : ie.number = number := by
  rw [InfoModel.lookupIE_eq, Option.map_eq_some_iff] at h
  obtain ⟨ie', hfind, rfl⟩ := h
  have hkey := (Registry.key_forLen ie' len).trans (hfiled _ ie' hfind)
  exact congrArg Prod.snd hkey

/-- The element is looked up under its own number just where that has the enterprise bit along with
the enterprise. -/
theorem received_iff (hfiled : model.Filed) (hhas : model.Has ie) :
    model.received ie = some ie ↔ (ie.pen ≠ 0 → ie.number &&& kEnterpriseBit ≠ 0) := by
  rw [InfoModel.received, InfoElement.wireNumber]
  by_cases hpen : ie.pen ≠ 0
  · rw [if_pos hpen]
    constructor
    · intro h _
      rw [key_of_lookupIE hfiled h, enterpriseBit_of_wireNumber]
      decide
    · intro h
      rw [or_enterpriseBit (h hpen)]
      exact hhas
  · rw [if_neg hpen]
    exact iff_of_true hhas fun h => absurd h hpen

namespace WireTemplate

theorem trlen_le (domain : UInt32) (tid : UInt16) (ops : List Op) :
    (after domain tid ops).trlen ≤ (after domain tid ops).templateRecord.length := by
  have hlacks := after_lacks domain tid ops
  rw [Lacks] at hlacks
  rw [length_templateRecord]
  omega

theorem mem_put {xc : Transcoder} {bs : List UInt8} (h : xc.Sound) (hbs : bs.length ≤ xc.avail) :
    ((xc.put bs).seek xc.cur).mem.drop xc.cur =
      bs ++ (xc.buf.take xc.max).drop (xc.cur + bs.length) := by
  have hcur := h.cur_le
  rw [avail_of_le hcur] at hbs
  have hroom : xc.cur + bs.length ≤ xc.max := by omega
  change ((Bytes.splice xc.buf xc.cur bs).take xc.max).drop xc.cur = _
  have hlen : xc.cur ≤ (xc.buf.take xc.max).length := hcur.trans h.length_mem.ge
  rw [Bytes.take_splice_below hroom h.max_le, Bytes.drop_splice hlen]

/-- The reader knows the template that was written just where the model has each of its elements as
it is under the number that was written. -/
theorem decodes_iff {wt : WireTemplate} (hlegible : wt.Legible) (hies : wt.ies ≠ [])
    (htid : ¬ wt.tid < kMinSetID) {xc : Transcoder} (h : xc.Sound)
    (hroom : wt.templateRecord.length ≤ xc.avail) {s : Session} (hneat : s.Neat)
    (domain : UInt32) :
    (∃ s', (Session.decodeTemplateRecord model domain).run
        ((xc.put wt.templateRecord).seek xc.cur, s) =
          (.ok true, (xc.put wt.templateRecord, s')) ∧
      s'.known (domain, wt.tid) = some wt.ies) ↔ wt.ies.mapM model.received = some wt.ies := by
  have hback : ((xc.put wt.templateRecord).seek xc.cur).Sound := sound_seek (h.put hroom) h.cur_le
  have hend : ((xc.put wt.templateRecord).seek xc.cur).seek
      (xc.cur + wt.templateRecord.length) = xc.put wt.templateRecord := rfl
  have hrecord : recordAt model ((xc.put wt.templateRecord).seek xc.cur).mem xc.cur = _ :=
    recordAt_of_drop hlegible (mem_put h hroom)
  rcases hmap : wt.ies.mapM model.received with _ | ies'
  · refine iff_of_false ?_ (by simp)
    rintro ⟨s', hdecode, -⟩
    obtain ⟨t, n, -, ⟨d, hd, -⟩ | ⟨-, -, r, hdecode', hr⟩⟩ :=
      Session.decodeTemplateRecord_cases model domain s hback
    · rw [hmap, Option.map_none] at hrecord
      exact absurd (hrecord.symm.trans hd) (by simp)
    · rw [hdecode'] at hdecode
      exact absurd (congrArg Prod.fst hdecode) hr
  · rw [hmap, Option.map_some] at hrecord
    obtain ⟨s', hdecode, -, -, hknown⟩ := Session.run_decodeTemplateRecord
      domain hback hneat hrecord (.inr htid)
    have hlearnt : s'.known (domain, wt.tid) = if ies' = [] then none else some ies' := by
      rw [hknown, Session.learn, Function.update_self]
    constructor
    · rintro ⟨s'', hdecode', hsame⟩
      obtain rfl : s'' = s' := congrArg (fun r => r.2.2) (hdecode'.symm.trans hdecode)
      rw [hlearnt] at hsame
      split_ifs at hsame
      exact hsame
    · intro hsame
      obtain rfl := Option.some.inj hsame
      exact ⟨s', hdecode, by rw [hlearnt, if_neg hies]⟩

/-- A template is written and read back with a model that was filled by `add` and has its elements:
the reader then knows the template as it was just where the numbers of the elements with an
enterprise have the enterprise bit already. -/
theorem template_comes_back_iff {ies : List InfoElement} {r : Except Error Unit} {m : Registry}
    (hadds : (Attempt.forEach Registry.add ies).run Registry.new = (r, m)) (domain : UInt32)
    (tid : UInt16) (ops : List Op) (hactive : (after domain tid ops).active = true)
    (hlegible : (after domain tid ops).Legible) (hies : (after domain tid ops).ies ≠ [])
    (htid : ¬ (after domain tid ops).tid < kMinSetID)
    (hhas : ∀ ie ∈ (after domain tid ops).ies, m.Has ie) {xc : Transcoder} (h : xc.Sound)
    (hroom : (after domain tid ops).templateRecord.length ≤ xc.avail) {s : Session} (hneat : s.Neat)
    (domain' : UInt32) :
    ∃ t, (after domain tid ops).encodeTemplateRecord.run xc = (.ok true, t) ∧
      ((∃ s', (Session.decodeTemplateRecord m.toInfoModel domain').run (t.seek xc.cur, s) =
          (.ok true, (t, s')) ∧
        s'.known (domain', (after domain tid ops).tid) = some (after domain tid ops).ies) ↔
      ∀ ie ∈ (after domain tid ops).ies, ie.pen ≠ 0 → ie.number &&& kEnterpriseBit ≠ 0) := by
  have htrlen := trlen_le domain tid ops
  generalize after domain tid ops = wt at *
  have hfiled := Registry.filed_of_adds hadds
  have hrun := run_encodeTemplateRecord_room hactive h (htrlen.trans hroom) hroom
  have hiff : wt.ies.mapM m.received = some wt.ies ↔
      ∀ ie ∈ wt.ies, ie.pen ≠ 0 → ie.number &&& kEnterpriseBit ≠ 0 := by
    rw [mapM_received]
    exact forall₂_congr fun ie hie => received_iff hfiled (hhas ie hie)
  exact ⟨_, hrun, (decodes_iff hlegible hies htid h hroom hneat domain').trans hiff⟩

/-- An element of an enterprise. -/
def tcpSequenceCount : InfoElement := ⟨"tcpSequenceCount", 35566, 1024, IEType.unsigned64, 8⟩

/-- The octet counter comes back, and the enterprise's element is unknown. -/
theorem template_comes_back_enterprise : ∃ t,
    (after 1 256 [.mimic [octetDeltaCount, tcpSequenceCount]]).encodeTemplateRecord.run
      ⟨List.replicate 20 0, 0, none, 20, none, none, none⟩ = (.ok true, t) ∧
    ¬ ∃ s', (Session.decodeTemplateRecord (Registry.registerAll
        [octetDeltaCount, tcpSequenceCount] .new).toInfoModel 7).run (t.seek 0, .new) =
          (.ok true, (t, s')) ∧
        s'.known (7, (after 1 256 [.mimic [octetDeltaCount, tcpSequenceCount]]).tid) =
          some (after 1 256 [.mimic [octetDeltaCount, tcpSequenceCount]]).ies := by
  have hadds : (Attempt.forEach Registry.add [octetDeltaCount, tcpSequenceCount]).run .new =
      (.ok (), Registry.registerAll [octetDeltaCount, tcpSequenceCount] .new) := rfl
  have hsound : Transcoder.Sound ⟨List.replicate 20 0, 0, none, 20, none, none, none⟩ :=
    ⟨by decide, by decide⟩
  obtain ⟨t, hencode, hiff⟩ := template_comes_back_iff hadds 1 256
    [.mimic [octetDeltaCount, tcpSequenceCount]] rfl ⟨by decide, by decide⟩ (by decide) (by decide)
    (by decide) hsound (by decide) Session.neat_new 7
  refine ⟨t, hencode, fun hback => ?_⟩
  have hbit := hiff.1 hback tcpSequenceCount (List.mem_cons_of_mem _ List.mem_cons_self) (by decide)
  exact absurd hbit (by decide)

end WireTemplate

end DStreamon.Ipfix
