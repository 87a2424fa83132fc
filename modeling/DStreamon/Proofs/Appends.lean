import DStreamon.Proofs.Records
import DStreamon.Proofs.WireTemplate

/-!
# What encoders append

Whatever an encoder of a record does, it appends to what is written, or it fails, and it does not
fail where the template is active and each element has a length that its type permits.  The ends of
sets and messages write over the headers that are there.
-/

namespace DStreamon.Ipfix

namespace Transcoder

variable {α β : Type} {xc t : Transcoder} {bs cs : List UInt8} {c : Prop}

/-- It appends some bytes and gives a value, or fails, which it does not where `c` holds. -/
def Appends (x : Attempt Error Transcoder α) (c : Prop) : Prop :=
  ∀ xc : Transcoder, xc.Sound →
    (∃ a bs, x.run xc = (.ok a, xc.put bs) ∧ bs.length ≤ xc.avail) ∨
      ¬ c ∧ ∃ e t, x.run xc = (.error e, t)

theorem appends_pure (a : α) : Appends (pure a) c := fun xc _ =>
  .inl ⟨a, [], by rw [Attempt.run_pure, put_nil], Nat.zero_le _⟩

theorem Appends.bind {x : Attempt Error Transcoder α} {f : α → Attempt Error Transcoder β}
    (hx : Appends x c) (hf : ∀ a, Appends (f a) c) : Appends (x >>= f) c := by
  intro xc h
  obtain ⟨a, bs, hrun, hbs⟩ | ⟨hc, e, t, hrun⟩ := hx xc h
  · have hput := avail_put h hbs
    rw [Attempt.run_bind_of_ok hrun]
    obtain ⟨b, cs, hrun, hcs⟩ | herr := hf a (xc.put bs) (h.put hbs)
    · refine .inl ⟨b, bs ++ cs, by rw [hrun, put_put h], ?_⟩
      rw [List.length_append]
      omega
    · exact .inr herr
  · exact .inr ⟨hc, e, t, Attempt.run_bind_of_error hrun⟩

theorem Appends.mono {x : Attempt Error Transcoder α} {c' : Prop} (hx : Appends x c)
    (h : c' → c) : Appends x c' := fun xc hxc => (hx xc hxc).imp_right (.imp_left (mt h))

theorem appends_forEach {ι : Type} {g : ι → Attempt Error Transcoder Unit}
    (hg : ∀ i, Appends (g i) c) : ∀ is : List ι, Appends (Attempt.forEach g is) c
  | [] => appends_pure ()
  | i :: is => (hg i).bind fun _ => appends_forEach hg is

theorem appends_encode (val : List UInt8) (ie : InfoElement) :
    Appends (encode val ie) (ie.ietype.permitsLength (contentLen ie val) = true) := by
  intro xc h
  rcases Nat.lt_or_ge xc.avail (wire ie val).length with hroom | hroom
  · exact .inl ⟨false, [], by rw [run_encode_full hroom, put_nil], Nat.zero_le _⟩
  by_cases hp : ie.ietype.permitsLength (contentLen ie val) = true
  · exact .inl ⟨true, _, run_encode h hp hroom, hroom⟩
  · exact .inr ⟨hp, run_encode_refused hp hroom⟩

theorem appends_encodeZero (ie : InfoElement) :
    Appends (encodeZero ie) (ie.ietype.permitsLength ie.len.toNat = true) := by
  intro xc h
  rw [encodeZero, Attempt.run_get_bind]
  split_ifs with hp hroom
  · exact .inr ⟨by simpa using hp, _, _, rfl⟩
  · exact .inl ⟨false, [], by rw [Attempt.run_pure, put_nil], Nat.zero_le _⟩
  · exact .inl ⟨true, List.replicate ie.len.toNat 0, rfl, by
      rw [List.length_replicate]
      exact Nat.not_lt.1 hroom⟩

theorem appends_encodeUint16 (v : UInt16) : Appends (encodeUint16 v) c :=
  (appends_encode _ u16ie).mono fun _ => rfl

theorem appends_encodeUint32 (v : UInt32) : Appends (encodeUint32 v) c :=
  (appends_encode _ u32ie).mono fun _ => rfl

/-- `t` has `bs` behind what `xc` has, in the same buffer with the same headers open. -/
structure Extends (xc t : Transcoder) (bs : List UInt8) : Prop where
  sound : t.Sound
  written : t.written = xc.written ++ bs
  max : t.max = xc.max
  length : t.buf.length = xc.buf.length
  msgBase : t.msgBase = xc.msgBase
  setStart : t.setStart = xc.setStart

theorem length_put (h : xc.Sound) (hbs : bs.length ≤ xc.avail) :
    (xc.put bs).buf.length = xc.buf.length := by
  rw [avail_of_le h.cur_le] at hbs
  have hmax := h.max_le
  have hcur := h.cur_le
  rw [put, Bytes.length_splice (by omega)]

theorem extends_put (h : xc.Sound) (hbs : bs.length ≤ xc.avail) : Extends xc (xc.put bs) bs where
  sound := h.put hbs
  written := written_put h
  max := rfl
  length := length_put h hbs
  msgBase := rfl
  setStart := rfl

theorem extends_refl (h : xc.Sound) : Extends xc xc [] :=
  ⟨h, (List.append_nil _).symm, rfl, rfl, rfl, rfl⟩

/-! ## Headers -/

theorem Writes.run_bind {x : Attempt Error Transcoder α} {f : α → Attempt Error Transcoder β}
    {a : α} (hx : Writes x a bs) (h : xc.Sound) (hroom : bs.length ≤ xc.avail) :
    (x >>= f).run xc = (f a).run (xc.put bs) := Attempt.run_bind_of_ok (hx xc h hroom)

theorem writes_insist {x : Attempt Error Transcoder Bool} (hx : Writes x true bs) (what : String) :
    Writes (insist what x) () bs := by
  intro xc h hroom
  rw [insist, hx.run_bind h hroom]
  rfl

def setHeader (id len : UInt16) : List UInt8 := uint16Bytes id ++ uint16Bytes len

def messageHeader (len : UInt16) (exportTime sequence domain : UInt32) : List UInt8 :=
  uint16Bytes (UInt16.ofNat kIpfixVersion) ++ (uint16Bytes len ++
    (uint32Bytes exportTime ++ (uint32Bytes sequence ++ uint32Bytes domain)))

@[simp] theorem length_setHeader (id len : UInt16) : (setHeader id len).length = kSetHeaderLen := by
  simp [setHeader, kSetHeaderLen]

@[simp] theorem length_messageHeader (len : UInt16) (exportTime sequence domain : UInt32) :
    (messageHeader len exportTime sequence domain).length = kMessageHeaderLen := by
  simp [messageHeader, kMessageHeaderLen]

theorem run_encodeMessageStart (hbase : xc.msgBase = none) (hroom : kMessageHeaderLen ≤ xc.avail) :
    encodeMessageStart.run xc =
      (.ok true, { xc with msgBase := some xc.cur, cur := xc.cur + kMessageHeaderLen }) := by
  have hopen : ¬ kMessageHeaderLen > ({ xc with msgBase := some xc.cur } : Transcoder).avail :=
    Nat.not_lt.2 hroom
  rw [encodeMessageStart, Attempt.run_get_bind, hbase, if_neg (by simp),
    if_neg (Nat.not_lt.2 hroom), Attempt.run_modify_bind, advance, Attempt.run_get_bind,
    if_neg hopen]
  rfl

theorem run_encodeSetStart (h : xc.Sound) (hstart : xc.setStart = none)
    (hroom : kSetHeaderLen ≤ xc.avail) (id : UInt16) : (encodeSetStart id).run xc =
      (.ok true, { xc with setStart := some xc.cur }.put (setHeader id 0)) := by
  have hopen : ({ xc with setStart := some xc.cur } : Transcoder).Sound := ⟨h.cur_le, h.max_le⟩
  have hroom₂ : 2 + 2 ≤ ({ xc with setStart := some xc.cur } : Transcoder).avail := hroom
  have hid : (uint16Bytes id).length ≤
      ({ xc with setStart := some xc.cur } : Transcoder).avail := by
    rw [length_uint16Bytes]
    omega
  have hlen : (uint16Bytes 0).length ≤
      ({ xc with setStart := some xc.cur }.put (uint16Bytes id) : Transcoder).avail := by
    rw [avail_put hopen hid, length_uint16Bytes, length_uint16Bytes]
    omega
  rw [encodeSetStart, Attempt.run_get_bind, hstart, if_neg (by simp),
    if_neg (Nat.not_lt.2 hroom), Attempt.run_modify_bind,
    (writes_insist (writes_encodeUint16 id) _).run_bind hopen hid,
    (writes_insist (writes_encodeUint16 0) _).run_bind (hopen.put hid) hlen, put_put hopen]
  rfl

theorem run_encodeSetStart_full (hstart : xc.setStart = none) (hroom : xc.avail < kSetHeaderLen)
    (id : UInt16) : (encodeSetStart id).run xc = (.ok false, xc) := by
  rw [encodeSetStart, Attempt.run_get_bind, hstart, if_neg (by simp), if_pos hroom]
  rfl

/-- Bytes written over those from `i` on. -/
def overwrite (i : ℕ) (bs : List UInt8) (xc : Transcoder) : Transcoder :=
  { xc with buf := Bytes.splice xc.buf i bs }

theorem run_encodeSetEnd {base : ℕ} (h : xc.Sound) (hstart : xc.setStart = some base)
    (hbase : base + kSetHeaderLen ≤ xc.cur) : encodeSetEnd.run xc =
      (.ok (), { xc.overwrite (base + kSetLenOffset)
          (uint16Bytes (UInt16.ofNat (xc.cur - base))) with
        setStart := none }) := by
  have hcur := h.cur_le
  simp only [kSetHeaderLen] at hbase
  have hback : ({ xc with cur := base + kSetLenOffset } : Transcoder).Sound :=
    ⟨show base + 2 ≤ xc.max by omega, h.max_le⟩
  have hlen : (uint16Bytes (UInt16.ofNat (xc.cur - base))).length ≤
      ({ xc with cur := base + kSetLenOffset } : Transcoder).avail := by
    rw [length_uint16Bytes, avail_of_le hback.cur_le]
    change 2 ≤ xc.max - (base + 2)
    omega
  rw [encodeSetEnd, Attempt.run_get_bind, hstart]
  dsimp only
  rw [Attempt.run_modify_bind, (writes_insist (writes_encodeUint16 _) _).run_bind hback hlen]
  rfl

theorem run_encodeMessageEnd {base : ℕ} (h : xc.Sound) (hmsg : xc.msgBase = some base)
    (hbase : base + kMessageHeaderLen ≤ xc.cur) (exportTime sequence domain : UInt32) :
    (encodeMessageEnd exportTime sequence domain).run xc =
      (.ok (), { xc.overwrite base (messageHeader (UInt16.ofNat (xc.cur - base)) exportTime sequence
        domain) with msgBase := none }) := by
  have hcur := h.cur_le
  simp only [kMessageHeaderLen] at hbase
  have hback : ({ xc with cur := base } : Transcoder).Sound :=
    ⟨show base ≤ xc.max by omega, h.max_le⟩
  have hroom : 2 + (2 + (4 + (4 + 4))) ≤ ({ xc with cur := base } : Transcoder).avail := by
    rw [avail_of_le hback.cur_le]
    change 16 ≤ xc.max - base
    omega
  have hwhole : Writes (do
      insist "unexpected failure in encodeMessageEnd()" (encodeUint16 (UInt16.ofNat kIpfixVersion))
      insist "unexpected failure in encodeMessageEnd()"
        (encodeUint16 (UInt16.ofNat (xc.cur - base)))
      insist "unexpected failure in encodeMessageEnd()" (encodeUint32 exportTime)
      insist "unexpected failure in encodeMessageEnd()" (encodeUint32 sequence)
      insist "unexpected failure in encodeMessageEnd()" (encodeUint32 domain)) ()
      (messageHeader (UInt16.ofNat (xc.cur - base)) exportTime sequence domain) :=
    (writes_insist (writes_encodeUint16 _) _).bind <|
      (writes_insist (writes_encodeUint16 _) _).bind <|
      (writes_insist (writes_encodeUint32 _) _).bind <|
      (writes_insist (writes_encodeUint32 _) _).bind (writes_insist (writes_encodeUint32 _) _)
  rw [encodeMessageEnd, Attempt.run_get_bind, hmsg]
  dsimp only
  have hrun := hwhole.run_bind (f := fun _ => Attempt.modify fun t : Transcoder =>
    { t with msgBase := none, cur := xc.cur }) hback hroom
  simp only [bind_assoc] at hrun
  rw [Attempt.run_modify_bind, hrun]
  rfl

/-- A number in the middle of a memory. -/
theorem be16_append (a : List UInt8) (v : UInt16) (b : List UInt8) :
    Bytes.be16 (a ++ (uint16Bytes v ++ b)) a.length = some v := by
  have hlen : a.length + 2 ≤ (a ++ (uint16Bytes v ++ b)).length := by
    rw [List.length_append, List.length_append, length_uint16Bytes]
    omega
  have htake : (uint16Bytes v ++ b).take 2 = uint16Bytes v := List.take_left' (length_uint16Bytes v)
  rw [Bytes.be16_eq hlen, List.drop_left, htake, uint16Bytes, List.reverse_reverse,
    Bytes.value_le v.toNat_lt, UInt16.ofNat_toNat]

/-- It appends a record and says so, or appends nothing and says so, or fails, which it does not
where `c` holds. -/
def Records (x : Attempt Error Transcoder Bool) (c : Prop) : Prop :=
  ∀ xc : Transcoder, xc.Sound →
    (∃ t bs, x.run xc = (.ok true, t) ∧ Extends xc t bs) ∨
    (∃ t, x.run xc = (.ok false, t) ∧ Extends xc t []) ∨ ¬ c ∧ ∃ e t, x.run xc = (.error e, t)

theorem Records.mono {x : Attempt Error Transcoder Bool} {c' : Prop} (hx : Records x c)
    (h : c' → c) : Records x c' := fun xc hxc =>
  (hx xc hxc).imp_right (.imp_right (.imp_left (mt h)))

end Transcoder

namespace WireTemplate

open Transcoder

variable {st : StructTemplate} {s : Struct}

theorem appends_encodeElement (ie : InfoElement) :
    Appends (encodeElement st s ie) (Permitted st s ie) := by
  rw [Permitted]
  cases hslot : st.slot ie with
  | none =>
    rw [encodeElement_none hslot]
    exact appends_encodeZero ie
  | some slot =>
    rw [encodeElement_some hslot]
    exact appends_encode _ ie

theorem appends_encodeElements (st : StructTemplate) (s : Struct) : ∀ ies : List InfoElement,
    Appends (encodeElements st s ies) (∀ ie ∈ ies, Permitted st s ie)
  | [] => appends_pure true
  | ie :: ies => by
    refine ((appends_encodeElement ie).mono fun h => (List.forall_mem_cons.1 h).1).bind fun b => ?_
    cases b with
    | false => exact appends_pure false
    | true => exact (appends_encodeElements st s ies).mono fun h => (List.forall_mem_cons.1 h).2

theorem appends_encodeField {c : Prop} (ie : InfoElement) : Appends (encodeField ie) c := by
  rw [encodeField]
  split_ifs
  · exact (appends_encodeUint16 _).bind fun _ => (appends_encodeUint16 _).bind fun _ =>
      (appends_encodeUint32 _).bind fun _ => appends_pure ()
  · exact (appends_encodeUint16 _).bind fun _ => (appends_encodeUint16 _).bind fun _ =>
      appends_pure ()

theorem records_encodeTemplateRecord (wt : WireTemplate) :
    Records wt.encodeTemplateRecord (wt.active = true) := by
  intro xc h
  rw [encodeTemplateRecord]
  split_ifs with hactive
  · exact .inr (.inr ⟨by simpa using hactive, _, _, rfl⟩)
  rw [Attempt.run_get_bind]
  split_ifs with hroom
  · exact .inr (.inl ⟨xc, rfl, extends_refl h⟩)
  have hbody : Appends (encodeUint16 wt.tid >>= fun _ => encodeUint16 (UInt16.ofNat wt.ies.length)
      >>= fun _ => Attempt.forEach encodeField wt.ies) True :=
    (appends_encodeUint16 _).bind fun _ => (appends_encodeUint16 _).bind fun _ =>
      appends_forEach appends_encodeField _
  obtain ⟨a, bs, hrun, hbs⟩ | ⟨hc, -⟩ := hbody xc h
  · refine .inl ⟨xc.put bs, bs, ?_, extends_put h hbs⟩
    have htrue := Attempt.run_bind_of_ok (f := fun _ => pure true) hrun
    simpa only [bind_assoc, Attempt.run_pure] using htrue
  · exact absurd trivial hc

theorem records_encode (wt : WireTemplate) :
    Records (wt.encode st s) (wt.active = true ∧ ∀ ie ∈ wt.ies, Permitted st s ie) := by
  intro xc h
  rw [encode]
  split_ifs with hactive
  · exact .inr (.inr ⟨fun hc => by simp [hc.1] at hactive, _, _, rfl⟩)
  rw [Attempt.run_get_bind]
  split_ifs with hroom
  · exact .inr (.inl ⟨xc, rfl, extends_refl h⟩)
  rw [Attempt.run_modify_bind]
  have hcheck : xc.checkpoint.Sound := ⟨h.cur_le, h.max_le⟩
  obtain ⟨b, bs, hrun, hbs⟩ | ⟨hc, e, t, hrun⟩ :=
    appends_encodeElements st s wt.ies xc.checkpoint hcheck
  · rw [Attempt.run_bind_of_ok hrun]
    have hext := extends_put hcheck hbs
    cases b with
    | true => exact .inl ⟨_, bs, rfl, hext.sound, hext.written, rfl, hext.length, rfl, rfl⟩
    | false =>
      refine .inr (.inl ⟨_, rfl, ⟨h.cur_le, hext.sound.max_le⟩, ?_, rfl, hext.length, rfl, rfl⟩)
      have htake := congrArg (List.take xc.cur) hext.written
      change ((xc.checkpoint.put bs).buf.take xc.cur) = xc.written ++ []
      rw [Transcoder.written, List.take_take, put_cur,
        min_eq_left (show xc.cur ≤ xc.checkpoint.cur + bs.length from Nat.le_add_right _ _)]
        at htake
      rw [htake, List.append_nil, ← h.length_written]
      exact List.take_left
  · exact .inr (.inr ⟨fun hc' => hc hc'.2, e, t, Attempt.run_bind_of_error hrun⟩)

end WireTemplate

end DStreamon.Ipfix
