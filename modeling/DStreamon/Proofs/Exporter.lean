import DStreamon.Exporter
import DStreamon.Lib.Ends
import DStreamon.Lib.StepRun
import DStreamon.Proofs.Appends
import DStreamon.Proofs.Session

/-!
# The exporter's sequence

The flag, the set ID, the template and the transcoder's open headers go together, and the bytes
written are a header and the sets, the last one without its length.  Whatever holds of the sets of a
message and its domain holds of the messages that are sent.
-/

namespace DStreamon.Ipfix

open Transcoder

/-! ## Messages on the wire -/

namespace SetWritten

def content (s : SetWritten) : List UInt8 := s.records.flatMap Written.bytes

def wire (s : SetWritten) : List UInt8 :=
  setHeader s.id (UInt16.ofNat (kSetHeaderLen + s.content.length)) ++ s.content

/-- While the set is open its length is not known. -/
def openWire (s : SetWritten) : List UInt8 := setHeader s.id 0 ++ s.content

def add (r : Written) (s : SetWritten) : SetWritten := { s with records := s.records ++ [r] }

@[simp] theorem content_add (r : Written) (s : SetWritten) :
    (s.add r).content = s.content ++ r.bytes := by
  simp [content, add]

@[simp] theorem content_empty (id : UInt16) : (SetWritten.mk id []).content = [] := rfl

theorem length_wire (s : SetWritten) : s.wire.length = kSetHeaderLen + s.content.length := by
  rw [wire, List.length_append, length_setHeader]

end SetWritten

def setsWire (sets : List SetWritten) : List UInt8 := sets.flatMap SetWritten.wire

def Message.wire (exportTime : UInt32) (m : Message) : List UInt8 :=
  messageHeader (UInt16.ofNat (kMessageHeaderLen + (setsWire m.sets).length)) exportTime 0
      m.domain ++
    setsWire m.sets

theorem setsWire_eq_nil {sets : List SetWritten} (h : (setsWire sets).length = 0) : sets = [] := by
  cases sets with
  | nil => rfl
  | cons s sets =>
    rw [setsWire, List.flatMap_cons, List.length_append, s.length_wire, kSetHeaderLen] at h
    omega

theorem setsWire_append (sets : List SetWritten) (s : SetWritten) :
    setsWire (sets ++ [s]) = setsWire sets ++ s.wire := by
  simp [setsWire]

namespace Transcoder

variable {xc : Transcoder} {bs : List UInt8} {i : ℕ}

theorem written_over (h : xc.Sound) (hi : i + bs.length ≤ xc.cur) :
    (xc.overwrite i bs).written = Bytes.splice xc.written i bs :=
  Bytes.take_splice_below hi h.cur_le_length

theorem length_over (h : xc.Sound) (hi : i + bs.length ≤ xc.cur) :
    (xc.overwrite i bs).buf.length = xc.buf.length :=
  Bytes.length_splice (hi.trans h.cur_le_length)

end Transcoder

namespace Exporter

/-- The sets of the message under way. -/
def current (e : Exporter) : List SetWritten := e.sets ++ e.opened.toList

/-- The transcoder is where the flag and the sets say. -/
structure InSequence (e : Exporter) : Prop where
  sound : e.xcoder.Sound
  max_eq : e.xcoder.max = e.mtu
  length_eq : e.xcoder.buf.length = e.mtu
  msgBase : e.xcoder.msgBase = some 0
  setStart : e.xcoder.setStart =
    e.opened.map fun _ => kMessageHeaderLen + (setsWire e.sets).length
  active : e.setActive = e.opened.isSome
  written : ∃ head : List UInt8, head.length = kMessageHeaderLen ∧
    e.xcoder.written = head ++ (setsWire e.sets ++ e.opened.elim [] SetWritten.openWire)
  sent : ∀ m ∈ e.sent, (∃ exportTime, m.bytes = m.wire exportTime) ∧ m.bytes.length ≤ e.mtu

/-- `J` holds of the domain, the sets under way and the messages sent; `n` is the size of the
buffer. -/
structure Inv (J : UInt32 → List SetWritten → List Message → Prop) (n : ℕ) (e : Exporter) :
    Prop extends InSequence e where
  mtu_eq : e.mtu = n
  tids : ∀ k wt, e.session.find k = some wt → wt.tid = k.2
  opened_id : ∀ s, e.opened = some s → s.id = e.setId
  tmpl_id : ∀ k, e.tmpl = some k → k.2 = e.setId ∧ ¬ k.2 < kMinSetID
  ghost : J e.domain e.current e.sent

/-- What a call does not change that only writes. -/
structure Same (e t : Exporter) : Prop where
  setId : t.setId = e.setId
  tmpl : t.tmpl = e.tmpl
  domain : t.domain = e.domain
  session : t.session = e.session
  mtu : t.mtu = e.mtu

theorem Same.refl (e : Exporter) : Same e e := ⟨rfl, rfl, rfl, rfl, rfl⟩

theorem Same.trans {e t u : Exporter} (h : Same e t) (h' : Same t u) : Same e u :=
  ⟨h'.setId.trans h.setId, h'.tmpl.trans h.tmpl, h'.domain.trans h.domain,
    h'.session.trans h.session, h'.mtu.trans h.mtu⟩

/-- There are no data records in the set. -/
def NoData (s : SetWritten) : Prop := ¬ s.id < kMinSetID → s.records = []

/-- What sending, opening a set and template records do not change, nor another domain as long as
there are no data records. -/
structure Stable (J : UInt32 → List SetWritten → List Message → Prop) : Prop where
  send : ∀ {d sets sent bytes}, J d sets sent → J d [] (sent ++ [⟨d, sets, bytes⟩])
  start : ∀ {d sets sent id}, J d sets sent → J d (sets ++ [⟨id, []⟩]) sent
  move : ∀ {d d' sets sent}, J d sets sent → (∀ s ∈ sets, NoData s) → J d' sets sent
  template : ∀ {d sets s sent r}, J d (sets ++ [s]) sent → s.id < kMinSetID →
    J d (sets ++ [s.add r]) sent

/-- An error that a caller can expect. -/
def Quiet (er : Error) : Prop := er.isLogicError = false ∧ er ≠ .undefined

variable {J : UInt32 → List SetWritten → List Message → Prop} {c : Prop} {env : Env}
    {e t : Exporter} {s : SetWritten}
  {n : ℕ}

theorem InSequence.length_written (h : InSequence e) : e.xcoder.cur = kMessageHeaderLen +
    ((setsWire e.sets).length + (e.opened.elim [] SetWritten.openWire).length) := by
  obtain ⟨head, hhead, hwritten⟩ := h.written
  rw [← h.sound.length_written, hwritten, List.length_append, List.length_append, hhead]

theorem run_encoding {α : Type} {x : Attempt Error Transcoder α} {r : Except Error α}
    {xc : Transcoder} (h : x.run e.xcoder = (r, xc)) :
    (encoding x).run e = (r, { e with xcoder := xc }) := by
  rw [encoding, Attempt.run_zoom, h]

theorem run_inSession {α : Type} {x : Attempt Error Session α} {r : Except Error α} {s : Session}
    (h : x.run e.session = (r, s)) : (inSession x).run e = (r, { e with session := s }) := by
  rw [inSession, Attempt.run_zoom, h]

/-! ## Sets -/

theorem run_endSet (h : InSequence e) (hopen : e.opened = some s) :
    ∃ t, endSet.run e = (.ok (), t) ∧
    InSequence t ∧ Same e t ∧ t.sets = e.sets ++ [s] ∧ t.opened = none ∧ t.sent = e.sent ∧
    t.msgEmpty = e.msgEmpty := by
  have hcur := h.length_written
  have hstart := h.setStart
  rw [hopen, Option.map_some] at hstart
  rw [hopen, Option.elim_some, SetWritten.openWire, List.length_append, length_setHeader,
    kSetHeaderLen] at hcur
  have hrun := run_encodeSetEnd h.sound hstart (by rw [kSetHeaderLen]; omega)
  have hlen : e.xcoder.cur - (kMessageHeaderLen + (setsWire e.sets).length) =
      kSetHeaderLen + s.content.length := by rw [kSetHeaderLen]; omega
  rw [hlen] at hrun
  have hover : kMessageHeaderLen + (setsWire e.sets).length + kSetLenOffset +
      (uint16Bytes (UInt16.ofNat (kSetHeaderLen + s.content.length))).length ≤ e.xcoder.cur := by
    rw [length_uint16Bytes, kSetLenOffset]
    omega
  have hend := Attempt.run_bind_of_ok (f := fun _ => Attempt.modify fun e : Exporter =>
    { e with setActive := false, sets := e.sets ++ e.opened.toList, opened := none })
    (run_encoding hrun)
  refine ⟨_, hend, ⟨⟨h.sound.cur_le, ?_⟩, h.max_eq, ?_, h.msgBase, rfl, rfl, ?_, h.sent⟩,
    ⟨rfl, rfl, rfl, rfl, rfl⟩, ?_, rfl, rfl, rfl⟩
  · exact h.sound.max_le.trans (length_over h.sound hover).ge
  · exact (length_over h.sound hover).trans h.length_eq
  · obtain ⟨head, hhead, hwritten⟩ := h.written
    refine ⟨head, hhead, (written_over h.sound hover).trans ?_⟩
    have hsplit : e.xcoder.written = (head ++ (setsWire e.sets ++ uint16Bytes s.id)) ++
        (uint16Bytes 0 ++ s.content) := by
      rw [hwritten, hopen, Option.elim_some, SetWritten.openWire, setHeader]
      simp only [List.append_assoc]
    rw [hsplit, Bytes.splice_append]
    · simp only [hopen, Option.toList_some, Option.elim_none, List.append_nil, setsWire_append,
        SetWritten.wire, setHeader, List.append_assoc]
    · rw [List.length_append, List.length_append, hhead, length_uint16Bytes, kSetLenOffset,
        Nat.add_assoc]
    · rw [length_uint16Bytes, length_uint16Bytes]
  · simp only [hopen, Option.toList_some]

theorem Inv.of_same (h : Inv J n e) (hseq : InSequence t) (hsame : Same e t)
    (hopened : ∀ s, t.opened = some s → s.id = e.setId) (hghost : J e.domain t.current t.sent) :
    Inv J n t where
  toInSequence := hseq
  mtu_eq := hsame.mtu.trans h.mtu_eq
  tids := hsame.session ▸ h.tids
  opened_id := hsame.setId ▸ hopened
  tmpl_id := hsame.tmpl ▸ hsame.setId ▸ h.tmpl_id
  ghost := hsame.domain ▸ hghost

theorem ends_endSet {R : Error → Exporter → Prop} (h : Inv J n e) (hopen : e.opened = some s) :
    endSet.Ends e (fun _ t => Inv J n t ∧ Same e t ∧ t.sets = e.current ∧ t.opened = none ∧
      t.msgEmpty = e.msgEmpty) R := by
  obtain ⟨t, hrun, hseq, hsame, hsets, hopened, hsent, hempty⟩ := run_endSet h.toInSequence hopen
  have hcurrent : t.current = e.current := by
    rw [current, current, hsets, hopened, hopen, Option.toList_none, Option.toList_some,
      List.append_nil]
  have hinv : Inv J n t := by
    refine h.of_same hseq hsame (fun s hs => ?_) (hcurrent ▸ hsent ▸ h.ghost)
    rw [hopened] at hs
    cases hs
  refine Attempt.ends_of_ok hrun ⟨hinv, hsame, ?_, hopened, hempty⟩
  rw [current, hsets, hopen, Option.toList_some]

theorem ends_endActiveSet {R : Error → Exporter → Prop} (h : Inv J n e) :
    endActiveSet.Ends e (fun _ t => Inv J n t ∧ Same e t ∧ t.sets = e.current ∧ t.opened = none ∧
      t.msgEmpty = e.msgEmpty) R := by
  rw [endActiveSet]
  refine Attempt.ends_get_bind ?_
  have hactive := h.active
  cases hopen : e.opened with
  | none =>
    rw [hopen, Option.isSome_none] at hactive
    rw [hactive, if_neg (by simp)]
    exact Attempt.ends_pure ⟨h, .refl e,
      by rw [current, hopen, Option.toList_none, List.append_nil],
      hopen, rfl⟩
  | some s =>
    rw [hopen, Option.isSome_some] at hactive
    rw [hactive, if_pos rfl]
    exact ends_endSet h hopen

/-! ## Messages -/

theorem run_startMessage (hmsg : e.xcoder.msgBase = none) (hmtu : kMessageHeaderLen ≤ e.mtu) :
    startMessage.run e = (.ok (), { e with
      xcoder := { e.xcoder with cur := kMessageHeaderLen, max := e.mtu, msgBase := some 0 }
      msgEmpty := true, sets := [] }) := by
  have hstart : encodeMessageStart.run (e.xcoder.setBase e.xcoder.buf e.mtu) =
      (.ok true, { e.xcoder with cur := kMessageHeaderLen, max := e.mtu, msgBase := some 0 }) := by
    have hbase : (e.xcoder.setBase e.xcoder.buf e.mtu).msgBase = none := hmsg
    have havail : (e.xcoder.setBase e.xcoder.buf e.mtu).avail = e.mtu := avail_of_le (Nat.zero_le _)
    rw [run_encodeMessageStart hbase (by rwa [havail])]
    simp only [setBase, Nat.zero_add]
  rw [startMessage, Attempt.run_modify_bind, Attempt.run_bind_of_ok (run_encoding hstart),
    if_pos rfl,
    Attempt.run_modify]

/-- At the start of a message nothing is in it. -/
theorem inSequence_start (hmtu : kMessageHeaderLen ≤ e.mtu)
    (hlen : e.xcoder.buf.length = e.mtu) (hmax : e.xcoder.max = e.mtu)
    (hcur : e.xcoder.cur = kMessageHeaderLen) (hmsg : e.xcoder.msgBase = some 0)
    (hset : e.xcoder.setStart = none) (hactive : e.setActive = false) (hsets : e.sets = [])
    (hopened : e.opened = none)
    (hsent : ∀ m ∈ e.sent, (∃ exportTime, m.bytes = m.wire exportTime) ∧ m.bytes.length ≤ e.mtu) :
    InSequence e where
  sound := ⟨by rw [hcur, hmax]; exact hmtu, by rw [hmax, hlen]⟩
  max_eq := hmax
  length_eq := hlen
  msgBase := hmsg
  setStart := by rw [hset, hopened, Option.map_none]
  active := by rw [hactive, hopened, Option.isSome_none]
  written := ⟨e.xcoder.written, by
      rw [Transcoder.written, hcur]
      exact List.length_take_of_le (hlen ▸ hmtu), by
      rw [hsets, hopened]
      exact (List.append_nil _).symm⟩
  sent := hsent

theorem run_messageEnd (h : InSequence e) (hopen : e.opened = none) (exportTime : UInt32) :
    ∃ xc, (encodeMessageEnd exportTime 0 e.domain).run e.xcoder = (.ok (), xc) ∧
      xc.msgBase = none ∧ xc.setStart = none ∧ xc.buf.length = e.mtu ∧
      xc.written = (Message.mk e.domain e.sets []).wire exportTime := by
  have hcur := h.length_written
  rw [hopen, Option.elim_none, List.length_nil, Nat.add_zero] at hcur
  have hstart := h.setStart
  rw [hopen, Option.map_none] at hstart
  have hrun := run_encodeMessageEnd h.sound h.msgBase (by omega) exportTime 0 e.domain
  rw [Nat.sub_zero, hcur] at hrun
  have hover : 0 + (messageHeader (UInt16.ofNat (kMessageHeaderLen + (setsWire e.sets).length))
      exportTime 0 e.domain).length ≤ e.xcoder.cur := by
    rw [length_messageHeader]
    omega
  refine ⟨_, hrun, rfl, hstart, (length_over h.sound hover).trans h.length_eq, ?_⟩
  obtain ⟨head, hhead, hwritten⟩ := h.written
  rw [hopen, Option.elim_none, List.append_nil] at hwritten
  refine (written_over h.sound hover).trans ?_
  rw [hwritten]
  exact Bytes.splice_append (a := []) rfl (by rw [hhead, length_messageHeader])

/-- The message is sealed and sent, and another one started. -/
theorem ends_seal (hJ : Stable J) (hc : c → ∀ m, env.refusal m = none) (exportTime : UInt32)
    (h : Inv J n e)
    (hopen : e.opened = none) :
    (encoding (encodeMessageEnd exportTime 0 e.domain) >>= fun _ => sendMessage env >>= fun _ =>
      startMessage).Ends e (fun _ t => Inv J n t ∧ Same e t ∧ t.sets = [] ∧ t.opened = none)
      (fun _ _ => ¬ c) := by
  have hmtu : kMessageHeaderLen ≤ e.mtu := by
    have hcur := h.length_written
    have hmax := h.sound.cur_le
    rw [h.max_eq] at hmax
    omega
  obtain ⟨xc, hrun, hmsg, hset, hlen, hwritten⟩ := run_messageEnd h.toInSequence hopen exportTime
  rw [Attempt.Ends, Attempt.run_bind_of_ok (run_encoding hrun)]
  cases hrefusal : env.refusal (xc.buf.take xc.cur) with
  | some what =>
    have hsend : (sendMessage env).run { e with xcoder := xc } =
        (.error (.runtimeError what), { e with xcoder := xc }) := by
      rw [sendMessage, Attempt.run_get_bind]
      simp only [len, hrefusal]
      rfl
    refine Attempt.ends_of_error (Attempt.run_bind_of_error hsend) fun hholds => ?_
    rw [hc hholds] at hrefusal
    cases hrefusal
  | none =>
    have hsend : (sendMessage env).run { e with xcoder := xc } =
        (.ok (), { e with xcoder := xc, sent := e.sent ++ [⟨e.domain, e.sets, xc.written⟩] }) := by
      rw [sendMessage, Attempt.run_get_bind]
      simp only [len, hrefusal]
      rfl
    refine Attempt.ends_of_ok ((Attempt.run_bind_of_ok hsend).trans (run_startMessage hmsg hmtu)) ?_
    have hactive := h.active
    rw [hopen, Option.isSome_none] at hactive
    have hsent : ∀ m ∈ e.sent ++ [⟨e.domain, e.sets, xc.written⟩],
        (∃ exportTime, m.bytes = m.wire exportTime) ∧ m.bytes.length ≤ e.mtu := by
      intro m hm
      rcases List.mem_append.1 hm with hm | hm
      · exact h.sent m hm
      · obtain rfl := List.mem_singleton.1 hm
        exact ⟨⟨exportTime, hwritten⟩, hlen ▸ List.length_take_le' _ _⟩
    refine ⟨h.of_same (inSequence_start hmtu hlen rfl rfl rfl hset hactive rfl hopen hsent)
      ⟨rfl, rfl, rfl, rfl, rfl⟩ (fun s hs => h.opened_id s hs) ?_,
      ⟨rfl, rfl, rfl, rfl, rfl⟩, rfl, hopen⟩
    have hghost := h.ghost
    rw [current, hopen, Option.toList_none, List.append_nil] at hghost ⊢
    exact hJ.send hghost

theorem ends_flush (hJ : Stable J) (hc : c → ∀ m, env.refusal m = none) (exportTime : UInt32)
    (h : Inv J n e) :
    (flush env exportTime).Ends e (fun _ t => Inv J n t ∧ Same e t ∧ t.sets = [] ∧ t.opened = none)
      (fun _ _ => ¬ c) := by
  rw [flush]
  refine (ends_endActiveSet h).bind fun _ t ⟨ht, hsame, hsets, hopen, _⟩ => ?_
  refine Attempt.ends_get_bind ?_
  split_ifs with hlen
  · exact (ends_seal hJ hc exportTime ht hopen).imp
      (fun _ u hu => ⟨hu.1, hsame.trans hu.2.1, hu.2.2⟩) fun _ _ hnot => hnot
  · have hcur := ht.length_written
    rw [hopen, Option.elim_none, List.length_nil, Nat.add_zero] at hcur
    change ¬ t.xcoder.cur > kMessageHeaderLen at hlen
    exact Attempt.ends_pure ⟨ht, hsame, setsWire_eq_nil (by omega), hopen⟩

/-! ## Open sets -/

/-- A message that is said to be empty has no data records. -/
def Empty (e : Exporter) : Prop := e.msgEmpty = true → ∀ s ∈ e.current, NoData s

theorem empty_of_nil (hsets : t.sets = []) (hopen : t.opened = none) : Empty t := fun _ s hs => by
  simp [current, hsets, hopen] at hs

theorem inSequence_openSet {xc : Transcoder} (h : InSequence e) (hopen : e.opened = none)
    (hroom : kSetHeaderLen ≤ e.xcoder.avail)
    (hxc : xc = { e.xcoder with setStart := some e.xcoder.cur }.put (setHeader e.setId 0)) :
    InSequence (openSet { e with xcoder := xc }) := by
  subst hxc
  have hcur := h.length_written
  rw [hopen, Option.elim_none, List.length_nil, Nat.add_zero] at hcur
  have hsound : ({ e.xcoder with setStart := some e.xcoder.cur } : Transcoder).Sound :=
    ⟨h.sound.cur_le, h.sound.max_le⟩
  have hheader : (setHeader e.setId 0).length ≤
      ({ e.xcoder with setStart := some e.xcoder.cur } : Transcoder).avail := by
    rw [length_setHeader]
    exact hroom
  have hext := extends_put hsound hheader
  refine ⟨hext.sound, h.max_eq, hext.length.trans h.length_eq, h.msgBase, ?_, rfl, ?_, h.sent⟩
  · exact congrArg some hcur
  · obtain ⟨head, hhead, hwritten⟩ := h.written
    rw [hopen, Option.elim_none, List.append_nil] at hwritten
    refine ⟨head, hhead, hext.written.trans ?_⟩
    change e.xcoder.written ++ _ = head ++ (setsWire e.sets ++ SetWritten.openWire ⟨e.setId, []⟩)
    rw [hwritten, SetWritten.openWire, SetWritten.content_empty, List.append_nil, List.append_assoc]

theorem encodeSetStart_cases (hJ : Stable J) (h : Inv J n e) (hopen : e.opened = none) :
    (∃ xc, (encoding (encodeSetStart e.setId)).run e = (.ok true, { e with xcoder := xc }) ∧
      Inv J n (openSet { e with xcoder := xc })) ∨
    (encoding (encodeSetStart e.setId)).run e = (.ok false, e) := by
  have hstart := h.setStart
  rw [hopen, Option.map_none] at hstart
  obtain hroom | hroom := Nat.lt_or_ge e.xcoder.avail kSetHeaderLen
  · exact .inr (run_encoding (run_encodeSetStart_full hstart hroom e.setId))
  · refine .inl ⟨_, run_encoding (run_encodeSetStart h.sound hstart hroom e.setId),
      h.of_same (inSequence_openSet h.toInSequence hopen hroom rfl) ⟨rfl, rfl, rfl, rfl, rfl⟩
        (fun s hs => ?_) ?_⟩
    · cases hs
      rfl
    · have hghost := h.ghost
      rw [current, hopen, Option.toList_none, List.append_nil] at hghost
      exact hJ.start hghost

theorem empty_openSet {xc : Transcoder} (h : Empty e) :
    Empty (openSet { e with xcoder := xc }) := by
  intro hempty s hs
  rcases List.mem_append.1 hs with hs | hs
  · exact h hempty s (List.mem_append_left _ hs)
  · obtain rfl := List.mem_singleton.1 hs
    exact fun _ => rfl

theorem ends_ensureSet (hJ : Stable J) (hc : c → ∀ m, env.refusal m = none)
    (h : Inv J n e) : (ensureSet env).Ends e
      (fun _ t => Inv J n t ∧ Same e t ∧ t.opened.isSome = true ∧ (Empty e → Empty t))
      fun er t => c → Quiet er ∧ Inv J n t ∧ Same e t ∧ t.sets = [] ∧ t.opened = none := by
  rw [ensureSet]
  refine Attempt.ends_get_bind ?_
  have hactive := h.active
  split_ifs with hset
  · exact Attempt.ends_pure ⟨h, .refl e, hactive ▸ hset, id⟩
  rw [Bool.not_eq_true] at hset
  rw [hset, eq_comm, Option.isSome_eq_false_iff, Option.isNone_iff_eq_none] at hactive
  obtain ⟨xc, hrun, hinv⟩ | hrun := encodeSetStart_cases hJ h hactive
  · rw [Attempt.Ends, Attempt.run_bind_of_ok hrun, if_pos rfl, Attempt.run_modify]
    exact ⟨hinv, ⟨rfl, rfl, rfl, rfl, rfl⟩, rfl, fun hempty => empty_openSet hempty⟩
  rw [Attempt.Ends, Attempt.run_bind_of_ok hrun, if_neg (by simp)]
  refine Attempt.Ends.bind ((ends_flush hJ hc env.now h).imp (fun _ _ ht => ht)
    fun _ _ hnot hholds => absurd hholds hnot) fun _ t hflushed => ?_
  obtain ⟨ht, hsame, hsets, hopen⟩ := hflushed
  rw [← hsame.setId]
  obtain ⟨xc, hrun, hinv⟩ | hrun := encodeSetStart_cases hJ ht hopen
  · rw [Attempt.Ends, Attempt.run_bind_of_ok hrun, if_pos rfl, Attempt.run_modify]
    exact ⟨hinv, hsame.trans ⟨rfl, rfl, rfl, rfl, rfl⟩, rfl,
      fun _ => empty_openSet (empty_of_nil hsets hopen)⟩
  · rw [Attempt.Ends, Attempt.run_bind_of_ok hrun, if_neg (by simp), Attempt.run_throw]
    exact fun _ => ⟨⟨rfl, by simp⟩, ht, hsame, hsets, hopen⟩

/-! ## Records -/

/-- A record of `key` is in the open set. -/
def Holds (key : WireTemplateKey) (t : Exporter) : Prop :=
  ∃ s r, t.opened = some s ∧ r ∈ s.records ∧ r.key = key

theorem inSequence_note {xc : Transcoder} {bs : List UInt8} (key : WireTemplateKey)
    (h : InSequence e) (hopen : e.opened = some s) (hext : Extends e.xcoder xc bs) :
    InSequence (note key e.xcoder.cur { e with xcoder := xc }) ∧
      (note key e.xcoder.cur { e with xcoder := xc }).opened = some (s.add ⟨key, bs⟩) := by
  have hnew : (xc.buf.take xc.cur).drop e.xcoder.cur = bs := by
    have hdrop := congrArg (List.drop e.xcoder.cur) hext.written
    rwa [← h.sound.length_written, List.drop_left, h.sound.length_written] at hdrop
  have hopened : (note key e.xcoder.cur { e with xcoder := xc }).opened =
      some (s.add ⟨key, bs⟩) := by
    simp only [note, hopen, Option.map_some, hnew, SetWritten.add]
  have hstart := h.setStart
  rw [hopen, Option.map_some] at hstart
  refine ⟨⟨hext.sound, hext.max.trans h.max_eq, hext.length.trans h.length_eq,
    hext.msgBase.trans h.msgBase, ?_, ?_, ?_, h.sent⟩, hopened⟩
  · rw [hopened, Option.map_some]
    exact hext.setStart.trans hstart
  · have hactive := h.active
    rw [hopen, Option.isSome_some] at hactive
    rw [hopened, Option.isSome_some]
    exact hactive
  · obtain ⟨head, hhead, hwritten⟩ := h.written
    refine ⟨head, hhead, hext.written.trans ?_⟩
    rw [hopened, hwritten, hopen, Option.elim_some, Option.elim_some]
    change (head ++ (setsWire e.sets ++ s.openWire)) ++ bs =
      head ++ (setsWire e.sets ++ (s.add ⟨key, bs⟩).openWire)
    rw [SetWritten.openWire, SetWritten.openWire, SetWritten.content_add]
    simp only [List.append_assoc, SetWritten.add]

theorem inSequence_extends {xc : Transcoder} (h : InSequence e) (hext : Extends e.xcoder xc []) :
    InSequence { e with xcoder := xc } where
  sound := hext.sound
  max_eq := hext.max.trans h.max_eq
  length_eq := hext.length.trans h.length_eq
  msgBase := hext.msgBase.trans h.msgBase
  setStart := hext.setStart.trans h.setStart
  active := h.active
  written := by
    obtain ⟨head, hhead, hwritten⟩ := h.written
    exact ⟨head, hhead, hext.written.trans ((List.append_nil _).trans hwritten)⟩
  sent := h.sent

/-- `J` still holds when the open set gets a record of `key`. -/
def Takes (J : UInt32 → List SetWritten → List Message → Prop) (e : Exporter)
    (key : WireTemplateKey) : Prop :=
  ∀ sets s sent r, J e.domain (sets ++ [s]) sent → s.id = e.setId → r.key = key →
    J e.domain (sets ++ [s.add r]) sent

theorem Same.takes {key : WireTemplateKey} (h : Same e t) (htakes : Takes J e key) :
    Takes J t key := by
  rwa [Takes, h.domain, h.setId]

theorem ends_encodeRecord {x : Attempt Error Transcoder Bool} {key : WireTemplateKey}
    (hx : Records x c) (h : Inv J n e) (hopen : e.opened.isSome = true) (htakes : Takes J e key) :
    (encodeRecord key x).Ends e
      (fun b t => Inv J n t ∧ Same e t ∧ t.opened.isSome = true ∧ (b = true → Holds key t) ∧
        (b = false ∨ e.setId < kMinSetID → Empty e → Empty t)) (fun _ _ => ¬ c) := by
  obtain ⟨s, hopen⟩ := Option.isSome_iff_exists.1 hopen
  have hid := h.opened_id s hopen
  rw [encodeRecord]
  refine Attempt.ends_get_bind ?_
  obtain ⟨xc, bs, hrun, hext⟩ | ⟨xc, hrun, hext⟩ | ⟨hnot, er, xc, hrun⟩ := hx e.xcoder h.sound
  · obtain ⟨hseq, hopened⟩ := inSequence_note key h.toInSequence hopen hext
    rw [Attempt.Ends, Attempt.run_bind_of_ok (run_encoding hrun), if_pos rfl,
      Attempt.run_modify_bind, Attempt.run_pure]
    refine ⟨h.of_same hseq ⟨rfl, rfl, rfl, rfl, rfl⟩ ?_ ?_, ⟨rfl, rfl, rfl, rfl, rfl⟩,
      by rw [hopened, Option.isSome_some], fun _ =>
        ⟨_, ⟨key, bs⟩, hopened, by simp [SetWritten.add], rfl⟩,
      fun hb hempty hmsg => ?_⟩
    · rw [hopened]
      rintro s' ⟨⟩
      exact hid
    · have hghost := h.ghost
      rw [current, hopen] at hghost
      rw [current, hopened]
      exact htakes e.sets s e.sent ⟨key, bs⟩ hghost hid rfl
    · rw [current, hopened]
      intro s' hs'
      rcases List.mem_append.1 hs' with hs' | hs'
      · exact hempty hmsg s' (List.mem_append_left _ hs')
      · obtain rfl := List.mem_singleton.1 hs'
        exact fun hdata => absurd (hid ▸ hb.resolve_left (by simp)) hdata
  · rw [Attempt.Ends, Attempt.run_bind_of_ok (run_encoding hrun), if_neg (by simp),
      Attempt.run_pure]
    exact ⟨h.of_same (inSequence_extends h.toInSequence hext) ⟨rfl, rfl, rfl, rfl, rfl⟩ h.opened_id
      h.ghost, ⟨rfl, rfl, rfl, rfl, rfl⟩, by simp [hopen],
      fun hb => absurd hb (by simp), fun _ hempty => hempty⟩
  · exact Attempt.ends_of_error (Attempt.run_bind_of_error (run_encoding hrun)) hnot

theorem ends_putRecord {x : Attempt Error Transcoder Bool} {key : WireTemplateKey} (what : String)
    (hJ : Stable J) (hc : c → ∀ m, env.refusal m = none) (hx : Records x c)
    (h : Inv J n e) (hopen : e.opened.isSome = true) (hempty : Empty e) (htakes : Takes J e key) :
    (putRecord env what key x).Ends e
      (fun _ t => Inv J n t ∧ Same e t ∧ t.opened.isSome = true ∧ Holds key t ∧
        (e.setId < kMinSetID → Empty t))
      fun er t => c → Quiet er ∧ Inv J n t ∧ Same e t ∧ Empty t := by
  rw [putRecord]
  refine Attempt.Ends.bind ((ends_encodeRecord hx h hopen htakes).imp (fun _ _ ht => ht)
    fun _ _ hnot hholds => absurd hholds hnot) fun b t ⟨ht, hsame, hopen, hholds, hstays⟩ => ?_
  cases b with
  | true =>
    rw [if_pos rfl]
    exact Attempt.ends_pure ⟨ht, hsame, hopen, hholds rfl, fun hid => hstays (.inr hid) hempty⟩
  | false =>
    rw [if_neg (by simp)]
    refine Attempt.Ends.bind ((ends_flush hJ hc env.now ht).imp (fun _ _ hu => hu)
      fun _ _ hnot hholds => absurd hholds hnot) fun _ u ⟨hu, hsame₁, hsets, hopen⟩ => ?_
    have hsame := hsame.trans hsame₁
    refine Attempt.Ends.bind ((ends_ensureSet hJ hc hu).imp (fun _ _ hv => hv)
      fun _ v hfail hholds => ?_) fun _ v ⟨hv, hsame₂, hopen₂, hempty₂⟩ => ?_
    · obtain ⟨hquiet, hv, hsame₂, hsets₂, hopen₂⟩ := hfail hholds
      exact ⟨hquiet, hv, hsame.trans hsame₂, empty_of_nil hsets₂ hopen₂⟩
    have hsame := hsame.trans hsame₂
    have hempty := hempty₂ (empty_of_nil hsets hopen)
    refine Attempt.Ends.bind ((ends_encodeRecord hx hv hopen₂ (hsame.takes htakes)).imp
      (fun _ _ hw => hw) fun _ _ hnot hholds => absurd hholds hnot)
      fun b w ⟨hw, hsame₃, hopen₃, hholds, hstays⟩ => ?_
    have hsame₃ := hsame.trans hsame₃
    cases b with
    | true =>
      rw [if_pos rfl]
      exact Attempt.ends_pure ⟨hw, hsame₃, hopen₃, hholds rfl,
        fun hid => hstays (.inr (hsame.setId ▸ hid)) hempty⟩
    | false =>
      rw [if_neg (by simp)]
      exact Attempt.ends_throw fun _ => ⟨⟨rfl, by simp⟩, hw, hsame₃, hstays (.inl rfl) hempty⟩

/-! ## Calls -/

/-- What a client calls; a template is edited through the pointer that `getTemplate` gave. -/
inductive Op
  | getTemplate (tid : UInt16)
  | editTemplate (key : WireTemplateKey) (op : WireTemplate.Op)
  | setDomain (domain : UInt32)
  | setTemplate (tid : UInt16)
  | exportTemplatesForDomain
  | exportRecord (st : StructTemplate) (s : Struct)
  | flush (exportTime : UInt32)

def editTemplate (key : WireTemplateKey) (op : WireTemplate.Op) (e : Exporter) : Exporter :=
  match e.session.find key with
  | none => e
  | some wt => { e with session := e.session.put key (wt.step op) }

def call (env : Env) : Op → Attempt Error Exporter Unit
  | .getTemplate tid => do
    let _ ← getTemplate tid
  | .editTemplate key op => Attempt.modify (editTemplate key op)
  | .setDomain domain => setDomain env domain
  | .setTemplate tid => setTemplate tid
  | .exportTemplatesForDomain => exportTemplatesForDomain env
  | .exportRecord st s => exportRecord env st s
  | .flush exportTime => flush env exportTime

/-- What is left of the exporter, also where the call throws. -/
def step (e : Exporter) (o : Env × Op) : Option Exporter := some ((call o.1 o.2).run e).2

/-- Between calls. -/
structure Ready (J : UInt32 → List SetWritten → List Message → Prop) (n : ℕ) (e : Exporter) :
    Prop extends Inv J n e where
  empty : Empty e
  zero : e.setId = 0 → e.opened = none

theorem step_tid (wt : WireTemplate) (op : WireTemplate.Op) : (wt.step op).tid = wt.tid := by
  have hpush : ∀ t ie, t.tid = wt.tid → (WireTemplate.push ie t).tid = wt.tid := fun _ _ h => h
  have hactive : ∀ t : WireTemplate, t.tid = wt.tid → { t with active := true }.tid = wt.tid :=
    fun _ h => h
  cases op with
  | add ie => exact WireTemplate.add_keeps hpush ie rfl
  | clear => rfl
  | mimic rhs => exact WireTemplate.mimic_keeps hpush hactive rhs rfl
  | activate => exact WireTemplate.activate_keeps hactive rfl

/-- Another session will do if its templates have the IDs of their keys. -/
theorem Ready.with_session (h : Ready J n e) {s : Session}
    (htids : ∀ k wt, s.find k = some wt → wt.tid = k.2) : Ready J n { e with session := s } where
  sound := h.sound
  max_eq := h.max_eq
  length_eq := h.length_eq
  msgBase := h.msgBase
  setStart := h.setStart
  active := h.active
  written := h.written
  sent := h.sent
  mtu_eq := h.mtu_eq
  tids := htids
  opened_id := h.opened_id
  tmpl_id := h.tmpl_id
  ghost := h.ghost
  empty := h.empty
  zero := h.zero

theorem put_tids {s : Session} {key : WireTemplateKey} {wt : WireTemplate}
    (h : ∀ k wt, s.find k = some wt → wt.tid = k.2) (hwt : wt.tid = key.2) :
    ∀ k wt', (s.put key wt).find k = some wt' → wt'.tid = k.2 := by
  intro k wt' hfind
  by_cases hk : k = key
  · subst hk
    rw [Session.find_put_self, Option.some.injEq] at hfind
    exact hfind ▸ hwt
  · rw [Session.find_put_of_ne hk] at hfind
    exact h k wt' hfind

theorem ready_editTemplate (h : Ready J n e) (key : WireTemplateKey) (op : WireTemplate.Op) :
    Ready J n (editTemplate key op e) := by
  rw [editTemplate]
  cases hfind : e.session.find key with
  | none => exact h
  | some wt => exact h.with_session (put_tids h.tids ((step_tid wt op).trans (h.tids key wt hfind)))

/-- A template is there, and only reserved IDs are refused. -/
theorem ends_getTemplate {tid : UInt16} (hc : c → ¬ tid < kMinSetID) (h : Ready J n e) :
    (inSession (Session.getTemplate e.domain tid)).Ends e
      (fun wt t => ∃ s, t = { e with session := s } ∧ Ready J n t ∧ wt.tid = tid ∧
        s.find (e.domain, tid) = some wt ∧
        ∀ wt', e.session.find (e.domain, tid) = some wt' → wt = wt') fun _ _ => ¬ c := by
  rcases hrun : (Session.getTemplate e.domain tid).run e.session with ⟨er | wt, s⟩
  · refine Attempt.ends_of_error (run_inSession hrun) fun hholds => ?_
    obtain ⟨wt, s', hok, -⟩ := Session.run_getTemplate e.domain (hc hholds) e.session
    rw [hok] at hrun
    cases hrun
  · obtain ⟨hfind, hs⟩ := Session.find_getTemplate hrun
    have hready : Ready J n { e with session := s } := by
      obtain rfl | ⟨rfl, rfl⟩ := hs
      · exact h
      · exact h.with_session (put_tids h.tids rfl)
    refine Attempt.ends_of_ok (run_inSession hrun)
      ⟨s, rfl, hready, hready.tids _ wt hfind, hfind, fun wt' hwt' => ?_⟩
    obtain rfl | ⟨-, rfl⟩ := hs
    · exact Option.some.inj (hfind.symm.trans hwt')
    · rw [Session.getTemplate] at hrun
      split_ifs at hrun with htid
      · cases hrun
      · rw [Attempt.run_get_bind, hwt'] at hrun
        exact (Except.ok.inj (congrArg Prod.fst hrun)).symm

/-- An error that `c` does not rule out is one that a caller can expect, and calls can go on. -/
def Fails (J : UInt32 → List SetWritten → List Message → Prop) (n : ℕ) (c : Prop) (er : Error)
    (t : Exporter) : Prop :=
  c → Quiet er ∧ Ready J n t

theorem fails_of_not {er : Error} (h : ¬ c) : Fails J n c er t := fun hholds => absurd hholds h

theorem ready_of_nil (h : Inv J n t) (hsets : t.sets = []) (hopen : t.opened = none) :
    Ready J n t :=
  ⟨h, empty_of_nil hsets hopen, fun _ => hopen⟩

theorem Inv.with_msgEmpty (h : Inv J n e) (b : Bool) : Inv J n { e with msgEmpty := b } :=
  h.of_same ⟨h.sound, h.max_eq, h.length_eq, h.msgBase, h.setStart, h.active, h.written, h.sent⟩
    ⟨rfl, rfl, rfl, rfl, rfl⟩ h.opened_id h.ghost

/-- Without an open set another template can be chosen. -/
theorem Inv.with_tmpl (h : Inv J n e) (hopen : e.opened = none) {tmpl : Option WireTemplateKey}
    {id : UInt16} (htmpl : ∀ k, tmpl = some k → k.2 = id ∧ ¬ k.2 < kMinSetID) :
    Inv J n { e with tmpl := tmpl, setId := id } where
  sound := h.sound
  max_eq := h.max_eq
  length_eq := h.length_eq
  msgBase := h.msgBase
  setStart := h.setStart
  active := h.active
  written := h.written
  sent := h.sent
  mtu_eq := h.mtu_eq
  tids := h.tids
  opened_id s hs := by
    change e.opened = some s at hs
    rw [hopen] at hs
    cases hs
  tmpl_id := htmpl
  ghost := h.ghost

/-- Where `J` holds with another domain, it can be that one. -/
theorem Ready.with_domain (h : Ready J n e) {domain : UInt32} (hJ : J domain e.current e.sent) :
    Ready J n { e with domain := domain } where
  sound := h.sound
  max_eq := h.max_eq
  length_eq := h.length_eq
  msgBase := h.msgBase
  setStart := h.setStart
  active := h.active
  written := h.written
  sent := h.sent
  mtu_eq := h.mtu_eq
  tids := h.tids
  opened_id := h.opened_id
  tmpl_id := h.tmpl_id
  ghost := hJ
  empty := h.empty
  zero := h.zero

theorem ends_setDomain (hJ : Stable J) (hc : c → ∀ m, env.refusal m = none)
    (domain : UInt32) (h : Ready J n e) :
    (setDomain env domain).Ends e (fun _ t => Ready J n t) (Fails J n c) := by
  have hflush : (flushDomain env domain).Ends e
      (fun _ t => Ready J n t ∧ J domain t.current t.sent) (Fails J n c) := by
    rw [flushDomain]
    refine Attempt.ends_get_bind ?_
    split_ifs with hother
    · refine (ends_flush hJ hc env.now h.toInv).imp (fun _ t ⟨ht, _, hsets, hopen⟩ => ?_)
        fun _ _ => fails_of_not
      exact ⟨ready_of_nil ht hsets hopen,
        hJ.move ht.ghost fun s hs => by simp [current, hsets, hopen] at hs⟩
    · refine Attempt.ends_pure ⟨h, ?_⟩
      by_cases hdomain : e.domain = domain
      · exact hdomain ▸ h.ghost
      · have hmsg : e.msgEmpty = true := by simpa [hdomain] using hother
        exact hJ.move h.ghost (h.empty hmsg)
  exact hflush.bind fun _ t ⟨ht, hmeets⟩ => Attempt.ends_modify (ht.with_domain hmeets)

/-- Ending a set where there is none. -/
theorem run_endSet_none (h : InSequence e) (hopen : e.opened = none) :
    ∃ er t, endSet.run e = (.error er, t) := by
  have hstart := h.setStart
  rw [hopen, Option.map_none] at hstart
  have hrun : encodeSetEnd.run e.xcoder =
      (.error (.logicError "out-of-sequence call to encodeSetEnd()"), e.xcoder) := by
    rw [encodeSetEnd, Attempt.run_get_bind, hstart]
    rfl
  exact ⟨_, _, Attempt.run_bind_of_error (run_encoding hrun)⟩

theorem ends_finalizeSet (hc : c → e.setId = 0 ∨ e.setActive = true) (h : Ready J n e) :
    finalizeSet.Ends e (fun _ t => Inv J n t ∧ Same e t ∧ t.sets = e.current ∧ t.opened = none ∧
      t.msgEmpty = e.msgEmpty) fun _ _ => ¬ c := by
  rw [finalizeSet]
  refine Attempt.ends_get_bind ?_
  split_ifs with hid
  · cases hopen : e.opened with
    | some s => exact ends_endSet h.toInv hopen
    | none =>
      obtain ⟨er, t, hrun⟩ := run_endSet_none h.toInSequence hopen
      refine Attempt.ends_of_error hrun fun hholds => ?_
      have hactive := (hc hholds).resolve_left hid
      rw [h.active, hopen] at hactive
      cases hactive
  · have hopen := h.zero (not_not.1 hid)
    exact Attempt.ends_pure ⟨h.toInv, .refl e,
      by rw [current, hopen, Option.toList_none, List.append_nil], hopen, rfl⟩

theorem ends_setTemplate {tid : UInt16} (hc : c → e.setId = tid ∨ ¬ tid < kMinSetID ∧
      (∃ wt, e.session.find (e.domain, tid) = some wt ∧ wt.active = true) ∧
      (e.setId = 0 ∨ e.setActive = true)) (h : Ready J n e) :
    (setTemplate tid).Ends e (fun _ t => Ready J n t) fun _ _ => ¬ c := by
  rw [setTemplate]
  refine Attempt.ends_get_bind ?_
  by_cases hsame : e.setId = tid
  · rw [if_pos hsame]
    exact Attempt.ends_pure h
  have hc := fun hholds => (hc hholds).resolve_left hsame
  rw [if_neg hsame]
  split_ifs with htid
  · exact Attempt.ends_throw fun hholds => (hc hholds).1 htid
  refine Attempt.Ends.bind (ends_getTemplate (fun _ => htid) h)
    fun wt t ⟨s, ht, hready, hwt, hfind, hfound⟩ => ?_
  split_ifs with hactive
  · refine Attempt.ends_throw fun hholds => ?_
    obtain ⟨-, ⟨wt', hfind', hactive'⟩, -⟩ := hc hholds
    rw [hfound wt' hfind', hactive'] at hactive
    cases hactive
  have hfin : c → t.setId = 0 ∨ t.setActive = true := by
    subst ht
    exact fun hholds => (hc hholds).2.2
  refine Attempt.Ends.bind (ends_finalizeSet hfin hready)
    fun _ u ⟨hu, _, hsets, hopen, hmsg⟩ => Attempt.ends_modify ?_
  refine ⟨hu.with_tmpl hopen fun k hk => ?_, fun hempty s hs => ?_, fun _ => hopen⟩
  · cases hk
    exact ⟨hwt.symm, htid⟩
  · refine hready.empty (hmsg.symm.trans hempty) s ?_
    simpa [current, hopen, hsets] using hs

theorem ends_exportRecord {st : StructTemplate} {s : Struct} (hJ : Stable J)
    (hc : c → (∀ m, env.refusal m = none) ∧ ∃ key wt, e.tmpl = some key ∧
      e.session.find key = some wt ∧ wt.active = true ∧
      ∀ ie ∈ wt.ies, WireTemplate.Permitted st s ie)
    (htakes : ∀ key, e.tmpl = some key → Takes J e key) (h : Ready J n e) :
    (exportRecord env st s).Ends e (fun _ t => Ready J n t ∧ Same e t ∧
      ∃ key, e.tmpl = some key ∧ Holds key t) (Fails J n c) := by
  rw [exportRecord]
  refine Attempt.Ends.bind ((ends_ensureSet hJ (fun hholds => (hc hholds).1) h.toInv).imp
    (fun _ _ ht => ht) fun er t hfail hholds => ?_) fun _ t ⟨ht, hsame, hopen, hempty⟩ =>
      Attempt.ends_get_bind ?_
  · obtain ⟨hquiet, ht, -, hsets, hopen⟩ := hfail hholds
    exact ⟨hquiet, ready_of_nil ht hsets hopen⟩
  rw [hsame.tmpl, hsame.session]
  cases htmpl : e.tmpl with
  | none =>
    refine Attempt.Ends.bind (Q := fun _ _ => False) (Attempt.ends_throw (fails_of_not ?_))
      fun _ _ hfalse => hfalse.elim
    rintro hholds
    obtain ⟨-, key, wt, hkey, -⟩ := hc hholds
    rw [hkey] at htmpl
    cases htmpl
  | some key =>
    have hnonzero : e.setId ≠ 0 := by
      obtain ⟨hid, hmin⟩ := h.tmpl_id key htmpl
      rintro hzero
      rw [hid, hzero] at hmin
      exact hmin (by decide)
    rw [Attempt.orThrow_some, pure_bind]
    cases hfind : e.session.find key with
    | none =>
      refine Attempt.Ends.bind (Q := fun _ _ => False) (Attempt.ends_throw (fails_of_not ?_))
        fun _ _ hfalse => hfalse.elim
      rintro hholds
      obtain ⟨-, key', wt, hkey, hwt, -⟩ := hc hholds
      obtain rfl := Option.some.inj (htmpl.symm.trans hkey)
      rw [hwt] at hfind
      cases hfind
    | some wt =>
      rw [Attempt.orThrow_some, pure_bind]
      have hrecords : Records (wt.encode st s) c := by
        refine fun xc hxc => (WireTemplate.records_encode wt xc hxc).imp_right
          (.imp_right (.imp_left (mt fun hholds => ?_)))
        obtain ⟨-, key', wt', hkey, hwt, hactive, hpermitted⟩ := hc hholds
        obtain rfl := Option.some.inj (htmpl.symm.trans hkey)
        obtain rfl := Option.some.inj (hfind.symm.trans hwt)
        exact ⟨hactive, hpermitted⟩
      refine Attempt.Ends.bind ((ends_putRecord "MTU too small for record" hJ
        (fun hholds => (hc hholds).1) hrecords ht hopen (hempty h.empty)
        (hsame.takes (htakes key htmpl))).imp (fun _ _ hu => hu) fun er u hfail hholds => ?_)
        fun _ u ⟨hu, hsame₁, _, hholds, _⟩ => Attempt.ends_modify ?_
      · obtain ⟨hquiet, hu, hsame₁, hempty⟩ := hfail hholds
        exact ⟨hquiet, hu, hempty, fun hzero =>
          absurd ((hsame.trans hsame₁).setId.symm.trans hzero) hnonzero⟩
      · refine ⟨⟨hu.with_msgEmpty false, fun hmsg => absurd hmsg (by simp), fun hzero =>
          absurd ((hsame.trans hsame₁).setId.symm.trans hzero) hnonzero⟩,
          (hsame.trans hsame₁).trans ⟨rfl, rfl, rfl, rfl, rfl⟩, key, rfl, ?_⟩
        obtain ⟨s', r, hs', hr, hkey⟩ := hholds
        exact ⟨s', r, hs', hr, hkey⟩

theorem ends_enterTemplateSet {R : Error → Exporter → Prop} (h : Ready J n e) :
    enterTemplateSet.Ends e (fun _ t => Ready J n t ∧ t.setId = kTemplateSetID ∧
      t.session = e.session ∧ t.domain = e.domain) R := by
  rw [enterTemplateSet]
  refine Attempt.ends_get_bind ?_
  split_ifs with hid
  · refine (ends_endActiveSet h.toInv).bind fun _ t ⟨ht, hsame, hsets, hopen, hmsg⟩ =>
      Attempt.ends_modify ⟨⟨ht.with_tmpl hopen (fun _ hk => nomatch hk), fun hempty s hs => ?_,
        fun _ => hopen⟩, rfl, hsame.session, hsame.domain⟩
    refine h.empty (hmsg.symm.trans hempty) s ?_
    simpa [current, hopen, hsets] using hs
  · exact Attempt.ends_pure ⟨h, not_not.1 hid, rfl, rfl⟩

theorem ends_exportTemplatesForDomain (hJ : Stable J)
    (hc : c → (∀ m, env.refusal m = none) ∧
      ∀ wt ∈ e.session.activeTemplates e.domain, wt.active = true) (h : Ready J n e) :
    (exportTemplatesForDomain env).Ends e (fun _ t => Ready J n t) (Fails J n c) := by
  rw [exportTemplatesForDomain, ensureTemplateSet]
  simp only [bind_assoc]
  refine (ends_enterTemplateSet h).bind fun _ t ⟨ht, hid, hsession, hdomain⟩ => ?_
  have hnonzero : t.setId ≠ 0 := by
    rw [hid]
    decide
  refine Attempt.Ends.bind ((ends_ensureSet hJ (fun hholds => (hc hholds).1) ht.toInv).imp
    (fun _ _ hu => hu) fun er u hfail hholds => ?_) fun _ u ⟨hu, hsame, hopen, hempty⟩ =>
      Attempt.ends_get_bind ?_
  · obtain ⟨hquiet, hu, -, hsets, hopen⟩ := hfail hholds
    exact ⟨hquiet, ready_of_nil hu hsets hopen⟩
  rw [hsame.session, hsession, hsame.domain, hdomain]
  refine Attempt.Ends.bind (Q := fun _ v => Inv J n v ∧ Same t v ∧ v.opened.isSome = true ∧ Empty v)
    (Attempt.ends_forEach (fun wt hwt v ⟨hv, hsame, hopen, hempty⟩ => ?_)
      ⟨hu, hsame, hopen, hempty ht.empty⟩) fun _ v ⟨hv, hsame, _, _⟩ => Attempt.ends_modify ?_
  · have hid : v.setId < kMinSetID := by
      rw [hsame.setId, hid]
      decide
    have htakes : Takes J v (wt.domain, wt.tid) := fun sets s sent r hghost hs _ =>
      hJ.template hghost (hs ▸ hid)
    refine (ends_putRecord "MTU too small for template record" hJ (fun hholds => (hc hholds).1)
      ((WireTemplate.records_encodeTemplateRecord wt).mono fun hholds => (hc hholds).2 wt hwt)
      hv hopen hempty htakes).imp (fun _ w ⟨hw, hsame₁, hopen, _, hstays⟩ => ?_)
      fun er w hfail hholds => ?_
    · exact ⟨hw, hsame.trans hsame₁, hopen, hstays hid⟩
    · obtain ⟨hquiet, hw, hsame₁, hempty⟩ := hfail hholds
      exact ⟨hquiet, hw, hempty, fun hzero =>
        absurd ((hsame.trans hsame₁).setId.symm.trans hzero) hnonzero⟩
  · exact ⟨hv.with_msgEmpty false, fun hmsg => absurd hmsg (by simp), fun hzero =>
      absurd (hsame.setId.symm.trans hzero) hnonzero⟩

theorem ready_new (hnew : ∀ d, J d [] []) (domain : UInt32) {buf : List UInt8}
    (hbuf : kMessageHeaderLen ≤ buf.length) :
    Ready J buf.length (new domain buf).2 := by
  have hrun : (new domain buf) = (.ok (), _) := run_startMessage (e := members domain buf) rfl hbuf
  rw [hrun]
  have hseq : InSequence { members domain buf with
      xcoder := { (members domain buf).xcoder with
        cur := kMessageHeaderLen, max := buf.length, msgBase := some 0 } } :=
    inSequence_start hbuf rfl rfl rfl rfl rfl rfl rfl rfl fun _ hm => (List.not_mem_nil hm).elim
  exact ready_of_nil ⟨hseq, rfl, (fun _ _ hk => nomatch hk), (fun _ hs => nomatch hs),
    (fun _ hk => nomatch hk), hnew domain⟩ rfl rfl

end Exporter

end DStreamon.Ipfix
