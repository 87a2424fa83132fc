import DStreamon.Proofs.ExporterRuns

/-!
# What becomes of the records

Whatever is flushed in between, the sets that were sent and those under way are one list.  A call
opens sets at its end and puts records into the last one, and changes nothing else in it.
-/

namespace DStreamon.Ipfix

open Transcoder

namespace Exporter

/-- All the sets, those sent first, each with the domain that it is sent with. -/
def allSets (e : Exporter) : List (UInt32 × SetWritten) :=
  e.sent.flatMap (fun m => m.sets.map (Prod.mk m.domain)) ++ e.current.map (Prod.mk e.domain)

variable {K L : List (UInt32 × SetWritten) → Prop} {env : Env} {e t : Exporter} {n : ℕ}

/-! ## Messages and sets -/

theorem ends_encoding {α : Type} (x : Attempt Error Transcoder α) (e : Exporter) :
    (encoding x).Ends e (fun _ t => ∃ xc, t = { e with xcoder := xc }) fun _ _ => True := by
  refine Attempt.ends_zoom ?_
  rcases hrun : x.run e.xcoder with ⟨er | a, xc⟩
  · exact Attempt.ends_of_error hrun trivial
  · exact Attempt.ends_of_ok hrun ⟨xc, rfl⟩

/-- No message was sent that is only a header. -/
def Full (e : Exporter) : Prop := ∀ m ∈ e.sent, m.sets ≠ []

/-- Between calls, or in the middle of one: nothing more is said of what is in the sets. -/
structure Sound (n : ℕ) (e : Exporter) : Prop extends Inv (fun _ _ _ => True) n e where
  full : Full e

theorem Full.of_sent (h : Full e) (hsent : t.sent = e.sent) : Full t := by
  rwa [Full, hsent]

/-- An open set is ended as it is. -/
theorem ends_endActiveSet_allSets (h : Sound n e) : endActiveSet.Ends e (fun _ t => Sound n t ∧
    Same e t ∧ t.opened = none ∧ t.current = e.current ∧ t.msgEmpty = e.msgEmpty ∧
      t.allSets = e.allSets) fun _ _ => True := by
  have hsent : endActiveSet.Ends e (fun _ t => t.sent = e.sent) fun _ _ => True := by
    rw [endActiveSet]
    refine Attempt.ends_get_bind ?_
    split_ifs
    · refine (ends_encoding _ e).bind fun _ t ht => ?_
      obtain ⟨xc, rfl⟩ := ht
      exact Attempt.ends_modify rfl
    · exact Attempt.ends_pure rfl
  refine (Attempt.Ends.and (ends_endActiveSet (R := fun _ _ => True) h.toInv) hsent).imp
    (fun _ t ht => ?_) fun _ _ _ => trivial
  obtain ⟨⟨ht, hsame, hsets, hopen, hmsg⟩, hsent⟩ := ht
  have hcurrent : t.current = e.current := by
    rw [current, hsets, hopen, Option.toList_none, List.append_nil]
  exact ⟨⟨ht, h.full.of_sent hsent⟩, hsame, hopen, hcurrent, hmsg, by
    rw [allSets, allSets, hsent, hcurrent, hsame.domain]⟩

theorem ends_startMessage (e : Exporter) : startMessage.Ends e (fun _ t => ∃ xc, t = { e with
    xcoder := xc, msgEmpty := true, sets := [] }) fun _ _ => True := by
  rw [startMessage]
  refine Attempt.Ends.bind (Q := fun _ t => ∃ xc, t = { e with xcoder := xc })
    (Attempt.ends_modify ⟨_, rfl⟩) fun _ t ht => ?_
  obtain ⟨xc, rfl⟩ := ht
  refine (ends_encoding _ _).bind fun b t ht => ?_
  obtain ⟨xc, rfl⟩ := ht
  split_ifs
  · exact Attempt.ends_modify ⟨xc, rfl⟩
  · exact Attempt.ends_throw trivial

/-- The message sent has the sets that were under way. -/
theorem ends_seal_allSets (exportTime : UInt32) (hopen : e.opened = none) (hfull : Full e)
    (hsets : e.sets ≠ []) :
    (encoding (encodeMessageEnd exportTime 0 e.domain) >>= fun _ => sendMessage env >>= fun _ =>
      startMessage).Ends e (fun _ t => Full t ∧ t.allSets = e.allSets) fun _ _ => True := by
  refine (ends_encoding _ e).bind fun _ t ht => ?_
  obtain ⟨xc, rfl⟩ := ht
  have hsend : (sendMessage env).Ends { e with xcoder := xc } (fun _ t => ∃ bytes, t = { e with
      xcoder := xc, sent := e.sent ++ [⟨e.domain, e.sets, bytes⟩] }) fun _ _ => True := by
    rw [sendMessage]
    refine Attempt.ends_get_bind ?_
    dsimp only
    cases env.refusal (xc.buf.take xc.len) with
    | some what => exact Attempt.ends_throw trivial
    | none => exact Attempt.ends_modify ⟨_, rfl⟩
  refine hsend.bind fun _ t ht => ?_
  obtain ⟨bytes, rfl⟩ := ht
  refine (ends_startMessage _).imp (fun _ t ht => ?_) fun _ _ _ => trivial
  obtain ⟨xc, rfl⟩ := ht
  refine ⟨fun m hm => ?_, by simp [allSets, current, hopen]⟩
  rcases List.mem_append.1 hm with hm | hm
  · exact hfull m hm
  · obtain rfl := List.mem_singleton.1 hm
    exact hsets

/-- Behind the header of a message there are sets. -/
theorem sets_ne_nil (h : InSequence e) (hopen : e.opened = none)
    (hlen : e.xcoder.len > kMessageHeaderLen) : e.sets ≠ [] := by
  rintro hnil
  have hcur := h.length_written
  rw [hopen, hnil] at hcur
  rw [Transcoder.len, hcur] at hlen
  exact lt_irrefl _ hlen

theorem ends_flush_allSets (exportTime : UInt32) (h : Sound n e) :
    (flush env exportTime).Ends e (fun _ t => Sound n t ∧ Same e t ∧ t.current = [] ∧
      t.allSets = e.allSets) fun _ _ => True := by
  have hall : (flush env exportTime).Ends e (fun _ t => Full t ∧ t.allSets = e.allSets)
      fun _ _ => True := by
    rw [flush]
    refine (ends_endActiveSet_allSets h).bind fun _ t ht => ?_
    obtain ⟨ht, -, hopen, -, -, hall⟩ := ht
    refine Attempt.ends_get_bind ?_
    split_ifs with hlen
    · exact (ends_seal_allSets exportTime hopen ht.full
        (sets_ne_nil ht.toInSequence hopen hlen)).imp
        (fun _ u hu => ⟨hu.1, hu.2.trans hall⟩) fun _ _ _ => trivial
    · exact Attempt.ends_pure ⟨ht.full, hall⟩
  have hflush : (flush env exportTime).Ends e _ _ :=
    ends_flush (c := False) stable_true (fun hfalse => hfalse.elim) exportTime h.toInv
  refine (Attempt.Ends.and hflush hall).imp
    (fun _ t ht => ?_) fun _ _ _ => trivial
  obtain ⟨⟨ht, hsame, hsets, hopen⟩, hfull, hall⟩ := ht
  exact ⟨⟨ht, hfull⟩, hsame, by rw [current, hsets, hopen]; rfl, hall⟩

/-! ## Records -/

/-- What holds of the sets still does with another one, without records, behind them. -/
def Starts (K : List (UInt32 × SetWritten) → Prop) (domain : UInt32) (id : UInt16) : Prop :=
  ∀ l, K l → K (l ++ [(domain, ⟨id, []⟩)])

/-- What holds of the sets makes something else hold when the last one gets a record. -/
def Adds (K L : List (UInt32 × SetWritten) → Prop) (domain : UInt32) (id : UInt16) (r : Written) :
    Prop :=
  ∀ l s, s.id = id → K (l ++ [(domain, s)]) → L (l ++ [(domain, s.add r)])

theorem Same.starts (hsame : Same e t) (h : Starts K e.domain e.setId) :
    Starts K t.domain t.setId := by
  rwa [hsame.domain, hsame.setId]

theorem Same.adds {r : Written} (hsame : Same e t) (h : Adds K L e.domain e.setId r) :
    Adds K L t.domain t.setId r := by
  rwa [hsame.domain, hsame.setId]

theorem allSets_openSet {xc : Transcoder} (hopen : e.opened = none) :
    (openSet { e with xcoder := xc }).allSets = e.allSets ++ [(e.domain, ⟨e.setId, []⟩)] := by
  simp [allSets, current, openSet, hopen]

theorem ends_ensureSet_allSets (h : Sound n e) (hstart : Starts K e.domain e.setId)
    (hK : K e.allSets) : (ensureSet env).Ends e (fun _ t => Sound n t ∧ Same e t ∧
      t.opened.isSome = true ∧ K t.allSets) fun _ _ => True := by
  have hall : (ensureSet env).Ends e (fun _ t => Full t ∧ K t.allSets) fun _ _ => True := by
    rw [ensureSet]
    refine Attempt.ends_get_bind ?_
    split_ifs with hset
    · exact Attempt.ends_pure ⟨h.full, hK⟩
    have hopen : e.opened = none := by
      have hactive := h.active
      rw [Bool.not_eq_true] at hset
      rwa [hset, eq_comm, Option.isSome_eq_false_iff, Option.isNone_iff_eq_none] at hactive
    obtain ⟨xc, hrun, -⟩ | hrun := encodeSetStart_cases stable_true h.toInv hopen
    · rw [Attempt.Ends, Attempt.run_bind_of_ok hrun, if_pos rfl, Attempt.run_modify]
      dsimp only
      rw [allSets_openSet hopen]
      exact ⟨h.full, hstart _ hK⟩
    rw [Attempt.Ends, Attempt.run_bind_of_ok hrun, if_neg (by simp)]
    refine (ends_flush_allSets env.now h).bind fun _ t ht => ?_
    obtain ⟨ht, hsame, hnone, hflushed⟩ := ht
    have hopen : t.opened = none := by
      rw [current, List.append_eq_nil_iff] at hnone
      simpa using hnone.2
    rw [← hsame.setId]
    obtain ⟨xc, hrun, -⟩ | hrun := encodeSetStart_cases stable_true ht.toInv hopen
    · rw [Attempt.Ends, Attempt.run_bind_of_ok hrun, if_pos rfl, Attempt.run_modify]
      dsimp only
      rw [allSets_openSet hopen, hflushed]
      exact ⟨ht.full, hsame.starts hstart _ hK⟩
    · rw [Attempt.Ends, Attempt.run_bind_of_ok hrun, if_neg (by simp), Attempt.run_throw]
      trivial
  have hensure : (ensureSet env).Ends e _ _ :=
    ends_ensureSet (c := False) stable_true (fun hfalse => hfalse.elim) h.toInv
  refine (Attempt.Ends.and hensure hall).imp (fun _ t ht => ?_) fun _ _ _ => trivial
  obtain ⟨⟨ht, hsame, hopen, -⟩, hfull, hall⟩ := ht
  exact ⟨⟨ht, hfull⟩, hsame, hopen, hall⟩

/-- What is in a set for `key` when `x` says that it has written a record there. -/
def AddsWritten (K L : List (UInt32 × SetWritten) → Prop) (domain : UInt32) (id : UInt16)
    (key : WireTemplateKey) (x : Attempt Error Transcoder Bool) (xc : Transcoder) : Prop :=
  ∀ t bs, x.run xc = (.ok true, t) → Extends xc t bs → Adds K L domain id ⟨key, bs⟩

theorem ends_encodeRecord_allSets {x : Attempt Error Transcoder Bool} {c : Prop}
    {key : WireTemplateKey} (hx : Records x c) (h : Sound n e) (hopen : e.opened.isSome = true)
    (hadd : AddsWritten K L e.domain e.setId key x e.xcoder) (hK : K e.allSets) :
    (encodeRecord key x).Ends e (fun b t => Sound n t ∧ Same e t ∧ t.opened.isSome = true ∧
      (if b then L t.allSets else K t.allSets) ∧ x.run e.xcoder = (.ok b, t.xcoder))
      fun _ _ => True := by
  have hall : (encodeRecord key x).Ends e (fun b t => t.sent = e.sent ∧
      (if b then L t.allSets else K t.allSets) ∧ x.run e.xcoder = (.ok b, t.xcoder))
      fun _ _ => True := by
    obtain ⟨s, hopen⟩ := Option.isSome_iff_exists.1 hopen
    rw [encodeRecord]
    refine Attempt.ends_get_bind ?_
    obtain ⟨xc, bs, hrun, hext⟩ | ⟨xc, hrun, -⟩ | ⟨-, er, xc, hrun⟩ := hx e.xcoder h.sound
    · have hopened := (inSequence_note key h.toInSequence hopen hext).2
      have hbefore : e.allSets = (e.sent.flatMap (fun m => m.sets.map (Prod.mk m.domain)) ++
          e.sets.map (Prod.mk e.domain)) ++ [(e.domain, s)] := by
        simp [allSets, current, hopen]
      have hafter : (note key e.xcoder.cur { e with xcoder := xc }).allSets =
          (e.sent.flatMap (fun m => m.sets.map (Prod.mk m.domain)) ++
            e.sets.map (Prod.mk e.domain)) ++ [(e.domain, s.add ⟨key, bs⟩)] := by
        rw [allSets, current, hopened]
        simp [note]
      rw [hbefore] at hK
      rw [Attempt.Ends, Attempt.run_bind_of_ok (run_encoding hrun), if_pos rfl,
        Attempt.run_modify_bind, Attempt.run_pure]
      dsimp only
      rw [if_pos rfl, hafter]
      exact ⟨rfl, hadd xc bs hrun hext _ s (h.opened_id s hopen) hK, hrun⟩
    · rw [Attempt.Ends, Attempt.run_bind_of_ok (run_encoding hrun)]
      exact ⟨rfl, hK, hrun⟩
    · exact Attempt.ends_of_error (Attempt.run_bind_of_error (run_encoding hrun)) trivial
  refine (Attempt.Ends.and (ends_encodeRecord hx h.toInv hopen
    (fun _ _ _ _ _ _ _ => trivial)) hall).imp (fun b t ht => ?_) fun _ _ _ => trivial
  obtain ⟨⟨ht, hsame, hopen, -⟩, hsent, hall⟩ := ht
  exact ⟨⟨ht, h.full.of_sent hsent⟩, hsame, hopen, hall⟩

/-- The record is put into the last set, in this message or the next one. -/
theorem ends_putRecord_allSets {x : Attempt Error Transcoder Bool} {c : Prop}
    {key : WireTemplateKey} (what : String) (hx : Records x c) (h : Sound n e)
    (hopen : e.opened.isSome = true) (hstart : Starts K e.domain e.setId)
    (hadd : ∀ xc : Transcoder, xc.Sound → AddsWritten K L e.domain e.setId key x xc)
    (hK : K e.allSets) : (putRecord env what key x).Ends e (fun _ t => Sound n t ∧ Same e t ∧
      t.opened.isSome = true ∧ L t.allSets) fun _ _ => True := by
  rw [putRecord]
  refine (ends_encodeRecord_allSets hx h hopen (hadd _ h.sound) hK).bind fun b t ht => ?_
  obtain ⟨ht, hsame, hopen, hb, -⟩ := ht
  cases b with
  | true => exact Attempt.ends_pure ⟨ht, hsame, hopen, hb⟩
  | false =>
    have hK : K t.allSets := hb
    rw [if_neg (by simp)]
    refine (ends_flush_allSets env.now ht).bind fun _ u hu => ?_
    obtain ⟨hu, hsame₁, -, hflushed⟩ := hu
    have hsame := hsame.trans hsame₁
    refine (ends_ensureSet_allSets hu (hsame.starts hstart) (hflushed ▸ hK)).bind
      fun _ v hv => ?_
    obtain ⟨hv, hsame₂, hopen, hK⟩ := hv
    have hsame := hsame.trans hsame₂
    have hadd : AddsWritten K L v.domain v.setId key x v.xcoder := by
      rw [hsame.domain, hsame.setId]
      exact hadd _ hv.sound
    refine (ends_encodeRecord_allSets hx hv hopen hadd hK).bind fun b w hw => ?_
    obtain ⟨hw, hsame₃, hopen, hb, -⟩ := hw
    cases b with
    | true => exact Attempt.ends_pure ⟨hw, hsame.trans hsame₃, hopen, hb⟩
    | false => exact Attempt.ends_throw trivial

theorem extends_unique {xc t : Transcoder} {bs bs' : List UInt8} (h : Extends xc t bs)
    (h' : Extends xc t bs') : bs = bs' :=
  List.append_cancel_left (h.written.symm.trans h'.written)

theorem extends_encode {wt : WireTemplate} {st : StructTemplate} {s : Struct} {xc t : Transcoder}
    (h : xc.Sound) (hrun : (wt.encode st s).run xc = (.ok true, t)) :
    Extends xc t (wt.recordBytes st s) := by
  obtain ⟨-, -, -, hroom, rfl⟩ := WireTemplate.of_run_encode h hrun
  have hsound : xc.checkpoint.Sound := ⟨h.cur_le, h.max_le⟩
  have hext := extends_put hsound hroom
  exact ⟨hext.sound, hext.written, rfl, hext.length, rfl, rfl⟩

/-- The template that is chosen. -/
def chosen (e : Exporter) : Option (WireTemplateKey × WireTemplate) :=
  e.tmpl.bind fun key => (e.session.find key).map (Prod.mk key)

/-- What a structure becomes in a set. -/
def recordOf (st : StructTemplate) (s : Struct) (p : WireTemplateKey × WireTemplate) : Written :=
  ⟨p.1, p.2.recordBytes st s⟩

theorem chosen_some {p : WireTemplateKey × WireTemplate} (h : e.chosen = some p) :
    e.tmpl = some p.1 ∧ e.session.find p.1 = some p.2 := by
  obtain ⟨key, hkey, hfind⟩ := Option.bind_eq_some_iff.1 h
  obtain ⟨wt, hwt, rfl⟩ := Option.map_eq_some_iff.1 hfind
  exact ⟨hkey, hwt⟩

/-- A record that is exported is the next one in the sets. -/
theorem ends_exportRecord_allSets {st : StructTemplate} {s : Struct} (h : Sound n e)
    (hstart : ∀ p, e.chosen = some p → Starts K e.domain e.setId)
    (hadd : ∀ p, e.chosen = some p → (∀ ie ∈ p.2.ies, WireTemplate.Permitted st s ie) →
      Adds K L e.domain e.setId (recordOf st s p)) (hK : K e.allSets) :
    (exportRecord env st s).Ends e (fun _ t => Full t ∧ L t.allSets ∧ t.msgEmpty = false ∧
      Same e t) fun _ _ => True := by
  rw [exportRecord]
  cases hchosen : e.chosen with
  | none =>
    have hsame : (ensureSet env).Ends e (fun _ t => Same e t) fun _ _ => True :=
      (ends_ensureSet_allSets (K := fun _ => True) h (fun _ _ => trivial) trivial).imp
        (fun _ t ht => ht.2.1) fun _ _ _ => trivial
    refine hsame.bind fun _ t ht => Attempt.ends_get_bind ?_
    rw [ht.tmpl, ht.session]
    cases htmpl : e.tmpl with
    | none =>
      exact Attempt.Ends.bind (Q := fun _ _ => False) (Attempt.ends_throw trivial)
        fun _ _ hfalse => hfalse.elim
    | some key =>
      rw [chosen, htmpl, Option.bind_some, Option.map_eq_none_iff] at hchosen
      rw [Attempt.orThrow_some, pure_bind, hchosen]
      exact Attempt.Ends.bind (Q := fun _ _ => False) (Attempt.ends_throw trivial)
        fun _ _ hfalse => hfalse.elim
  | some p =>
    obtain ⟨htmpl, hfind⟩ := chosen_some hchosen
    refine (ends_ensureSet_allSets h (hstart p hchosen) hK).bind
      fun _ t ht => Attempt.ends_get_bind ?_
    obtain ⟨ht, hsame, hopen, hK⟩ := ht
    rw [hsame.tmpl, hsame.session, htmpl, Attempt.orThrow_some, pure_bind, hfind,
      Attempt.orThrow_some, pure_bind]
    have hwritten : ∀ xc : Transcoder, xc.Sound →
        AddsWritten K L t.domain t.setId p.1 (p.2.encode st s) xc := by
      intro xc hxc u bs hrun hext
      obtain ⟨-, -, hp, -⟩ := WireTemplate.of_run_encode hxc hrun
      obtain rfl := extends_unique hext (extends_encode hxc hrun)
      exact hsame.adds (hadd p hchosen hp)
    refine (ends_putRecord_allSets _ (WireTemplate.records_encode p.2) ht hopen
      (hsame.starts (hstart p hchosen)) hwritten hK).bind fun _ u hu => Attempt.ends_modify ?_
    obtain ⟨hu, hsame₁, -, hK⟩ := hu
    exact ⟨hu.full, hK, rfl, (hsame.trans hsame₁).trans ⟨rfl, rfl, rfl, rfl, rfl⟩⟩

/-! ## Template records -/

/-- What is taken for a template's record. -/
abbrev Taken := WireTemplate → List UInt8 → Prop

/-- Whatever is written for these templates is taken, or there is room for their whole records. -/
def Fit (T : Taken) (wts : List WireTemplate) (xc : Transcoder) : Prop :=
  (∀ wt ∈ wts, ∀ xc t bs, xc.Sound → wt.encodeTemplateRecord.run xc = (.ok true, t) →
    Extends xc t bs → T wt bs) ∨
  (∀ wt ∈ wts, wt.trlen ≤ wt.templateRecord.length ∧ T wt wt.templateRecord) ∧
    (wts.map fun wt => wt.templateRecord.length).sum ≤ xc.avail

theorem run_inactive {wt : WireTemplate} (hactive : ¬ wt.active = true) (xc : Transcoder) :
    wt.encodeTemplateRecord.run xc =
      (.error (.logicError "Cannot encode an inactive template"), xc) := by
  rw [WireTemplate.encodeTemplateRecord, if_pos (by simpa using hactive), Attempt.run_throw]

/-- A template's record, where what is written for it is taken. -/
theorem ends_putTemplate {T : Taken} {wt : WireTemplate} {wts : List WireTemplate} (what : String)
    (h : Sound n e) (hopen : e.opened.isSome = true) (hstart : Starts K e.domain e.setId)
    (hfit : Fit T (wt :: wts) e.xcoder)
    (hadd : ∀ bs, T wt bs → Adds K K e.domain e.setId ⟨(wt.domain, wt.tid), bs⟩)
    (hK : K e.allSets) :
    (putRecord env what (wt.domain, wt.tid) wt.encodeTemplateRecord).Ends e (fun _ t => Sound n t ∧
      Same e t ∧ t.opened.isSome = true ∧ K t.allSets ∧ Fit T wts t.xcoder) fun _ _ => True := by
  rcases hfit with hany | ⟨hall, hroom⟩
  · refine (ends_putRecord_allSets what (WireTemplate.records_encodeTemplateRecord wt) h hopen
      hstart (fun xc hxc t bs hrun hext => hadd bs
        (hany wt List.mem_cons_self xc t bs hxc hrun hext)) hK).imp (fun _ t ht => ?_)
      fun _ _ _ => trivial
    obtain ⟨ht, hsame, hopen, hK⟩ := ht
    exact ⟨ht, hsame, hopen, hK, .inl fun wt' hwt' => hany wt' (List.mem_cons_of_mem _ hwt')⟩
  · obtain ⟨⟨htrlen, htaken⟩, hall'⟩ := List.forall_mem_cons.1 hall
    rw [List.map_cons, List.sum_cons] at hroom
    have hfits : wt.templateRecord.length ≤ e.xcoder.avail := by omega
    rw [putRecord]
    by_cases hactive : wt.active = true
    swap
    · have hrun : (encodeRecord (wt.domain, wt.tid) wt.encodeTemplateRecord).run e =
          (.error (.logicError "Cannot encode an inactive template"), e) := by
        rw [encodeRecord, Attempt.run_get_bind,
          Attempt.run_bind_of_error (run_encoding (run_inactive hactive e.xcoder))]
      exact Attempt.ends_of_error (Attempt.run_bind_of_error hrun) trivial
    have hrun : wt.encodeTemplateRecord.run e.xcoder =
        (.ok true, e.xcoder.put wt.templateRecord) :=
      WireTemplate.run_encodeTemplateRecord_room hactive h.sound (htrlen.trans hfits) hfits
    have hwritten : AddsWritten K K e.domain e.setId (wt.domain, wt.tid) wt.encodeTemplateRecord
        e.xcoder := by
      intro t bs hrun' hext
      obtain rfl : t = e.xcoder.put wt.templateRecord :=
        congrArg Prod.snd (hrun'.symm.trans hrun)
      obtain rfl := extends_unique hext (extends_put h.sound hfits)
      exact hadd _ htaken
    refine (ends_encodeRecord_allSets (WireTemplate.records_encodeTemplateRecord wt) h hopen
      hwritten hK).bind fun b t ht => ?_
    obtain ⟨ht, hsame, hopen, hb, hrun'⟩ := ht
    rw [hrun] at hrun'
    cases b with
    | false => cases hrun'
    | true =>
      refine Attempt.ends_pure ⟨ht, hsame, hopen, hb, .inr ⟨hall', ?_⟩⟩
      have hput := avail_put h.sound hfits
      have ht : t.xcoder = e.xcoder.put wt.templateRecord := (congrArg Prod.snd hrun').symm
      rw [ht]
      omega

theorem ends_putTemplates {T : Taken} (what : String) : ∀ {wts : List WireTemplate} {e : Exporter},
    Sound n e → e.opened.isSome = true → Starts K e.domain e.setId → Fit T wts e.xcoder →
    (∀ wt ∈ wts, ∀ bs, T wt bs → Adds K K e.domain e.setId ⟨(wt.domain, wt.tid), bs⟩) →
    K e.allSets → (Attempt.forEach (fun wt => putRecord env what (wt.domain, wt.tid)
      wt.encodeTemplateRecord) wts).Ends e (fun _ t => Full t ∧ Same e t ∧ K t.allSets)
      fun _ _ => True
  | [], e, h, _, _, _, _, hK => Attempt.ends_pure ⟨h.full, .refl e, hK⟩
  | wt :: wts, e, h, hopen, hstart, hfit, hadd, hK => by
    obtain ⟨hwt, hwts⟩ := List.forall_mem_cons.1 hadd
    rw [Attempt.forEach_cons]
    refine (ends_putTemplate what h hopen hstart hfit hwt hK).bind fun _ t ht => ?_
    obtain ⟨ht, hsame, hopen, hK, hfit⟩ := ht
    refine (ends_putTemplates what ht hopen (hsame.starts hstart) hfit
      (fun wt' hwt' bs hbs => hsame.adds (hwts wt' hwt' bs hbs)) hK).imp
      (fun _ u hu => ?_) fun _ _ _ => trivial
    obtain ⟨hfull, hsame₁, hK⟩ := hu
    exact ⟨hfull, hsame.trans hsame₁, hK⟩

/-- The cursor is behind the sets of the message under way. -/
theorem cur_eq (h : InSequence e) :
    e.xcoder.cur = kMessageHeaderLen + (setsWire e.current).length := by
  rw [h.length_written, current]
  cases e.opened with
  | none => simp
  | some s =>
    rw [Option.toList_some, setsWire_append, List.length_append, s.length_wire, Option.elim_some,
      SetWritten.openWire, List.length_append, length_setHeader]

theorem avail_of_current (h : InSequence e) (h' : InSequence t) (hmtu : t.mtu = e.mtu)
    (hcurrent : t.current = e.current) : t.xcoder.avail = e.xcoder.avail := by
  rw [avail_of_le h.sound.cur_le, avail_of_le h'.sound.cur_le, h.max_eq, h'.max_eq, cur_eq h,
    cur_eq h', hmtu, hcurrent]

/-- Nothing is flushed where there is room for the header of a set. -/
theorem ends_ensureSet_room (h : Sound n e) (hroom : kSetHeaderLen ≤ e.xcoder.avail) :
    (ensureSet env).Ends e (fun _ t => e.xcoder.avail ≤ t.xcoder.avail + kSetHeaderLen)
      fun _ _ => True := by
  rw [ensureSet]
  refine Attempt.ends_get_bind ?_
  split_ifs with hset
  · exact Attempt.ends_pure (Nat.le_add_right _ _)
  have hactive := h.active
  rw [Bool.not_eq_true] at hset
  rw [hset, eq_comm, Option.isSome_eq_false_iff, Option.isNone_iff_eq_none] at hactive
  have hstart := h.setStart
  rw [hactive, Option.map_none] at hstart
  have hrun := run_encoding (run_encodeSetStart h.sound hstart hroom e.setId)
  have hsound : ({ e.xcoder with setStart := some e.xcoder.cur } : Transcoder).Sound :=
    ⟨h.sound.cur_le, h.sound.max_le⟩
  have hput := avail_put hsound
    (by rw [length_setHeader]; exact hroom : (setHeader e.setId 0).length ≤ _)
  rw [Attempt.Ends, Attempt.run_bind_of_ok hrun, if_pos rfl, Attempt.run_modify]
  change e.xcoder.avail ≤ ({ e.xcoder with setStart := some e.xcoder.cur }.put
    (setHeader e.setId 0)).avail + kSetHeaderLen
  rw [hput, length_setHeader]
  change e.xcoder.avail ≤ e.xcoder.avail - kSetHeaderLen + kSetHeaderLen
  omega

theorem ends_enterTemplateSet_allSets (h : Ready (fun _ _ _ => True) n e) (hfull : Full e) :
    enterTemplateSet.Ends e (fun _ t => Sound n t ∧ t.setId = kTemplateSetID ∧
      t.session = e.session ∧ t.domain = e.domain ∧ t.allSets = e.allSets ∧
      t.xcoder.avail = e.xcoder.avail) fun _ _ => True := by
  have hall : enterTemplateSet.Ends e (fun _ t => Full t ∧ t.allSets = e.allSets ∧
      t.xcoder.avail = e.xcoder.avail) fun _ _ => True := by
    rw [enterTemplateSet]
    refine Attempt.ends_get_bind ?_
    split_ifs
    · refine (ends_endActiveSet_allSets ⟨h.toInv, hfull⟩).bind fun _ t ht => ?_
      obtain ⟨ht, hsame, -, hcurrent, -, hall⟩ := ht
      have havail := avail_of_current h.toInSequence ht.toInSequence hsame.mtu hcurrent
      exact Attempt.ends_modify ⟨ht.full, hall, havail⟩
    · exact Attempt.ends_pure ⟨hfull, rfl, rfl⟩
  refine (Attempt.Ends.and (ends_enterTemplateSet (R := fun _ _ => True) h) hall).imp
    (fun _ t ht => ?_) fun _ _ _ => trivial
  obtain ⟨⟨ht, hid, hsession, hdomain⟩, hfull, hall⟩ := ht
  exact ⟨⟨ht.toInv, hfull⟩, hid, hsession, hdomain, hall⟩

/-- Whatever is written for the templates of the domain is taken, or there is room for it in the
message under way. -/
def FitAll (T : Taken) (e : Exporter) : Prop :=
  (∀ wt ∈ e.session.activeTemplates e.domain, ∀ xc t bs, xc.Sound →
    wt.encodeTemplateRecord.run xc = (.ok true, t) → Extends xc t bs → T wt bs) ∨
  (∀ wt ∈ e.session.activeTemplates e.domain, wt.trlen ≤ wt.templateRecord.length ∧
    T wt wt.templateRecord) ∧
    kSetHeaderLen + ((e.session.activeTemplates e.domain).map
      fun wt => wt.templateRecord.length).sum ≤ e.xcoder.avail

theorem ends_exportTemplates_allSets {T : Taken} (h : Ready (fun _ _ _ => True) n e)
    (hfull : Full e) (hstart : Starts K e.domain kTemplateSetID) (hfit : FitAll T e)
    (hadd : ∀ wt ∈ e.session.activeTemplates e.domain, ∀ bs, T wt bs →
      Adds K K e.domain kTemplateSetID ⟨(wt.domain, wt.tid), bs⟩) (hK : K e.allSets) :
    (exportTemplatesForDomain env).Ends e (fun _ t => Full t ∧ K t.allSets ∧
      t.msgEmpty = false ∧ t.session = e.session) fun _ _ => True := by
  rw [exportTemplatesForDomain, ensureTemplateSet]
  simp only [bind_assoc]
  refine (ends_enterTemplateSet_allSets h hfull).bind fun _ t ht => ?_
  obtain ⟨ht, hid, hsession, hdomain, hall, havail⟩ := ht
  have hstart : Starts K t.domain t.setId := by
    rwa [hdomain, hid]
  have hensure : (ensureSet env).Ends t (fun _ u => Sound n u ∧ Same t u ∧
      u.opened.isSome = true ∧ K u.allSets ∧
      Fit T (e.session.activeTemplates e.domain) u.xcoder) fun _ _ => True := by
    have hkept : (ensureSet env).Ends t _ _ := ends_ensureSet_allSets ht hstart (hall ▸ hK)
    rcases hfit with hany | ⟨htemplates, hroom⟩
    · refine hkept.imp (fun _ u hu => ?_) fun _ _ _ => trivial
      obtain ⟨hu, hsame, hopen, hK⟩ := hu
      exact ⟨hu, hsame, hopen, hK, .inl hany⟩
    · rw [← havail] at hroom
      refine (Attempt.Ends.and hkept (ends_ensureSet_room ht (by omega))).imp
        (fun _ u hu => ?_) fun _ _ _ => trivial
      obtain ⟨⟨hu, hsame, hopen, hK⟩, hspace⟩ := hu
      exact ⟨hu, hsame, hopen, hK, .inr ⟨htemplates, by omega⟩⟩
  refine hensure.bind fun _ u hu => Attempt.ends_get_bind ?_
  obtain ⟨hu, hsame, hopen, hK, hfit⟩ := hu
  rw [hsame.session, hsession, hsame.domain, hdomain]
  have hadd : ∀ wt ∈ e.session.activeTemplates e.domain, ∀ bs, T wt bs →
      Adds K K u.domain u.setId ⟨(wt.domain, wt.tid), bs⟩ := by
    rw [hsame.domain, hsame.setId, hdomain, hid]
    exact hadd
  refine (ends_putTemplates _ hu hopen (hsame.starts hstart) hfit hadd hK).bind
    fun _ v hv => Attempt.ends_modify ?_
  obtain ⟨hfull, hsame₁, hK⟩ := hv
  exact ⟨hfull, hK, rfl, (hsame₁.session.trans hsame.session).trans hsession⟩

/-! ## Calls -/

/-- Between calls, when none has failed: an empty message has no sets. -/
structure Settled (n : ℕ) (e : Exporter) : Prop extends Ready (fun _ _ _ => True) n e where
  full : Full e
  fresh : e.msgEmpty = true → e.current = []

theorem Settled.toSound (h : Settled n e) : Sound n e := ⟨h.toInv, h.full⟩

/-- The calls that leave the sets as they are. -/
def Op.quiet : Op → Bool
  | .exportTemplatesForDomain => false
  | .exportRecord _ _ => false
  | _ => true

theorem ends_finalizeSet_allSets (h : Sound n e) :
    finalizeSet.Ends e (fun _ t => Full t ∧ t.allSets = e.allSets ∧ t.current = e.current ∧
      t.msgEmpty = e.msgEmpty) fun _ _ => True := by
  rw [finalizeSet]
  refine Attempt.ends_get_bind ?_
  split_ifs
  · cases hopen : e.opened with
    | some s =>
      have hactive := h.active
      rw [hopen, Option.isSome_some] at hactive
      have hend : endActiveSet.Ends e _ _ := ends_endActiveSet_allSets h
      rw [endActiveSet, Attempt.Ends, Attempt.run_get_bind, hactive, if_pos rfl] at hend
      refine Attempt.Ends.imp (x := endSet) hend (fun _ t ht => ?_) fun _ _ _ => trivial
      obtain ⟨ht, -, -, hcurrent, hmsg, hall⟩ := ht
      exact ⟨ht.full, hall, hcurrent, hmsg⟩
    | none =>
      obtain ⟨er, t, hrun⟩ := run_endSet_none h.toInSequence hopen
      exact Attempt.ends_of_error hrun trivial
  · exact Attempt.ends_pure ⟨h.full, rfl, rfl, rfl⟩

theorem ends_inSession_getTemplate (domain : UInt32) (tid : UInt16) (e : Exporter) :
    (inSession (Session.getTemplate domain tid)).Ends e
      (fun _ t => ∃ s, t = { e with session := s }) fun _ _ => True := by
  refine Attempt.ends_zoom ?_
  rcases hrun : (Session.getTemplate domain tid).run e.session with ⟨er | wt, s⟩
  · exact Attempt.ends_of_error hrun trivial
  · exact Attempt.ends_of_ok hrun ⟨s, rfl⟩

/-- What is under way when the domain changes was sent, or there is nothing. -/
theorem ends_setDomain_allSets (h : Settled n e) (domain : UInt32) :
    (setDomain env domain).Ends e (fun _ t => Full t ∧ t.allSets = e.allSets ∧
      (t.msgEmpty = true → t.current = [])) fun _ _ => True := by
  have hflush : (flushDomain env domain).Ends e (fun _ t => Full t ∧ t.allSets = e.allSets ∧
      (t.domain = domain ∨ t.current = []) ∧ (t.msgEmpty = true → t.current = []))
      fun _ _ => True := by
    rw [flushDomain]
    refine Attempt.ends_get_bind ?_
    split_ifs with hother
    · refine (ends_flush_allSets env.now h.toSound).imp (fun _ t ht => ?_) fun _ _ _ => trivial
      obtain ⟨ht, -, hnone, hall⟩ := ht
      exact ⟨ht.full, hall, .inr hnone, fun _ => hnone⟩
    · refine Attempt.ends_pure ⟨h.full, rfl, ?_, h.fresh⟩
      by_cases hdomain : e.domain = domain
      · exact .inl hdomain
      · exact .inr (h.fresh (by simpa [hdomain] using hother))
  refine hflush.bind fun _ t ht => Attempt.ends_modify ?_
  obtain ⟨hfull, hall, hmoved, hfresh⟩ := ht
  refine ⟨hfull, ?_, hfresh⟩
  rw [← hall]
  rcases hmoved with rfl | hnone
  · rfl
  · change t.sent.flatMap _ ++ t.current.map (Prod.mk domain) =
      t.sent.flatMap _ ++ t.current.map (Prod.mk t.domain)
    rw [hnone, List.map_nil, List.map_nil]

theorem ends_setTemplate_allSets (h : Settled n e) (tid : UInt16) :
    (setTemplate tid).Ends e (fun _ t => Full t ∧ t.allSets = e.allSets ∧
      (t.msgEmpty = true → t.current = [])) fun _ _ => True := by
  rw [setTemplate]
  refine Attempt.ends_get_bind ?_
  split_ifs with hsame htid
  · exact Attempt.ends_pure ⟨h.full, rfl, h.fresh⟩
  · exact Attempt.ends_throw trivial
  have hget : (inSession (Session.getTemplate e.domain tid)).Ends e
      (fun _ t => ∃ s, t = { e with session := s } ∧ Ready (fun _ _ _ => True) n t)
      fun _ _ => True := by
    refine (ends_getTemplate (c := False) (fun hfalse => hfalse.elim) h.toReady).imp
      (fun wt t ht => ?_) fun _ _ _ => trivial
    obtain ⟨s, ht, hready, -⟩ := ht
    exact ⟨s, ht, hready⟩
  refine hget.bind fun wt t ht => ?_
  obtain ⟨s, rfl, hready⟩ := ht
  split_ifs
  · exact Attempt.ends_throw trivial
  · refine (ends_finalizeSet_allSets ⟨hready.toInv, h.full⟩).bind
      fun _ t ht => Attempt.ends_modify ?_
    obtain ⟨hfull, hall, hcurrent, hmsg⟩ := ht
    exact ⟨hfull, hall, fun hempty => hcurrent.trans (h.fresh (hmsg.symm.trans hempty))⟩

theorem ends_quiet (h : Settled n e) : ∀ op : Op, op.quiet = true →
    (call env op).Ends e (fun _ t => Full t ∧ t.allSets = e.allSets ∧
      (t.msgEmpty = true → t.current = [])) fun _ _ => True
  | .getTemplate tid, _ => by
    have hget : (getTemplate tid).Ends e (fun _ t => ∃ s, t = { e with session := s })
        fun _ _ => True := by
      rw [getTemplate]
      exact Attempt.ends_get_bind (ends_inSession_getTemplate e.domain tid e)
    refine hget.bind fun _ t ht => ?_
    obtain ⟨s, rfl⟩ := ht
    exact Attempt.ends_pure ⟨h.full, rfl, h.fresh⟩
  | .editTemplate key op, _ => by
    refine Attempt.ends_modify ?_
    rw [editTemplate]
    split
    · exact ⟨h.full, rfl, h.fresh⟩
    · exact ⟨h.full, rfl, h.fresh⟩
  | .setDomain domain, _ => ends_setDomain_allSets h domain
  | .setTemplate tid, _ => ends_setTemplate_allSets h tid
  | .flush exportTime, _ => by
    refine (ends_flush_allSets exportTime h.toSound).imp (fun _ t ht => ?_) fun _ _ _ => trivial
    obtain ⟨ht, -, hnone, hall⟩ := ht
    exact ⟨ht.full, hall, fun _ => hnone⟩

theorem settled_new (domain : UInt32) {buf : List UInt8} (hbuf : kMessageHeaderLen ≤ buf.length) :
    Settled buf.length (new domain buf).2 := by
  have hrun : new domain buf = (.ok (), _) := run_startMessage (e := members domain buf) rfl hbuf
  refine ⟨ready_new (fun _ => trivial) domain hbuf, ?_, fun _ => ?_⟩
  · rw [hrun]
    exact fun _ hm => (List.not_mem_nil hm).elim
  · rw [hrun]
    rfl

/-! ## Runs -/

/-- The data records in the sets, in order. -/
def dataRecords (l : List (UInt32 × SetWritten)) : List Written :=
  (l.filter fun p => !(p.2.id < kMinSetID)).flatMap fun p => p.2.records

/-- The record that a call exports. -/
def recordsOf (e : Exporter) (o : Env × Op) : List Written :=
  match o.2 with
  | .exportRecord st s => e.chosen.toList.map (recordOf st s)
  | _ => []

/-- The records that calls export, one after the other, as long as none fails. -/
def exported : Exporter → List (Env × Op) → List Written
  | _, [] => []
  | e, o :: os => recordsOf e o ++ (smoothStep e o).elim [] fun t => exported t os

theorem dataRecords_append (l l' : List (UInt32 × SetWritten)) :
    dataRecords (l ++ l') = dataRecords l ++ dataRecords l' := by
  rw [dataRecords, List.filter_append, List.flatMap_append, dataRecords, dataRecords]

theorem dataRecords_singleton (domain : UInt32) (s : SetWritten) :
    dataRecords [(domain, s)] = if s.id < kMinSetID then [] else s.records := by
  rw [dataRecords]
  by_cases hid : s.id < kMinSetID <;> simp [hid]

theorem dataRecords_start (l : List (UInt32 × SetWritten)) (domain : UInt32) (id : UInt16) :
    dataRecords (l ++ [(domain, ⟨id, []⟩)]) = dataRecords l := by
  rw [dataRecords_append, dataRecords_singleton, ite_self, List.append_nil]

theorem dataRecords_add (l : List (UInt32 × SetWritten)) (domain : UInt32) (s : SetWritten)
    (r : Written) : dataRecords (l ++ [(domain, s.add r)]) =
      dataRecords (l ++ [(domain, s)]) ++ if s.id < kMinSetID then [] else [r] := by
  rw [dataRecords_append, dataRecords_append, dataRecords_singleton, dataRecords_singleton,
    List.append_assoc]
  by_cases hid : s.id < kMinSetID <;> simp [hid, SetWritten.add]

/-- The template that is chosen gives its ID to the set. -/
theorem not_reserved (h : Settled n e) {key : WireTemplateKey} (hkey : e.tmpl = some key) :
    ¬ e.setId < kMinSetID := by
  obtain ⟨hid, hmin⟩ := h.tmpl_id key hkey
  rwa [← hid]

theorem smoothStep_settled {o : Env × Op} (h : Settled n e) (hstep : smoothStep e o = some t) :
    Settled n t := by
  have hrun := run_of_smoothStep hstep
  have hready := (ends_call stable_true o (fun _ _ _ _ _ _ _ _ _ _ _ _ => trivial)
    h.toReady).of_ok hrun
  suffices hkept : Full t ∧ (t.msgEmpty = true → t.current = []) from ⟨hready, hkept.1, hkept.2⟩
  obtain ⟨env, op⟩ := o
  cases hop : op.quiet with
  | true =>
    obtain ⟨hfull, -, hfresh⟩ := (ends_quiet h op hop).of_ok hrun
    exact ⟨hfull, hfresh⟩
  | false =>
    cases op with
    | exportTemplatesForDomain =>
      have hends : (exportTemplatesForDomain env).Ends e _ _ := ends_exportTemplates_allSets
        (K := fun _ => True) (T := fun _ _ => True) h.toReady h.full (fun _ _ => trivial)
        (.inl fun _ _ _ _ _ _ _ _ => trivial) (fun _ _ _ _ _ _ _ _ => trivial) trivial
      obtain ⟨hfull, -, hmsg, -⟩ := hends.of_ok hrun
      exact ⟨hfull, fun hempty => absurd (hmsg.symm.trans hempty) (by simp)⟩
    | exportRecord st s =>
      have hends : (exportRecord env st s).Ends e _ _ := ends_exportRecord_allSets
        (K := fun _ => True) (L := fun _ => True) h.toSound (fun _ _ _ _ => trivial)
        (fun _ _ _ _ _ _ _ => trivial) trivial
      obtain ⟨hfull, -, hmsg, -⟩ := hends.of_ok hrun
      exact ⟨hfull, fun hempty => absurd (hmsg.symm.trans hempty) (by simp)⟩
    | _ => cases hop

/-- A call puts the record that it exports, if it does, behind the others. -/
theorem smoothStep_dataRecords {o : Env × Op} (h : Settled n e) (hstep : smoothStep e o = some t) :
    dataRecords t.allSets = dataRecords e.allSets ++ recordsOf e o := by
  have hrun := run_of_smoothStep hstep
  obtain ⟨env, op⟩ := o
  cases hop : op.quiet with
  | true =>
    have hnone : recordsOf e (env, op) = [] := by
      cases op <;> first | rfl | cases hop
    rw [((ends_quiet h op hop).of_ok hrun).2.1, hnone, List.append_nil]
  | false =>
    cases op with
    | exportTemplatesForDomain =>
      have hends : (exportTemplatesForDomain env).Ends e _ _ := ends_exportTemplates_allSets
        (K := fun l => dataRecords l = dataRecords e.allSets) (T := fun _ _ => True) h.toReady
        h.full (fun l hl => (dataRecords_start l _ _).trans hl)
        (.inl fun _ _ _ _ _ _ _ _ => trivial) (fun wt _ bs _ l s hid hl => ?_) rfl
      · exact ((hends.of_ok hrun).2.1).trans (List.append_nil _).symm
      · have hl : dataRecords _ = _ := hl
        change dataRecords _ = _
        rw [dataRecords_add, if_pos (by rw [hid]; decide), List.append_nil, hl]
    | exportRecord st s =>
      have hends : (exportRecord env st s).Ends e _ _ := ends_exportRecord_allSets
        (K := fun l => dataRecords l = dataRecords e.allSets)
        (L := fun l =>
          dataRecords l = dataRecords e.allSets ++ recordsOf e (env, .exportRecord st s))
        h.toSound (fun _ _ l hl => (dataRecords_start l _ _).trans hl)
        (fun p hp _ l s' hid hl => ?_) rfl
      · exact (hends.of_ok hrun).2.1
      · have hl : dataRecords _ = _ := hl
        change dataRecords _ = _
        rw [dataRecords_add, hl, if_neg (by rw [hid]; exact not_reserved h (chosen_some hp).1),
          recordsOf]
        dsimp only
        rw [hp]
        rfl
    | _ => cases hop

theorem run_dataRecords : ∀ {os : List (Env × Op)} {e t : Exporter}, Settled n e →
    StepRun.run smoothStep e os = some t → Settled n t ∧
      dataRecords t.allSets = dataRecords e.allSets ++ exported e os
  | [], e, t, h, hrun => by
    cases hrun
    exact ⟨h, (List.append_nil _).symm⟩
  | o :: os, e, t, h, hrun => by
    obtain ⟨u, hstep, hrest⟩ := StepRun.run_cons_some hrun
    obtain ⟨ht, hall⟩ := run_dataRecords (smoothStep_settled h hstep) hrest
    refine ⟨ht, hall.trans ?_⟩
    rw [smoothStep_dataRecords h hstep, exported, hstep, List.append_assoc]
    rfl

theorem allSets_new (domain : UInt32) {buf : List UInt8} (hbuf : kMessageHeaderLen ≤ buf.length) :
    (new domain buf).2.allSets = [] := by
  have hstart : new domain buf = (.ok (), _) := run_startMessage (e := members domain buf) rfl hbuf
  rw [hstart]
  rfl

/-- From the start on, the data records are those that were exported. -/
theorem run_dataRecords_new (domain : UInt32) {buf : List UInt8} {os : List (Env × Op)}
    (hbuf : kMessageHeaderLen ≤ buf.length)
    (hrun : StepRun.run smoothStep (new domain buf).2 os = some e) :
    Settled buf.length e ∧ dataRecords e.allSets = exported (new domain buf).2 os := by
  obtain ⟨h, hall⟩ := run_dataRecords (settled_new domain hbuf) hrun
  rw [allSets_new domain hbuf] at hall
  exact ⟨h, hall⟩

/-- A flush leaves nothing under way. -/
theorem sent_of_flush {exportTime : UInt32} (h : Settled n e)
    (hflush : smoothStep e (env, .flush exportTime) = some t) :
    t.current = [] ∧ t.sent.flatMap (fun m => m.sets.map (Prod.mk m.domain)) = e.allSets := by
  obtain ⟨-, -, hnone, hflushed⟩ :=
    (ends_flush_allSets exportTime h.toSound).of_ok (run_of_smoothStep hflush)
  rw [allSets, hnone, List.map_nil, List.append_nil] at hflushed
  exact ⟨hnone, hflushed⟩

/-- In every run without exceptions each record that was exported is once in the messages, in the
order of the calls, and once all is flushed it was sent. -/
theorem every_record_once (domain : UInt32) (buf : List UInt8)
    (hbuf : kMessageHeaderLen ≤ buf.length) (os : List (Env × Op)) (e : Exporter)
    (hrun : StepRun.run smoothStep (new domain buf).2 os = some e) :
    dataRecords e.allSets = exported (new domain buf).2 os ∧
      ∀ env exportTime t, smoothStep e (env, .flush exportTime) = some t →
        dataRecords (t.sent.flatMap fun m => m.sets.map (Prod.mk m.domain)) =
          exported (new domain buf).2 os := by
  obtain ⟨h, hall⟩ := run_dataRecords_new domain hbuf hrun
  refine ⟨hall, fun env exportTime t ht => ?_⟩
  rw [(sent_of_flush h ht).2, hall]

/-- Ten records, the last of which no longer fit into the first message. -/
def counters : List Op :=
  twoDomains ++ [8, 9, 10, 11, 12, 13, 14, 15, 16].map fun count =>
    .exportRecord ⟨[(WireTemplate.octetDeltaCount, 0)]⟩ fun _ => [0, 0, 0, 0, 0, 0, 0, count]

theorem every_record_once_counters : ∃ e t,
    StepRun.run smoothStep (new 1 memory).2 (calls counters) = some e ∧
      smoothStep e (⟨0, fun _ => none⟩, .flush 0) = some t ∧ t.sent.length = 2 ∧
      dataRecords e.allSets = exported (new 1 memory).2 (calls counters) ∧
      dataRecords (t.sent.flatMap fun m => m.sets.map (Prod.mk m.domain)) =
        exported (new 1 memory).2 (calls counters) := by
  have hsmooth : ((StepRun.run smoothStep (new 1 memory).2 (calls counters)).bind fun e =>
      smoothStep e (⟨0, fun _ => none⟩, .flush 0)).map (fun t => t.sent.length) = some 2 := by
    decide +kernel
  obtain ⟨t, ht, hsent⟩ := Option.map_eq_some_iff.1 hsmooth
  obtain ⟨e, he, ht⟩ := Option.bind_eq_some_iff.1 ht
  obtain ⟨hall, hflushed⟩ := every_record_once 1 memory (by decide) (calls counters) e he
  exact ⟨e, t, he, ht, hsent, hall, hflushed _ 0 t ht⟩

end Exporter

end DStreamon.Ipfix
