import DStreamon.Collector
import DStreamon.Lib.Ends
import DStreamon.Lib.StepRun
import DStreamon.Proofs.MBuf
import Mathlib.Data.List.Forall2

/-!
# What the collector delivers

The sets of a message are delivered in order up to the first that has no active template or no
receiver.  All that can be are, and to receivers that match, where none of them stands behind such a
set and no receiver is remembered for a template that has changed since.
-/

namespace DStreamon.Ipfix

open Transcoder

/-! ## Templates and keys -/

/-- Templates are kept under their keys. -/
def Keyed (s : Session) : Prop := ∀ k wt, s.find k = some wt → Collector.key wt = k

namespace Session

variable {s : Session} {k : WireTemplateKey} {wt : WireTemplate} {xc : Transcoder}

theorem keyed_new : Keyed new := fun _ _ h => nomatch h

theorem Keyed.put (h : Keyed s) (hwt : Collector.key wt = k) : Keyed (s.put k wt) := by
  intro k' wt' hfind
  by_cases hk : k' = k
  · subst hk
    rw [find_put_self, Option.some.injEq] at hfind
    exact hfind ▸ hwt
  · rw [find_put_of_ne hk] at hfind
    exact h k' wt' hfind

theorem Keyed.deleteTemplate (h : Keyed s) (domain : UInt32) (tid : UInt16) :
    Keyed (s.deleteTemplate domain tid) := by
  intro k' wt' hfind
  by_cases hk : k' = (domain, tid)
  · subst hk
    rw [find_deleteTemplate_self] at hfind
    cases hfind
  · rw [find_deleteTemplate_of_ne hk] at hfind
    exact h k' wt' hfind

theorem ends_getTemplate_keyed (domain : UInt32) (tid : UInt16) (h : Keyed s) :
    (getTemplate domain tid).Ends s (fun _ t => Keyed t) fun _ t => Keyed t := by
  rw [getTemplate]
  split_ifs
  · exact Attempt.ends_throw h
  · refine Attempt.ends_get_bind ?_
    cases hfind : s.find (domain, tid) with
    | some wt => exact Attempt.ends_pure h
    | none => exact Keyed.put h rfl

theorem ends_onTemplate_keyed {x : Attempt Error WireTemplate Unit} (h : Keyed s)
    (hx : ∀ wt, Collector.key (x.run wt).2 = Collector.key wt) :
    (onTemplate k x).Ends s (fun _ t => Keyed t) fun _ t => Keyed t := by
  cases hfind : s.find k with
  | none =>
    rw [onTemplate]
    refine Attempt.ends_get_bind ?_
    rw [hfind]
    exact Attempt.ends_throw h
  | some wt =>
    have hput : Keyed (s.put k (x.run wt).2) := Keyed.put h ((hx wt).trans (h k wt hfind))
    have hrun := run_onTemplate (x := x) hfind
    rcases hx : x.run wt with ⟨er | a, wt'⟩ <;> rw [hx] at hrun hput
    · exact Attempt.ends_of_error hrun hput
    · exact Attempt.ends_of_ok hrun hput

theorem ends_inSession_keyed {α : Type} {x : Attempt Error Session α}
    (h : x.Ends s (fun _ t => Keyed t) fun _ t => Keyed t) :
    (inSession x).Ends (xc, s) (fun _ d => Keyed d.2) fun _ d => Keyed d.2 := by
  rcases hrun : x.run s with ⟨er | a, t⟩
  · exact Attempt.ends_of_error (run_inSession hrun) (h.of_error hrun)
  · exact Attempt.ends_of_ok (run_inSession hrun) (h.of_ok hrun)

theorem ends_reading_keyed {α : Type} (x : Attempt Error Transcoder α) (h : Keyed s) :
    (reading x).Ends (xc, s) (fun _ d => Keyed d.2) fun _ d => Keyed d.2 := by
  rcases hrun : x.run xc with ⟨er | a, t⟩
  · exact Attempt.ends_of_error (run_reading hrun) h
  · exact Attempt.ends_of_ok (run_reading hrun) h

theorem key_add (ie : InfoElement) (wt : WireTemplate) :
    Collector.key ((WireTemplate.add ie).run wt).2 = Collector.key wt := by
  rw [WireTemplate.add, Attempt.run_get_bind]
  split_ifs <;> rfl

theorem key_activate (wt : WireTemplate) :
    Collector.key (WireTemplate.activate.run wt).2 = Collector.key wt := by
  rw [WireTemplate.activate, Attempt.run_get_bind]
  split_ifs <;> rfl

theorem ends_decodeFields_keyed (model : InfoModel) : ∀ (n : ℕ) {xc : Transcoder} {s : Session},
    Keyed s → (decodeFields model k n).Ends (xc, s) (fun _ d => Keyed d.2) fun _ d => Keyed d.2
  | 0, _, _, h => Attempt.ends_pure h
  | n + 1, xc, s, h => by
    rw [decodeFields]
    refine (ends_reading_keyed _ h).bind fun ie d hd => ?_
    cases ie with
    | none => exact Attempt.ends_pure hd
    | some ie =>
      exact (ends_inSession_keyed (ends_onTemplate_keyed hd (key_add ie))).bind fun _ _ ht =>
        ends_decodeFields_keyed model n ht

theorem ends_decodeDefinition_keyed (model : InfoModel) (count : UInt16) (h : Keyed s) :
    (decodeTemplateRecord.decodeDefinition model k count).Ends (xc, s) (fun _ d => Keyed d.2)
      fun _ d => Keyed d.2 := by
  rw [decodeTemplateRecord.decodeDefinition]
  refine (ends_decodeFields_keyed model count.toNat h).bind fun b d hd => ?_
  split_ifs
  · exact (ends_inSession_keyed (ends_onTemplate_keyed hd key_activate)).bind fun _ _ ht =>
      Attempt.ends_pure ht
  · exact Attempt.ends_pure hd

theorem ends_decodeTemplateRecord_keyed (model : InfoModel) (domain : UInt32) (h : Keyed s) :
    (decodeTemplateRecord model domain).Ends (xc, s) (fun _ d => Keyed d.2)
      fun _ d => Keyed d.2 := by
  rw [decodeTemplateRecord]
  refine Attempt.ends_get_bind ?_
  split_ifs
  · exact Attempt.ends_pure h
  refine (ends_reading_keyed _ h).bind fun tid _ hd => (ends_reading_keyed _ hd).bind
    fun count _ hd => ?_
  cases tid with
  | none =>
    exact Attempt.Ends.bind (Q := fun _ (_ : Decoder) => False) (Attempt.ends_throw hd)
      fun _ _ hfalse => hfalse.elim
  | some tid =>
    rw [Attempt.orThrow_some, pure_bind]
    cases count with
    | none =>
      exact Attempt.Ends.bind (Q := fun _ (_ : Decoder) => False) (Attempt.ends_throw hd)
        fun _ _ hfalse => hfalse.elim
    | some count =>
      rw [Attempt.orThrow_some, pure_bind]
      split_ifs
      · exact (ends_inSession_keyed (Attempt.ends_modify
          (Keyed.deleteTemplate hd domain tid))).bind
          fun _ _ hd => Attempt.ends_pure hd
      · refine (ends_inSession_keyed (ends_getTemplate_keyed domain tid hd)).bind fun wt _ hd => ?_
        split_ifs
        · exact (ends_inSession_keyed (ends_onTemplate_keyed hd fun _ => rfl)).bind
            fun _ _ hd => ends_decodeDefinition_keyed model count hd
        · exact ends_decodeDefinition_keyed model count hd

end Session

/-! ## What is to be delivered -/

namespace Collector

variable {c c' : Collector} {s t : Session} {wt : WireTemplate} {domain : UInt32} {r : ℕ}
  {mbuf : MBuf} {sle : SetListEntry} {sets : List SetListEntry}

/-- A receiver is registered under a minimal template that is in `wt`. -/
def Matching (receivers : List (List InfoElement × ℕ)) (wt : WireTemplate) (r : ℕ) : Prop :=
  ∃ mintmpl, (mintmpl, r) ∈ receivers ∧ wt.containsAll mintmpl = true

/-- The set has an active template, and that has a receiver. -/
def Deliverable (s : Session) (receivers : List (List InfoElement × ℕ)) (domain : UInt32)
    (sle : SetListEntry) : Bool :=
  (s.find (domain, sle.id)).any fun wt =>
    wt.active && receivers.any fun r => wt.containsAll r.1

/-- The bytes of a set behind its header. -/
def contentOf (mbuf : MBuf) (sle : SetListEntry) : List UInt8 :=
  ((mbuf.buf.take mbuf.len.toNat).drop (sle.off + kSetHeaderLen)).take
    (sle.len.toNat - kSetHeaderLen)

/-- The set's content and its template are given to a receiver that matches. -/
structure Served (s : Session) (receivers : List (List InfoElement × ℕ)) (mbuf : MBuf)
    (sle : SetListEntry) (d : Delivery) : Prop where
  template : s.find (mbuf.domain, sle.id) = some d.template
  active : d.template.active = true
  matching : Matching receivers d.template d.receiver
  content : d.content = contentOf mbuf sle

/-- The receiver for a template as long as the collector does not change. -/
def chosen (c : Collector) (wt : WireTemplate) : Option ℕ :=
  (SortedAssoc.lookup (key wt) c.receiverCache).or (firstReceiver wt c.receivers)

/-- The active template of a set, and the receiver for it. -/
def serve (c : Collector) (s : Session) (domain : UInt32) (sle : SetListEntry) :
    Option (WireTemplate × ℕ) :=
  (s.find (domain, sle.id)).bind fun wt =>
    if wt.active then (chosen c wt).map fun r => (wt, r) else none

/-- Up to the first set that is not served, each is given to its receiver. -/
def handed (c : Collector) (s : Session) (mbuf : MBuf) : List SetListEntry → List Delivery
  | [] => []
  | sle :: sets =>
    match serve c s mbuf.domain sle with
    | none => []
    | some (wt, r) => ⟨r, wt, contentOf mbuf sle⟩ :: handed c s mbuf sets

/-- No receiver is remembered for the template but one that matches it. -/
def Fresh (c : Collector) (wt : WireTemplate) : Prop :=
  ∀ r, SortedAssoc.lookup (key wt) c.receiverCache = some r → Matching c.receivers wt r

/-- Up to the first set that cannot be delivered the receivers that are remembered match, and behind
it there is none that can. -/
def Smooth (c : Collector) (s : Session) (domain : UInt32) : List SetListEntry → Prop
  | [] => True
  | sle :: sets =>
    (∀ wt, s.find (domain, sle.id) = some wt → wt.active = true → Fresh c wt) ∧
      if Deliverable s c.receivers domain sle then Smooth c s domain sets
      else ∀ sle' ∈ sets, Deliverable s c.receivers domain sle' = false

theorem firstReceiver_some {receivers : List (List InfoElement × ℕ)}
    (h : firstReceiver wt receivers = some r) : Matching receivers wt r := by
  obtain ⟨⟨mintmpl, r'⟩, hfind, rfl⟩ := Option.map_eq_some_iff.1 h
  have hcontains := List.find?_some hfind
  exact ⟨mintmpl, List.mem_of_find?_eq_some hfind, hcontains⟩

theorem firstReceiver_none {receivers : List (List InfoElement × ℕ)}
    (h : firstReceiver wt receivers = none) :
    (receivers.any fun r => wt.containsAll r.1) = false := by
  rw [firstReceiver, Option.map_eq_none_iff, List.find?_eq_none] at h
  rw [List.any_eq_false]
  exact h

theorem deliverable_iff {receivers : List (List InfoElement × ℕ)}
    (hfind : s.find (domain, sle.id) = some wt) (hactive : wt.active = true) :
    Deliverable s receivers domain sle = true ↔ ∃ r, Matching receivers wt r := by
  rw [Deliverable, hfind, Option.any_some, hactive, Bool.true_and, List.any_eq_true]
  constructor
  · rintro ⟨⟨mintmpl, r⟩, hmem, hcontains⟩
    exact ⟨r, mintmpl, hmem, hcontains⟩
  · rintro ⟨r, mintmpl, hmem, hcontains⟩
    exact ⟨(mintmpl, r), hmem, hcontains⟩

theorem serve_some (h : serve c s domain sle = some (wt, r)) :
    s.find (domain, sle.id) = some wt ∧ wt.active = true ∧ chosen c wt = some r := by
  obtain ⟨wt', hfind, h⟩ := Option.bind_eq_some_iff.1 h
  split_ifs at h with hactive
  obtain ⟨r', hr', h⟩ := Option.map_eq_some_iff.1 h
  cases h
  exact ⟨hfind, hactive, hr'⟩

/-- A set that is not served cannot be delivered. -/
theorem not_deliverable_of_serve (h : serve c s domain sle = none) :
    Deliverable s c.receivers domain sle = false := by
  rw [Deliverable]
  cases hfind : s.find (domain, sle.id) with
  | none => rfl
  | some wt =>
    rw [Option.any_some]
    cases hactive : wt.active with
    | false => rfl
    | true =>
      rw [serve, hfind, Option.bind_some, if_pos hactive, Option.map_eq_none_iff, chosen,
        Option.or_eq_none_iff] at h
      rw [Bool.true_and, firstReceiver_none h.2]

theorem fresh_iff (h : chosen c wt = some r) : Fresh c wt ↔ Matching c.receivers wt r := by
  rw [chosen] at h
  rw [Fresh]
  cases hcache : SortedAssoc.lookup (key wt) c.receiverCache with
  | some r' =>
    rw [hcache, Option.some_or, Option.some.injEq] at h
    simp only [Option.some.injEq, forall_eq', h]
  | none =>
    rw [hcache, Option.none_or] at h
    exact iff_of_true (fun _ h => nomatch h) (firstReceiver_some h)

theorem fresh_of_serve (h : serve c s domain sle = none)
    (hfind : s.find (domain, sle.id) = some wt) (hactive : wt.active = true) : Fresh c wt := by
  rw [serve, hfind, Option.bind_some, if_pos hactive, Option.map_eq_none_iff, chosen,
    Option.or_eq_none_iff] at h
  intro r hr
  rw [h.1] at hr
  cases hr

/-- What is handed out is what is to be delivered just when the sets are smooth. -/
theorem forall₂_handed_iff : ∀ {sets : List SetListEntry},
    List.Forall₂ (Served s c.receivers mbuf)
      (sets.filter (Deliverable s c.receivers mbuf.domain)) (handed c s mbuf sets) ↔
      Smooth c s mbuf.domain sets
  | [] => iff_of_true .nil trivial
  | sle :: sets => by
    rw [handed, Smooth]
    cases hserve : serve c s mbuf.domain sle with
    | none =>
      have hnot := not_deliverable_of_serve hserve
      have hfresh : ∀ wt, s.find (mbuf.domain, sle.id) = some wt → wt.active = true → Fresh c wt :=
        fun _ => fresh_of_serve hserve
      rw [List.filter_cons_of_neg (by simp [hnot]), if_neg (by simp [hnot]), and_iff_right hfresh]
      dsimp only
      rw [List.forall₂_nil_right_iff, List.filter_eq_nil_iff]
      simp only [Bool.not_eq_true]
    | some served =>
      obtain ⟨wt, r⟩ := served
      obtain ⟨hfind, hactive, hchosen⟩ := serve_some hserve
      have hfresh : (∀ wt', s.find (mbuf.domain, sle.id) = some wt' → wt'.active = true →
          Fresh c wt') ↔ Matching c.receivers wt r := by
        rw [← fresh_iff hchosen, hfind]
        simp only [Option.some.injEq, forall_eq', hactive, true_imp_iff]
      rw [hfresh]
      dsimp only
      by_cases hmatch : Matching c.receivers wt r
      · have hdel := (deliverable_iff hfind hactive).2 ⟨r, hmatch⟩
        rw [List.filter_cons_of_pos hdel, if_pos hdel, List.forall₂_cons, forall₂_handed_iff,
          and_congr_left_iff]
        exact fun _ => iff_of_true ⟨hfind, hactive, hmatch, rfl⟩ hmatch
      · refine iff_of_false (fun hall => ?_) fun hsmooth => hmatch hsmooth.1
        obtain ⟨sle', rest, hserved, -⟩ := List.forall₂_cons_right_iff.1 hall
        exact hmatch hserved.matching

/-! ## The loop -/

theorem getSession_putSession_self (sk : ℤ) (s : Session) (c : Collector) :
    (c.putSession sk s).getSession sk = s := by
  rw [getSession, putSession, SortedAssoc.lookup_insert_self, Option.getD_some]

theorem getSession_putSession_of_ne {sk sk' : ℤ} (h : sk' ≠ sk) (s : Session) (c : Collector) :
    (c.putSession sk s).getSession sk' = c.getSession sk' := by
  rw [getSession, putSession, SortedAssoc.lookup_insert_of_ne h, getSession]

/-- While the sets of a message are handed out, from a collector `c` with the session `s`. -/
structure Steady (c : Collector) (s : Session) (sk : ℤ) (mbuf : MBuf) (d : Receiving) : Prop where
  receivers : d.1.receivers = c.receivers
  others : ∀ sk', sk' ≠ sk → d.1.getSession sk' = c.getSession sk'
  keyed : Keyed (d.1.getSession sk)
  same : ∀ k wt, wt.active = true → ((d.1.getSession sk).find k = some wt ↔ s.find k = some wt)
  chosen : ∀ k wt, s.find k = some wt → wt.active = true → chosen d.1 wt = chosen c wt
  buf : d.2.buf = mbuf.buf
  max : d.2.max = mbuf.len.toNat
  savemax : d.2.savemax = none

theorem run_collecting {α : Type} {x : Attempt Error Collector α} {d : Receiving}
    {res : Except Error α} (h : x.run d.1 = (res, c')) :
    (collecting x).run d = (res, (c', d.2)) := by
  rw [collecting, Attempt.run_zoom, h]

theorem run_transcoding {α : Type} {x : Attempt Error Transcoder α} {d : Receiving}
    {res : Except Error α} {xc : Transcoder} (h : x.run d.2 = (res, xc)) :
    (transcoding x).run d = (res, (d.1, xc)) := by
  rw [transcoding, Attempt.run_zoom, h]

/-- The template of a set, a new one where there was none. -/
theorem run_templateOf (domain : UInt32) {d : Receiving} {sk : ℤ} {tid : UInt16}
    (htid : ¬ tid < kMinSetID)
    (h : Steady c s sk mbuf d) : ∃ wt c', (collecting (inSession sk
      (Session.getTemplate domain tid))).run d = (.ok wt, (c', d.2)) ∧
      Steady c s sk mbuf (c', d.2) ∧ c'.delivered = d.1.delivered ∧
      (wt.active = true → s.find (domain, tid) = some wt) ∧
      ∀ wt', s.find (domain, tid) = some wt' → wt'.active = true → wt' = wt := by
  obtain ⟨wt, s', hrun, hfind, -⟩ := Session.run_getTemplate domain htid (d.1.getSession sk)
  have hget : (inSession sk (Session.getTemplate domain tid)).run d.1 =
      (.ok wt, d.1.putSession sk s') := by
    rw [inSession, Attempt.run_zoom, hrun]
  have hself := getSession_putSession_self sk s' d.1
  have hkeyed : Keyed s' :=
    (Session.ends_getTemplate_keyed domain tid h.keyed).of_ok hrun
  have hsame : ∀ k wt', wt'.active = true → (s'.find k = some wt' ↔ s.find k = some wt') := by
    intro k wt' hactive
    rw [← h.same k wt' hactive]
    obtain rfl | ⟨rfl, rfl⟩ := (Session.find_getTemplate hrun).2
    · rfl
    · by_cases hk : k = (domain, tid)
      · subst hk
        rw [Session.find_put_self, Option.some.injEq]
        refine iff_of_false (fun heq => ?_) fun hold => ?_
        · rw [← heq] at hactive
          cases hactive
        · rw [Session.getTemplate, if_neg htid, Attempt.run_get_bind, hold] at hrun
          have heq : wt' = .new domain tid := Except.ok.inj (congrArg Prod.fst hrun)
          rw [heq] at hactive
          cases hactive
      · rw [Session.find_put_of_ne hk]
  refine ⟨wt, _, run_collecting hget, ⟨h.receivers, fun sk' hsk => ?_, ?_, ?_, h.chosen, h.buf,
    h.max, h.savemax⟩, rfl, fun hactive => (hsame _ wt hactive).1 hfind, fun wt' hwt' hactive => ?_⟩
  · rw [getSession_putSession_of_ne hsk, h.others sk' hsk]
  · rwa [hself]
  · rwa [hself]
  · exact Option.some.inj (((hsame _ wt' hactive).2 hwt').symm.trans hfind)

/-- The receiver is remembered as it was chosen. -/
theorem run_receiverForTemplate (wt : WireTemplate) (c : Collector) :
    ∃ cache, (receiverForTemplate wt).run c =
      (.ok (chosen c wt), { c with receiverCache := cache }) ∧
      ∀ wt', (key wt' = key wt → wt' = wt) →
        chosen { c with receiverCache := cache } wt' = chosen c wt' := by
  rw [receiverForTemplate, Attempt.run_get_bind]
  cases hcache : SortedAssoc.lookup (key wt) c.receiverCache with
  | some r =>
    refine ⟨c.receiverCache, ?_, fun _ _ => rfl⟩
    rw [chosen, hcache, Option.some_or]
    rfl
  | none =>
    cases hfirst : firstReceiver wt c.receivers with
    | none =>
      refine ⟨c.receiverCache, ?_, fun _ _ => rfl⟩
      rw [chosen, hcache, hfirst]
      rfl
    | some r =>
      refine ⟨SortedAssoc.insert Session.keyLt (key wt) r c.receiverCache, ?_, fun wt' hkey => ?_⟩
      · rw [chosen, hcache, hfirst]
        rfl
      · rw [chosen, chosen]
        by_cases hk : key wt' = key wt
        · obtain rfl := hkey hk
          rw [SortedAssoc.lookup_insert_self, hcache, hfirst]
          rfl
        · rw [SortedAssoc.lookup_insert_of_ne hk]

/-- Receivers read, and no more: they leave the buffer and where the set ends. -/
def Reads (receive : Receive) : Prop :=
  ∀ r wt xc, ∃ t, (receive r wt).run xc = (.ok (), t) ∧ t.buf = xc.buf ∧ t.max = xc.max ∧
    t.savemax = xc.savemax

theorem content_focused {buf : List UInt8} {m i n : ℕ} :
    (buf.take (if m > i + n then i + n else m)).drop i = ((buf.take m).drop i).take n := by
  rw [List.take_drop, List.take_take]
  split_ifs with h
  · rw [min_eq_left (by omega)]
  · rw [min_eq_right (by omega)]

theorem run_focus {xc : Transcoder} (h : xc.savemax = none) (off len : ℕ) :
    (Transcoder.focus off len).run xc = (.ok (), { xc with
      cur := off
      check := some xc.cur
      max := if xc.max > off + len then off + len else xc.max
      savemax := some xc.max }) := by
  rw [Transcoder.focus, Attempt.run_modify_bind, Attempt.run_get_bind,
    if_neg (by simp [Transcoder.checkpoint, h])]
  rfl

theorem run_defocus {xc : Transcoder} {m : ℕ} (h : xc.savemax = some m) :
    Transcoder.defocus.run xc = (.ok (), { xc.rollback with max := m, savemax := none }) := by
  rw [Transcoder.defocus, Attempt.run_get_bind, h]
  rfl

theorem buf_rollback (xc : Transcoder) : xc.rollback.buf = xc.buf := by
  rw [Transcoder.rollback]
  cases xc.check <;> rfl

/-- The set is put in focus, read by its receiver, and out of focus again. -/
theorem run_serve (wt : WireTemplate) (r : ℕ) {receive : Receive} (hreads : Reads receive)
    {d : Receiving} {sk : ℤ}
    (hlen : kSetHeaderLen ≤ sle.len.toNat) (h : Steady c s sk mbuf d)
    (next : Unit → Attempt Error Receiving Unit) : ∃ xc,
      (do
        transcoding (Transcoder.focus (sle.off + kSetHeaderLen)
          (MBuf.sizeSub sle.len.toNat kSetHeaderLen))
        Attempt.modify (note r wt)
        transcoding (receive r wt)
        transcoding Transcoder.defocus
        next ()).run d = (next ()).run ({ d.1 with delivered :=
          d.1.delivered ++ [⟨r, wt, contentOf mbuf sle⟩] }, xc) ∧
      xc.buf = mbuf.buf ∧ xc.max = mbuf.len.toNat ∧ xc.savemax = none := by
  have hfocus := run_focus h.savemax (sle.off + kSetHeaderLen) (sle.len.toNat - kSetHeaderLen)
  obtain ⟨t, hreceive, hbuf, -, hsavemax⟩ := hreads r wt { d.2 with
    cur := sle.off + kSetHeaderLen
    check := some d.2.cur
    max := if d.2.max > sle.off + kSetHeaderLen + (sle.len.toNat - kSetHeaderLen) then
      sle.off + kSetHeaderLen + (sle.len.toNat - kSetHeaderLen) else d.2.max
    savemax := some d.2.max }
  have hcontent : contentOf mbuf sle = (d.2.buf.take (if d.2.max > sle.off + kSetHeaderLen +
      (sle.len.toNat - kSetHeaderLen) then sle.off + kSetHeaderLen +
      (sle.len.toNat - kSetHeaderLen) else d.2.max)).drop (sle.off + kSetHeaderLen) := by
    rw [content_focused, h.buf, h.max, contentOf]
  refine ⟨{ t.rollback with max := d.2.max, savemax := none }, ?_,
    (buf_rollback t).trans (hbuf.trans h.buf), h.max, rfl⟩
  rw [MBuf.sizeSub, if_pos hlen, Attempt.run_bind_of_ok (run_transcoding hfocus),
    Attempt.run_modify_bind, Attempt.run_bind_of_ok (run_transcoding hreceive),
    Attempt.run_bind_of_ok (run_transcoding (run_defocus hsavemax)), hcontent]
  rfl

/-- The sets of a message, one after the other. -/
theorem run_receiveSets {receive : Receive} (hreads : Reads receive) (hkeyed : Keyed s) {sk : ℤ} :
    ∀ {sets : List SetListEntry} {d : Receiving},
      (∀ sle ∈ sets, kMinSetID ≤ sle.id ∧ kSetHeaderLen ≤ sle.len.toNat) →
      Steady c s sk mbuf d → ∃ d', (receiveSets receive sk mbuf.domain sets).run d = (.ok (), d') ∧
        Steady c s sk mbuf d' ∧ d'.1.delivered = d.1.delivered ++ handed c s mbuf sets
  | [], d, _, h => ⟨d, rfl, h, (List.append_nil _).symm⟩
  | sle :: sets, d, hsets, h => by
    obtain ⟨⟨hid, hlen⟩, hsets⟩ := List.forall_mem_cons.1 hsets
    obtain ⟨wt, c₁, hget, h₁, hdel₁, hold, hunique⟩ :=
      run_templateOf mbuf.domain (UInt16.not_lt.2 hid) h
    rw [receiveSets, Attempt.run_bind_of_ok hget, handed]
    cases hactive : wt.active with
    | false =>
      have hserve : serve c s mbuf.domain sle = none := by
        rw [serve, Option.bind_eq_none_iff]
        intro wt' hfind
        rw [if_neg fun hactive' => ?_]
        rw [hunique wt' hfind hactive', hactive] at hactive'
        cases hactive'
      rw [hserve]
      exact ⟨_, rfl, h₁, hdel₁.trans (List.append_nil _).symm⟩
    | true =>
      have hfind := hold hactive
      obtain ⟨cache, hreceiver, hchosen⟩ := run_receiverForTemplate wt c₁
      have hsame : chosen c₁ wt = chosen c wt := h₁.chosen _ wt hfind hactive
      have h₂ : Steady c s sk mbuf ({ c₁ with receiverCache := cache }, d.2) := by
        refine ⟨h₁.receivers, h₁.others, h₁.keyed, h₁.same, fun k wt' hk hactive' => ?_, h₁.buf,
          h₁.max, h₁.savemax⟩
        refine (hchosen wt' fun hkey => ?_).trans (h₁.chosen k wt' hk hactive')
        rw [hkeyed k wt' hk, hkeyed _ wt hfind] at hkey
        rw [hkey, hfind] at hk
        exact (Option.some.inj hk).symm
      have hserve : serve c s mbuf.domain sle = (chosen c wt).map fun r => (wt, r) := by
        rw [serve, hfind, Option.bind_some, if_pos hactive]
      rw [if_neg (by simp), Attempt.run_bind_of_ok (run_collecting hreceiver), hserve, hsame]
      cases hr : chosen c wt with
      | none => exact ⟨_, rfl, h₂, hdel₁.trans (List.append_nil _).symm⟩
      | some r =>
        obtain ⟨xc, hrun, hbuf, hmax, hsavemax⟩ := run_serve wt r hreads hlen h₂
          fun _ => receiveSets receive sk mbuf.domain sets
        have h₃ : Steady c s sk mbuf ({ c₁ with
            receiverCache := cache
            delivered := c₁.delivered ++ [⟨r, wt, contentOf mbuf sle⟩] }, xc) :=
          ⟨h₂.receivers, h₂.others, h₂.keyed, h₂.same, h₂.chosen, hbuf, hmax, hsavemax⟩
        obtain ⟨d', hrun', h', hdel'⟩ := run_receiveSets hreads hkeyed hsets h₃
        refine ⟨d', hrun.trans hrun', h', hdel'.trans ?_⟩
        dsimp only [Option.map_some]
        rw [hdel₁, List.append_assoc, List.singleton_append]

/-! ## Messages and templates in any order -/

/-- A message that was scanned: what is on its list are data sets with a header. -/
structure Message where
  mbuf : MBuf
  sets : ∀ sle ∈ mbuf.setlist, kMinSetID ≤ sle.id ∧ kSetHeaderLen ≤ sle.len.toNat

theorem sets_of_dataSets {mem : List UInt8} {i : ℕ} (h : DataSets mem i sets) :
    ∀ sle ∈ sets, kMinSetID ≤ sle.id ∧ kSetHeaderLen ≤ sle.len.toNat := by
  induction h with
  | done => exact fun _ h => nomatch h
  | data _ hsensible _ hid _ ih =>
    exact List.forall_mem_cons.2 ⟨⟨UInt16.not_lt.1 hid, hsensible.len_ge⟩, ih⟩
  | other _ _ _ _ _ ih => exact ih

inductive Event
  | registerReceiver (place : ℕ) (mintmpl : List InfoElement) (receiver : ℕ)
  | endSession (sk : ℤ)
  | decodeTemplateRecord (sk : ℤ) (call : Session.Call)
  | receiveMessage (sk : ℤ) (message : Message)

variable {model : InfoModel} {receive : Receive}

def after (model : InfoModel) (receive : Receive) (c : Collector) : Event → Collector
  | .registerReceiver place mintmpl receiver => c.registerReceiver place mintmpl receiver
  | .endSession sk => c.endSession sk
  | .decodeTemplateRecord sk call => c.putSession sk (Session.called model (c.getSession sk) call).2
  | .receiveMessage sk message => ((receiveMessage receive sk message.mbuf).run c).2

def step (model : InfoModel) (receive : Receive) (c : Collector) (e : Event) : Option Collector :=
  some (after model receive c e)

/-- The sets of a message that can be delivered are, each to a receiver that matches, and no other
set is. -/
def Delivers (model : InfoModel) (receive : Receive) (c : Collector) (e : Event) : Prop :=
  match e with
  | .receiveMessage sk message => ∃ ds, (after model receive c e).delivered = c.delivered ++ ds ∧
      List.Forall₂ (Served (c.getSession sk) c.receivers message.mbuf)
        (message.mbuf.setlist.filter
          (Deliverable (c.getSession sk) c.receivers message.mbuf.domain)) ds
  | _ => True

/-- The sets of the message are smooth. -/
def Unhindered (c : Collector) : Event → Prop
  | .receiveMessage sk message =>
    Smooth c (c.getSession sk) message.mbuf.domain message.mbuf.setlist
  | _ => True

theorem run_receiveMessage (hreads : Reads receive) {sk : ℤ} (message : Message)
    (h : Keyed (c.getSession sk)) : ∃ c', (receiveMessage receive sk message.mbuf).run c =
      (.ok (), c') ∧ Keyed (c'.getSession sk) ∧
      (∀ sk', sk' ≠ sk → c'.getSession sk' = c.getSession sk') ∧
      c'.delivered =
        c.delivered ++ handed c (c.getSession sk) message.mbuf message.mbuf.setlist := by
  have hsteady : Steady c (c.getSession sk) sk message.mbuf
      (c, Transcoder.new.setBase message.mbuf.buf message.mbuf.len.toNat) :=
    ⟨rfl, fun _ _ => rfl, h, fun _ _ _ => Iff.rfl, fun _ _ _ _ => rfl, rfl, rfl, rfl⟩
  obtain ⟨d, hrun, hd, hdel⟩ := run_receiveSets hreads h message.sets hsteady
  refine ⟨d.1, ?_, hd.keyed, hd.others, hdel⟩
  rw [receiveMessage, Attempt.run_zoom, hrun]

theorem delivers_iff (hreads : Reads receive) (h : ∀ sk, Keyed (c.getSession sk)) (e : Event) :
    Delivers model receive c e ↔ Unhindered c e := by
  cases e with
  | receiveMessage sk message =>
    obtain ⟨c', hrun, -, -, hdel⟩ := run_receiveMessage hreads message (h sk)
    rw [Unhindered, ← forall₂_handed_iff, Delivers]
    dsimp only [after]
    rw [hrun]
    dsimp only
    rw [hdel]
    constructor
    · rintro ⟨ds, hds, hall⟩
      rwa [List.append_cancel_left hds]
    · exact fun hall => ⟨_, rfl, hall⟩
  | _ => exact iff_of_true trivial trivial

theorem keyed_after (hreads : Reads receive) (h : ∀ sk, Keyed (c.getSession sk)) (e : Event)
    (sk : ℤ) : Keyed ((after model receive c e).getSession sk) := by
  cases e with
  | registerReceiver => exact h sk
  | endSession sk' =>
    by_cases hsk : sk = sk'
    · subst hsk
      rw [after, getSession, endSession, SortedAssoc.lookup_erase_self]
      exact Session.keyed_new
    · rw [after, getSession, endSession, SortedAssoc.lookup_erase_of_ne hsk]
      exact h sk
  | decodeTemplateRecord sk' call =>
    by_cases hsk : sk = sk'
    · subst hsk
      rw [after, getSession_putSession_self, Session.called]
      have hends : (Session.decodeTemplateRecord model call.domain).Ends (call.xc, c.getSession sk)
          (fun _ d => Keyed d.2) fun _ d => Keyed d.2 :=
        Session.ends_decodeTemplateRecord_keyed model call.domain (h sk)
      rcases hrun : (Session.decodeTemplateRecord model call.domain).run
        (call.xc, c.getSession sk) with ⟨er | b, d⟩
      · exact hends.of_error hrun
      · exact hends.of_ok hrun
    · rw [after, getSession_putSession_of_ne hsk]
      exact h sk
  | receiveMessage sk' message =>
    obtain ⟨c', hrun, hkeyed, hothers, -⟩ := run_receiveMessage hreads message (h sk')
    rw [after, hrun]
    by_cases hsk : sk = sk'
    · exact hsk ▸ hkeyed
    · exact hothers sk hsk ▸ h sk

/-- From a new collector, whatever is registered, defined and received. -/
theorem every_deliverable_set_delivered_iff (model : InfoModel) (receive : Receive)
    (hreads : Reads receive) (events : List Event) :
    StepRun.Meets (step model receive) (Delivers model receive) .new events ↔
      StepRun.Meets (step model receive) Unhindered .new events := by
  have hinv : ∀ c e c', (∀ sk, Keyed (c.getSession sk)) → True → Unhindered c e →
      step model receive c e = some c' → ∀ sk, Keyed (c'.getSession sk) := by
    intro c e c' hc _ _ hstep sk
    cases hstep
    exact keyed_after hreads hc e sk
  have hiff : ∀ c e, (∀ sk, Keyed (c.getSession sk)) → True →
      (Delivers model receive c e ↔ Unhindered c e) := fun c e hc _ => delivers_iff hreads hc e
  exact StepRun.meets_iff hinv hiff events (fun _ _ => trivial) fun _ => Session.keyed_new

/-- A receiver of octet counters, and the template of one. -/
def octetEvents : List Event :=
  [.registerReceiver 0 [⟨"octetDeltaCount", 0, 1, .unsigned64, 8⟩] 7,
    .decodeTemplateRecord 3 (Session.recordCall Session.octetRecord)]

/-- A message of domain 1, which is shorter than 256 bytes. -/
def messageOf (sets : List UInt8) : List UInt8 :=
  [0, 10, 0, UInt8.ofNat (16 + sets.length), 0, 0, 0, 0, 0, 0, 0, 0, 0, 0, 0, 1] ++ sets

/-- A set of one counter. -/
def octetSet : List UInt8 := [1, 0, 0, 12, 0, 0, 0, 0, 0, 0, 0, 7]

theorem dataSets_octetSet : DataSets (messageOf octetSet) 16 [⟨256, 12, 16⟩] :=
  .data ⟨rfl, rfl⟩ ⟨by decide, by decide, by decide⟩ (by decide) (by decide) (.done (by decide))

def octetMessage : Message :=
  ⟨⟨messageOf octetSet, 28, 1, [⟨256, 12, 16⟩]⟩, sets_of_dataSets dataSets_octetSet⟩

theorem every_deliverable_set_delivered_octets :
    StepRun.Meets (step Session.octetModel fun _ _ => pure ())
      (Delivers Session.octetModel fun _ _ => pure ()) .new
      (octetEvents ++ [.receiveMessage 3 octetMessage]) := by
  refine (every_deliverable_set_delivered_iff Session.octetModel (fun _ _ => pure ())
    (fun _ _ xc => ⟨xc, rfl, rfl, rfl, rfl⟩) (octetEvents ++ [.receiveMessage 3 octetMessage])).2 ?_
  refine ⟨trivial, fun c₁ h₁ => ⟨trivial, fun c₂ h₂ => ⟨⟨fun wt _ _ r hr => ?_, ?_⟩,
    fun _ _ => trivial⟩⟩⟩
  · cases h₁
    cases h₂
    cases hr
  · cases h₁
    cases h₂
    rw [if_pos (by decide +kernel)]
    trivial

/-- The set of a template that was not received, and behind it the set of one counter. -/
def blockedSets : List UInt8 := [1, 1, 0, 4] ++ octetSet

theorem dataSets_blockedSets :
    DataSets (messageOf blockedSets) 16 [⟨257, 4, 16⟩, ⟨256, 12, 20⟩] :=
  .data ⟨rfl, rfl⟩ ⟨by decide, by decide, by decide⟩ (by decide) (by decide)
    (.data ⟨rfl, rfl⟩ ⟨by decide, by decide, by decide⟩ (by decide) (by decide)
      (.done (by decide)))

def blockedMessage : Message :=
  ⟨⟨messageOf blockedSets, 32, 1, [⟨257, 4, 16⟩, ⟨256, 12, 20⟩]⟩,
    sets_of_dataSets dataSets_blockedSets⟩

def afterOctets : Collector :=
  octetEvents.foldl (after Session.octetModel fun _ _ => pure ()) .new

/-- The loop is left at the first. -/
theorem not_every_deliverable_set_delivered : ¬ ∀ (model : InfoModel) (receive : Receive),
    Reads receive → ∀ events : List Event,
      StepRun.Meets (step model receive) (Delivers model receive) .new events := fun h => by
  have hall := h Session.octetModel (fun _ _ => pure ()) (fun _ _ xc => ⟨xc, rfl, rfl, rfl, rfl⟩)
    (octetEvents ++ [.receiveMessage 3 blockedMessage])
  obtain ⟨ds, hds, hserved⟩ := ((hall.2 _ rfl).2 afterOctets rfl).1
  have hnone : (after Session.octetModel (fun _ _ => pure ()) afterOctets
    (.receiveMessage 3 blockedMessage)).delivered = [] := by decide +kernel
  rw [hnone] at hds
  have hone : (blockedMessage.mbuf.setlist.filter (Deliverable (afterOctets.getSession 3)
    afterOctets.receivers blockedMessage.mbuf.domain)).length = 1 := by decide +kernel
  rw [hserved.length_eq, (List.append_eq_nil_iff.1 hds.symm).2] at hone
  exact absurd hone (by decide)

end Collector

end DStreamon.Ipfix
