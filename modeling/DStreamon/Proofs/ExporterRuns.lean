import DStreamon.Proofs.Exporter

/-!
# Runs of the exporter

Calls that find a set open where another template is chosen, and no unfinished template where those
of the domain are exported, stay in sequence.  Data records are of the template of their message's
domain where the domain is never changed under a template that is still chosen.
-/

namespace DStreamon.Ipfix

open Transcoder

namespace Exporter

variable {J : UInt32 → List SetWritten → List Message → Prop} {e t : Exporter} {s : SetWritten}
    {n : ℕ}

/-! ## In sequence -/

/-- What a caller sees to: templates are chosen when they are active, records written with a
template chosen and with elements of lengths that their types permit, and the transport takes the
messages. -/
def Asked (e : Exporter) (o : Env × Op) : Prop :=
  (∀ m, o.1.refusal m = none) ∧
  match o.2 with
  | .getTemplate tid => ¬ tid < kMinSetID
  | .setTemplate tid => ¬ tid < kMinSetID ∧
    ∃ wt, e.session.find (e.domain, tid) = some wt ∧ wt.active = true
  | .exportRecord st s => ∃ key wt, e.tmpl = some key ∧ e.session.find key = some wt ∧
    wt.active = true ∧ ∀ ie ∈ wt.ies, WireTemplate.Permitted st s ie
  | _ => True

/-- A set is open where another template is chosen, and no template of the domain is unfinished when
they are exported. -/
def Prepared (e : Exporter) (o : Env × Op) : Prop :=
  match o.2 with
  | .setTemplate tid => e.setId = tid ∨ e.setId = 0 ∨ e.setActive = true
  | .exportTemplatesForDomain => ∀ wt ∈ e.session.activeTemplates e.domain, wt.active = true
  | _ => True

theorem ends_call (hJ : Stable J) (o : Env × Op)
    (htakes : ∀ st s key, o.2 = .exportRecord st s → e.tmpl = some key → Takes J e key)
    (h : Ready J n e) : (call o.1 o.2).Ends e (fun _ t => Ready J n t)
      (Fails J n (Asked e o ∧ Prepared e o)) := by
  obtain ⟨env, op⟩ := o
  cases op with
  | getTemplate tid =>
    have hget : (getTemplate tid).Ends e (fun _ t => Ready J n t)
        (Fails J n (Asked e (env, .getTemplate tid) ∧ Prepared e (env, .getTemplate tid))) := by
      rw [getTemplate]
      exact Attempt.ends_get_bind ((ends_getTemplate (fun hholds => hholds.1.2) h).imp
        (fun wt t ⟨s, _, ht, _⟩ => ht) fun _ _ => fails_of_not)
    exact hget.bind fun _ _ ht => Attempt.ends_pure ht
  | editTemplate key op => exact ready_editTemplate h key op
  | setDomain domain => exact ends_setDomain hJ (fun hholds => hholds.1.1) domain h
  | setTemplate tid =>
    refine (ends_setTemplate (fun hholds => ?_) h).imp (fun _ _ ht => ht) fun _ _ => fails_of_not
    obtain ⟨⟨-, hasked⟩, hprep⟩ := hholds
    exact hprep.imp_right fun hprep => ⟨hasked.1, hasked.2, hprep⟩
  | exportTemplatesForDomain =>
    exact ends_exportTemplatesForDomain hJ (fun hholds => ⟨hholds.1.1, hholds.2⟩) h
  | exportRecord st s =>
    exact (ends_exportRecord hJ (fun hholds => hholds.1) (fun key => htakes st s key rfl) h).imp
      (fun _ _ ht => ht.1) fun _ _ hfail => hfail
  | flush exportTime =>
    exact (ends_flush hJ (fun hholds => hholds.1.1) exportTime h.toInv).imp
      (fun _ _ ⟨ht, _, hsets, hopen⟩ => ready_of_nil ht hsets hopen) fun _ _ => fails_of_not

/-- No call fails in a way that its caller could not expect. -/
def Orderly (e : Exporter) (o : Env × Op) : Prop :=
  ∀ er, ((call o.1 o.2).run e).1 = .error er → Quiet er

/-- A message's length is in its header, and what follows are its sets, each with its length. -/
structure Framed (m : Message) : Prop where
  length : ∃ n, Bytes.be16 m.bytes 2 = some n ∧ n.toNat = m.bytes.length
  body : m.bytes.drop kMessageHeaderLen = setsWire m.sets
  sets : ∀ s ∈ m.sets, ∃ n, Bytes.be16 s.wire kSetLenOffset = some n ∧ n.toNat = s.wire.length

theorem length_wire_le {sets : List SetWritten} (hs : s ∈ sets) :
    s.wire.length ≤ (setsWire sets).length := by
  obtain ⟨before, after, rfl⟩ := List.append_of_mem hs
  simp only [setsWire, List.flatMap_append, List.flatMap_cons, List.length_append]
  omega

theorem framed_of_wire {m : Message} {exportTime : UInt32} (hm : m.bytes = m.wire exportTime)
    (hlen : m.bytes.length < 2 ^ 16) : Framed m := by
  have hlength : m.bytes.length = kMessageHeaderLen + (setsWire m.sets).length := by
    rw [hm, Message.wire, List.length_append, length_messageHeader]
  refine ⟨⟨UInt16.ofNat (kMessageHeaderLen + (setsWire m.sets).length), ?_, ?_⟩, ?_, fun s hs => ?_⟩
  · rw [hm, Message.wire, messageHeader, List.append_assoc, List.append_assoc]
    exact be16_append (uint16Bytes _) _ _
  · rw [UInt16.toNat_ofNat', Nat.mod_eq_of_lt (hlength ▸ hlen), hlength]
  · rw [hm, Message.wire]
    exact List.drop_left' (length_messageHeader _ _ _ _)
  · have hle := length_wire_le hs
    have hwire := s.length_wire
    refine ⟨UInt16.ofNat (kSetHeaderLen + s.content.length), ?_, ?_⟩
    · rw [SetWritten.wire, setHeader, List.append_assoc]
      exact be16_append (uint16Bytes _) _ _
    · rw [UInt16.toNat_ofNat', Nat.mod_eq_of_lt (by omega), hwire]

theorem step_some (e : Exporter) (o : Env × Op) : step e o = some ((call o.1 o.2).run e).2 := rfl

theorem orderly_of_ends {c : Prop} {o : Env × Op}
    (h : (call o.1 o.2).Ends e (fun _ t => Ready J n t) (Fails J n c)) (hc : c) :
    Orderly e o ∧ ∀ t, step e o = some t → Ready J n t := by
  rcases hrun : (call o.1 o.2).run e with ⟨er | a, t⟩
  · obtain ⟨hquiet, hready⟩ := h.of_error hrun hc
    refine ⟨fun er' her => ?_, fun t' ht' => ?_⟩
    · rw [hrun] at her
      cases her
      exact hquiet
    · rw [step_some, hrun] at ht'
      cases ht'
      exact hready
  · refine ⟨fun er' her => ?_, fun t' ht' => ?_⟩
    · rw [hrun] at her
      cases her
    · rw [step_some, hrun] at ht'
      cases ht'
      exact h.of_ok hrun

theorem stable_true : Stable fun _ _ _ => True :=
  ⟨fun _ => trivial, fun _ => trivial, fun _ _ => trivial, fun _ _ => trivial⟩

/-- In any order of calls that are prepared. -/
theorem exporter_in_sequence (domain : UInt32) (buf : List UInt8)
    (hbuf : kMessageHeaderLen ≤ buf.length) (hmtu : buf.length < 2 ^ 16) (os : List (Env × Op))
    (hm : StepRun.Meets step (fun e o => Asked e o ∧ Prepared e o) (new domain buf).2 os) :
    StepRun.Meets step Orderly (new domain buf).2 os ∧
      ∀ e, StepRun.run step (new domain buf).2 os = some e → ∀ m ∈ e.sent, Framed m := by
  have hkeeps : ∀ e o, Ready (fun _ _ _ => True) buf.length e → Asked e o ∧ Prepared e o →
      Orderly e o ∧
        ∀ t, step e o = some t → Ready (fun _ _ _ => True) buf.length t := fun e o h ho =>
    orderly_of_ends (ends_call stable_true o (fun _ _ _ _ _ _ _ _ _ _ _ _ => trivial) h) ho
  have hready : Ready (fun _ _ _ => True) buf.length (new domain buf).2 :=
    ready_new (fun _ => trivial) domain hbuf
  refine ⟨?_, fun e hrun m hmem => ?_⟩
  · exact StepRun.meets_of_meets (P := fun _ => True)
      (fun e o t h _ ho hstep => (hkeeps e o h ho).2 t hstep)
      (fun e o h _ ho => (hkeeps e o h ho).1) os (fun _ _ => trivial) hready hm
  · have hend := StepRun.run_keeps (fun e o t h ho hstep => (hkeeps e o h ho).2 t hstep) os hready
      hm hrun
    obtain ⟨⟨exportTime, hwire⟩, hlen⟩ := hend.sent m hmem
    exact framed_of_wire hwire (Nat.lt_of_le_of_lt (hlen.trans hend.mtu_eq.le) hmtu)

theorem meets_cons {C : Exporter → Env × Op → Prop} {o : Env × Op} {os : List (Env × Op)} :
    StepRun.Meets step C e (o :: os) ↔
      C e o ∧ StepRun.Meets step C ((call o.1 o.2).run e).2 os := by
  simp [StepRun.Meets, step]

/-- Calls at time 0 over a transport that takes everything. -/
def calls (ops : List Op) : List (Env × Op) := ops.map fun op => (⟨0, fun _ => none⟩, op)

/-- What makes a template of one element. -/
def templateOf (ie : InfoElement) (key : WireTemplateKey) : List Op :=
  [.getTemplate key.2, .editTemplate key (.add ie), .editTemplate key .activate]

def octetTemplate (key : WireTemplateKey) : List Op := templateOf WireTemplate.octetDeltaCount key

/-- A template chosen, a record and another template. -/
def orderlyOps : List Op :=
  octetTemplate (1, 256) ++ octetTemplate (1, 257) ++
    [.exportTemplatesForDomain, .setTemplate 256,
      .exportRecord ⟨[(WireTemplate.octetDeltaCount, 0)]⟩ fun _ => [0, 0, 0, 0, 0, 0, 0, 7],
      .setTemplate 257, .flush 0]

def memory : List UInt8 := List.replicate 80 0

theorem active_of_any {o : Option WireTemplate} (h : o.any WireTemplate.active = true) :
    ∃ wt, o = some wt ∧ wt.active = true := by
  cases o with
  | none => cases h
  | some wt => exact ⟨wt, rfl, h⟩

theorem exporter_in_sequence_octets :
    StepRun.Meets step Orderly (new 1 memory).2 (calls orderlyOps) ∧
      ∀ e, StepRun.run step (new 1 memory).2 (calls orderlyOps) = some e →
        ∀ m ∈ e.sent, Framed m := by
  refine exporter_in_sequence 1 memory (by decide) (by decide) (calls orderlyOps) ?_
  simp only [calls, orderlyOps, octetTemplate, templateOf, List.map_cons, List.map_nil,
    List.cons_append, List.nil_append, meets_cons]
  refine ⟨⟨⟨fun _ => rfl, by decide⟩, trivial⟩, ⟨⟨fun _ => rfl, trivial⟩, trivial⟩,
    ⟨⟨fun _ => rfl, trivial⟩, trivial⟩, ⟨⟨fun _ => rfl, by decide⟩, trivial⟩,
    ⟨⟨fun _ => rfl, trivial⟩, trivial⟩, ⟨⟨fun _ => rfl, trivial⟩, trivial⟩,
    ⟨⟨fun _ => rfl, trivial⟩, ?_⟩, ⟨⟨fun _ => rfl, by decide, active_of_any ?_⟩, ?_⟩,
    ⟨⟨fun _ => rfl, ?_⟩, trivial⟩, ⟨⟨fun _ => rfl, by decide, active_of_any ?_⟩, ?_⟩,
    ⟨⟨fun _ => rfl, trivial⟩, trivial⟩, trivial⟩
  · show ∀ wt ∈ _, _
    decide +kernel
  · decide +kernel
  · show _ ∨ _ ∨ _
    decide +kernel
  · refine ⟨(1, 256), WireTemplate.after 1 256 [.add WireTemplate.octetDeltaCount, .activate],
      by decide +kernel, by decide +kernel, rfl, fun ie hie => ?_⟩
    obtain rfl := List.mem_singleton.1 hie
    rfl
  · decide +kernel
  · show _ ∨ _ ∨ _
    decide +kernel

/-- Another template is chosen before a record of the first one. -/
theorem not_exporter_in_sequence : ¬ ∀ (domain : UInt32) (buf : List UInt8) (os : List (Env × Op)),
    kMessageHeaderLen ≤ buf.length → buf.length < 2 ^ 16 →
    StepRun.Meets step Asked (new domain buf).2 os →
    StepRun.Meets step Orderly (new domain buf).2 os ∧
      ∀ e, StepRun.run step (new domain buf).2 os = some e → ∀ m ∈ e.sent, Framed m := fun h => by
  have horderly := fun hasked => (h 1 memory (calls (octetTemplate (1, 256) ++
    octetTemplate (1, 257) ++ [.setTemplate 256, .setTemplate 257]))
    (by decide) (by decide) hasked).1
  simp only [calls, octetTemplate, templateOf, List.map_cons, List.map_nil, List.cons_append,
    List.nil_append,
    meets_cons] at horderly
  have hlast :=
    (horderly ⟨⟨fun _ => rfl, by decide⟩, ⟨fun _ => rfl, trivial⟩, ⟨fun _ => rfl, trivial⟩,
    ⟨fun _ => rfl, by decide⟩, ⟨fun _ => rfl, trivial⟩, ⟨fun _ => rfl, trivial⟩,
    ⟨fun _ => rfl, by decide, active_of_any (by decide +kernel)⟩,
    ⟨fun _ => rfl, by decide, active_of_any (by decide +kernel)⟩, trivial⟩).2.2.2.2.2.2.2.1
  have hquiet := hlast (.logicError "out-of-sequence call to encodeSetEnd()") (by decide +kernel)
  exact absurd hquiet.1 (by decide)

/-! ## Domains -/

/-- The records of a data set are of the template that the message's domain has for its ID. -/
def Matched (domain : UInt32) (s : SetWritten) : Prop :=
  ¬ s.id < kMinSetID → ∀ r ∈ s.records, r.key = (domain, s.id)

def AllMatched (domain : UInt32) (sets : List SetWritten) (sent : List Message) : Prop :=
  (∀ s ∈ sets, Matched domain s) ∧ ∀ m ∈ sent, ∀ s ∈ m.sets, Matched m.domain s

/-- A record is in a set of ID `id`, sent with domain `d` or to be sent with it. -/
def Kept (d : UInt32) (id : UInt16) (r : Written) (domain : UInt32) (sets : List SetWritten)
    (sent : List Message) : Prop :=
  (domain = d ∧ ∃ s ∈ sets, s.id = id ∧ r ∈ s.records) ∨
    ∃ m ∈ sent, m.domain = d ∧ ∃ s ∈ m.sets, s.id = id ∧ r ∈ s.records

theorem matched_of_noData {domain : UInt32} (h : NoData s) : Matched domain s := by
  intro hid r hr
  rw [h hid] at hr
  cases hr

theorem stable_allMatched : Stable AllMatched where
  send h := by
    refine ⟨fun s hs => (List.not_mem_nil hs).elim, fun m hm => ?_⟩
    rcases List.mem_append.1 hm with hm | hm
    · exact h.2 m hm
    · obtain rfl := List.mem_singleton.1 hm
      exact h.1
  start h := by
    refine ⟨fun s hs => ?_, h.2⟩
    rcases List.mem_append.1 hs with hs | hs
    · exact h.1 s hs
    · obtain rfl := List.mem_singleton.1 hs
      exact matched_of_noData fun _ => rfl
  move h hnone := ⟨fun s hs => matched_of_noData (hnone s hs), h.2⟩
  template h hid := by
    refine ⟨fun s hs => ?_, h.2⟩
    rcases List.mem_append.1 hs with hs | hs
    · exact h.1 s (List.mem_append_left _ hs)
    · obtain rfl := List.mem_singleton.1 hs
      exact fun hdata => absurd hid hdata

/-- A set with one more record still has the others. -/
theorem kept_add {d : UInt32} {id : UInt16} {r r' : Written} {domain : UInt32}
    {sets : List SetWritten} {sent : List Message} (h : Kept d id r domain (sets ++ [s]) sent) :
    Kept d id r domain (sets ++ [s.add r']) sent := by
  refine h.imp_left fun ⟨hdomain, s', hs', hid, hr⟩ => ⟨hdomain, ?_⟩
  rcases List.mem_append.1 hs' with hs' | hs'
  · exact ⟨s', List.mem_append_left _ hs', hid, hr⟩
  · obtain rfl := List.mem_singleton.1 hs'
    exact ⟨_, List.mem_append_right _ (List.mem_singleton_self _), hid, List.mem_append_left _ hr⟩

theorem stable_kept {d : UInt32} {id : UInt16} (hid : ¬ id < kMinSetID) (r : Written) :
    Stable (Kept d id r) where
  send h := by
    obtain ⟨rfl, hset⟩ | ⟨m, hm, hset⟩ := h
    · exact .inr ⟨_, List.mem_append_right _ (List.mem_singleton_self _), rfl, hset⟩
    · exact .inr ⟨m, List.mem_append_left _ hm, hset⟩
  start h := h.imp_left fun ⟨hdomain, s, hs, hset⟩ =>
    ⟨hdomain, s, List.mem_append_left _ hs, hset⟩
  move h hnone := by
    obtain ⟨-, s, hs, rfl, hr⟩ | h := h
    · rw [hnone s hs hid] at hr
      cases hr
    · exact .inr h
  template h _ := kept_add h

/-- A record is not exported with the template of another domain than the current one. -/
def InDomain (e : Exporter) (o : Env × Op) : Prop :=
  match o.2 with
  | .exportRecord _ _ => ∀ key, e.tmpl = some key → key.1 = e.domain
  | _ => True

instance (e : Exporter) (o : Env × Op) : Decidable (InDomain e o) :=
  match o with
  | (_, .exportRecord _ _) =>
    (Option.decidableForallMem e.tmpl : Decidable (∀ key ∈ e.tmpl, key.1 = e.domain))
  | (_, .getTemplate _) => .isTrue trivial
  | (_, .editTemplate _ _) => .isTrue trivial
  | (_, .setDomain _) => .isTrue trivial
  | (_, .setTemplate _) => .isTrue trivial
  | (_, .exportTemplatesForDomain) => .isTrue trivial
  | (_, .flush _) => .isTrue trivial

/-- A call that raises no exception. -/
def smoothStep (e : Exporter) (o : Env × Op) : Option Exporter :=
  match (call o.1 o.2).run e with
  | (.ok _, t) => some t
  | (.error _, _) => none

theorem run_of_smoothStep {o : Env × Op} (h : smoothStep e o = some t) :
    (call o.1 o.2).run e = (.ok (), t) := by
  rw [smoothStep] at h
  rcases hrun : (call o.1 o.2).run e with ⟨er | a, u⟩ <;> rw [hrun] at h
  · cases h
  · cases h
    rfl

theorem takes_allMatched (h : Ready J n e) {key : WireTemplateKey} (hkey : e.tmpl = some key)
    (hdomain : key.1 = e.domain) : Takes AllMatched e key := by
  intro sets s sent r hall hid hr
  refine ⟨fun s' hs' => ?_, hall.2⟩
  rcases List.mem_append.1 hs' with hs' | hs'
  · exact hall.1 s' (List.mem_append_left _ hs')
  · obtain rfl := List.mem_singleton.1 hs'
    intro hdata r' hr'
    rcases List.mem_append.1 hr' with hr' | hr'
    · exact hall.1 s (List.mem_append_right _ (List.mem_singleton_self s)) hdata r' hr'
    · obtain rfl := List.mem_singleton.1 hr'
      rw [hr]
      exact Prod.ext hdomain ((h.tmpl_id key hkey).1.trans hid.symm)

theorem smoothStep_matches {o : Env × Op} (h : Ready AllMatched n e) (ho : InDomain e o)
    (hstep : smoothStep e o = some t) : Ready AllMatched n t := by
  refine (ends_call stable_allMatched o (fun st s key hop htmpl => ?_) h).of_ok
    (run_of_smoothStep hstep)
  rw [InDomain, hop] at ho
  exact takes_allMatched h htmpl (ho key htmpl)

theorem smoothStep_keeps {d : UInt32} {id : UInt16} {r : Written} (hid : ¬ id < kMinSetID)
    {o : Env × Op} (h : Ready (Kept d id r) n e) (hstep : smoothStep e o = some t) :
    Ready (Kept d id r) n t :=
  (ends_call (stable_kept hid r) o (fun _ _ _ _ _ _ _ _ _ hkept _ _ => kept_add hkept) h).of_ok
    (run_of_smoothStep hstep)

theorem Ready.with_ghost {J' : UInt32 → List SetWritten → List Message → Prop} (h : Ready J n e)
    (hghost : J' e.domain e.current e.sent) : Ready J' n e where
  toInSequence := h.toInSequence
  mtu_eq := h.mtu_eq
  tids := h.tids
  opened_id := h.opened_id
  tmpl_id := h.tmpl_id
  ghost := hghost
  empty := h.empty
  zero := h.zero

/-- A record in a set that does not match it. -/
def Strayed (n : ℕ) (e : Exporter) : Prop :=
  ∃ d id r, ¬ id < kMinSetID ∧ r.key ≠ (d, id) ∧ Ready (Kept d id r) n e

theorem smoothStep_strays {o : Env × Op} (h : Ready J n e) (hJ : Stable J)
    (htakes : ∀ key, Takes J e key) (ho : ¬ InDomain e o) (hstep : smoothStep e o = some t) :
    Strayed n t := by
  have hrun := run_of_smoothStep hstep
  obtain ⟨env, op⟩ := o
  cases op with
  | exportRecord st s =>
    have hends : (exportRecord env st s).Ends e _ (Fails J n False) :=
      ends_exportRecord hJ (fun hfalse => hfalse.elim) (fun key _ => htakes key) h
    obtain ⟨hready, hsame, key, hkey, s', r, hs', hr, rfl⟩ := hends.of_ok hrun
    obtain ⟨hid, hmin⟩ := hready.tmpl_id r.key (hsame.tmpl.trans hkey)
    have hset := hready.opened_id s' hs'
    refine ⟨t.domain, s'.id, r, by rwa [hset, ← hid], fun hmatch => ?_, hready.with_ghost
      (.inl ⟨rfl, s', ?_, rfl, hr⟩)⟩
    · refine ho fun key' hkey' => ?_
      obtain rfl := Option.some.inj (hkey.symm.trans hkey')
      rw [hmatch]
      exact hsame.domain
    · rw [current, hs']
      exact List.mem_append_right _ (List.mem_singleton_self s')
  | _ => exact absurd trivial ho

/-- In every run without exceptions the data sets of what was sent match if no record is exported
with the template of another domain, and once all is sent only then. -/
theorem data_sets_match_iff (domain : UInt32) (buf : List UInt8)
    (hbuf : kMessageHeaderLen ≤ buf.length) (os : List (Env × Op)) (e : Exporter)
    (hrun : StepRun.run smoothStep (new domain buf).2 os = some e) :
    (StepRun.Meets smoothStep InDomain (new domain buf).2 os →
      ∀ m ∈ e.sent, ∀ s ∈ m.sets, Matched m.domain s) ∧
    ∀ env exportTime t, smoothStep e (env, .flush exportTime) = some t →
      ((∀ m ∈ t.sent, ∀ s ∈ m.sets, Matched m.domain s) ↔
        StepRun.Meets smoothStep InDomain (new domain buf).2 os) := by
  have hnew : Ready AllMatched buf.length (new domain buf).2 := ready_new
    (fun _ => ⟨fun _ hs => (List.not_mem_nil hs).elim, fun _ hm => (List.not_mem_nil hm).elim⟩)
    domain hbuf
  have hmatch : StepRun.Meets smoothStep InDomain (new domain buf).2 os →
      Ready AllMatched buf.length e := fun hm =>
    StepRun.run_keeps (fun _ _ _ h ho hstep => smoothStep_matches h ho hstep) os hnew hm hrun
  refine ⟨fun hm => (hmatch hm).ghost.2, fun env exportTime t ht => ⟨fun hsent => ?_, fun hm =>
    (smoothStep_matches (hmatch hm) (show InDomain e (env, .flush exportTime) from trivial)
      ht).ghost.2⟩⟩
  have htrue : Ready (fun _ _ _ => True) buf.length (new domain buf).2 :=
    ready_new (fun _ => trivial) domain hbuf
  rcases StepRun.meets_or_of_run InDomain (Ready (fun _ _ _ => True) buf.length)
    (Strayed buf.length)
    (fun e o t h hstep => (ends_call stable_true o (fun _ _ _ _ _ _ _ _ _ _ _ _ => trivial) h).of_ok
      (run_of_smoothStep hstep))
    (fun e o t ⟨d, id, r, hid, hkey, h⟩ hstep =>
      ⟨d, id, r, hid, hkey, smoothStep_keeps hid h hstep⟩)
    (fun e o t h ho hstep =>
      smoothStep_strays h stable_true (fun _ _ _ _ _ _ _ _ => trivial) ho hstep)
    os htrue hrun with hm | ⟨d, id, r, hid, hkey, h⟩
  · exact hm
  · obtain ⟨hflushed, -, hsets, hopen⟩ := (ends_flush (c := False) (stable_kept hid r)
      (fun hfalse => hfalse.elim) exportTime h.toInv).of_ok (run_of_smoothStep ht)
    have hkept := hflushed.ghost
    rw [current, hsets, hopen] at hkept
    obtain ⟨-, s, hs, -⟩ | ⟨m, hmem, rfl, s, hs, rfl, hr⟩ := hkept
    · exact (List.not_mem_nil hs).elim
    · exact absurd (hsent m hmem s hs hid r hr) hkey

/-- The same ID in two domains, and a record in the first. -/
def twoDomains : List Op :=
  octetTemplate (1, 256) ++ [.setDomain 2] ++ templateOf ipTotalLength (2, 256) ++
    [.setDomain 1, .setTemplate 256,
      .exportRecord ⟨[(WireTemplate.octetDeltaCount, 0)]⟩ fun _ => [0, 0, 0, 0, 0, 0, 0, 7]]

theorem data_sets_match_octets : ∃ e,
    StepRun.run smoothStep (new 1 memory).2 (calls (twoDomains ++ [.flush 0])) = some e ∧
      ∀ m ∈ e.sent, ∀ s ∈ m.sets, Matched m.domain s := by
  have hsmooth : (StepRun.run smoothStep (new 1 memory).2
      (calls (twoDomains ++ [.flush 0]))).isSome = true := by decide +kernel
  have hdomain : StepRun.Meets smoothStep InDomain (new 1 memory).2
      (calls (twoDomains ++ [.flush 0])) := by decide +kernel
  obtain ⟨e, he⟩ := Option.isSome_iff_exists.1 hsmooth
  exact ⟨e, he, (data_sets_match_iff 1 memory (by decide) (calls (twoDomains ++ [.flush 0])) e
    he).1 hdomain⟩

/-- In the second domain, under the same ID, the template of the first is still chosen. -/
theorem not_data_sets_match : ¬ ∀ (domain : UInt32) (buf : List UInt8) (os : List (Env × Op))
    (e : Exporter), kMessageHeaderLen ≤ buf.length →
    StepRun.run smoothStep (new domain buf).2 os = some e →
    ∀ m ∈ e.sent, ∀ s ∈ m.sets, Matched m.domain s := fun h => by
  have hstray : (StepRun.run smoothStep (new 1 memory).2 (calls (twoDomains ++
      [.setDomain 2, .setTemplate 256, .exportRecord ⟨[(WireTemplate.octetDeltaCount, 0)]⟩
        fun _ => [0, 0, 0, 0, 0, 0, 0, 7], .flush 0]))).any (fun e => e.sent.any fun m =>
      m.sets.any fun s => decide (¬ s.id < kMinSetID) && s.records.any fun r =>
        decide (r.key ≠ (m.domain, s.id))) = true := by decide +kernel
  cases hrun : StepRun.run smoothStep (new 1 memory).2 (calls (twoDomains ++
      [.setDomain 2, .setTemplate 256, .exportRecord ⟨[(WireTemplate.octetDeltaCount, 0)]⟩
        fun _ => [0, 0, 0, 0, 0, 0, 0, 7], .flush 0])) with
  | none =>
    rw [hrun] at hstray
    cases hstray
  | some e =>
    rw [hrun] at hstray
    simp only [Option.any_some, List.any_eq_true, Bool.and_eq_true, decide_eq_true_eq] at hstray
    obtain ⟨m, hm, s, hs, hid, r, hr, hkey⟩ := hstray
    exact hkey (h 1 memory _ e (by decide) hrun m hm s hs hid r hr)

end Exporter

end DStreamon.Ipfix
