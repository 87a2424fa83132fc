import DStreamon.Lib.Forall2
import DStreamon.Proofs.ExportedRecords
import DStreamon.Proofs.FileReading

/-!
# From an exporter to the receivers

Where each template has one meaning, is exported before its records and comes whole, the structures
that are exported are, in order, those that the receivers of the file decode.
-/

namespace DStreamon.Ipfix

open Transcoder

/-! ## A set decoded -/

/-- What a call exports: a structure, with the template that is chosen. -/
structure Export where
  key : WireTemplateKey
  fields : StructTemplate
  values : Struct

namespace Export

/-- Its record, when the template means what `told` has for it. -/
def written (told : WireTemplateKey → List InfoElement) (x : Export) : Written :=
  ⟨x.key, (told x.key).flatMap (WireTemplate.elementBytes x.fields x.values)⟩

def Permitted (told : WireTemplateKey → List InfoElement) (x : Export) : Prop :=
  ∀ ie ∈ told x.key, WireTemplate.Permitted x.fields x.values ie

end Export

variable {wt : WireTemplate} {st : StructTemplate} {xc : Transcoder} {x : Export}
  {g : List Export}

namespace SetReceiver

end SetReceiver

namespace Exporter

variable {e t : Exporter} {env : Env} {n : ℕ}

/-! ## What the calls export -/

end Exporter

/-! ## Sets in order -/

/-- Elements that a reader with the model can be told of. -/
structure Tellable (model : InfoModel) (ies : List InfoElement) : Prop where
  nonempty : ies ≠ []
  count : ies.length < 2 ^ 16
  told : ∀ ie ∈ ies, ie.Told
  received : ∀ ie ∈ ies, model.received ie = some ie

instance (model : InfoModel) (ies : List InfoElement) : Decidable (Tellable model ies) :=
  decidable_of_iff (ies ≠ [] ∧ ies.length < 2 ^ 16 ∧ (∀ ie ∈ ies, ie.Told) ∧
    ∀ ie ∈ ies, model.received ie = some ie)
    ⟨fun ⟨hne, hcount, htold, hreceived⟩ => ⟨hne, hcount, htold, hreceived⟩,
      fun h => ⟨h.nonempty, h.count, h.told, h.received⟩⟩

/-- A data set comes behind its template, which has a receiver. -/
def Ordered (told : WireTemplateKey → List InfoElement) (receivers : List (List InfoElement × ℕ)) :
    List WireTemplateKey → List (UInt32 × SetWritten) → Prop
  | _, [] => True
  | keys, p :: l =>
    (¬ p.2.id < kMinSetID → (p.1, p.2.id) ∈ keys ∧
      (Collector.receiverOf told receivers (p.1, p.2.id)).isSome = true) ∧
    Ordered told receivers (keys ++ p.2.announced) l

section Ordered

variable {told : WireTemplateKey → List InfoElement} {receivers : List (List InfoElement × ℕ)}
  {domain : UInt32}

theorem ordered_append : ∀ {l l' : List (UInt32 × SetWritten)} {keys : List WireTemplateKey},
    Ordered told receivers keys (l ++ l') ↔ Ordered told receivers keys l ∧
      Ordered told receivers (keys ++ announced (l.map Prod.snd)) l'
  | [], l', keys => by simp [Ordered, announced]
  | p :: l, l', keys => by
    rw [List.cons_append, Ordered, Ordered, ordered_append, and_assoc, List.map_cons,
      announced_cons, List.append_assoc]

/-- Nothing but the ID of the last set is looked at. -/
theorem ordered_last {l : List (UInt32 × SetWritten)} {keys : List WireTemplateKey}
    {s s' : SetWritten} (hid : s'.id = s.id)
    (h : Ordered told receivers keys (l ++ [(domain, s)])) :
    Ordered told receivers keys (l ++ [(domain, s')]) := by
  obtain ⟨hl, hs, -⟩ := ordered_append.1 h
  exact ordered_append.2 ⟨hl, by rw [hid]; exact hs, trivial⟩

end Ordered

/-! ## What the sets carry -/

/-- The data records of the sets are of `xs`, and the sets are such that a reader understands
them. -/
structure Carries (model : InfoModel) (told : WireTemplateKey → List InfoElement)
    (receivers : List (List InfoElement × ℕ)) (xs : List Export)
    (l : List (UInt32 × SetWritten)) : Prop where
  records : Exporter.dataRecords l = xs.map (Export.written told)
  permitted : ∀ x ∈ xs, x.Permitted told
  matched : ∀ p ∈ l, Exporter.Matched p.1 p.2
  agrees : ∀ p ∈ l, p.2.Agrees model told p.1
  ordered : Ordered told receivers [] l

namespace Carries

variable {model : InfoModel} {told : WireTemplateKey → List InfoElement}
  {receivers : List (List InfoElement × ℕ)} {xs : List Export} {l : List (UInt32 × SetWritten)}
  {domain : UInt32} {id : UInt16} {s : SetWritten} {r : Written}

theorem nil : Carries model told receivers [] [] :=
  ⟨rfl, fun _ h => (List.not_mem_nil h).elim, fun _ h => (List.not_mem_nil h).elim,
    fun _ h => (List.not_mem_nil h).elim, trivial⟩

/-- A set that is opened. -/
theorem start (h : Carries model told receivers xs l)
    (hagrees : (SetWritten.mk id []).Agrees model told domain)
    (hdata : ¬ id < kMinSetID → (domain, id) ∈ announced (l.map Prod.snd) ∧
      (Collector.receiverOf told receivers (domain, id)).isSome = true) :
    Carries model told receivers xs (l ++ [(domain, ⟨id, []⟩)]) where
  records := (Exporter.dataRecords_start l domain id).trans h.records
  permitted := h.permitted
  matched := List.forall_mem_append.2 ⟨h.matched, List.forall_mem_singleton.2
    fun _ _ hr => (List.not_mem_nil hr).elim⟩
  agrees := List.forall_mem_append.2 ⟨h.agrees, List.forall_mem_singleton.2 hagrees⟩
  ordered := ordered_append.2 ⟨h.ordered, hdata, trivial⟩

/-- A template's record. -/
theorem template (h : Carries model told receivers xs (l ++ [(domain, s)]))
    (hid : s.id = kTemplateSetID) (hr : r.key.1 = domain ∧ told r.key ≠ [] ∧
      Tells model r.bytes (definitionOf told r.key)) :
    Carries model told receivers xs (l ++ [(domain, s.add r)]) where
  records := by
    rw [Exporter.dataRecords_add, if_pos (by rw [hid]; decide), List.append_nil, h.records]
  permitted := h.permitted
  matched := by
    refine List.forall_mem_append.2 ⟨(List.forall_mem_append.1 h.matched).1,
      List.forall_mem_singleton.2 fun hdata => ?_⟩
    exact absurd (show s.id < kMinSetID by rw [hid]; decide) hdata
  agrees := by
    obtain ⟨hl, hs⟩ := List.forall_mem_append.1 h.agrees
    refine List.forall_mem_append.2 ⟨hl, List.forall_mem_singleton.2 ?_⟩
    cases List.forall_mem_singleton.1 hs with
    | templates _ hrecords =>
      exact .templates hid (List.forall_mem_append.2 ⟨hrecords, List.forall_mem_singleton.2 hr⟩)
    | data hdata => exact absurd (show s.id < kMinSetID by rw [hid]; decide) hdata
  ordered := ordered_last (s := s) rfl h.ordered

/-- A data record. -/
theorem data {x : Export} (h : Carries model told receivers xs (l ++ [(domain, s)]))
    (hid : ¬ s.id < kMinSetID) (hkey : x.key = (domain, s.id)) (hx : x.Permitted told) :
    Carries model told receivers (xs ++ [x]) (l ++ [(domain, s.add (x.written told))]) where
  records := by
    rw [Exporter.dataRecords_add, if_neg hid, h.records, List.map_append, List.map_cons,
      List.map_nil]
  permitted := List.forall_mem_append.2 ⟨h.permitted, List.forall_mem_singleton.2 hx⟩
  matched := by
    obtain ⟨hl, hs⟩ := List.forall_mem_append.1 h.matched
    refine List.forall_mem_append.2 ⟨hl, List.forall_mem_singleton.2 fun _ => ?_⟩
    exact List.forall_mem_append.2 ⟨List.forall_mem_singleton.1 hs hid,
      List.forall_mem_singleton.2 hkey⟩
  agrees := List.forall_mem_append.2 ⟨(List.forall_mem_append.1 h.agrees).1,
    List.forall_mem_singleton.2 (.data hid)⟩
  ordered := ordered_last (s := s) rfl h.ordered

end Carries

namespace Exporter

variable {model : InfoModel} {told : WireTemplateKey → List InfoElement}
  {receivers : List (List InfoElement × ℕ)} {xs : List Export} {e t : Exporter} {env : Env} {n : ℕ}

/-! ## What a caller sees to -/

/-- The templates that are exported are of the domain and mean what `told` has for them, and either
none asks for less space than its record takes or there is room for all of them.  A record is of a
template of the domain that was exported and means the same, and that has a receiver. -/
def Consistent (model : InfoModel) (told : WireTemplateKey → List InfoElement)
    (receivers : List (List InfoElement × ℕ)) (e : Exporter) (o : Env × Op) : Prop :=
  match o.2 with
  | .exportTemplatesForDomain =>
    (∀ wt ∈ e.session.activeTemplates e.domain, wt.domain = e.domain ∧
      wt.ies = told (wt.domain, wt.tid) ∧ Tellable model wt.ies) ∧
    ((∀ wt ∈ e.session.activeTemplates e.domain, wt.trlen = wt.templateRecord.length) ∨
      kSetHeaderLen + ((e.session.activeTemplates e.domain).map
        fun wt => wt.templateRecord.length).sum ≤ e.xcoder.avail)
  | .exportRecord _ _ => ∀ p ∈ e.chosen, p.1.1 = e.domain ∧
      p.1 ∈ announced (e.allSets.map Prod.snd) ∧ p.2.ies = told p.1 ∧
      (Collector.receiverOf told receivers p.1).isSome = true
  | _ => True

instance : LawfulBEq WireTemplateKey := inferInstance

instance (model : InfoModel) (told : WireTemplateKey → List InfoElement)
    (receivers : List (List InfoElement × ℕ)) (e : Exporter) (o : Env × Op) :
    Decidable (Consistent model told receivers e o) :=
  match o with
  | (_, .exportTemplatesForDomain) => inferInstanceAs (Decidable (_ ∧ _))
  | (_, .exportRecord _ _) =>
    Option.decidableForallMem e.chosen
  | (_, .getTemplate _) => .isTrue trivial
  | (_, .editTemplate _ _) => .isTrue trivial
  | (_, .setDomain _) => .isTrue trivial
  | (_, .setTemplate _) => .isTrue trivial
  | (_, .flush _) => .isTrue trivial

end Exporter

/-! ## What is received -/

section Received

variable {model : InfoModel} {told : WireTemplateKey → List InfoElement}
  {receivers : List (List InfoElement × ℕ)} {xs : List Export} {g : List Export}
  {domain : UInt32} {s : SetWritten} {d : Delivery}

end Received

namespace Exporter

variable {model : InfoModel} {told : WireTemplateKey → List InfoElement}
  {receivers : List (List InfoElement × ℕ)} {n : ℕ}

end Exporter

namespace Exporter

open WireTemplate (octetDeltaCount)

end Exporter

namespace Exporter

/-- The destructor flushes only a file that is open.  So what was exported is in the file when the
writer is destroyed just where a message was sent before, or nothing was exported. -/
theorem destroyed_file_complete_iff (domain : UInt32) (buf : List UInt8)
    (hbuf : kMessageHeaderLen ≤ buf.length) (os : List (Env × Op)) (e t : Exporter)
    (hrun : StepRun.run smoothStep (new domain buf).2 os = some e) (env : Env)
    (hdestroy : (FileWriter.destroy env).run e = (.ok (), t)) :
    dataRecords (t.sent.flatMap fun m => m.sets.map (Prod.mk m.domain)) =
        exported (new domain buf).2 os ↔
      e.sent ≠ [] ∨ exported (new domain buf).2 os = [] := by
  rw [FileWriter.destroy, Attempt.run_get_bind] at hdestroy
  by_cases hsent : e.sent = []
  · rw [if_neg (not_not.2 hsent)] at hdestroy
    obtain rfl : e = t := congrArg Prod.snd hdestroy
    have hnone : dataRecords [] = [] := rfl
    rw [hsent, List.flatMap_nil, hnone, eq_comm]
    simp
  · rw [if_pos hsent] at hdestroy
    have hflush : smoothStep e (env, .flush env.now) = some t := by
      rw [smoothStep, call, hdestroy]
    obtain ⟨h, hall⟩ := run_dataRecords_new domain hbuf hrun
    rw [(sent_of_flush h hflush).2]
    exact iff_of_true hall (.inl hsent)

/-- One record, and the writer destroyed. -/
theorem destroyed_file_complete_octets : ∃ e t,
    StepRun.run smoothStep (new 1 memory).2 (calls twoDomains) = some e ∧
      (FileWriter.destroy ⟨0, fun _ => none⟩).run e = (.ok (), t) ∧
      dataRecords (t.sent.flatMap fun m => m.sets.map (Prod.mk m.domain)) ≠
        exported (new 1 memory).2 (calls twoDomains) := by
  have hsmooth : (StepRun.run smoothStep (new 1 memory).2 (calls twoDomains)).any
      (fun e => decide (e.sent = [])) = true := by decide +kernel
  obtain ⟨e, he, hsent⟩ := (Option.any_eq_true _ _).1 hsmooth
  have hsent : e.sent = [] := of_decide_eq_true hsent
  have hdestroy : (FileWriter.destroy ⟨0, fun _ => none⟩).run e = (.ok (), e) := by
    rw [FileWriter.destroy, Attempt.run_get_bind, if_neg (not_not.2 hsent)]
    rfl
  refine ⟨e, e, he, hdestroy, fun hall => ?_⟩
  have hiff := (destroyed_file_complete_iff 1 memory (by decide) (calls twoDomains) e e he _
    hdestroy).1 hall
  have hexported : exported (new 1 memory).2 (calls twoDomains) ≠ [] := by decide +kernel
  exact hiff.elim (fun hopen => hopen hsent) hexported

end Exporter

end DStreamon.Ipfix
