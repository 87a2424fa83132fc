import DStreamon.Proofs.Files

/-!
# Files read to the end

Where every template has one meaning in a file, the receiver that is remembered for it is the right
one, and each data set goes to it whole, in the order of the file.
-/

namespace DStreamon.Ipfix

open Transcoder

/-! ## Templates that mean one thing -/

/-- The templates that a set defines. -/
def SetWritten.announced (s : SetWritten) : List WireTemplateKey :=
  if s.id = kTemplateSetID then s.records.map Written.key else []

def announced (sets : List SetWritten) : List WireTemplateKey := sets.flatMap SetWritten.announced

theorem announced_cons (s : SetWritten) (sets : List SetWritten) :
    announced (s :: sets) = s.announced ++ announced sets := rfl

/-- What `k` means, as a record says it. -/
def definitionOf (told : WireTemplateKey → List InfoElement) (k : WireTemplateKey) : Definition :=
  ⟨k.2, told k⟩

/-- A set sent with `domain` in which each template means what `told` has for it. -/
inductive SetWritten.Agrees (model : InfoModel) (told : WireTemplateKey → List InfoElement)
    (domain : UInt32) (s : SetWritten) : Prop
  | templates (hid : s.id = kTemplateSetID) (hrecords : ∀ r ∈ s.records, r.key.1 = domain ∧
      told r.key ≠ [] ∧ Tells model r.bytes (definitionOf told r.key)) : Agrees model told domain s
  | data (hid : ¬ s.id < kMinSetID) : Agrees model told domain s

/-- A message that was written whole, of such sets. -/
structure Message.Agrees (model : InfoModel) (told : WireTemplateKey → List InfoElement)
    (m : Message) : Prop where
  bytes : ∃ exportTime, m.bytes = m.wire exportTime
  length : m.bytes.length < 2 ^ 16
  nonempty : m.sets ≠ []
  sets : ∀ s ∈ m.sets, s.Agrees model told m.domain

/-- What is known when the templates `keys` are. -/
def knownOf (told : WireTemplateKey → List InfoElement) (keys : List WireTemplateKey) :
    WireTemplateKey → Option (List InfoElement) :=
  fun k => if k ∈ keys then some (told k) else none

section Told

variable {model : InfoModel} {told : WireTemplateKey → List InfoElement} {domain : UInt32}
  {s : SetWritten} {m : Message} {keys : List WireTemplateKey}

theorem SetWritten.Agrees.defines (h : s.Agrees model told domain) :
    s.Defines model (s.announced.map (definitionOf told)) := by
  rw [announced]
  cases h with
  | templates hid hrecords =>
    rw [if_pos hid, List.map_map]
    refine .templates hid (List.forall₂_map_right_iff.2 (List.forall₂_same.2 fun r hr => ?_))
    exact (hrecords r hr).2.2
  | data hid =>
    have hother : s.id ≠ kTemplateSetID := by
      rintro heq
      rw [heq] at hid
      exact hid (by decide)
    rw [if_neg hother]
    exact .data hid

theorem SetWritten.Agrees.announced (h : s.Agrees model told domain) {k : WireTemplateKey}
    (hk : k ∈ s.announced) : k.1 = domain ∧ told k ≠ [] := by
  rw [SetWritten.announced] at hk
  split_ifs at hk with hid
  · obtain ⟨r, hr, rfl⟩ := List.mem_map.1 hk
    cases h with
    | templates _ hrecords => exact ⟨(hrecords r hr).1, (hrecords r hr).2.1⟩
    | data hdata =>
      rw [hid] at hdata
      exact absurd (by decide) hdata
  · exact (List.not_mem_nil hk).elim

theorem Message.Agrees.readable (h : m.Agrees model told) :
    m.Readable model ((announced m.sets).map (definitionOf told)) := by
  refine ⟨h.bytes, h.length, h.nonempty,
    m.sets.map fun s => s.announced.map (definitionOf told), ?_, ?_⟩
  · exact List.forall₂_map_right_iff.2 (List.forall₂_same.2 fun s hs => (h.sets s hs).defines)
  · rw [announced, List.map_flatMap, List.flatMap_def]

theorem learn_announced {k : WireTemplateKey} (hk : k.1 = domain) (hne : told k ≠ []) :
    Session.learn domain (definitionOf told k) (knownOf told keys) =
      knownOf told (keys ++ [k]) := by
  subst hk
  funext k'
  by_cases hk' : k' = k
  · subst hk'
    simp [Session.learn, definitionOf, knownOf, hne]
  · rw [Session.learn, definitionOf, Function.update_of_ne hk']
    simp [knownOf, hk']

theorem learnAll_announced : ∀ {ks keys : List WireTemplateKey},
    (∀ k ∈ ks, k.1 = domain ∧ told k ≠ []) →
    Session.learnAll domain (ks.map (definitionOf told)) (knownOf told keys) =
      knownOf told (keys ++ ks)
  | [], keys, _ => by rw [List.append_nil]; rfl
  | k :: ks, keys, h => by
    obtain ⟨⟨hk, hne⟩, hks⟩ := List.forall_mem_cons.1 h
    rw [List.map_cons, Session.learnAll, List.foldl_cons, learn_announced hk hne]
    refine (learnAll_announced hks).trans ?_
    rw [List.append_assoc, List.singleton_append]

end Told

/-! ## Receivers -/

namespace Collector

/-- The receiver for what a template means. -/
def receiverOf (told : WireTemplateKey → List InfoElement)
    (receivers : List (List InfoElement × ℕ)) (k : WireTemplateKey) : Option ℕ :=
  firstReceiver { WireTemplate.new k.1 k.2 with ies := told k } receivers

/-- The templates `keys` are known in session `sk`, and the receivers remembered are the right
ones. -/
structure Reading (told : WireTemplateKey → List InfoElement)
    (receivers : List (List InfoElement × ℕ)) (sk : ℤ) (keys : List WireTemplateKey)
    (c : Collector) : Prop where
  knows : (c.getSession sk).Knows (knownOf told keys)
  registered : c.receivers = receivers
  cache : ∀ k r, SortedAssoc.lookup k c.receiverCache = some r →
    receiverOf told receivers k = some r

/-- The content of a set of `domain` is given to the receiver for its template. -/
structure Delivered (told : WireTemplateKey → List InfoElement)
    (receivers : List (List InfoElement × ℕ)) (domain : UInt32) (s : SetWritten) (d : Delivery) :
    Prop where
  content : d.content = s.content
  key : key d.template = (domain, s.id)
  active : d.template.active = true
  minlen : d.template.minlen = WireTemplate.minLen d.template.ies
  ies : d.template.ies = told (domain, s.id)
  receiver : receiverOf told receivers (domain, s.id) = some d.receiver

variable {told : WireTemplateKey → List InfoElement} {receivers : List (List InfoElement × ℕ)}
  {sk : ℤ} {keys : List WireTemplateKey} {c : Collector} {wt : WireTemplate} {k : WireTemplateKey}

/-- Only the elements of a template are looked at. -/
theorem firstReceiver_congr {wt' : WireTemplate} (h : wt.ies = wt'.ies) :
    firstReceiver wt receivers = firstReceiver wt' receivers := by
  have hcontains : wt.contains = wt'.contains := funext fun ie => by
    rw [WireTemplate.contains, WireTemplate.contains, h]
  rw [firstReceiver, firstReceiver]
  simp only [WireTemplate.containsAll, hcontains]

theorem firstReceiver_of_ies (h : wt.ies = told k) :
    firstReceiver wt receivers = receiverOf told receivers k := firstReceiver_congr h

theorem ies_of_known {s : Session} (hknows : s.Knows (knownOf told keys))
    (hfind : s.find k = some wt) (hactive : wt.active = true) : k ∈ keys ∧ wt.ies = told k := by
  have hknown := Session.known_of_find hfind hactive
  rw [hknows.known, knownOf] at hknown
  split_ifs at hknown with hk
  exact ⟨hk, (Option.some.inj hknown).symm⟩

theorem chosen_of_reading (h : Reading told receivers sk keys c) (hwt : wt.ies = told (key wt)) :
    chosen c wt = receiverOf told receivers (key wt) := by
  rw [chosen, h.registered, firstReceiver_of_ies hwt]
  cases hcache : SortedAssoc.lookup (key wt) c.receiverCache with
  | some r => rw [h.cache _ r hcache, Option.some_or]
  | none => rw [Option.none_or]

/-- The receivers of the sets of a message, when all of their templates are known. -/
theorem handed_of_reading {mbuf : MBuf} (h : Reading told receivers sk keys c) :
    ∀ {sets : List SetWritten} {i : ℕ},
      (∀ s ∈ sets, ¬ s.id < kMinSetID → (mbuf.domain, s.id) ∈ keys ∧
        (receiverOf told receivers (mbuf.domain, s.id)).isSome = true) →
      (setsWire sets).length ≤ kMaxSetLen →
      (mbuf.buf.take mbuf.len.toNat).drop i = setsWire sets →
      List.Forall₂ (Delivered told receivers mbuf.domain)
        (sets.filter fun s => !(s.id < kMinSetID))
        (handed c (c.getSession sk) mbuf (entries i sets))
  | [], _, _, _, _ => .nil
  | s :: sets, i, hsets, hmax, hmem => by
    obtain ⟨hset, hsets⟩ := List.forall_mem_cons.1 hsets
    rw [setsWire, List.flatMap_cons] at hmem hmax
    rw [List.length_append] at hmax
    have hrest := drop_add_of_drop hmem
    have hih := handed_of_reading h hsets (by rw [setsWire]; omega) hrest
    rw [entries, SetWritten.entry]
    by_cases hid : s.id < kMinSetID
    · rw [if_pos hid, List.filter_cons_of_neg (by simpa using hid), List.nil_append]
      exact hih
    · obtain ⟨hk, hr⟩ := hset hid
      obtain ⟨r, hr⟩ := Option.isSome_iff_exists.1 hr
      have hknown : (c.getSession sk).known (mbuf.domain, s.id) =
          some (told (mbuf.domain, s.id)) := by
        rw [h.knows.known, knownOf, if_pos hk]
      obtain ⟨wt, hfind, hactive, hies⟩ := Session.find_of_known hknown
      have hkey : key wt = (mbuf.domain, s.id) := h.knows.grown.keyed _ wt hfind
      have hserve : serve c (c.getSession sk) mbuf.domain
          ⟨s.id, UInt16.ofNat (kSetHeaderLen + s.content.length), i⟩ = some (wt, r) := by
        rw [serve, hfind, Option.bind_some, if_pos hactive,
          chosen_of_reading h (hkey ▸ hies), hkey, hr, Option.map_some]
      rw [if_neg hid, List.filter_cons_of_pos (by simpa using hid), List.singleton_append, handed,
        hserve]
      refine .cons ⟨?_, hkey, hactive, h.knows.grown.minlen hfind, hies, hr⟩ hih
      have htoNat := s.toNat_length (by omega)
      have hcontent : (mbuf.buf.take mbuf.len.toNat).drop (i + kSetHeaderLen) =
          s.content ++ sets.flatMap SetWritten.wire := by
        rw [SetWritten.wire, List.append_assoc] at hmem
        have hdrop := drop_add_of_drop hmem
        rwa [length_setHeader] at hdrop
      rw [contentOf]
      dsimp only
      rw [hcontent, htoNat, Nat.add_sub_cancel_left, List.take_left]

end Collector

namespace Session

/-- To ask for a template does not change what is known. -/
theorem Knows.ends_getTemplate {s : Session}
    {known : WireTemplateKey → Option (List InfoElement)} (h : s.Knows known) (domain : UInt32)
    (tid : UInt16) : (getTemplate domain tid).Ends s
      (fun wt t => t.Knows known ∧ t.find (domain, tid) = some wt) fun _ _ => True := by
  rw [getTemplate]
  split_ifs with htid
  · exact Attempt.ends_throw trivial
  refine Attempt.ends_get_bind ?_
  cases hfind : s.find (domain, tid) with
  | some wt => exact Attempt.ends_pure ⟨h, hfind⟩
  | none =>
    refine ⟨⟨h.grown.put (k := (domain, tid)) htid [], fun k => ?_, ?_⟩, find_put_self _ _ s⟩
    · by_cases hk : k = (domain, tid)
      · rw [leftover, hk, find_put_self]
        rfl
      · rw [leftover, find_put_of_ne hk]
        exact h.neat k
    · rw [← h.known]
      funext k
      by_cases hk : k = (domain, tid)
      · rw [Session.known, Session.known, hk, find_put_self, hfind]
        rfl
      · rw [Session.known, Session.known, find_put_of_ne hk]

end Session

namespace Collector

variable {told : WireTemplateKey → List InfoElement} {receivers : List (List InfoElement × ℕ)}
  {sk : ℤ} {keys : List WireTemplateKey} {c : Collector} {wt : WireTemplate}

theorem ends_receiverForTemplate (h : Reading told receivers sk keys c)
    (hwt : wt.ies = told (key wt)) : (receiverForTemplate wt).Ends c
      (fun _ c' => Reading told receivers sk keys c') fun _ _ => True := by
  rw [receiverForTemplate]
  refine Attempt.ends_get_bind ?_
  cases hcache : SortedAssoc.lookup (key wt) c.receiverCache with
  | some r => exact Attempt.ends_pure h
  | none =>
    dsimp only
    cases hfirst : firstReceiver wt c.receivers with
    | none => exact Attempt.ends_pure h
    | some r =>
      refine ⟨h.knows, h.registered, fun k r' hr' => ?_⟩
      by_cases hk : k = key wt
      · subst hk
        rw [SortedAssoc.lookup_insert_self, Option.some.injEq] at hr'
        rw [← firstReceiver_of_ies hwt, ← h.registered, hfirst, hr']
      · rw [SortedAssoc.lookup_insert_of_ne hk] at hr'
        exact h.cache k r' hr'

/-- What receivers do does not change what is known, nor who receives what. -/
theorem ends_receiveSets (receive : Receive) (domain : UInt32) : ∀ {sets : List SetListEntry}
    {d : Receiving}, Reading told receivers sk keys d.1 →
    (receiveSets receive sk domain sets).Ends d (fun _ d' => Reading told receivers sk keys d'.1)
      fun _ _ => True
  | [], _, h => Attempt.ends_pure h
  | sle :: sets, d, h => by
    have htranscoding : ∀ {d : Receiving} (x : Attempt Error Transcoder Unit),
        Reading told receivers sk keys d.1 → (transcoding x).Ends d
          (fun _ d' => Reading told receivers sk keys d'.1) fun _ _ => True := by
      intro d x hd
      refine Attempt.ends_zoom ?_
      rcases hrun : x.run d.2 with ⟨er | _, xc⟩
      · exact Attempt.ends_of_error hrun trivial
      · exact Attempt.ends_of_ok hrun hd
    have htemplate : (collecting (inSession sk (Session.getTemplate domain sle.id))).Ends d
        (fun wt d' => Reading told receivers sk keys d'.1 ∧
          (d'.1.getSession sk).find (domain, sle.id) = some wt) fun _ _ => True := by
      refine Attempt.ends_zoom (Attempt.ends_zoom
        ((h.knows.ends_getTemplate domain sle.id).imp (fun wt t ht => ?_) fun _ _ _ => trivial))
      obtain ⟨ht, hfind⟩ := ht
      dsimp only
      rw [getSession_putSession_self]
      exact ⟨⟨by rwa [getSession_putSession_self], h.registered, h.cache⟩, hfind⟩
    rw [receiveSets]
    refine htemplate.bind fun wt d hd => ?_
    obtain ⟨hd, hfind⟩ := hd
    split_ifs with hactive
    · exact Attempt.ends_pure hd
    have hactive : wt.active = true := by simpa using hactive
    have hies : wt.ies = told (key wt) := by
      rw [hd.knows.grown.keyed _ wt hfind]
      exact (ies_of_known hd.knows hfind hactive).2
    have hreceiver : (collecting (receiverForTemplate wt)).Ends d
        (fun _ d' => Reading told receivers sk keys d'.1) fun _ _ => True :=
      Attempt.ends_zoom (ends_receiverForTemplate hd hies)
    refine hreceiver.bind fun r d' hd' => ?_
    cases r with
    | none => exact Attempt.ends_pure hd'
    | some r =>
      refine (htranscoding _ hd').bind fun _ _ hd' => ?_
      refine Attempt.Ends.bind (Q := fun _ d' => Reading told receivers sk keys d'.1)
        (Attempt.ends_modify ⟨hd'.knows, hd'.registered, hd'.cache⟩) fun _ _ hd' => ?_
      refine (htranscoding _ hd').bind fun _ _ hd' => (htranscoding _ hd').bind fun _ _ hd' => ?_
      exact ends_receiveSets receive domain hd'

end Collector

/-! ## Messages of a file -/

/-- The data sets of a message, in order. -/
def Message.dataSets (m : Message) : List SetWritten := m.sets.filter fun s => !(s.id < kMinSetID)

theorem sets_of_entries : ∀ {sets : List SetWritten} {i : ℕ},
    (setsWire sets).length ≤ kMaxSetLen →
    ∀ sle ∈ entries i sets, kMinSetID ≤ sle.id ∧ kSetHeaderLen ≤ sle.len.toNat
  | [], _, _, _, h => (List.not_mem_nil h).elim
  | s :: sets, i, hmax, sle, h => by
    rw [setsWire, List.flatMap_cons, List.length_append] at hmax
    rw [entries] at h
    rcases List.mem_append.1 h with h | h
    · rw [SetWritten.entry] at h
      split_ifs at h with hid
      · exact (List.not_mem_nil h).elim
      · obtain rfl := List.mem_singleton.1 h
        refine ⟨UInt16.not_lt.1 hid, ?_⟩
        dsimp only
        rw [s.toNat_length (by omega)]
        exact Nat.le_add_right _ _
    · exact sets_of_entries (by rw [setsWire]; omega) sle h

/-- What a message hands out whose sets were all announced. -/
theorem Collector.hands_out {receive : Receive} {c : Collector} {sk : ℤ} {mbuf : MBuf}
    {told : WireTemplateKey → List InfoElement} {receivers : List (List InfoElement × ℕ)}
    {keys : List WireTemplateKey} {sets : List SetWritten} {i : ℕ} (hreads : Reads receive)
    (h : Reading told receivers sk keys c) (hsetlist : mbuf.setlist = entries i sets)
    (hsets : ∀ s ∈ sets, ¬ s.id < kMinSetID → (mbuf.domain, s.id) ∈ keys ∧
      (receiverOf told receivers (mbuf.domain, s.id)).isSome = true)
    (hmax : (setsWire sets).length ≤ kMaxSetLen)
    (hmem : (mbuf.buf.take mbuf.len.toNat).drop i = setsWire sets) :
    ∃ c', (receiveMessage receive sk mbuf).run c = (.ok (), c') ∧
      Reading told receivers sk keys c' ∧ ∃ ds, c'.delivered = c.delivered ++ ds ∧
        List.Forall₂ (Delivered told receivers mbuf.domain)
          (sets.filter fun s => !(s.id < kMinSetID)) ds := by
  obtain ⟨c', hrun, -, -, hdelivered⟩ := run_receiveMessage hreads
    ⟨mbuf, by rw [hsetlist]; exact sets_of_entries hmax⟩ h.knows.grown.keyed
  have hends : (receiveMessage receive sk mbuf).Ends c
      (fun _ c' => Reading told receivers sk keys c') fun _ _ => True :=
    Attempt.ends_zoom (ends_receiveSets receive _ h)
  refine ⟨c', hrun, hends.of_ok hrun, _, hdelivered, ?_⟩
  dsimp only
  rw [hsetlist]
  exact handed_of_reading h hsets hmax hmem

namespace FileReader

variable {c : Setting} {told : WireTemplateKey → List InfoElement}
  {receivers : List (List InfoElement × ℕ)} {r : FileReader} {ahead rest : List UInt8}
  {keys : List WireTemplateKey} {m : Message} {fuel : ℕ}

/-- What is ahead in the file, which may still be closed, and the templates that are known. -/
structure At (c : Setting) (told : WireTemplateKey → List InfoElement)
    (receivers : List (List InfoElement × ℕ)) (ahead : List UInt8) (keys : List WireTemplateKey)
    (r : FileReader) : Prop where
  reading : Collector.Reading told receivers 0 keys r.collector
  file : r.fp = some ⟨ahead, false⟩ ∨ r.fp = none ∧ c.disk = .ok ahead

/-- The template of each data set is known by then, and has a receiver. -/
def Follows (told : WireTemplateKey → List InfoElement) (receivers : List (List InfoElement × ℕ))
    (keys : List WireTemplateKey) (m : Message) : Prop :=
  ∀ s ∈ m.sets, ¬ s.id < kMinSetID → (m.domain, s.id) ∈ keys ++ announced m.sets ∧
    (Collector.receiverOf told receivers (m.domain, s.id)).isSome = true

theorem run_ensureFP (h : At c told receivers ahead keys r) :
    (ensureFP c.disk).run r = (.ok (), { r with fp := some ⟨ahead, false⟩ }) := by
  obtain ⟨collector, fp⟩ := r
  rw [ensureFP.eq_def, Attempt.run_get_bind]
  rcases h.file with hfp | ⟨hfp, hdisk⟩
  · obtain rfl : fp = some ⟨ahead, false⟩ := hfp
    rfl
  · obtain rfl : fp = none := hfp
    rw [hdisk]
    rfl

theorem run_framing {α : Type} {x : Attempt Error Framing α} {a : α} {f : Framing}
    {b : MessageBuffer} (hrun : x.run ⟨⟨ahead, false⟩, b, r.collector.getSession 0⟩ = (.ok a, f)) :
    (framing x).run ({ r with fp := some ⟨ahead, false⟩ }, b) =
      (.ok a, (⟨r.collector.putSession 0 f.session, some f.file⟩, f.buffer)) := by
  rw [framing, Attempt.run_zoom]
  dsimp only [Option.getD]
  rw [hrun]

theorem run_inReader {α : Type} {x : Attempt Error FileReader α} {a : α} {r' : FileReader}
    {b : MessageBuffer} (hrun : x.run r = (.ok a, r')) :
    (inReader x).run (r, b) = (.ok a, (r', b)) := by
  rw [inReader, Attempt.run_zoom, hrun]

/-- One message, and what it hands out. -/
theorem run_receiveMessage (hreads : Collector.Reads c.receive) (hm : m.Agrees c.model told)
    (h : At c told receivers (m.bytes ++ rest) keys r) (hfollows : Follows told receivers keys m)
    (hfuel : m.bytes.length < fuel) : ∃ r' b,
    (receiveMessage c fuel).run (r, .new) = (.ok (some true), (r', b)) ∧
      At c told receivers rest (keys ++ announced m.sets) r' ∧
      ∃ ds, r'.collector.delivered = r.collector.delivered ++ ds ∧
        List.Forall₂ (Collector.Delivered told receivers m.domain) m.dataSets ds := by
  obtain ⟨f, hdeframe, hf, hknows⟩ := Framing.run_deframe (u := c.unset)
    (f := ⟨⟨m.bytes ++ rest, false⟩, .new, r.collector.getSession 0⟩) hm.readable h.reading.knows
    rfl hfuel
  have hkeys : ∀ k ∈ announced m.sets, k.1 = m.domain ∧ told k ≠ [] := fun k hk => by
    obtain ⟨s, hs, hk⟩ := List.mem_flatMap.1 hk
    exact (hm.sets s hs).announced hk
  rw [learnAll_announced hkeys] at hknows
  have hfile : f.file = ⟨rest, false⟩ := by
    rw [← hf.ahead]
    exact congrArg (File.mk f.file.ahead) hf.eof
  obtain ⟨exportTime, hbytes⟩ := hm.bytes
  have hlength : m.bytes.length = kMessageHeaderLen + (setsWire m.sets).length := by
    rw [hbytes, Message.wire, List.length_append, length_messageHeader]
  have hmax : (setsWire m.sets).length ≤ kMaxSetLen := by
    have hlt := hm.length
    simp only [kMessageHeaderLen, kMaxSetLen] at hlength ⊢
    omega
  have hmem : (f.buffer.buf.take f.buffer.len.toNat).drop kMessageHeaderLen = setsWire m.sets := by
    rw [hf.buf, hbytes, Message.wire]
    exact List.drop_left' (length_messageHeader _ _ _ _)
  set c₁ := r.collector.putSession 0 f.session with hc₁
  have hself : c₁.getSession 0 = f.session := Collector.getSession_putSession_self 0 _ _
  have hreading : Collector.Reading told receivers 0 (keys ++ announced m.sets) c₁ :=
    ⟨by rwa [hself], h.reading.registered, h.reading.cache⟩
  obtain ⟨c', hrun, hend, ds, hdelivered, hds⟩ := Collector.hands_out hreads hreading hf.setlist
    (fun s hs hid => (hf.domain ▸ hfollows s hs hid :
      (f.buffer.toMBuf.domain, s.id) ∈ keys ++ announced m.sets ∧
        (Collector.receiverOf told receivers (f.buffer.toMBuf.domain, s.id)).isSome = true))
    hmax hmem
  rw [hf.domain] at hds
  refine ⟨⟨c', some f.file⟩, f.buffer, ?_, ⟨hend, .inl (by rw [hfile])⟩, ds, hdelivered, hds⟩
  have hopen : (_receiveMessage c fuel).run (r, .new) =
      (.ok (some true), (⟨c₁, some f.file⟩, f.buffer)) := by
    rw [_receiveMessage, Attempt.run_bind_of_ok (run_inReader (run_ensureFP h))]
    exact run_framing hdeframe
  rw [receiveMessage, Attempt.run_bind_of_ok hopen, if_pos rfl, Attempt.run_get_bind]
  have hcollect : (collecting (Collector.receiveMessage c.receive 0 f.buffer.toMBuf)).run
      (⟨c₁, some f.file⟩, f.buffer) = (.ok (), (⟨c', some f.file⟩, f.buffer)) := by
    rw [collecting, Attempt.run_zoom, hrun]
  rw [Attempt.run_bind_of_ok hcollect]
  rfl

end FileReader

end DStreamon.Ipfix
