import DStreamon.Proofs.WireTemplate
import Mathlib.Data.List.Nodup

/-!
# Records written and read back

A record is what its elements are on the wire, one after the other.  The encoder writes zeros for an
element that its structure does not have, the decoder goes on to the next element without reading
anything.  So every element that is on the wire at all has to be in the structure that is read into,
and one of variable width in the structure that is written from, where the zeros would have no
length in front of them.
-/

namespace DStreamon.Ipfix

open Transcoder

/-! ## Runs of records -/

/-- Where a structure has no two fields for one element or at one place. -/
structure StructTemplate.Apart (st : StructTemplate) : Prop where
  keys : (st.fields.map fun f => f.1.key).Nodup
  offsets : (st.fields.map Prod.snd).Nodup

namespace WireTemplate

/-- Structures encoded one after the other, with the places where their records end. -/
inductive Encoded (wt : WireTemplate) (st : StructTemplate) :
    Transcoder → List Struct → List ℕ → Transcoder → Prop
  | nil (xc : Transcoder) : Encoded wt st xc [] [] xc
  | cons {xc t u : Transcoder} {s : Struct} {ss : List Struct} {ends : List ℕ} :
    (wt.encode st s).run xc = (.ok true, t) → Encoded wt st t ss ends u →
      Encoded wt st xc (s :: ss) (t.cur :: ends) u

/-- The value of an element's field, as it is in memory. -/
def fieldOf (s : Struct) (slot : ℕ × ℕ) : List UInt8 :=
  if slot.2 = kVarlen.toNat then s slot.1 else rawLeft (s slot.1) slot.2

/-- An element's content in the record of a structure: zeros, if it has no field for it. -/
def contentOf (st : StructTemplate) (s : Struct) (ie : InfoElement) : List UInt8 :=
  match st.slot ie with
  | none => List.replicate ie.len.toNat 0
  | some slot => xcode ie.ietype (fieldOf s slot) (contentLen ie (fieldOf s slot))

/-- What a field of `len` bytes, or a `VarlenField`, is set to from a content. -/
def stored (ie : InfoElement) (len : ℕ) (c : List UInt8) : List UInt8 :=
  if len = kVarlen.toNat then c else xcode ie.ietype c len

/-- Each field of the structure is set from its element in the record of `s`, the last one if there
are several. -/
def Filled (wt : WireTemplate) (st' st : StructTemplate) (s out : Struct) : Prop :=
  ∀ f ∈ st.fields, ∀ a ie b, wt.ies = a ++ ie :: b → ie.key = f.1.key →
    (∀ later ∈ b, later.key ≠ ie.key) → out f.2 = stored ie f.1.len.toNat (contentOf st' s ie)

/-- Records decoded one after the other: each up to its end, and the structure filled from it. -/
def ReadsBack (wt : WireTemplate) (st' st : StructTemplate) :
    List Struct → List ℕ → Transcoder → Struct → Prop
  | s :: ss, e :: ends, xc, s₀ => ∃ out t, (wt.decode st s₀).run xc = (.ok (some out), t) ∧
      t.cur = e ∧ wt.Filled st' st s out ∧ ReadsBack wt st' st ss ends t out
  | [], [], _, _ => True
  | _, _, _, _ => False

/-- Any number of records, written from the fields of `st'` and read into those of `st`. -/
def Aligned (wt : WireTemplate) (st' st : StructTemplate) : Prop :=
  ∀ (xc : Transcoder) (ss : List Struct) (ends : List ℕ) (t : Transcoder), xc.Sound →
    wt.Encoded st' xc ss ends t → ∀ s₀, wt.ReadsBack st' st ss ends (t.seek xc.cur) s₀

/-! ## Where an element is -/

theorem lastIndex_some {key : UInt32 × UInt16} : ∀ {es : List InfoElement} {i : ℕ},
    lastIndex key es = some i → ∃ e, es[i]? = some e ∧ e.key = key
  | [], i, h => by cases h
  | e :: es, i, h => by
    rw [lastIndex] at h
    cases hes : lastIndex key es with
    | some j =>
      rw [hes] at h
      cases h
      obtain ⟨e', he', hkey⟩ := lastIndex_some hes
      exact ⟨e', by simpa using he', hkey⟩
    | none =>
      rw [hes] at h
      dsimp only at h
      split_ifs at h with hkey
      cases h
      exact ⟨e, rfl, hkey⟩

theorem lastIndex_none {key : UInt32 × UInt16} : ∀ {es : List InfoElement},
    lastIndex key es = none ↔ ∀ e ∈ es, e.key ≠ key
  | [] => by simp [lastIndex]
  | e :: es => by
    have ih : lastIndex key es = none ↔ ∀ e ∈ es, e.key ≠ key := lastIndex_none
    rw [lastIndex, List.forall_mem_cons, ← ih]
    cases lastIndex key es with
    | some j => simp
    | none =>
      simp only [and_true]
      split_ifs with hkey <;> simp [hkey]

theorem slot_some {st : StructTemplate} {ie : InfoElement} {slot : ℕ × ℕ}
    (h : st.slot ie = some slot) :
    ∃ f ∈ st.fields, f.1.key = ie.key ∧ slot = (f.2, f.1.len.toNat) := by
  obtain ⟨i, hi, hmap⟩ := Option.bind_eq_some_iff.1 h
  obtain ⟨f, hf, rfl⟩ := Option.map_eq_some_iff.1 hmap
  obtain ⟨e, he, hkey⟩ := lastIndex_some hi
  rw [List.getElem?_map, hf] at he
  cases he
  exact ⟨f, List.mem_of_getElem? hf, hkey, rfl⟩

theorem slot_none {st : StructTemplate} {ie : InfoElement} (h : st.slot ie = none) :
    ∀ f ∈ st.fields, f.1.key ≠ ie.key := by
  intro f hmem hkey
  cases hi : lastIndex ie.key (st.fields.map Prod.fst) with
  | none => exact lastIndex_none.1 hi f.1 (List.mem_map_of_mem hmem) hkey
  | some i =>
    obtain ⟨e, he, -⟩ := lastIndex_some hi
    rw [List.getElem?_map] at he
    obtain ⟨f', hf', -⟩ := Option.map_eq_some_iff.1 he
    rw [StructTemplate.slot, hi, Option.bind_some, hf'] at h
    cases h

/-- The one field of an element. -/
theorem slot_of_mem {st : StructTemplate} (hst : st.Apart) {ie : InfoElement}
    {f : InfoElement × ℕ} (hf : f ∈ st.fields) (hkey : ie.key = f.1.key) :
    st.slot ie = some (f.2, f.1.len.toNat) := by
  cases hslot : st.slot ie with
  | none => exact absurd hkey.symm (slot_none hslot f hf)
  | some slot =>
    obtain ⟨f', hf', hkey', rfl⟩ := slot_some hslot
    rw [List.inj_on_of_nodup_map hst.keys hf' hf (hkey'.trans hkey)]

/-- Fields at one place are of one element. -/
theorem key_eq_of_slots {st : StructTemplate} (hst : st.Apart) {ie ie' : InfoElement}
    {slot slot' : ℕ × ℕ} (h : st.slot ie = some slot) (h' : st.slot ie' = some slot')
    (hoff : slot.1 = slot'.1) : ie.key = ie'.key := by
  obtain ⟨f, hf, hkey, rfl⟩ := slot_some h
  obtain ⟨f', hf', hkey', rfl⟩ := slot_some h'
  have hff : f = f' := List.inj_on_of_nodup_map hst.offsets hf hf' hoff
  rw [← hkey, ← hkey', hff]

/-! ## What is written -/

def elementBytes (st : StructTemplate) (s : Struct) (ie : InfoElement) : List UInt8 :=
  match st.slot ie with
  | none => List.replicate ie.len.toNat 0
  | some slot => wire ie (fieldOf s slot)

/-- The element can be written. -/
def Permitted (st : StructTemplate) (s : Struct) (ie : InfoElement) : Prop :=
  match st.slot ie with
  | none => ie.ietype.permitsLength ie.len.toNat = true
  | some slot => ie.ietype.permitsLength (contentLen ie (fieldOf s slot)) = true

def recordBytes (wt : WireTemplate) (st : StructTemplate) (s : Struct) : List UInt8 :=
  wt.ies.flatMap (elementBytes st s)

variable {wt : WireTemplate} {st st' : StructTemplate} {s : Struct} {ie : InfoElement}
  {ies : List InfoElement} {xc t : Transcoder}

theorem encodeElement_some {slot : ℕ × ℕ} (h : st.slot ie = some slot) :
    encodeElement st s ie = Transcoder.encode (fieldOf s slot) ie := by
  obtain ⟨off, len⟩ := slot
  rw [encodeElement, h, fieldOf]
  dsimp only
  split_ifs <;> rfl

theorem encodeElement_none (h : st.slot ie = none) : encodeElement st s ie = encodeZero ie := by
  rw [encodeElement, h]

theorem of_run_encodeZero (hrun : (encodeZero ie).run xc = (.ok true, t)) :
    ie.ietype.permitsLength ie.len.toNat = true ∧ ie.len.toNat ≤ xc.avail ∧
      t = xc.put (List.replicate ie.len.toNat 0) := by
  rw [encodeZero, Attempt.run_get_bind] at hrun
  split_ifs at hrun with hp hroom
  · simp at hrun
  · simp at hrun
  · rw [Attempt.run_modify_bind, Attempt.run_pure] at hrun
    cases hrun
    exact ⟨by simpa using hp, Nat.not_lt.1 hroom, rfl⟩

theorem of_run_encodeElement (h : xc.Sound)
    (hrun : (encodeElement st s ie).run xc = (.ok true, t)) :
    Permitted st s ie ∧ (elementBytes st s ie).length ≤ xc.avail ∧
      t = xc.put (elementBytes st s ie) := by
  rw [Permitted, elementBytes]
  cases hslot : st.slot ie with
  | none =>
    rw [encodeElement_none hslot] at hrun
    obtain ⟨hp, hroom, ht⟩ := of_run_encodeZero hrun
    exact ⟨hp, by rwa [List.length_replicate], ht⟩
  | some slot =>
    rw [encodeElement_some hslot] at hrun
    exact of_run_encode h hrun

theorem run_encodeElement (h : xc.Sound) (hp : Permitted st s ie)
    (hroom : (elementBytes st s ie).length ≤ xc.avail) :
    (encodeElement st s ie).run xc = (.ok true, xc.put (elementBytes st s ie)) := by
  rw [Permitted] at hp
  rw [elementBytes] at hroom ⊢
  cases hslot : st.slot ie with
  | none =>
    rw [hslot] at hp hroom
    simp only [List.length_replicate] at hp hroom
    rw [encodeElement_none hslot, encodeZero, Attempt.run_get_bind, hp, if_neg (by simp),
      if_neg (Nat.not_lt.2 hroom)]
    rfl
  | some slot =>
    rw [hslot] at hp hroom
    rw [encodeElement_some hslot]
    exact run_encode h hp hroom

theorem of_run_encodeElements : ∀ {ies : List InfoElement} {xc t : Transcoder}, xc.Sound →
    (encodeElements st s ies).run xc = (.ok true, t) → (∀ ie ∈ ies, Permitted st s ie) ∧
      (ies.flatMap (elementBytes st s)).length ≤ xc.avail ∧
      t = xc.put (ies.flatMap (elementBytes st s))
  | [], xc, t, h, hrun => by
    rw [encodeElements, Attempt.run_pure] at hrun
    cases hrun
    exact ⟨by simp, by simp, put_nil.symm⟩
  | ie :: ies, xc, t, h, hrun => by
    rw [encodeElements] at hrun
    obtain ⟨b, u, hu, hrun⟩ := Attempt.ok_of_bind hrun
    cases b with
    | false => simp at hrun
    | true =>
      obtain ⟨hp, hroom, rfl⟩ := of_run_encodeElement h hu
      rw [if_pos rfl] at hrun
      obtain ⟨hps, hrooms, rfl⟩ := of_run_encodeElements (h.put hroom) hrun
      rw [avail_put h hroom] at hrooms
      refine ⟨List.forall_mem_cons.2 ⟨hp, hps⟩, ?_, ?_⟩
      · rw [List.flatMap_cons, List.length_append]
        omega
      · rw [List.flatMap_cons, put_put h]

theorem writes_encodeElements : ∀ {ies : List InfoElement}, (∀ ie ∈ ies, Permitted st s ie) →
    Writes (encodeElements st s ies) true (ies.flatMap (elementBytes st s))
  | [], _ => writes_pure true
  | ie :: ies, hp => by
    obtain ⟨hie, hies⟩ := List.forall_mem_cons.1 hp
    have hfirst : Writes (encodeElement st s ie) true (elementBytes st s ie) :=
      fun xc h hroom => run_encodeElement h hie hroom
    exact hfirst.bind (writes_encodeElements hies)

/-- A record that was written. -/
theorem of_run_encode (h : xc.Sound) (hrun : (wt.encode st s).run xc = (.ok true, t)) :
    wt.active = true ∧ wt.minlen ≤ xc.avail ∧ (∀ ie ∈ wt.ies, Permitted st s ie) ∧
      (wt.recordBytes st s).length ≤ xc.avail ∧ t = xc.checkpoint.put (wt.recordBytes st s) := by
  rw [encode] at hrun
  split_ifs at hrun with hactive
  · simp at hrun
  rw [Attempt.run_get_bind] at hrun
  split_ifs at hrun with hmin
  · simp at hrun
  rw [Attempt.run_modify_bind] at hrun
  obtain ⟨b, u, hu, hrun⟩ := Attempt.ok_of_bind hrun
  cases b with
  | false =>
    rw [if_neg (by simp), Attempt.run_modify_bind, Attempt.run_pure] at hrun
    cases hrun
  | true =>
    have hcheck : xc.checkpoint.Sound := ⟨h.cur_le, h.max_le⟩
    obtain ⟨hp, hroom, rfl⟩ := of_run_encodeElements hcheck hu
    cases hrun
    exact ⟨by simpa using hactive, Nat.not_lt.1 hmin, hp, hroom, rfl⟩

/-! ## What is read -/

/-- The structure after the contents `c` of the elements `ies`. -/
def fill (st : StructTemplate) (c : InfoElement → List UInt8) : List InfoElement → Struct → Struct
  | [], s => s
  | ie :: ies, s =>
    match st.slot ie with
    | none => fill st c ies s
    | some (off, len) => fill st c ies (Function.update s off (stored ie len (c ie)))

theorem fill_other {c : InfoElement → List UInt8} {off : ℕ} :
    ∀ {ies : List InfoElement} {s : Struct},
      (∀ ie ∈ ies, ∀ slot, st.slot ie = some slot → slot.1 ≠ off) → fill st c ies s off = s off
  | [], _, _ => rfl
  | ie :: ies, s, h => by
    obtain ⟨hie, hies⟩ := List.forall_mem_cons.1 h
    rw [fill]
    cases hslot : st.slot ie with
    | none => exact fill_other hies
    | some slot =>
      obtain ⟨off', len⟩ := slot
      dsimp only
      rw [fill_other hies, Function.update_of_ne (hie _ hslot).symm]

theorem fill_append {c : InfoElement → List UInt8} : ∀ (a b : List InfoElement) (s : Struct),
    fill st c (a ++ b) s = fill st c b (fill st c a s)
  | [], _, _ => rfl
  | ie :: a, b, s => by
    rw [List.cons_append, fill, fill]
    cases st.slot ie with
    | none => exact fill_append a b s
    | some slot => exact fill_append a b _

/-- The last content of a field is the one that stays. -/
theorem fill_last {c : InfoElement → List UInt8} {a b : List InfoElement} {slot : ℕ × ℕ}
    (hst : st.Apart) (hslot : st.slot ie = some slot) (hlast : ∀ later ∈ b, later.key ≠ ie.key) :
    fill st c (a ++ ie :: b) s slot.1 = stored ie slot.2 (c ie) := by
  obtain ⟨off, len⟩ := slot
  have hb : ∀ later ∈ b, ∀ slot, st.slot later = some slot → slot.1 ≠ off :=
    fun later hmem slot' hslot' hoff => hlast later hmem (key_eq_of_slots hst hslot' hslot hoff)
  rw [fill_append, fill, hslot]
  dsimp only
  rw [fill_other hb, Function.update_self]

theorem ahead_seek {a b : List UInt8} (h : xc.ahead = a ++ b) :
    (xc.seek (xc.cur + a.length)).ahead = b := by
  change xc.buf.drop (xc.cur + a.length) = b
  rw [← List.drop_drop]
  change List.drop a.length xc.ahead = b
  rw [h, List.drop_left]

theorem run_decodeField {len : ℕ} {c : List UInt8}
    (hrun : (content ie).run xc = (.ok (some c), t)) :
    (decodeField len ie).run xc = (.ok (some (stored ie len c)), t) := by
  rw [decodeField, stored]
  split_ifs
  · exact hrun
  · rw [Transcoder.decode, Attempt.run_bind_of_ok hrun]
    rfl

theorem run_decodeElement_some {slot : ℕ × ℕ} {c : List UInt8} (hslot : st.slot ie = some slot)
    (hrun : (content ie).run xc = (.ok (some c), t)) : (decodeElement st ie s).run xc =
      (.ok (some (Function.update s slot.1 (stored ie slot.2 c))), t) := by
  rw [decodeElement, hslot]
  exact Attempt.run_bind_of_ok (run_decodeField hrun)

/-- Elements that all are in the structure or take no bytes. -/
theorem decodeElements_of_ahead {c : InfoElement → List UInt8} {rest : List UInt8} :
    ∀ {ies : List InfoElement} {xc : Transcoder} {s : Struct}, xc.Sound →
      (∀ ie ∈ ies, Fits ie (c ie)) → (∀ ie ∈ ies, st.slot ie = none → framed ie (c ie) = []) →
      xc.ahead = ies.flatMap (fun ie => framed ie (c ie)) ++ rest →
      (ies.flatMap fun ie => framed ie (c ie)).length ≤ xc.avail →
      (decodeElements st ies s).run xc = (.ok (some (fill st c ies s)),
        xc.seek (xc.cur + (ies.flatMap fun ie => framed ie (c ie)).length))
  | [], xc, s, _, _, _, _, _ => rfl
  | ie :: ies, xc, s, h, hfits, hskip, hahead, hroom => by
    obtain ⟨hfit, hfits⟩ := List.forall_mem_cons.1 hfits
    obtain ⟨hie, hskip⟩ := List.forall_mem_cons.1 hskip
    rw [List.flatMap_cons] at hahead hroom ⊢
    rw [decodeElements, fill]
    cases hslot : st.slot ie with
    | none =>
      rw [hie hslot, List.nil_append] at hahead hroom ⊢
      have hnone : (decodeElement st ie s).run xc = (.ok (some s), xc) := by
        rw [decodeElement, hslot]
        rfl
      rw [Attempt.run_bind_of_ok hnone]
      exact decodeElements_of_ahead h hfits hskip hahead hroom
    | some slot =>
      rw [List.append_assoc] at hahead
      rw [List.length_append] at hroom ⊢
      have hcur := h.cur_le
      have hav := avail_of_le hcur
      have hread := run_decodeElement_some (s := s) hslot
        (content_of_ahead h hfit hahead (by omega))
      have hseek : (xc.seek (xc.cur + (framed ie (c ie)).length)).Sound :=
        sound_seek h (by omega)
      have havail := avail_of_le hseek.cur_le
      rw [Attempt.run_bind_of_ok hread]
      simp only
      rw [decodeElements_of_ahead hseek hfits hskip (ahead_seek hahead)
        (by rw [havail]; simp only [seek]; omega)]
      simp only [seek, Nat.add_assoc]

/-! ## Where all that is written is read -/

/-- Nothing on the wire is left out: the structure read has every element with a width, the one
written every element of variable width. -/
structure Covers (wt : WireTemplate) (st' st : StructTemplate) : Prop where
  read : ∀ ie ∈ wt.ies, st.slot ie = none → ie.len = 0
  written : ∀ ie ∈ wt.ies, st'.slot ie = none → ie.len ≠ kVarlen

theorem fits_contentOf (h : Permitted st s ie) : Fits ie (contentOf st s ie) := by
  rw [Permitted] at h
  rw [contentOf]
  cases hslot : st.slot ie with
  | none =>
    rw [hslot] at h
    exact ⟨by rwa [List.length_replicate], fun _ => List.length_replicate⟩
  | some slot =>
    rw [hslot] at h
    exact fits_xcode h

theorem elementBytes_eq (hv : st.slot ie = none → ie.len ≠ kVarlen) :
    elementBytes st s ie = framed ie (contentOf st s ie) := by
  rw [elementBytes, contentOf]
  cases hslot : st.slot ie with
  | none => rw [framed, lengthBytes, if_neg (hv hslot), List.nil_append]
  | some slot => exact wire_eq_framed ie _

theorem framed_nil {c : List UInt8} (h : Fits ie c) (hlen : ie.len = 0) : framed ie c = [] := by
  have hv : ie.len ≠ kVarlen := by
    rw [hlen]
    decide
  have hc := h.width hv
  rw [hlen] at hc
  rw [framed, lengthBytes, if_neg hv, List.nil_append]
  exact List.length_eq_zero_iff.1 hc

/-- What the elements take at the least. -/
def minLen (ies : List InfoElement) : ℕ :=
  (ies.map fun ie => if ie.len = kVarlen then 1 else ie.len.toNat).sum

theorem after_minlen (domain : UInt32) (tid : UInt16) (ops : List Op) :
    (after domain tid ops).minlen = minLen (after domain tid ops).ies := by
  refine after_keeps (P := fun wt => wt.minlen = minLen wt.ies) (fun wt ie h => ?_) (fun _ => rfl)
    (fun _ h => h) rfl
  rw [push]
  simp only [h, minLen, List.map_append, List.sum_append, List.map_cons, List.map_nil,
    List.sum_cons, List.sum_nil, Nat.add_zero]

theorem minLen_le : ∀ {ies : List InfoElement},
    minLen ies ≤ (ies.flatMap (elementBytes st s)).length
  | [] => Nat.zero_le _
  | ie :: ies => by
    have hies : minLen ies ≤ (ies.flatMap (elementBytes st s)).length := minLen_le
    have hie : (if ie.len = kVarlen then 1 else ie.len.toNat) ≤ (elementBytes st s ie).length := by
      rw [elementBytes]
      cases st.slot ie with
      | none =>
        rw [List.length_replicate]
        split_ifs with hv
        · rw [hv]
          decide
        · exact Nat.le_refl _
      | some slot =>
        dsimp only
        split_ifs with hv
        · rw [length_wire_varlen hv]
          split_ifs <;> omega
        · rw [length_wire_fixed hv]
    rw [List.flatMap_cons, List.length_append, minLen, List.map_cons, List.sum_cons]
    exact Nat.add_le_add hie hies

theorem Encoded.spec {ss : List Struct} {ends : List ℕ} (he : wt.Encoded st xc ss ends t)
    (h : xc.Sound) : t.Sound ∧ t.max = xc.max ∧
      t.written = xc.written ++ ss.flatMap (wt.recordBytes st) := by
  induction he with
  | nil xc => exact ⟨h, rfl, (List.append_nil _).symm⟩
  | cons hrun _ ih =>
    obtain ⟨-, -, -, hroom, rfl⟩ := of_run_encode h hrun
    have hcheck : (checkpoint _).Sound := ⟨h.cur_le, h.max_le⟩
    obtain ⟨hsound, hmax, hwritten⟩ := ih (hcheck.put hroom)
    refine ⟨hsound, hmax, ?_⟩
    rw [hwritten, written_put hcheck, List.flatMap_cons, List.append_assoc]
    rfl

theorem filled_fill (hst : st.Apart) (s₀ : Struct) :
    wt.Filled st' st s (fill st (contentOf st' s) wt.ies s₀) := by
  intro f hf a ie b hies hkey hlast
  rw [hies]
  exact fill_last hst (slot_of_mem hst hf hkey) hlast

/-- One record, from where it starts. -/
theorem run_decode {rest : List UInt8} (s₀ : Struct) (hactive : wt.active = true)
    (hmin : wt.minlen = minLen wt.ies) (hcovers : wt.Covers st' st)
    (hp : ∀ ie ∈ wt.ies, Permitted st' s ie) (h : xc.Sound)
    (hahead : xc.ahead = wt.recordBytes st' s ++ rest)
    (hroom : (wt.recordBytes st' s).length ≤ xc.avail) :
    (wt.decode st s₀).run xc = (.ok (some (fill st (contentOf st' s) wt.ies s₀)),
      xc.checkpoint.seek (xc.cur + (wt.recordBytes st' s).length)) := by
  have hbytes : wt.recordBytes st' s = wt.ies.flatMap fun ie => framed ie (contentOf st' s ie) := by
    rw [recordBytes, List.flatMap_congr fun ie hie => elementBytes_eq (hcovers.written ie hie)]
  have hle : wt.minlen ≤ xc.avail := hmin.trans_le (minLen_le.trans hroom)
  have hfits : ∀ ie ∈ wt.ies, Fits ie (contentOf st' s ie) := fun ie hie =>
    fits_contentOf (hp ie hie)
  have hskip : ∀ ie ∈ wt.ies, st.slot ie = none → framed ie (contentOf st' s ie) = [] :=
    fun ie hie hslot => framed_nil (hfits ie hie) (hcovers.read ie hie hslot)
  have hcheck : xc.checkpoint.Sound := ⟨h.cur_le, h.max_le⟩
  rw [hbytes] at hahead hroom ⊢
  rw [decode, hactive, if_neg (by simp), Attempt.run_get_bind, if_neg (Nat.not_lt.2 hle),
    Attempt.run_modify_bind,
    Attempt.run_bind_of_ok (decodeElements_of_ahead hcheck hfits hskip hahead hroom)]
  rfl

/-- What was written from a place on is ahead there. -/
theorem ahead_of_written {a b : List UInt8} (hw : t.written = a ++ b) (hbuf : xc.buf = t.buf)
    (hcur : xc.cur = a.length) : xc.ahead = b ++ t.buf.drop t.cur := by
  have hsplit : t.buf = a ++ (b ++ t.buf.drop t.cur) := by
    rw [← List.append_assoc, ← hw]
    exact (List.take_append_drop _ _).symm
  rw [ahead, hbuf, hcur]
  conv_lhs => rw [hsplit]
  exact List.drop_left

theorem aligned_of_covers (hst : st.Apart) (hmin : wt.minlen = minLen wt.ies)
    (hcovers : wt.Covers st' st) : wt.Aligned st' st := by
  intro xc ss ends t h he
  suffices hread : ∀ xc' : Transcoder, xc'.buf = t.buf → xc'.max = t.max → xc'.cur = xc.cur →
      ∀ s₀, wt.ReadsBack st' st ss ends xc' s₀ from hread _ rfl rfl rfl
  induction he with
  | nil xc => exact fun _ _ _ _ _ => trivial
  | @cons xc y u s ss ends hrun he ih =>
    intro xc' hbuf hmax hcur s₀
    obtain ⟨hsound, humax, hwritten⟩ := (Encoded.cons hrun he).spec h
    obtain ⟨hactive, -, hp, hroom, rfl⟩ := of_run_encode h hrun
    have hcheck : xc.checkpoint.Sound := ⟨h.cur_le, h.max_le⟩
    have hxc' : xc'.Sound := by
      refine ⟨?_, ?_⟩
      · rw [hcur, hmax, humax]
        exact h.cur_le
      · rw [hmax, hbuf]
        exact hsound.max_le
    have havail : xc'.avail = xc.avail := by
      rw [avail_of_le hxc'.cur_le, avail_of_le h.cur_le, hmax, hcur, humax]
    rw [List.flatMap_cons] at hwritten
    have hahead := ahead_of_written hwritten hbuf (hcur.trans h.length_written.symm)
    rw [List.append_assoc] at hahead
    have hdecode := run_decode s₀ hactive hmin hcovers hp hxc' hahead (by rwa [havail])
    refine ⟨_, _, hdecode, ?_, filled_fill hst s₀, ?_⟩
    · simp only [seek, hcur]
      rfl
    · refine ih (hcheck.put hroom)
        (xc'.checkpoint.seek (xc'.cur + (wt.recordBytes st' s).length)) hbuf hmax ?_ _
      simp only [seek, hcur]
      rfl

end WireTemplate

end DStreamon.Ipfix
