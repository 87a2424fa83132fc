import DStreamon.Proofs.Records

/-!
# A reader that falls behind

In a record whose contents are all zeros a reader that has fallen behind never catches up: whatever
length it takes the bytes for that it has still before it, they end before the element that it is
at.  So the alignment of every record is lost with the first element that is left out.
-/

namespace DStreamon.Ipfix

open Transcoder

/-! ## Lengths read from anywhere -/

/-- The length that stands at the start of `bs`, and in how many bytes. -/
def lengthAt : List UInt8 → Option (ℕ × ℕ)
  | [] => none
  | b :: bs =>
    if b = 255 then
      match bs with
      | hi :: lo :: _ => some (hi.toNat * 256 + lo.toNat, 3)
      | _ => none
    else some (b.toNat, 1)

/-- Zeros, or as many as a length in front of them says. -/
inductive ZeroBytes : List UInt8 → Prop
  | zeros (n : ℕ) : ZeroBytes (List.replicate n 0)
  | framed {n : ℕ} : n < 2 ^ 16 → ZeroBytes (encodeVarlenLength n ++ List.replicate n 0)

/-- The end of such elements. -/
def Tame (v : List UInt8) : Prop :=
  ∃ us : List (List UInt8), (∀ u ∈ us, ZeroBytes u) ∧ v <:+ us.flatten

theorem lengthAt_zeros {n : ℕ} (hn : 0 < n) (r : List UInt8) :
    lengthAt (List.replicate n 0 ++ r) = some (0, 1) := by
  obtain ⟨m, rfl⟩ : ∃ m, n = m + 1 := ⟨n - 1, by omega⟩
  rfl

theorem lengthAt_cons {b : UInt8} (hb : b ≠ 255) (bs : List UInt8) :
    lengthAt (b :: bs) = some (b.toNat, 1) := if_neg hb

theorem lengthAt_long (hi lo : UInt8) (bs : List UInt8) :
    lengthAt (255 :: hi :: lo :: bs) = some (hi.toNat * 256 + lo.toNat, 3) := rfl

section Within

variable {a v r : List UInt8} {m n k : ℕ}

theorem lengthAt_within_zeros (hm : List.replicate m 0 = a ++ v) (hv : v ≠ [])
    (h : lengthAt (v ++ r) = some (n, k)) : k + n ≤ v.length := by
  have hzeros : v = List.replicate v.length 0 := List.eq_replicate_of_mem fun b hb =>
    List.eq_of_mem_replicate (n := m) (by rw [hm]; exact List.mem_append_right a hb)
  have hpos := List.length_pos_iff.2 hv
  rw [hzeros, lengthAt_zeros hpos] at h
  cases h
  exact hpos

/-- Inside a short length and its content. -/
theorem lengthAt_within_short (hm : m < 255) (hu : UInt8.ofNat m :: List.replicate m 0 = a ++ v)
    (hv : v ≠ []) (h : lengthAt (v ++ r) = some (n, k)) : k + n ≤ v.length := by
  cases a with
  | nil =>
    have hm' : (UInt8.ofNat m).toNat = m := UInt8.toNat_ofNat_of_lt' (hm.trans (by decide))
    have hne : UInt8.ofNat m ≠ 255 := fun heq => by
      rw [heq] at hm'
      change 255 = m at hm'
      omega
    rw [List.nil_append] at hu
    rw [← hu, List.cons_append, lengthAt_cons hne] at h
    cases h
    rw [← hu, List.length_cons, List.length_replicate, hm']
    omega
  | cons b a => exact lengthAt_within_zeros (List.cons.inj hu).2 hv h

/-- Inside a long length and its content, of which there is more than the bytes of the length
say. -/
theorem lengthAt_within_long {hi lo : UInt8} (hm : m = hi.toNat * 256 + lo.toNat) (hlong : 255 ≤ m)
    (hu : 255 :: hi :: lo :: List.replicate m 0 = a ++ v) (hv : v ≠ [])
    (h : lengthAt (v ++ r) = some (n, k)) : k + n ≤ v.length := by
  have hhi := hi.toNat_lt
  have hlo := lo.toNat_lt
  have hmax : (255 : UInt8).toNat = 255 := rfl
  obtain ⟨j, rfl⟩ : ∃ j, m = j + 2 := ⟨m - 2, by omega⟩
  match a, hu with
  | [], hu =>
    rw [List.nil_append] at hu
    rw [← hu, List.cons_append, List.cons_append, List.cons_append, lengthAt_long] at h
    cases h
    rw [← hu]
    simp only [List.length_cons, List.length_replicate]
    omega
  | [_], hu =>
    obtain ⟨-, rfl⟩ := List.cons.inj hu
    by_cases h255 : hi = 255
    · subst h255
      simp only [List.replicate_succ, List.cons_append] at h
      rw [lengthAt_long] at h
      cases h
      rw [hmax] at hm
      simp only [List.length_cons, List.length_replicate, UInt8.toNat_zero]
      omega
    · rw [List.cons_append, lengthAt_cons h255] at h
      cases h
      simp only [List.length_cons, List.length_replicate]
      omega
  | [_, _], hu =>
    obtain ⟨-, rfl⟩ := List.cons.inj (List.cons.inj hu).2
    by_cases h255 : lo = 255
    · subst h255
      simp only [List.replicate_succ, List.cons_append] at h
      simp only [lengthAt_long, Option.some.injEq, Prod.mk.injEq, UInt8.toNat_zero] at h
      obtain ⟨rfl, rfl⟩ := h
      rw [hmax] at hm
      simp only [List.length_cons, List.length_replicate]
      omega
    · rw [List.cons_append, lengthAt_cons h255] at h
      cases h
      simp only [List.length_cons, List.length_replicate]
      omega
  | _ :: _ :: _ :: _, hu =>
    exact lengthAt_within_zeros (List.cons.inj (List.cons.inj (List.cons.inj hu).2).2).2 hv h

end Within

/-- A length read within such an element does not reach beyond it. -/
theorem ZeroBytes.lengthAt_le {u a v r : List UInt8} {n k : ℕ} (hu : ZeroBytes u) (huv : u = a ++ v)
    (hv : v ≠ []) (h : lengthAt (v ++ r) = some (n, k)) : k + n ≤ v.length := by
  cases hu with
  | zeros m => exact lengthAt_within_zeros huv hv h
  | @framed m hm =>
    rw [encodeVarlenLength] at huv
    split_ifs at huv with hshort
    · exact lengthAt_within_short hshort huv hv h
    · refine lengthAt_within_long ?_ (Nat.not_lt.1 hshort) huv hv h
      rw [UInt8.toNat_ofNat', UInt8.toNat_ofNat']
      omega

theorem tame_nil : Tame [] := ⟨[], by simp, List.suffix_refl _⟩

theorem Tame.append {v u : List UInt8} (h : Tame v) (hu : ZeroBytes u) : Tame (v ++ u) := by
  obtain ⟨us, hus, a, ha⟩ := h
  refine ⟨us ++ [u], fun w hw => ?_, a, ?_⟩
  · obtain hw | hw := List.mem_append.1 hw
    · exact hus w hw
    · rw [List.mem_singleton.1 hw]
      exact hu
  · rw [← List.append_assoc, ha, List.flatten_append, List.flatten_singleton]

theorem Tame.drop {v : List UInt8} (h : Tame v) (n : ℕ) : Tame (v.drop n) := by
  obtain ⟨us, hus, hv⟩ := h
  exact ⟨us, hus, (List.drop_suffix n v).trans hv⟩

/-- Nor beyond the end of several. -/
theorem Tame.lengthAt_le {v r : List UInt8} {n k : ℕ} (h : Tame v) (hv : v ≠ [])
    (hlen : lengthAt (v ++ r) = some (n, k)) : k + n ≤ v.length := by
  obtain ⟨us, hus, a, ha⟩ := h
  induction us generalizing a with
  | nil => exact absurd (List.append_eq_nil_iff.1 ha).2 hv
  | cons u us ih =>
    obtain ⟨hu, hus'⟩ := List.forall_mem_cons.1 hus
    rw [List.flatten_cons] at ha
    obtain ⟨c, rfl, hc⟩ | ⟨c, rfl, hc⟩ := List.append_eq_append_iff.1 ha
    · cases c with
      | nil => exact ih hus' [] (by rw [List.nil_append] at hc ⊢; exact hc)
      | cons b c =>
        rw [hc, List.append_assoc] at hlen
        have hle := hu.lengthAt_le rfl (List.cons_ne_nil b c) hlen
        rw [hc, List.length_append]
        omega
    · exact ih hus' c hc.symm

/-! ## How far a reader goes -/

section Reader

variable {xc t : Transcoder} {ie : InfoElement}

theorem of_run_next {b : UInt8} (h : next.run xc = (.ok b, t)) :
    (∃ rest, xc.ahead = b :: rest) ∧ t = xc.seek (xc.cur + 1) := by
  rw [next, Attempt.run_get_bind] at h
  cases hb : xc.buf[xc.cur]? with
  | none =>
    rw [hb] at h
    cases h
  | some b' =>
    rw [hb] at h
    cases h
    exact ⟨⟨_, Bytes.drop_of_getElem? hb⟩, rfl⟩

theorem ahead_seek_add (n : ℕ) : (xc.seek (xc.cur + n)).ahead = xc.ahead.drop n :=
  List.drop_drop.symm

theorem of_run_decodeVarlenLength {n : ℕ} (h : decodeVarlenLength.run xc = (.ok n, t)) :
    ∃ k, lengthAt xc.ahead = some (n, k) ∧ t = xc.seek (xc.cur + k) := by
  rw [decodeVarlenLength] at h
  obtain ⟨b, t₁, hb, h⟩ := Attempt.ok_of_bind h
  obtain ⟨⟨rest, hrest⟩, rfl⟩ := of_run_next hb
  split_ifs at h with h255
  · obtain ⟨hi, t₂, hhi, h⟩ := Attempt.ok_of_bind h
    obtain ⟨lo, t₃, hlo, h⟩ := Attempt.ok_of_bind h
    obtain ⟨⟨rest₁, hrest₁⟩, rfl⟩ := of_run_next hhi
    obtain ⟨⟨rest₂, hrest₂⟩, rfl⟩ := of_run_next hlo
    rw [ahead_seek_add, hrest] at hrest₁
    change rest = _ at hrest₁
    change (xc.seek (xc.cur + 2)).ahead = _ at hrest₂
    rw [ahead_seek_add, hrest, hrest₁] at hrest₂
    change rest₁ = _ at hrest₂
    cases h
    exact ⟨3, by rw [hrest, h255, hrest₁, hrest₂, lengthAt_long], rfl⟩
  · cases h
    exact ⟨1, by rw [hrest, lengthAt_cons h255], rfl⟩

theorem of_run_contentBytes {n : ℕ} {c : List UInt8}
    (h : (contentBytes ie n).run xc = (.ok (some c), t)) : t = xc.seek (xc.cur + n) := by
  rw [contentBytes, Attempt.run_get_bind] at h
  split_ifs at h
  · cases h
  · cases h
  · cases h
  · cases h
    rfl

/-- What reading a field takes. -/
theorem of_run_content {c : List UInt8} (h : (content ie).run xc = (.ok (some c), t)) :
    ∃ n k, (if ie.len = kVarlen then lengthAt xc.ahead = some (n, k)
      else n = ie.len.toNat ∧ k = 0) ∧ t = xc.seek (xc.cur + (k + n)) := by
  rw [content] at h
  split_ifs at h with hv
  · obtain ⟨n, u, hlen, h⟩ := Attempt.ok_of_bind h
    obtain ⟨k, hk, rfl⟩ := of_run_decodeVarlenLength hlen
    refine ⟨n, k, by rwa [if_pos hv], ?_⟩
    rw [of_run_contentBytes h]
    simp only [seek, Nat.add_assoc]
  · refine ⟨ie.len.toNat, 0, by rw [if_neg hv]; exact ⟨rfl, rfl⟩, ?_⟩
    rw [of_run_contentBytes h, Nat.zero_add]

theorem of_run_decodeElement_some {st : StructTemplate} {s out : Struct} {slot : ℕ × ℕ}
    (hslot : st.slot ie = some slot)
    (h : (WireTemplate.decodeElement st ie s).run xc = (.ok (some out), t)) :
    ∃ c, (content ie).run xc = (.ok (some c), t) := by
  rw [WireTemplate.decodeElement, hslot] at h
  obtain ⟨field, u, hfield, h⟩ := Attempt.ok_of_bind h
  rw [Attempt.run_pure] at h
  obtain ⟨hsome, rfl⟩ := Prod.mk.inj h
  rw [WireTemplate.decodeField] at hfield
  split_ifs at hfield
  · cases field with
    | none => cases hsome
    | some c => exact ⟨c, hfield⟩
  · rw [decode] at hfield
    obtain ⟨field', u', hcontent, hfield⟩ := Attempt.ok_of_bind hfield
    cases hfield
    cases field' with
    | none => cases hsome
    | some c => exact ⟨c, hcontent⟩

end Reader

/-! ## Records of zeros -/

namespace WireTemplate

variable {wt : WireTemplate} {st st' : StructTemplate} {s : Struct} {ie : InfoElement}
  {xc t : Transcoder}

/-- The structure with zeros in all its fields. -/
def zeroed (s : Struct) : Struct := fun off => List.replicate (s off).length 0

theorem rawLeft_zeros (m d : ℕ) : rawLeft (List.replicate m 0) d = List.replicate d 0 := by
  rw [rawLeft, List.take_replicate, List.length_replicate, List.replicate_append_replicate]
  congr 1
  omega

theorem fieldOf_zeroed (s : Struct) (slot : ℕ × ℕ) :
    fieldOf (zeroed s) slot = List.replicate (fieldOf s slot).length 0 := by
  rw [fieldOf, fieldOf, zeroed]
  split_ifs
  · rfl
  · rw [rawLeft_zeros, length_rawLeft]

theorem contentLen_zeros (ie : InfoElement) (val : List UInt8) :
    contentLen ie (List.replicate val.length 0) = contentLen ie val := by
  rw [contentLen, contentLen, List.length_replicate]

theorem xcode_zeros (iet : IEType) (m d : ℕ) :
    xcode iet (List.replicate m 0) d = List.replicate d 0 := by
  rw [xcode, rawLeft_zeros, List.reverse_replicate, ite_self]

theorem permitted_zeroed (h : Permitted st s ie) : Permitted st (zeroed s) ie := by
  rw [Permitted] at h ⊢
  cases hslot : st.slot ie with
  | none =>
    rw [hslot] at h
    exact h
  | some slot =>
    rw [hslot] at h
    simp only [fieldOf_zeroed, contentLen_zeros]
    exact h

theorem length_elementBytes_zeroed (st : StructTemplate) (s : Struct) (ie : InfoElement) :
    (elementBytes st (zeroed s) ie).length = (elementBytes st s ie).length := by
  rw [elementBytes, elementBytes]
  cases st.slot ie with
  | none => rfl
  | some slot =>
    simp only [wire, fieldOf_zeroed, contentLen_zeros, List.length_append, length_xcode]

theorem zeroBytes_element (h : Permitted st s ie) : ZeroBytes (elementBytes st (zeroed s) ie) := by
  rw [Permitted] at h
  rw [elementBytes]
  cases hslot : st.slot ie with
  | none => exact .zeros _
  | some slot =>
    rw [hslot] at h
    simp only [wire, fieldOf_zeroed, contentLen_zeros, xcode_zeros, lengthBytes]
    split_ifs with hv
    · exact .framed (IEType.lt_of_permitsLength h)
    · exact .zeros _

theorem length_elementBytes (hv : ie.len ≠ kVarlen) :
    (elementBytes st s ie).length = ie.len.toNat := by
  rw [elementBytes]
  cases st.slot ie with
  | none => exact List.length_replicate
  | some slot => exact length_wire_fixed hv

theorem elementBytes_ne_nil (hv : ie.len = kVarlen) : elementBytes st s ie ≠ [] := by
  rw [elementBytes]
  cases st.slot ie with
  | none =>
    rw [hv]
    exact List.cons_ne_nil _ _
  | some slot =>
    rw [← List.length_pos_iff, length_wire_varlen hv]
    split_ifs <;> omega

/-- How far a reader is behind after an element: `v` before it and `v'` after it. -/
structure Behind (st' st : StructTemplate) (ies : List InfoElement) (v v' : List UInt8) : Prop where
  tame : Tame v'
  caught : v' = [] → v = [] ∧ (∀ ie ∈ ies, st.slot ie = none → ie.len = 0) ∧
    ∀ ie ∈ ies, st'.slot ie = none → ie.len ≠ kVarlen

/-- A read of an element stays before its end, and behind if it was. -/
theorem read_le {v rest : List UInt8} {n k : ℕ} (hv : Tame v) (hp : Permitted st' s ie)
    (hahead : xc.ahead = v ++ (elementBytes st' (zeroed s) ie ++ rest))
    (hlen : if ie.len = kVarlen then lengthAt xc.ahead = some (n, k)
      else n = ie.len.toNat ∧ k = 0) :
    k + n ≤ v.length + (elementBytes st' (zeroed s) ie).length ∧
      (v ≠ [] → k + n < v.length + (elementBytes st' (zeroed s) ie).length) ∧
      (st'.slot ie = none → ie.len = kVarlen →
        k + n < v.length + (elementBytes st' (zeroed s) ie).length) := by
  by_cases hvar : ie.len = kVarlen
  · rw [if_pos hvar, hahead] at hlen
    have hne : elementBytes st' (zeroed s) ie ≠ [] := elementBytes_ne_nil hvar
    have hpos := List.length_pos_iff.2 hne
    have hlag : v ≠ [] → k + n < v.length + (elementBytes st' (zeroed s) ie).length :=
      fun hvne => Nat.lt_add_right_iff_pos.2 hpos |>.trans_le' (hv.lengthAt_le hvne hlen)
    refine ⟨?_, hlag, fun hnone _ => ?_⟩
    · have hle := (hv.append (zeroBytes_element hp)).lengthAt_le (r := rest) (n := n) (k := k)
        (fun h => hne (List.append_eq_nil_iff.1 h).2) (by rwa [List.append_assoc])
      rwa [List.length_append] at hle
    · by_cases hvnil : v = []
      · have heb : elementBytes st' (zeroed s) ie = List.replicate 65535 0 := by
          rw [elementBytes, hnone, hvar]
          rfl
        rw [hvnil, heb, List.nil_append, lengthAt_zeros (by decide)] at hlen
        cases hlen
        rw [heb, List.length_replicate]
        omega
      · exact hlag hvnil
  · rw [if_neg hvar] at hlen
    obtain ⟨rfl, rfl⟩ := hlen
    rw [length_elementBytes hvar]
    refine ⟨by omega, fun hvne => ?_, fun _ h => absurd h hvar⟩
    have := List.length_pos_iff.2 hvne
    omega

theorem decodeElement_behind {v rest : List UInt8} {s₀ out : Struct} (hv : Tame v)
    (hp : Permitted st' s ie)
    (hahead : xc.ahead = v ++ (elementBytes st' (zeroed s) ie ++ rest))
    (hrun : (decodeElement st ie s₀).run xc = (.ok (some out), t)) :
    ∃ v', Behind st' st [ie] v v' ∧ t.ahead = v' ++ rest ∧
      t.cur + v'.length = xc.cur + v.length + (elementBytes st' (zeroed s) ie).length := by
  have htame := hv.append (zeroBytes_element hp)
  rw [← List.append_assoc] at hahead
  cases hslot : st.slot ie with
  | none =>
    have ht : t = xc := by
      rw [decodeElement, hslot] at hrun
      cases hrun
      rfl
    subst ht
    refine ⟨_, ⟨htame, fun hnil => ?_⟩, hahead, by rw [List.length_append]; omega⟩
    obtain ⟨hv, heb⟩ := List.append_eq_nil_iff.1 hnil
    have hne : ie.len ≠ kVarlen := fun hlen => elementBytes_ne_nil hlen heb
    have hlen : (elementBytes st' (zeroed s) ie).length = _ := length_elementBytes hne
    rw [heb] at hlen
    refine ⟨hv, by simpa using fun _ => UInt16.toNat_inj.1 hlen.symm, by simpa using fun _ => hne⟩
  | some slot =>
    obtain ⟨c, hcontent⟩ := of_run_decodeElement_some hslot hrun
    obtain ⟨n, k, hlen, rfl⟩ := of_run_content hcontent
    have hle := read_le hv hp (by rw [hahead, List.append_assoc]) hlen
    rw [← List.length_append] at hle
    obtain ⟨hle, hlag, hzero⟩ := hle
    refine ⟨_, ⟨htame.drop (k + n), fun hnil => ?_⟩, ?_, ?_⟩
    · have hfull := List.drop_eq_nil_iff.1 hnil
      refine ⟨?_, by simp [hslot], ?_⟩
      · by_contra hne
        exact absurd (hlag hne) (Nat.not_lt.2 hfull)
      · simp only [List.mem_singleton, forall_eq]
        exact fun hnone hvar => absurd (hzero hnone hvar) (Nat.not_lt.2 hfull)
    · rw [ahead_seek_add, hahead, List.drop_append_of_le_length hle]
    · rw [List.length_drop, List.length_append] at *
      simp only [seek]
      omega

theorem decodeElements_behind {rest : List UInt8} :
    ∀ {ies : List InfoElement} {xc t : Transcoder} {v : List UInt8} {s₀ out : Struct}, Tame v →
      (∀ ie ∈ ies, Permitted st' s ie) →
      xc.ahead = v ++ (ies.flatMap (elementBytes st' (zeroed s)) ++ rest) →
      (decodeElements st ies s₀).run xc = (.ok (some out), t) →
      ∃ v', Behind st' st ies v v' ∧
        t.cur + v'.length =
          xc.cur + v.length + (ies.flatMap (elementBytes st' (zeroed s))).length
  | [], xc, t, v, s₀, out, hv, _, _, hrun => by
    cases hrun
    exact ⟨v, ⟨hv, by simp⟩, rfl⟩
  | ie :: ies, xc, t, v, s₀, out, hv, hp, hahead, hrun => by
    obtain ⟨hie, hies⟩ := List.forall_mem_cons.1 hp
    rw [List.flatMap_cons, List.append_assoc] at hahead
    rw [decodeElements] at hrun
    obtain ⟨o, u, hu, hrun⟩ := Attempt.ok_of_bind hrun
    cases o with
    | none => cases hrun
    | some s₁ =>
      obtain ⟨v₁, hfirst, hahead₁, hcur₁⟩ := decodeElement_behind hv hie hahead hu
      obtain ⟨v', hothers, hcur⟩ := decodeElements_behind hfirst.tame hies hahead₁ hrun
      refine ⟨v', ⟨hothers.tame, fun hnil => ?_⟩, ?_⟩
      · obtain ⟨hv₁, hread, hwritten⟩ := hothers.caught hnil
        obtain ⟨hv, hread₁, hwritten₁⟩ := hfirst.caught hv₁
        exact ⟨hv, List.forall_mem_cons.2 ⟨hread₁ ie (List.mem_singleton_self ie), hread⟩,
          List.forall_mem_cons.2 ⟨hwritten₁ ie (List.mem_singleton_self ie), hwritten⟩⟩
      · rw [List.flatMap_cons, List.length_append]
        omega

/-- A structure's record can be written from `xc`. -/
def Writable (wt : WireTemplate) (st : StructTemplate) : Prop :=
  ∃ xc s t, xc.Sound ∧ (wt.encode st s).run xc = (.ok true, t)

/-- Then one of zeros can. -/
theorem run_encode_zeroed (h : xc.Sound) (hrun : (wt.encode st s).run xc = (.ok true, t)) :
    (wt.encode st (zeroed s)).run xc =
      (.ok true, xc.checkpoint.put (wt.recordBytes st (zeroed s))) := by
  obtain ⟨hactive, hmin, hp, hroom, -⟩ := of_run_encode h hrun
  have hlen : (wt.ies.flatMap (elementBytes st (zeroed s))).length =
      (wt.ies.flatMap (elementBytes st s)).length := by
    rw [List.length_flatMap, List.length_flatMap]
    simp only [length_elementBytes_zeroed]
  have hcheck : xc.checkpoint.Sound := ⟨h.cur_le, h.max_le⟩
  have hwrites := writes_encodeElements (fun ie hie => permitted_zeroed (hp ie hie)) xc.checkpoint
    hcheck (by rw [hlen]; exact hroom)
  rw [encode, hactive, if_neg (by simp), Attempt.run_get_bind, if_neg (Nat.not_lt.2 hmin),
    Attempt.run_modify_bind, Attempt.run_bind_of_ok hwrites, if_pos rfl]
  rfl

theorem of_run_decode {s₀ out : Struct} (h : (wt.decode st s₀).run xc = (.ok (some out), t)) :
    (decodeElements st wt.ies s₀).run xc.checkpoint = (.ok (some out), t) := by
  rw [decode] at h
  split_ifs at h
  · cases h
  rw [Attempt.run_get_bind] at h
  split_ifs at h
  · cases h
  rw [Attempt.run_modify_bind] at h
  obtain ⟨o, u, hu, h⟩ := Attempt.ok_of_bind h
  cases o with
  | none => cases h
  | some s₁ =>
    cases h
    exact hu

theorem covers_of_aligned (hwrite : wt.Writable st') (h : wt.Aligned st' st) :
    wt.Covers st' st := by
  obtain ⟨xc, s, t, hsound, hrun⟩ := hwrite
  obtain ⟨-, -, hp, -, -⟩ := of_run_encode hsound hrun
  have hzero := run_encode_zeroed hsound hrun
  have hencoded := Encoded.cons hzero (.nil _)
  obtain ⟨-, -, hwritten⟩ := hencoded.spec hsound
  obtain ⟨out, u, hdecode, hend, -, -⟩ := h xc _ _ _ hsound hencoded (fun _ => [])
  have hahead : (checkpoint ((xc.checkpoint.put (wt.recordBytes st' (zeroed s))).seek
      xc.cur)).ahead = _ := ahead_of_written hwritten rfl hsound.length_written.symm
  rw [List.flatMap_cons, List.flatMap_nil, List.append_nil] at hahead
  obtain ⟨v', hbehind, hcur⟩ := decodeElements_behind tame_nil hp
    (by rw [List.nil_append]; exact hahead) (of_run_decode hdecode)
  have hnil : v' = [] := by
    rw [hend] at hcur
    simp only [put_cur, checkpoint, seek, recordBytes, List.length_nil] at hcur
    exact List.length_eq_zero_iff.1 (by omega)
  obtain ⟨-, hread, hvar⟩ := hbehind.caught hnil
  exact ⟨hread, hvar⟩

/-- Without a record there is nothing to read back. -/
theorem aligned_of_not_writable (h : ¬ wt.Writable st') : wt.Aligned st' st := by
  intro xc ss ends t hsound he s₀
  cases he with
  | nil => trivial
  | cons hrun _ => exact absurd ⟨xc, _, _, hsound, hrun⟩ h

/-- Every record of a template is read back from one structure into another if nothing that is on
the wire is left out of them. -/
theorem records_aligned_iff (domain : UInt32) (tid : UInt16) (ops : List Op)
    {st' st : StructTemplate} (hst : st.Apart) : (after domain tid ops).Aligned st' st ↔
      ((after domain tid ops).Writable st' → (after domain tid ops).Covers st' st) := by
  constructor
  · exact fun h hwrite => covers_of_aligned hwrite h
  · intro h
    by_cases hwrite : (after domain tid ops).Writable st'
    · exact aligned_of_covers hst (after_minlen domain tid ops) (h hwrite)
    · exact aligned_of_not_writable hwrite

def packetDeltaCount : InfoElement := ⟨"packetDeltaCount", 0, 2, IEType.unsigned64, 8⟩

/-- The elements in the other order. -/
theorem records_aligned_two :
    (after 1 256 [.add octetDeltaCount, .add packetDeltaCount, .activate]).Aligned
      ⟨[(octetDeltaCount, 0), (packetDeltaCount, 8)]⟩
      ⟨[(packetDeltaCount, 0), (octetDeltaCount, 8)]⟩ :=
  (records_aligned_iff 1 256 [.add octetDeltaCount, .add packetDeltaCount, .activate]
    ⟨by decide, by decide⟩).2 fun _ => ⟨by decide, by decide⟩

/-- The first of two elements left out: the other is read from its bytes. -/
theorem not_records_aligned : ¬ ∀ (domain : UInt32) (tid : UInt16) (ops : List Op)
    (st' st : StructTemplate), st.Apart → (after domain tid ops).Aligned st' st := fun h => by
  have hwrite : (after 1 256 [.add octetDeltaCount, .add packetDeltaCount, .activate]).Writable
      ⟨[(octetDeltaCount, 0), (packetDeltaCount, 8)]⟩ :=
    ⟨⟨List.replicate 16 0, 0, none, 16, none, none, none⟩, fun _ => [], _,
      ⟨by decide, by decide⟩, rfl⟩
  have hcovers := covers_of_aligned hwrite
    (h 1 256 _ _ ⟨[(packetDeltaCount, 0)]⟩ ⟨by decide, by decide⟩)
  exact absurd (hcovers.read octetDeltaCount (by decide) (by decide)) (by decide)

end WireTemplate

end DStreamon.Ipfix
