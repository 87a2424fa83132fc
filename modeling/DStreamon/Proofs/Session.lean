import DStreamon.Lib.StepRun
import DStreamon.Proofs.Transcoder
import DStreamon.Session

/-!
# Template records and templates

A template record that is all there and knows all its elements makes an active template of what its
template held before, if that was not active, and of its own elements.  What an earlier record left
behind when it broke off is still in it.
-/

namespace DStreamon.Ipfix

open Transcoder

/-! ## What a record says -/

/-- The enterprise number at `i`, if the element has one, and what follows. -/
def penAt (mem : List UInt8) (i : ℕ) (ienum : UInt16) : Option (UInt32 × ℕ) :=
  if ienum &&& kEnterpriseBit ≠ 0 then (Bytes.be32 mem i).map fun pen => (pen, i + 4)
  else some (0, i)

/-- The element of the field at `i`, and where the next field is. -/
def fieldAt (model : InfoModel) (mem : List UInt8) (i : ℕ) : Option (InfoElement × ℕ) := do
  let ienum ← Bytes.be16 mem i
  let ielen ← Bytes.be16 mem (i + 2)
  let pen ← penAt mem (i + 4) ienum
  let ie ← model.lookupIE pen.1 ienum ielen
  some (ie, pen.2)

/-- The elements of `n` fields, and where the record ends. -/
def fieldsAt (model : InfoModel) (mem : List UInt8) : ℕ → ℕ → Option (List InfoElement × ℕ)
  | 0, i => some ([], i)
  | n + 1, i =>
    (fieldAt model mem i).bind fun f =>
      (fieldsAt model mem n f.2).map fun r => (f.1 :: r.1, r.2)

/-- A template ID and its elements, none of them for a withdrawal. -/
structure Definition where
  tid : UInt16
  ies : List InfoElement
deriving DecidableEq, Repr

/-- The record at `i`, if it is all there and its elements are known, and where the next one is. -/
def recordAt (model : InfoModel) (mem : List UInt8) (i : ℕ) : Option (Definition × ℕ) := do
  let tid ← Bytes.be16 mem i
  let iecount ← Bytes.be16 mem (i + 2)
  let fields ← fieldsAt model mem iecount.toNat (i + 4)
  some (⟨tid, fields.1⟩, fields.2)

namespace Session

variable {model : InfoModel} {xc t : Transcoder} {s : Session} {k : WireTemplateKey}
  {wt : WireTemplate}

/-- The cursor has gone on in the buffer. -/
def OnTo (xc : Transcoder) (n : ℕ) : Prop := xc.cur ≤ n ∧ n ≤ xc.max

theorem decodePen_cases (h : xc.Sound) (ienum : UInt16) :
    (∃ pen n, penAt xc.mem xc.cur ienum = some (pen, n) ∧ OnTo xc n ∧
      (decodePen ienum).run xc = (.ok (some pen), xc.seek n)) ∨
    penAt xc.mem xc.cur ienum = none ∧ (decodePen ienum).run xc = (.ok none, xc) := by
  rw [decodePen, penAt]
  split_ifs with hbit
  · obtain ⟨pen, hpen, hroom, hrun⟩ | ⟨hpen, hrun⟩ := decodeUint32_cases h
    · exact .inl ⟨pen, xc.cur + 4, by rw [hpen, Option.map_some], ⟨by omega, hroom⟩, hrun⟩
    · exact .inr ⟨by rw [hpen, Option.map_none], hrun⟩
  · exact .inl ⟨0, xc.cur, rfl, ⟨Nat.le_refl _, h.cur_le⟩, rfl⟩

/-- A field is read as it is, or its reading breaks off somewhere. -/
theorem decodeField_cases (model : InfoModel) (h : xc.Sound) :
    (∃ ie n, fieldAt model xc.mem xc.cur = some (ie, n) ∧ OnTo xc n ∧
      (decodeField model).run xc = (.ok (some ie), xc.seek n)) ∨
    fieldAt model xc.mem xc.cur = none ∧ ∃ r n, OnTo xc n ∧
      (decodeField model).run xc = (r, xc.seek n) ∧ ∀ ie, r ≠ .ok (some ie) := by
  have hcur := h.cur_le
  rw [decodeField, fieldAt]
  obtain ⟨ienum, hnum, hroom, hrun⟩ | ⟨hnum, -, hrun⟩ := decodeUint16_cases h
  swap
  · rw [Attempt.run_bind_of_ok hrun, hnum]
    exact .inr ⟨rfl, _, xc.cur, ⟨Nat.le_refl _, hcur⟩, rfl, by simp⟩
  have h₂ : (xc.seek (xc.cur + 2)).Sound := sound_seek h hroom
  rw [Attempt.run_bind_of_ok hrun, hnum]
  simp only [Option.bind_eq_bind, Option.bind_some]
  obtain ⟨ielen, hlen, hroom₂, hrun₂⟩ | ⟨hlen, -, hrun₂⟩ := decodeUint16_cases h₂
  · have hlen : Bytes.be16 xc.mem (xc.cur + 2) = some ielen := hlen
    have hrun₂ : decodeUint16.run (xc.seek (xc.cur + 2)) =
        (.ok (some ielen), xc.seek (xc.cur + 4)) := hrun₂
    have h₄ : (xc.seek (xc.cur + 4)).Sound := sound_seek h hroom₂
    rw [Attempt.run_bind_of_ok hrun₂, hlen]
    simp only [Option.bind_some]
    obtain ⟨pen, n, hpen, hn, hrun₄⟩ | ⟨hpen, hrun₄⟩ := decodePen_cases h₄ ienum
    · have hpen : penAt xc.mem (xc.cur + 4) ienum = some (pen, n) := hpen
      have hn : OnTo xc n := ⟨(Nat.le_add_right _ 4).trans hn.1, hn.2⟩
      rw [Attempt.run_bind_of_ok hrun₄, hpen]
      simp only [Option.bind_some]
      cases hie : model.lookupIE pen ienum ielen with
      | none => exact .inr ⟨rfl, _, n, hn, rfl, by simp⟩
      | some ie => exact .inl ⟨ie, n, rfl, hn, rfl⟩
    · have hpen : penAt xc.mem (xc.cur + 4) ienum = none := hpen
      rw [Attempt.run_bind_of_ok hrun₄, hpen]
      exact .inr ⟨rfl, _, xc.cur + 4, ⟨by omega, hroom₂⟩, rfl, by simp⟩
  · have hlen : Bytes.be16 xc.mem (xc.cur + 2) = none := hlen
    rw [Attempt.run_bind_of_ok hrun₂, hlen]
    exact .inr ⟨rfl, _, xc.cur + 2, ⟨by omega, hroom⟩, rfl, by simp⟩

/-! ## The templates kept -/

@[simp] theorem find_put_self (k : WireTemplateKey) (wt : WireTemplate) (s : Session) :
    (s.put k wt).find k = some wt := SortedAssoc.lookup_insert_self _

theorem find_put_of_ne {k' : WireTemplateKey} (h : k' ≠ k) (wt : WireTemplate) (s : Session) :
    (s.put k wt).find k' = s.find k' := SortedAssoc.lookup_insert_of_ne h _

theorem find_deleteTemplate_self (domain : UInt32) (tid : UInt16) (s : Session) :
    (s.deleteTemplate domain tid).find (domain, tid) = none := SortedAssoc.lookup_erase_self _

theorem find_deleteTemplate_of_ne {domain : UInt32} {tid : UInt16} {k' : WireTemplateKey}
    (h : k' ≠ (domain, tid)) (s : Session) : (s.deleteTemplate domain tid).find k' = s.find k' :=
  SortedAssoc.lookup_erase_of_ne h _

theorem run_onTemplate {x : Attempt Error WireTemplate Unit} (hk : s.find k = some wt) :
    (onTemplate k x).run s = ((x.run wt).1, s.put k (x.run wt).2) := by
  rw [onTemplate, Attempt.run_get_bind, hk]
  rfl

theorem run_add (hactive : wt.active = false) (ie : InfoElement) :
    (WireTemplate.add ie).run wt = (.ok (), wt.push ie) := by
  rw [WireTemplate.add, Attempt.run_get_bind, hactive]
  rfl

/-- Only the template of `k` is another one. -/
def SameBut (k : WireTemplateKey) (s s' : Session) : Prop := ∀ k', k' ≠ k → s'.find k' = s.find k'

theorem sameBut_refl (k : WireTemplateKey) (s : Session) : SameBut k s s := fun _ _ => rfl

theorem sameBut_put (k : WireTemplateKey) (wt : WireTemplate) (s : Session) :
    SameBut k s (s.put k wt) := fun _ h => find_put_of_ne h wt s

theorem SameBut.trans {s' s'' : Session} (h : SameBut k s s') (h' : SameBut k s' s'') :
    SameBut k s s'' := fun k' hk => (h' k' hk).trans (h k' hk)

/-- The template of `k`, which is not active, has the elements `ies`. -/
def Open (k : WireTemplateKey) (ies : List InfoElement) (s : Session) : Prop :=
  ∃ wt, s.find k = some wt ∧ wt.active = false ∧ wt.ies = ies

theorem open_put (hactive : wt.active = false) (s : Session) : Open k wt.ies (s.put k wt) :=
  ⟨wt, find_put_self k wt s, hactive, rfl⟩

/-- The fields are added one by one, up to the first that cannot be read. -/
theorem decodeFields_cases :
    ∀ {m : ℕ} {xc : Transcoder} {s : Session} {ies : List InfoElement}, xc.Sound → Open k ies s →
      ∃ s' n, OnTo xc n ∧ SameBut k s s' ∧
        ((∃ ies', fieldsAt model xc.mem m xc.cur = some (ies', n) ∧ Open k (ies ++ ies') s' ∧
          (decodeFields model k m).run (xc, s) = (.ok true, (xc.seek n, s'))) ∨
        fieldsAt model xc.mem m xc.cur = none ∧ (∃ ies', Open k ies' s') ∧
          ∃ r, (decodeFields model k m).run (xc, s) = (r, (xc.seek n, s')) ∧ r ≠ .ok true)
  | 0, xc, s, ies, h, hopen =>
    ⟨s, xc.cur, ⟨Nat.le_refl _, h.cur_le⟩, sameBut_refl k s,
      .inl ⟨[], rfl, by rwa [List.append_nil], rfl⟩⟩
  | m + 1, xc, s, ies, h, hopen => by
    obtain ⟨wt, hfind, hactive, rfl⟩ := hopen
    rw [decodeFields, fieldsAt]
    obtain ⟨ie, n, hfield, hn, hrun⟩ | ⟨hfield, r, n, hn, hrun, hr⟩ :=
      decodeField_cases model h
    · have hread : (reading (decodeField model)).run (xc, s) = (.ok (some ie), (xc.seek n, s)) := by
        rw [reading, Attempt.run_zoom, hrun]
      have hadd : (inSession (onTemplate k (WireTemplate.add ie))).run (xc.seek n, s) =
          (.ok (), (xc.seek n, s.put k (wt.push ie))) := by
        rw [inSession, Attempt.run_zoom, run_onTemplate hfind, run_add hactive]
      have hpush : (wt.push ie).active = false := hactive
      have hopen := open_put (k := k) hpush s
      obtain ⟨s', n', hn', hsame, hrest⟩ := decodeFields_cases (m := m) (sound_seek h hn.2) hopen
      rw [hfield, Attempt.run_bind_of_ok hread]
      simp only [Option.bind_some]
      rw [Attempt.run_bind_of_ok hadd]
      refine ⟨s', n', ⟨hn.1.trans hn'.1, hn'.2⟩, (sameBut_put k _ s).trans hsame, ?_⟩
      obtain ⟨ies', hfields, hopen, hrun⟩ | ⟨hfields, hopen, r, hrun, hr⟩ := hrest
      · refine .inl ⟨ie :: ies', ?_, ?_, hrun⟩
        · change fieldsAt model xc.mem m n = some (ies', n') at hfields
          rw [hfields, Option.map_some]
        · simpa [WireTemplate.push] using hopen
      · refine .inr ⟨?_, hopen, r, hrun, hr⟩
        change fieldsAt model xc.mem m n = none at hfields
        rw [hfields, Option.map_none]
    · rw [hfield]
      refine ⟨s, n, hn, sameBut_refl k s, .inr ⟨rfl, ⟨_, wt, hfind, hactive, rfl⟩, ?_⟩⟩
      have hread : (reading (decodeField model)).run (xc, s) = (r, (xc.seek n, s)) := by
        rw [reading, Attempt.run_zoom, hrun]
      match r, hr, hread with
      | .error e, _, hread => exact ⟨_, Attempt.run_bind_of_error hread, by simp⟩
      | .ok none, _, hread => exact ⟨_, Attempt.run_bind_of_ok hread, by simp⟩
      | .ok (some ie), hr, _ => exact absurd rfl (hr ie)

theorem length_fieldsAt {mem : List UInt8} : ∀ {m i n : ℕ} {ies : List InfoElement},
    fieldsAt model mem m i = some (ies, n) → ies.length = m
  | 0, i, n, ies, h => by
    cases h
    rfl
  | m + 1, i, n, ies, h => by
    obtain ⟨f, -, h⟩ := Option.bind_eq_some_iff.1 h
    obtain ⟨r, hr, h⟩ := Option.map_eq_some_iff.1 h
    cases h
    rw [List.length_cons, length_fieldsAt hr]

/-- The elements that an unfinished record has left. -/
def leftover (k : WireTemplateKey) (s : Session) : List InfoElement :=
  match s.find k with
  | none => []
  | some wt => if wt.active then [] else wt.ies

theorem run_reading {α : Type} {x : Attempt Error Transcoder α} {r : Except Error α}
    (h : x.run xc = (r, t)) : (reading x).run (xc, s) = (r, (t, s)) := by
  rw [reading, Attempt.run_zoom, h]

theorem run_inSession {α : Type} {x : Attempt Error Session α} {r : Except Error α} {s' : Session}
    (h : x.run s = (r, s')) : (inSession x).run (xc, s) = (r, (xc, s')) := by
  rw [inSession, Attempt.run_zoom, h]

/-- A template that is not active is the one that the fields are added to. -/
theorem run_getTemplate (domain : UInt32) {tid : UInt16} (htid : ¬ tid < kMinSetID)
    (s : Session) :
    ∃ wt s', (getTemplate domain tid).run s = (.ok wt, s') ∧ s'.find (domain, tid) = some wt ∧
      SameBut (domain, tid) s s' ∧
      leftover (domain, tid) s = if wt.active then [] else wt.ies := by
  rw [getTemplate, if_neg htid, Attempt.run_get_bind, leftover]
  cases hfind : s.find (domain, tid) with
  | some wt => exact ⟨wt, s, rfl, hfind, sameBut_refl _ s, rfl⟩
  | none => exact ⟨_, _, rfl, find_put_self _ _ s, sameBut_put _ _ s, rfl⟩

theorem find_getTemplate {domain : UInt32} {tid : UInt16} {s s' : Session} {wt : WireTemplate}
    (hrun : (getTemplate domain tid).run s = (.ok wt, s')) :
    s'.find (domain, tid) = some wt ∧ (s' = s ∨ wt = .new domain tid ∧
      s' = s.put (domain, tid) wt) := by
  rw [getTemplate] at hrun
  split_ifs at hrun with htid
  · cases hrun
  rw [Attempt.run_get_bind] at hrun
  cases hfind : s.find (domain, tid) with
  | some wt' =>
    rw [hfind] at hrun
    cases hrun
    exact ⟨hfind, .inl rfl⟩
  | none =>
    rw [hfind] at hrun
    cases hrun
    exact ⟨find_put_self _ _ s, .inr ⟨rfl, rfl⟩⟩

/-- The record's own part, on a template that is not active. -/
theorem decodeDefinition_cases {ies : List InfoElement} (count : UInt16) (h : xc.Sound)
    (hopen : Open k ies s) : ∃ s' n, OnTo xc n ∧ SameBut k s s' ∧
      ((∃ ies' wt, fieldsAt model xc.mem count.toNat xc.cur = some (ies', n) ∧
        s'.find k = some wt ∧ wt.active = true ∧ wt.ies = ies ++ ies' ∧
        (decodeTemplateRecord.decodeDefinition model k count).run (xc, s) =
          (.ok true, (xc.seek n, s'))) ∨
      fieldsAt model xc.mem count.toNat xc.cur = none ∧ (∃ ies', Open k ies' s') ∧
        ∃ r, (decodeTemplateRecord.decodeDefinition model k count).run (xc, s) =
          (r, (xc.seek n, s')) ∧ r ≠ .ok true) := by
  obtain ⟨s', n, hn, hsame, hrest⟩ := decodeFields_cases (m := count.toNat) h hopen
  rw [decodeTemplateRecord.decodeDefinition]
  obtain ⟨ies', hfields, ⟨wt, hfind, hactive, hies⟩, hrun⟩ | ⟨hfields, hopen, r, hrun, hr⟩ := hrest
  · have hactivate : (onTemplate k WireTemplate.activate).run s' =
        (.ok (), s'.put k { wt with active := true }) := by
      rw [run_onTemplate hfind, WireTemplate.activate, Attempt.run_get_bind, hactive]
      rfl
    refine ⟨_, n, hn, hsame.trans (sameBut_put k _ s'),
      .inl ⟨ies', { wt with active := true }, hfields, find_put_self k _ s', rfl, hies, ?_⟩⟩
    rw [Attempt.run_bind_of_ok hrun, if_pos rfl, Attempt.run_bind_of_ok (run_inSession hactivate)]
    rfl
  · refine ⟨s', n, hn, hsame, .inr ⟨hfields, hopen, ?_⟩⟩
    match r, hr, hrun with
    | .error e, _, hrun => exact ⟨_, Attempt.run_bind_of_error hrun, by simp⟩
    | .ok false, _, hrun => exact ⟨_, Attempt.run_bind_of_ok hrun, by simp⟩
    | .ok true, hr, _ => exact absurd rfl hr

/-- What a definition makes of its template, where `ies` were in it before. -/
structure Defined (k : WireTemplateKey) (ies ies' : List InfoElement) (s : Session) : Prop where
  withdrawn : ies' = [] → s.find k = none
  redefined : ies' ≠ [] → ∃ wt, s.find k = some wt ∧ wt.active = true ∧ wt.ies = ies ++ ies'

/-- The active templates were there before. -/
def NoneNew (s s' : Session) : Prop :=
  ∀ k wt, s'.find k = some wt → wt.active = true → s.find k = some wt

theorem noneNew_refl (s : Session) : NoneNew s s := fun _ _ h _ => h

theorem noneNew_of_open {s' : Session} {ies : List InfoElement} (hsame : SameBut k s s')
    (hopen : Open k ies s') : NoneNew s s' := by
  intro k' wt hfind hactive
  by_cases hk : k' = k
  · obtain ⟨wt', hfind', hactive', -⟩ := hopen
    obtain rfl : wt = wt' := Option.some.inj ((hk ▸ hfind).symm.trans hfind')
    rw [hactive] at hactive'
    cases hactive'
  · rw [← hsame k' hk, hfind]

/-- A record whose ID is reserved does not define anything. -/
def Usable (d : Definition) : Prop := d.ies = [] ∨ ¬ d.tid < kMinSetID

/-- A template that is not active, with what was left in it, for the fields of a record. -/
theorem run_prepare {α : Type} (domain : UInt32) {tid : UInt16} (htid : ¬ tid < kMinSetID)
    (y : Attempt Error Decoder α) (xc : Transcoder) (s : Session) :
    ∃ s₁, SameBut (domain, tid) s s₁ ∧ Open (domain, tid) (leftover (domain, tid) s) s₁ ∧
      (inSession (getTemplate domain tid) >>= fun tmpl =>
        if tmpl.active then
          inSession (onTemplate (domain, tid) (Attempt.modify WireTemplate.clear)) >>= fun _ => y
        else y).run (xc, s) = y.run (xc, s₁) := by
  obtain ⟨wt, s₁, hget, hfind, hsame, hleft⟩ := run_getTemplate domain htid s
  rw [Attempt.run_bind_of_ok (run_inSession hget), hleft]
  split_ifs with hactive
  · have hclear : (onTemplate (domain, tid) (Attempt.modify WireTemplate.clear)).run s₁ =
        (.ok (), s₁.put (domain, tid) wt.clear) := run_onTemplate hfind
    refine ⟨_, hsame.trans (sameBut_put _ _ s₁), ⟨wt.clear, find_put_self _ _ s₁, rfl, rfl⟩, ?_⟩
    rw [Attempt.run_bind_of_ok (run_inSession hclear)]
  · exact ⟨s₁, hsame, ⟨wt, hfind, by simpa using hactive, rfl⟩, rfl⟩

theorem decodeTemplateRecord_cases (model : InfoModel) (domain : UInt32) (s : Session)
    (h : xc.Sound) : ∃ s' n, OnTo xc n ∧
    ((∃ d : Definition, recordAt model xc.mem xc.cur = some (d, n) ∧ Usable d ∧
      SameBut (domain, d.tid) s s' ∧
      Defined (domain, d.tid) (leftover (domain, d.tid) s) d.ies s' ∧
      (decodeTemplateRecord model domain).run (xc, s) = (.ok true, (xc.seek n, s'))) ∨
    (∀ d n', recordAt model xc.mem xc.cur = some (d, n') → ¬ Usable d) ∧ NoneNew s s' ∧
      ∃ r, (decodeTemplateRecord model domain).run (xc, s) = (r, (xc.seek n, s')) ∧
        r ≠ .ok true) := by
  have hcur := h.cur_le
  rw [decodeTemplateRecord, Attempt.run_get_bind, avail_of_le hcur, recordAt]
  obtain hroom | hroom := Nat.lt_or_ge (xc.max - xc.cur) kTemplateHeaderLen
  · have hnone : Bytes.be16 xc.mem (xc.cur + 2) = none :=
      Bytes.be16_eq_none (by rw [h.length_mem]; simp only [kTemplateHeaderLen] at hroom; omega)
    rw [if_pos hroom, hnone]
    exact ⟨s, xc.cur, ⟨Nat.le_refl _, hcur⟩, .inr ⟨by simp, noneNew_refl s, _, rfl, by simp⟩⟩
  rw [if_neg (Nat.not_lt.2 hroom)]
  simp only [kTemplateHeaderLen] at hroom
  obtain ⟨tid, htid, hroom₂, hrun⟩ | ⟨-, hroom₂, -⟩ := decodeUint16_cases h
  swap
  · omega
  have h₂ : (xc.seek (xc.cur + 2)).Sound := sound_seek h hroom₂
  rw [Attempt.run_bind_of_ok (run_reading hrun), htid]
  obtain ⟨iecount, hcount, hroom₄, hrun₂⟩ | ⟨-, hroom₄, -⟩ := decodeUint16_cases h₂
  swap
  · change xc.max < xc.cur + 2 + 2 at hroom₄
    omega
  have h₄ : (xc.seek (xc.cur + 4)).Sound := sound_seek h hroom₄
  have hcount : Bytes.be16 xc.mem (xc.cur + 2) = some iecount := hcount
  have hrun₂ : decodeUint16.run (xc.seek (xc.cur + 2)) =
      (.ok (some iecount), xc.seek (xc.cur + 4)) := hrun₂
  rw [Attempt.run_bind_of_ok (run_reading hrun₂), hcount]
  simp only [Attempt.orThrow_some, Attempt.run_pure_bind, Option.bind_eq_bind, Option.bind_some]
  by_cases hzero : iecount = 0
  · subst hzero
    refine ⟨s.deleteTemplate domain tid, xc.cur + 4, ⟨by omega, hroom₄⟩,
      .inl ⟨⟨tid, []⟩, rfl, .inl rfl, fun k' hk => find_deleteTemplate_of_ne hk s, ?_, rfl⟩⟩
    exact ⟨fun _ => find_deleteTemplate_self domain tid s, fun hne => absurd rfl hne⟩
  rw [if_neg hzero]
  by_cases hlt : tid < kMinSetID
  · have hget : (getTemplate domain tid).run s =
        (.error (.logicError "Cannot get template with reserved ID"), s) := by
      rw [getTemplate, if_pos hlt]
      rfl
    rw [Attempt.run_bind_of_error (run_inSession hget)]
    refine ⟨s, xc.cur + 4, ⟨by omega, hroom₄⟩,
      .inr ⟨fun d n' hd => ?_, noneNew_refl s, _, rfl, by simp⟩⟩
    obtain ⟨⟨ies, n''⟩, hfields, hd⟩ := Option.bind_eq_some_iff.1 hd
    cases hd
    rintro (hies | hge)
    · have hlen := length_fieldsAt hfields
      rw [show ies = [] from hies, List.length_nil] at hlen
      exact hzero (UInt16.toNat_inj.1 hlen.symm)
    · exact hge hlt
  · obtain ⟨s₁, hsame₁, hopen, hrun⟩ := run_prepare domain hlt
      (decodeTemplateRecord.decodeDefinition model (domain, tid) iecount) (xc.seek (xc.cur + 4)) s
    rw [hrun]
    obtain ⟨s', n, hn, hsame, hrest⟩ := decodeDefinition_cases iecount h₄ hopen
    refine ⟨s', n, ⟨(Nat.le_add_right _ 4).trans hn.1, hn.2⟩, ?_⟩
    obtain ⟨ies, wt, hfields, hfind, hactive, hies, hrun⟩ | ⟨hfields, ⟨ies, hopen⟩, r, hrun, hr⟩ :=
      hrest
    · have hfields : fieldsAt model xc.mem iecount.toNat (xc.cur + 4) = some (ies, n) := hfields
      rw [hfields]
      have hne : ies ≠ [] := by
        rintro rfl
        exact hzero (UInt16.toNat_inj.1 (length_fieldsAt hfields).symm)
      exact .inl ⟨⟨tid, ies⟩, rfl, .inr hlt, hsame₁.trans hsame,
        ⟨fun hies => absurd hies hne, fun _ => ⟨wt, hfind, hactive, hies⟩⟩, hrun⟩
    · have hfields : fieldsAt model xc.mem iecount.toNat (xc.cur + 4) = none := hfields
      rw [hfields]
      exact .inr ⟨by simp, noneNew_of_open (hsame₁.trans hsame) hopen, r, hrun, hr⟩

/-! ## Records one after the other -/

/-- A call to decode the record at a transcoder's cursor. -/
structure Call where
  domain : UInt32
  xc : Transcoder
deriving DecidableEq, Repr

/-- What the call gives back, and the session after it. -/
def called (model : InfoModel) (s : Session) (c : Call) : Except Error Bool × Session :=
  let r := (decodeTemplateRecord model c.domain).run (c.xc, s)
  (r.1, r.2.2)

def step (model : InfoModel) (s : Session) (c : Call) : Option Session := some (called model s c).2

/-- A record that was decoded is what its template is now, and one that failed is in none of the
active templates. -/
structure Right (model : InfoModel) (s : Session) (c : Call) : Prop where
  decoded : (called model s c).1 = .ok true →
    ∃ d n, recordAt model c.xc.mem c.xc.cur = some (d, n) ∧
    Defined (c.domain, d.tid) [] d.ies (called model s c).2 ∧
    SameBut (c.domain, d.tid) s (called model s c).2
  failed : (called model s c).1 ≠ .ok true → NoneNew s (called model s c).2

/-- If the record is all there and defines a template, nothing is left of another one in it. -/
def Clean (model : InfoModel) (s : Session) (c : Call) : Prop :=
  ∀ d n, recordAt model c.xc.mem c.xc.cur = some (d, n) → d.ies ≠ [] → ¬ d.tid < kMinSetID →
    leftover (c.domain, d.tid) s = []

theorem right_iff {c : Call} (h : c.xc.Sound) : Right model s c ↔ Clean model s c := by
  obtain ⟨s', n, -, ⟨d, hd, husable, hsame, hdef, hrun⟩ | ⟨hnot, hnone, r, hrun, hr⟩⟩ :=
    decodeTemplateRecord_cases model c.domain s h
  · have hcalled : called model s c = (.ok true, s') := by rw [called, hrun]
    constructor
    · intro hright d' n' hd' hne _
      obtain ⟨d'', n'', hd'', hdef', -⟩ := hright.decoded (by rw [hcalled])
      rw [hd] at hd' hd''
      cases hd'
      cases hd''
      rw [hcalled] at hdef'
      obtain ⟨wt, hfind, -, hies⟩ := hdef.redefined hne
      obtain ⟨wt', hfind', -, hies'⟩ := hdef'.redefined hne
      rw [hfind] at hfind'
      cases hfind'
      rw [hies, List.nil_append] at hies'
      simpa using hies'
    · intro hclean
      refine ⟨fun _ => ⟨d, n, hd, ?_, by rwa [hcalled]⟩, fun hne => absurd (by rw [hcalled]) hne⟩
      rw [hcalled]
      refine ⟨hdef.withdrawn, fun hne => ?_⟩
      have hleft := hclean d n hd hne (husable.resolve_left hne)
      have := hdef.redefined hne
      rwa [hleft] at this
  · have hcalled : called model s c = (r, s') := by rw [called, hrun]
    refine iff_of_true ⟨fun hok => ?_, fun _ => by rwa [hcalled]⟩ fun d n' hd _ htid => ?_
    · rw [hcalled] at hok
      exact absurd hok hr
    · exact absurd (.inr htid) (hnot d n' hd)

/-- In any order of records, from any templates. -/
theorem template_is_last_definition_iff (model : InfoModel) (s : Session) (cs : List Call)
    (hcs : ∀ c ∈ cs, c.xc.Sound) :
    StepRun.Meets (step model) (Right model) s cs ↔
      StepRun.Meets (step model) (Clean model) s cs := by
  have hstep : ∀ s (c : Call), True → c.xc.Sound → (Right model s c ↔ Clean model s c) :=
    fun s c _ hc => right_iff hc
  exact StepRun.meets_iff (fun _ _ _ _ _ _ _ => trivial) hstep cs hcs trivial

/-- A model that knows the octet counter only. -/
def octetModel : InfoModel where
  ianaRegistry number := if number = 1 then some ⟨"octetDeltaCount", 0, 1, .unsigned64, 8⟩ else none
  penRegistry _ := none

/-- A record of template 256 in domain 1, at the start of a buffer. -/
def recordCall (bs : List UInt8) : Call := ⟨1, ⟨bs, 0, none, bs.length, none, none, none⟩⟩

def octetRecord : List UInt8 := [1, 0, 0, 1, 0, 1, 0, 8]

/-- A record of two fields, and only the first of them is there. -/
def truncatedRecord : List UInt8 := [1, 0, 0, 2, 0, 1, 0, 8]

theorem sound_recordCall (bs : List UInt8) : (recordCall bs).xc.Sound :=
  ⟨Nat.zero_le _, Nat.le_refl _⟩

/-- As the truncated one, of template 257. -/
def otherTruncated : List UInt8 := [1, 1, 0, 2, 0, 1, 0, 8]

/-- Template 256 again, its element in four bytes. -/
def shortRecord : List UInt8 := [1, 0, 0, 1, 0, 1, 0, 4]

theorem clean_of_recordAt {c : Call} {d : Definition} {n : ℕ}
    (h : recordAt model c.xc.mem c.xc.cur = some (d, n))
    (hleft : leftover (c.domain, d.tid) s = []) : Clean model s c := by
  intro d' n' hd' _ _
  rw [h] at hd'
  cases hd'
  exact hleft

theorem clean_of_none {c : Call} (h : recordAt model c.xc.mem c.xc.cur = none) :
    Clean model s c := by
  intro d n hd
  rw [h] at hd
  cases hd

/-- Between the two definitions of template 256 a record of another template is broken off. -/
theorem template_is_last_definition_octets :
    StepRun.Meets (step octetModel) (Right octetModel) .new
      [recordCall octetRecord, recordCall otherTruncated, recordCall shortRecord] := by
  refine (template_is_last_definition_iff octetModel .new
    [recordCall octetRecord, recordCall otherTruncated, recordCall shortRecord]
    (by simp [sound_recordCall])).2
    ⟨clean_of_recordAt rfl (by decide +kernel), fun s hs => ?_⟩
  cases hs
  refine ⟨clean_of_none rfl, fun s hs => ?_⟩
  cases hs
  exact ⟨clean_of_recordAt rfl (by decide +kernel), fun _ _ => trivial⟩

/-- The elements that a truncated record left are in the template of the next one. -/
theorem not_template_is_last_definition : ¬ ∀ (model : InfoModel) (s : Session) (cs : List Call),
    (∀ c ∈ cs, c.xc.Sound) → StepRun.Meets (step model) (Right model) s cs := fun h => by
  have hright := (h octetModel .new [recordCall truncatedRecord, recordCall octetRecord]
    (by simp [sound_recordCall])).2 _ rfl
  obtain ⟨d, n, hd, hdef, -⟩ := hright.1.decoded (by decide +kernel)
  have hrec : recordAt octetModel (recordCall octetRecord).xc.mem 0 =
      some (⟨256, [⟨"octetDeltaCount", 0, 1, .unsigned64, 8⟩]⟩, 8) := by decide +kernel
  obtain rfl : d = _ := congrArg Prod.fst (Option.some.inj (hd.symm.trans hrec))
  obtain ⟨wt, hfind, -, hies⟩ := hdef.redefined (by simp)
  have hlen : ((called octetModel (called octetModel .new (recordCall truncatedRecord)).2
      (recordCall octetRecord)).2.find (1, 256)).map (fun wt => wt.ies.length) = some 2 := by
    decide +kernel
  change Session.find (1, 256) _ = _ at hfind
  rw [hfind, Option.map_some, hies] at hlen
  exact absurd hlen (by decide)

end Session

end DStreamon.Ipfix
