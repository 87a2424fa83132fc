import DStreamon.MBuf
import DStreamon.Proofs.Session

/-!
# Sets of a message

A message is walked from one set to the next by the lengths in their headers.  The scan keeps to
that walk as long as template sets are filled by their records, option template sets have none, and
data sets are all there; it returns the data sets behind what was on the list before.  On one to
three bytes that are left at the end it may go round for ever.
-/

namespace DStreamon.Ipfix

open Transcoder

variable {model : InfoModel} {mem : List UInt8} {i n : ℕ} {id len : UInt16}

/-! ## What a message holds -/

/-- A set header at `i`. -/
structure HeaderAt (mem : List UInt8) (i : ℕ) (id len : UInt16) : Prop where
  id_eq : Bytes.be16 mem i = some id
  len_eq : Bytes.be16 mem (i + kSetLenOffset) = some len

/-- One that is not rejected. -/
structure Sensible (id len : UInt16) : Prop where
  id_ok : ¬ id < kMinSetID ∨ id = kTemplateSetID ∨ id = kOptionTemplateSetID
  len_ge : kSetHeaderLen ≤ len.toNat
  len_le : len.toNat ≤ kMaxSetLen

/-- The data sets from `i` on, by the lengths of the sets; a few bytes at the end are none. -/
inductive DataSets (mem : List UInt8) : ℕ → List SetListEntry → Prop
  | done {i : ℕ} (hi : mem.length < i + kSetHeaderLen) : DataSets mem i []
  | data {i : ℕ} {id len : UInt16} {sets : List SetListEntry} (hheader : HeaderAt mem i id len)
      (hsensible : Sensible id len) (hroom : i + len.toNat ≤ mem.length) (hid : ¬ id < kMinSetID)
      (rest : DataSets mem (i + len.toNat) sets) : DataSets mem i (⟨id, len, i⟩ :: sets)
  | other {i : ℕ} {id len : UInt16} {sets : List SetListEntry} (hheader : HeaderAt mem i id len)
      (hsensible : Sensible id len) (hroom : i + len.toNat ≤ mem.length) (hid : id < kMinSetID)
      (rest : DataSets mem (i + len.toNat) sets) : DataSets mem i sets

theorem HeaderAt.room (h : HeaderAt mem i id len) : i + kSetHeaderLen ≤ mem.length :=
  Bytes.le_of_be16 h.len_eq

theorem HeaderAt.unique {id' len' : UInt16} (h : HeaderAt mem i id len)
    (h' : HeaderAt mem i id' len') : id' = id ∧ len' = len :=
  ⟨Option.some.inj (h'.id_eq.symm.trans h.id_eq), Option.some.inj (h'.len_eq.symm.trans h.len_eq)⟩

theorem DataSets.unique {sets sets' : List SetListEntry} (h : DataSets mem i sets)
    (h' : DataSets mem i sets') : sets' = sets := by
  induction h generalizing sets' with
  | done hi =>
    cases h' with
    | done => rfl
    | data hheader => exact absurd hheader.room (Nat.not_le.2 hi)
    | other hheader => exact absurd hheader.room (Nat.not_le.2 hi)
  | data hheader _ _ hid _ ih =>
    cases h' with
    | done hi => exact absurd hheader.room (Nat.not_le.2 hi)
    | data hheader' _ _ _ rest =>
      obtain ⟨rfl, rfl⟩ := hheader.unique hheader'
      rw [ih rest]
    | other hheader' _ _ hid' =>
      obtain ⟨rfl, rfl⟩ := hheader.unique hheader'
      exact absurd hid' hid
  | other hheader _ _ hid _ ih =>
    cases h' with
    | done hi => exact absurd hheader.room (Nat.not_le.2 hi)
    | data hheader' _ _ hid' =>
      obtain ⟨rfl, rfl⟩ := hheader.unique hheader'
      exact absurd hid hid'
    | other hheader' _ _ _ rest =>
      obtain ⟨rfl, rfl⟩ := hheader.unique hheader'
      exact ih rest

/-! ## Template sets -/

/-- Template records from the first position to the second, where fewer than four bytes are left of
a set that ends at `stop`. -/
inductive RecordsTo (model : InfoModel) (mem : List UInt8) (stop : ℕ) : ℕ → ℕ → Prop
  | done {p : ℕ} (hp : p ≤ stop ∧ stop < p + kTemplateHeaderLen) : RecordsTo model mem stop p p
  | record {p n q : ℕ} {d : Definition} (hp : ¬ (p ≤ stop ∧ stop < p + kTemplateHeaderLen))
      (hrecord : recordAt model mem p = some (d, n)) (hd : Session.Usable d)
      (rest : RecordsTo model mem stop n q) : RecordsTo model mem stop p q

theorem le_of_penAt {ienum : UInt16} {pen : UInt32} (h : penAt mem i ienum = some (pen, n)) :
    i ≤ n := by
  rw [penAt] at h
  split_ifs at h
  · obtain ⟨pen', -, h⟩ := Option.map_eq_some_iff.1 h
    cases h
    omega
  · cases h
    exact Nat.le_refl i

theorem le_of_fieldAt {ie : InfoElement} (h : fieldAt model mem i = some (ie, n)) : i ≤ n := by
  rw [fieldAt] at h
  simp only [Option.bind_eq_bind, Option.bind_eq_some_iff] at h
  obtain ⟨ienum, -, ielen, -, pen, hpen, ie', -, h⟩ := h
  cases h
  have := le_of_penAt hpen
  omega

theorem le_of_fieldsAt : ∀ {m i n : ℕ} {ies : List InfoElement},
    fieldsAt model mem m i = some (ies, n) → i ≤ n
  | 0, i, n, ies, h => by
    cases h
    exact Nat.le_refl i
  | m + 1, i, n, ies, h => by
    obtain ⟨f, hf, h⟩ := Option.bind_eq_some_iff.1 h
    obtain ⟨r, hr, h⟩ := Option.map_eq_some_iff.1 h
    cases h
    exact (le_of_fieldAt hf).trans (le_of_fieldsAt hr)

theorem le_of_recordAt {d : Definition} (h : recordAt model mem i = some (d, n)) :
    i + kTemplateHeaderLen ≤ n := by
  rw [recordAt] at h
  simp only [Option.bind_eq_bind, Option.bind_eq_some_iff] at h
  obtain ⟨tid, -, iecount, -, fields, hfields, h⟩ := h
  cases h
  exact le_of_fieldsAt hfields

theorem RecordsTo.unique {stop q q' : ℕ} (h : RecordsTo model mem stop i q)
    (h' : RecordsTo model mem stop i q') : q' = q := by
  induction h with
  | done hp =>
    cases h' with
    | done => rfl
    | record hp' => exact absurd hp hp'
  | record hp hrecord _ _ ih =>
    cases h' with
    | done hp' => exact absurd hp' hp
    | record _ hrecord' _ rest =>
      rw [hrecord] at hrecord'
      cases hrecord'
      exact ih rest

namespace MBuf

variable {m t : Scan} {stop : ℕ}

theorem sizeSub_ge_iff {cur : ℕ} (hcur : cur < 2 ^ 16) :
    kTemplateHeaderLen ≤ sizeSub stop cur ↔ ¬ (cur ≤ stop ∧ stop < cur + kTemplateHeaderLen) := by
  rw [sizeSub, kTemplateHeaderLen]
  split_ifs <;> omega

theorem run_transcoding {α : Type} {x : Attempt Error Transcoder α} {r : Except Error α}
    {xc : Transcoder} (h : x.run m.xc = (r, xc)) :
    (transcoding x).run m = (r, { m with xc := xc }) := by
  rw [transcoding, Attempt.run_zoom, h]

theorem run_decoding {α : Type} {x : Attempt Error Session.Decoder α} {r : Except Error α}
    {d : Session.Decoder} (h : x.run (m.xc, m.session) = (r, d)) :
    (decoding x).run m = (r, { m with xc := d.1, session := d.2 }) := by
  rw [decoding, Attempt.run_zoom, h]

/-- Either the records lead to where the set ends, or the scan fails. -/
theorem decodeTemplates_cases : ∀ {fuel : ℕ} {m : Scan}, m.xc.Sound → m.xc.max < 2 ^ 16 →
    m.xc.max - m.xc.cur < fuel →
    (∃ q s, RecordsTo model m.xc.mem stop m.xc.cur q ∧ Session.OnTo m.xc q ∧
      (decodeTemplates model stop fuel).run m =
        (.ok (some ()), { m with xc := m.xc.seek q, session := s })) ∨
    (∀ q, ¬ RecordsTo model m.xc.mem stop m.xc.cur q) ∧
      ∃ er t, (decodeTemplates model stop fuel).run m = (.error er, t)
  | 0, _, _, _, hfuel => absurd hfuel (Nat.not_lt_zero _)
  | fuel + 1, m, h, hmax, hfuel => by
    have hcur := h.cur_le
    rw [decodeTemplates, Attempt.run_get_bind]
    split_ifs with hstop <;> rw [sizeSub_ge_iff (by omega)] at hstop
    swap
    · rw [not_not] at hstop
      exact .inl ⟨m.xc.cur, m.session, .done hstop, ⟨Nat.le_refl _, hcur⟩, rfl⟩
    obtain ⟨s, n, hn, ⟨d, hrecord, hd, -, -, hrun⟩ | ⟨hnot, -, r, hrun, hr⟩⟩ :=
      Session.decodeTemplateRecord_cases model m.mbuf.domain m.session h
    · rw [Attempt.run_bind_of_ok (run_decoding hrun), if_pos rfl]
      have hle := le_of_recordAt hrecord
      rw [kTemplateHeaderLen] at hle
      have hroom := hn.2
      have hfuel' : m.xc.max - n < fuel := by omega
      obtain ⟨q, s', hrest, hq, hrun⟩ | ⟨hnone, er, t, hrun⟩ := decodeTemplates_cases
        (m := { m with xc := m.xc.seek n, session := s }) (sound_seek h hn.2) hmax hfuel'
      · exact .inl ⟨q, s', .record hstop hrecord hd hrest, ⟨hn.1.trans hq.1, hq.2⟩, hrun⟩
      · refine .inr ⟨fun q hq => ?_, er, t, hrun⟩
        cases hq with
        | done hp => exact hstop hp
        | record _ hrecord' _ rest =>
          rw [hrecord] at hrecord'
          cases hrecord'
          exact hnone q rest
    · refine .inr ⟨fun q hq => ?_, ?_⟩
      · cases hq with
        | done hp => exact hstop hp
        | record _ hrecord hd _ => exact hnot _ _ hrecord hd
      · rcases r with er | _ | _
        · exact ⟨er, _, Attempt.run_bind_of_error (run_decoding hrun)⟩
        · exact ⟨_, _, Attempt.run_bind_of_ok (run_decoding hrun)⟩
        · exact absurd rfl hr

end MBuf

/-! ## Walks -/

/-- How a walk over the sets goes. -/
inductive Outcome
  | throws
  /-- Some bytes are left, too few for a header. -/
  | trails
  | ends (sets : List SetListEntry)
deriving DecidableEq, Repr

/-- With these sets before. -/
def Outcome.after (added : List SetListEntry) : Outcome → Outcome
  | .throws => .throws
  | .trails => .trails
  | .ends sets => .ends (added ++ sets)

/-- A walk from set to set on which the scan stays in step: template sets are filled by their
records or malformed, option template sets are empty, and data sets are all there. -/
inductive Walk (model : InfoModel) (mem : List UInt8) : ℕ → Outcome → Prop
  | ends : Walk model mem mem.length (.ends [])
  | trails {i : ℕ} (hi : i < mem.length) (hlt : mem.length < i + kSetHeaderLen) :
      Walk model mem i .trails
  | nonsense {i : ℕ} {id len : UInt16} (hheader : HeaderAt mem i id len)
      (hnot : ¬ Sensible id len) :
      Walk model mem i .throws
  | data {i : ℕ} {id len : UInt16} {o : Outcome} (hheader : HeaderAt mem i id len)
      (hsensible : Sensible id len) (hroom : i + len.toNat ≤ mem.length) (hid : ¬ id < kMinSetID)
      (rest : Walk model mem (i + len.toNat) o) : Walk model mem i (o.after [⟨id, len, i⟩])
  | options {i : ℕ} {id len : UInt16} {o : Outcome} (hheader : HeaderAt mem i id len)
      (hsensible : Sensible id len) (hid : id = kOptionTemplateSetID)
      (hlen : len.toNat = kSetHeaderLen) (rest : Walk model mem (i + len.toNat) o) :
      Walk model mem i o
  | templates {i : ℕ} {id len : UInt16} {o : Outcome} (hheader : HeaderAt mem i id len)
      (hsensible : Sensible id len) (hid : id = kTemplateSetID)
      (hrecords : RecordsTo model mem (i + len.toNat) (i + kSetHeaderLen) (i + len.toNat))
      (rest : Walk model mem (i + len.toNat) o) : Walk model mem i o
  | malformed {i : ℕ} {id len : UInt16} (hheader : HeaderAt mem i id len)
      (hsensible : Sensible id len) (hid : id = kTemplateSetID)
      (hnot : ∀ q, ¬ RecordsTo model mem (i + len.toNat) (i + kSetHeaderLen) q) :
      Walk model mem i .throws

theorem le_length_of_fieldAt {ie : InfoElement} (h : fieldAt model mem i = some (ie, n)) :
    n ≤ mem.length := by
  rw [fieldAt] at h
  simp only [Option.bind_eq_bind, Option.bind_eq_some_iff] at h
  obtain ⟨ienum, -, ielen, hlen, pen, hpen, ie', -, h⟩ := h
  cases h
  have hroom := Bytes.le_of_be16 hlen
  rw [penAt] at hpen
  split_ifs at hpen
  · obtain ⟨pen', hpen', hpen⟩ := Option.map_eq_some_iff.1 hpen
    cases hpen
    by_contra hlt
    rw [Bytes.be32_eq_none (Nat.not_le.1 hlt)] at hpen'
    cases hpen'
  · cases hpen
    exact hroom

theorem le_length_of_fieldsAt : ∀ {m i n : ℕ} {ies : List InfoElement}, i ≤ mem.length →
    fieldsAt model mem m i = some (ies, n) → n ≤ mem.length
  | 0, i, n, ies, hi, h => by
    cases h
    exact hi
  | m + 1, i, n, ies, hi, h => by
    obtain ⟨f, hf, h⟩ := Option.bind_eq_some_iff.1 h
    obtain ⟨r, hr, h⟩ := Option.map_eq_some_iff.1 h
    cases h
    exact le_length_of_fieldsAt (le_length_of_fieldAt hf) hr

theorem le_length_of_recordAt {d : Definition} (h : recordAt model mem i = some (d, n)) :
    n ≤ mem.length := by
  rw [recordAt] at h
  simp only [Option.bind_eq_bind, Option.bind_eq_some_iff] at h
  obtain ⟨tid, -, iecount, hcount, fields, hfields, h⟩ := h
  cases h
  exact le_length_of_fieldsAt (Bytes.le_of_be16 hcount) hfields

theorem le_of_recordsTo {stop q : ℕ} (h : RecordsTo model mem stop i q) (hi : i ≤ mem.length) :
    q ≤ mem.length := by
  induction h with
  | done => exact hi
  | record _ hrecord _ _ ih => exact ih (le_length_of_recordAt hrecord)

/-- A walk to the end goes over the data sets. -/
theorem dataSets_of_walk {o : Outcome} (h : Walk model mem i o) {sets : List SetListEntry}
    (ho : o = .ends sets) : DataSets mem i sets := by
  induction h generalizing sets with
  | ends =>
    cases ho
    exact .done (Nat.lt_add_of_pos_right (by decide))
  | trails => cases ho
  | nonsense => cases ho
  | @data i id len o hheader hsensible hroom hid _ ih =>
    cases o with
    | throws => cases ho
    | trails => cases ho
    | ends sets' =>
      cases ho
      exact .data hheader hsensible hroom hid (ih rfl)
  | options hheader hsensible hid hlen _ ih =>
    refine .other hheader hsensible ?_ (by rw [hid]; decide) (ih ho)
    rw [hlen]
    exact hheader.room
  | templates hheader hsensible hid hrecords _ ih =>
    exact .other hheader hsensible (le_of_recordsTo hrecords hheader.room) (by rw [hid]; decide)
      (ih ho)
  | malformed => cases ho

/-! ## Scanning -/

namespace MBuf

variable {m t : Scan}

theorem decodeSetHeader_cases {xc : Transcoder} (h : xc.Sound) :
    (xc.max < xc.cur + kSetHeaderLen ∧ decodeSetHeader.run xc = (.ok none, xc)) ∨
    ∃ id len, HeaderAt xc.mem xc.cur id len ∧
      (Sensible id len ∧ decodeSetHeader.run xc =
        (.ok (some (id, len)), xc.seek (xc.cur + kSetHeaderLen)) ∨
      ¬ Sensible id len ∧ ∃ er t, decodeSetHeader.run xc = (.error er, t)) := by
  have hcur := h.cur_le
  rw [decodeSetHeader, Attempt.run_get_bind, avail_of_le hcur]
  split_ifs with hroom
  · simp only [kSetHeaderLen] at hroom ⊢
    exact .inl ⟨by omega, rfl⟩
  simp only [kSetHeaderLen] at hroom
  refine .inr ?_
  obtain ⟨id, hid, hroom₂, hrun⟩ | ⟨-, hroom₂, -⟩ := decodeUint16_cases h
  swap
  · omega
  obtain ⟨len, hlen, hroom₄, hrun₂⟩ | ⟨-, hroom₄, -⟩ := decodeUint16_cases (sound_seek h hroom₂)
  swap
  · change xc.max < xc.cur + 2 + 2 at hroom₄
    omega
  have hrun₂ : decodeUint16.run (xc.seek (xc.cur + 2)) =
      (.ok (some len), xc.seek (xc.cur + 4)) := hrun₂
  refine ⟨id, len, ⟨hid, hlen⟩, ?_⟩
  rw [Attempt.run_bind_of_ok hrun]
  dsimp only
  split_ifs with hreserved
  · exact .inr ⟨fun hsensible => by
      have hid := hsensible.id_ok
      tauto, _, _, rfl⟩
  rw [Attempt.run_bind_of_ok hrun₂]
  dsimp only
  split_ifs with hbad
  · exact .inr ⟨fun hsensible => by
      have hge := hsensible.len_ge
      have hle := hsensible.len_le
      omega, _, _, rfl⟩
  · refine .inl ⟨⟨by tauto, by omega, by omega⟩, rfl⟩

theorem header_cases {xc : Transcoder} (h : xc.Sound) (hheader : HeaderAt xc.mem xc.cur id len) :
    xc.cur + kSetHeaderLen ≤ xc.max ∧ (Sensible id len ∧ decodeSetHeader.run xc =
        (.ok (some (id, len)), xc.seek (xc.cur + kSetHeaderLen)) ∨
      ¬ Sensible id len ∧ ∃ er t, decodeSetHeader.run xc = (.error er, t)) := by
  have hroom := hheader.room
  rw [h.length_mem] at hroom
  refine ⟨hroom, ?_⟩
  obtain ⟨hlt, -⟩ | ⟨id', len', hheader', hrest⟩ := decodeSetHeader_cases h
  · omega
  · obtain ⟨rfl, rfl⟩ := hheader.unique hheader'
    exact hrest

/-- A round that reads the header of a set, and the rest of the scan from behind it. -/
theorem run_round {garbage : ℕ → UInt16 × UInt16} {round fuel : ℕ} (h : m.xc.Sound)
    (hlt : m.xc.cur < m.xc.max)
    (hrun : decodeSetHeader.run m.xc = (.ok (some (id, len)), m.xc.seek (m.xc.cur + kSetHeaderLen)))
    {r : Except Error (Option Unit)}
    (hset : (scanSet model ⟨id, len, m.xc.cur⟩).run
      { m with xc := m.xc.seek (m.xc.cur + kSetHeaderLen) } = (r, t)) :
    (populateSetlist model garbage round (fuel + 1)).run m = match r with
      | .error er => (.error er, t)
      | .ok none => (.ok none, t)
      | .ok (some ()) => (populateSetlist model garbage (round + 1) fuel).run t := by
  have havail : m.xc.avail ≠ 0 := by
    rw [avail_of_le h.cur_le]
    omega
  rw [populateSetlist, Attempt.run_get_bind, if_neg havail,
    Attempt.run_bind_of_ok (run_transcoding hrun)]
  dsimp only [Option.getD]
  match r, hset with
  | .error er, hset => exact Attempt.run_bind_of_error hset
  | .ok none, hset => exact Attempt.run_bind_of_ok hset
  | .ok (some ()), hset => exact Attempt.run_bind_of_ok hset

/-- What a scan that goes like `o` comes to, once it has the fuel. -/
def Comes (model : InfoModel) (o : Outcome) (m : Scan) : Prop :=
  match o with
  | .throws => ∀ garbage round fuel, m.xc.max - m.xc.cur < fuel →
      ∃ er t, (populateSetlist model garbage round fuel).run m = (.error er, t)
  | .trails => ∀ round fuel, ∃ t,
      (populateSetlist model (fun _ => (kOptionTemplateSetID, 0)) round fuel).run m = (.ok none, t)
  | .ends sets => ∀ garbage round fuel, m.xc.max - m.xc.cur < fuel →
      ∃ t, (populateSetlist model garbage round fuel).run m = (.ok (some ()), t) ∧
        t.mbuf.setlist = m.mbuf.setlist ++ sets

/-- After a round without a failure the scan comes to what it comes to from there, with what the
round has put on the list. -/
theorem comes_of_round {o : Outcome} (added : List SetListEntry) (h : m.xc.Sound)
    (hlt : m.xc.cur < m.xc.max)
    (hrun : decodeSetHeader.run m.xc = (.ok (some (id, len)), m.xc.seek (m.xc.cur + kSetHeaderLen)))
    (hset : (scanSet model ⟨id, len, m.xc.cur⟩).run
      { m with xc := m.xc.seek (m.xc.cur + kSetHeaderLen) } = (.ok (some ()), t))
    (hnext : m.xc.cur < t.xc.cur) (hmax : t.xc.max = m.xc.max)
    (hadded : t.mbuf.setlist = m.mbuf.setlist ++ added) (hcomes : Comes model o t) :
    Comes model (o.after added) m := by
  have hround : ∀ garbage round fuel, (populateSetlist model garbage round (fuel + 1)).run m =
      (populateSetlist model garbage (round + 1) fuel).run t := fun _ _ _ =>
    run_round h hlt hrun hset
  have hfuel : ∀ {fuel}, m.xc.max - m.xc.cur < fuel + 1 → t.xc.max - t.xc.cur < fuel := by
    intro fuel hfuel
    omega
  cases o with
  | throws =>
    rintro garbage round (_ | fuel) hf
    · exact absurd hf (Nat.not_lt_zero _)
    · rw [hround]
      exact hcomes garbage (round + 1) fuel (hfuel hf)
  | trails =>
    rintro round (_ | fuel)
    · exact ⟨m, rfl⟩
    · obtain ⟨u, hu⟩ := hcomes (round + 1) fuel
      exact ⟨u, (hround _ round fuel).trans hu⟩
  | ends sets =>
    rintro garbage round (_ | fuel) hf
    · exact absurd hf (Nat.not_lt_zero _)
    · obtain ⟨u, hu, hlist⟩ := hcomes garbage (round + 1) fuel (hfuel hf)
      exact ⟨u, (hround garbage round fuel).trans hu, by rw [hlist, hadded, List.append_assoc]⟩

theorem comes_ends (h : m.xc.Sound) (hend : m.xc.cur = m.xc.max) : Comes model (.ends []) m := by
  have havail : m.xc.avail = 0 := by
    rw [avail_of_le h.cur_le, hend, Nat.sub_self]
  rintro garbage round (_ | fuel) hfuel
  · exact absurd hfuel (Nat.not_lt_zero _)
  · refine ⟨m, ?_, (List.append_nil _).symm⟩
    rw [populateSetlist, Attempt.run_get_bind, if_pos havail]
    rfl

/-- Where the garbage looks like an option template set, nothing changes in a round. -/
theorem comes_trails (h : m.xc.Sound) (hlt : m.xc.cur < m.xc.max)
    (hroom : m.xc.max < m.xc.cur + kSetHeaderLen) : Comes model .trails m := by
  have havail : m.xc.avail ≠ 0 := by
    rw [avail_of_le h.cur_le]
    omega
  have hrun : decodeSetHeader.run m.xc = (.ok none, m.xc) := by
    obtain ⟨-, hrun⟩ | ⟨id, len, hheader, -⟩ := decodeSetHeader_cases h
    · exact hrun
    · have hle := hheader.room
      rw [h.length_mem] at hle
      omega
  intro round fuel
  induction fuel generalizing round with
  | zero => exact ⟨m, rfl⟩
  | succ fuel ih =>
    rw [populateSetlist, Attempt.run_get_bind, if_neg havail,
      Attempt.run_bind_of_ok (run_transcoding hrun)]
    exact ih (round + 1)

theorem comes_throws (hround : ∀ garbage round fuel, ∃ er t,
      (populateSetlist model garbage round (fuel + 1)).run m = (.error er, t)) :
    Comes model .throws m := by
  rintro garbage round (_ | fuel) hfuel
  · exact absurd hfuel (Nat.not_lt_zero _)
  · exact hround garbage round fuel

theorem run_scanSet_data (model : InfoModel) (sle : SetListEntry) (h : m.xc.Sound)
    (hid : ¬ sle.id < kMinSetID)
    (hlen : kSetHeaderLen ≤ sle.len.toNat)
    (hroom : m.xc.cur + (sle.len.toNat - kSetHeaderLen) ≤ m.xc.max) :
    (scanSet model sle).run m = (.ok (some ()), { push sle m with
      xc := m.xc.seek (m.xc.cur + (sle.len.toNat - kSetHeaderLen)) }) := by
  have hother : sle.id ≠ kTemplateSetID := by
    rintro heq
    rw [heq] at hid
    exact hid (by decide)
  have hsize : sizeSub sle.len.toNat kSetHeaderLen = sle.len.toNat - kSetHeaderLen := if_pos hlen
  have hadvance : (advance (sle.len.toNat - kSetHeaderLen)).run (push sle m).xc =
      (.ok true, m.xc.seek (m.xc.cur + (sle.len.toNat - kSetHeaderLen))) := run_advance h hroom
  rw [scanSet, if_neg hother, if_neg hid, hsize, Attempt.run_modify_bind,
    Attempt.run_bind_of_ok (run_transcoding hadvance)]
  rfl

/-- A template set, from behind its header. -/
theorem scanSet_templates_cases (h : m.xc.Sound) (hmax : m.xc.max < 2 ^ 16)
    (hroom : m.xc.cur + kSetHeaderLen ≤ m.xc.max) (hid : id = kTemplateSetID)
    (hsensible : Sensible id len) :
    (∃ q s, RecordsTo model m.xc.mem (m.xc.cur + len.toNat) (m.xc.cur + kSetHeaderLen) q ∧
      Session.OnTo (m.xc.seek (m.xc.cur + kSetHeaderLen)) q ∧
      (scanSet model ⟨id, len, m.xc.cur⟩).run
        { m with xc := m.xc.seek (m.xc.cur + kSetHeaderLen) } =
        (.ok (some ()), { m with xc := m.xc.seek q, session := s })) ∨
    (∀ q, ¬ RecordsTo model m.xc.mem (m.xc.cur + len.toNat) (m.xc.cur + kSetHeaderLen) q) ∧
      ∃ er t, (scanSet model ⟨id, len, m.xc.cur⟩).run
        { m with xc := m.xc.seek (m.xc.cur + kSetHeaderLen) } = (.error er, t) := by
  have hbehind : (m.xc.seek (m.xc.cur + kSetHeaderLen)).Sound := sound_seek h hroom
  have hlen := hsensible.len_ge
  have hstop : m.xc.cur + kSetHeaderLen + sizeSub len.toNat kSetHeaderLen =
      m.xc.cur + len.toNat := by
    rw [sizeSub, if_pos hlen]
    omega
  have hfuel : m.xc.max - (m.xc.cur + kSetHeaderLen) <
      (m.xc.seek (m.xc.cur + kSetHeaderLen)).avail + 1 := by
    rw [avail_of_le hbehind.cur_le]
    exact Nat.lt_succ_self _
  have hrun : (scanSet model ⟨id, len, m.xc.cur⟩).run
      { m with xc := m.xc.seek (m.xc.cur + kSetHeaderLen) } =
      (decodeTemplates model (m.xc.cur + kSetHeaderLen + sizeSub len.toNat kSetHeaderLen)
        ((m.xc.seek (m.xc.cur + kSetHeaderLen)).avail + 1)).run
        { m with xc := m.xc.seek (m.xc.cur + kSetHeaderLen) } := by
    rw [scanSet, if_pos hid]
    rfl
  rw [hrun, hstop]
  exact decodeTemplates_cases (m := { m with xc := m.xc.seek (m.xc.cur + kSetHeaderLen) }) hbehind
    hmax hfuel

/-! ## One set -/

section Sets

variable {o : Outcome} (h : m.xc.Sound) (hheader : HeaderAt m.xc.mem m.xc.cur id len)
include h hheader

theorem run_header (hsensible : Sensible id len) : m.xc.cur + kSetHeaderLen ≤ m.xc.max ∧
    decodeSetHeader.run m.xc =
      (.ok (some (id, len)), m.xc.seek (m.xc.cur + kSetHeaderLen)) := by
  obtain ⟨hroom, ⟨-, hrun⟩ | ⟨hnot, -⟩⟩ := header_cases h hheader
  · exact ⟨hroom, hrun⟩
  · exact absurd hsensible hnot

theorem comes_nonsense (hnot : ¬ Sensible id len) : Comes model .throws m := by
  obtain ⟨hroom, ⟨hsensible, -⟩ | ⟨-, er, t, hrun⟩⟩ := header_cases h hheader
  · exact absurd hsensible hnot
  · refine comes_throws fun garbage round fuel => ⟨er, { m with xc := t }, ?_⟩
    have havail : m.xc.avail ≠ 0 := by
      rw [avail_of_le h.cur_le]
      simp only [kSetHeaderLen] at hroom
      omega
    rw [populateSetlist, Attempt.run_get_bind, if_neg havail]
    exact Attempt.run_bind_of_error (run_transcoding hrun)

theorem comes_data (hsensible : Sensible id len) (hroom : m.xc.cur + len.toNat ≤ m.xc.mem.length)
    (hid : ¬ id < kMinSetID)
    (hrest : ∀ t : Scan, t.xc = m.xc.seek (m.xc.cur + len.toNat) → Comes model o t) :
    Comes model (o.after [⟨id, len, m.xc.cur⟩]) m := by
  obtain ⟨hheaderRoom, hrun⟩ := run_header h hheader hsensible
  rw [h.length_mem] at hroom
  have hlen := hsensible.len_ge
  simp only [kSetHeaderLen] at hlen hheaderRoom
  have hnext : m.xc.cur + kSetHeaderLen + (len.toNat - kSetHeaderLen) = m.xc.cur + len.toNat := by
    rw [kSetHeaderLen]
    omega
  have hset : (scanSet model ⟨id, len, m.xc.cur⟩).run
      { m with xc := m.xc.seek (m.xc.cur + kSetHeaderLen) } =
      (.ok (some ()), { push ⟨id, len, m.xc.cur⟩ m with
        xc := m.xc.seek (m.xc.cur + kSetHeaderLen + (len.toNat - kSetHeaderLen)) }) :=
    run_scanSet_data model ⟨id, len, m.xc.cur⟩ (sound_seek h hheaderRoom) hid hsensible.len_ge
      (hnext.le.trans hroom)
  rw [hnext] at hset
  exact comes_of_round [_] h (by omega) hrun hset
    (show m.xc.cur < m.xc.cur + len.toNat by omega) rfl rfl (hrest _ rfl)

theorem comes_options (hsensible : Sensible id len) (hid : id = kOptionTemplateSetID)
    (hlen : len.toNat = kSetHeaderLen)
    (hrest : ∀ t : Scan, t.xc = m.xc.seek (m.xc.cur + len.toNat) → Comes model o t) :
    Comes model o m := by
  obtain ⟨hroom, hrun⟩ := run_header h hheader hsensible
  subst hid
  have hset : (scanSet model ⟨kOptionTemplateSetID, len, m.xc.cur⟩).run
      { m with xc := m.xc.seek (m.xc.cur + kSetHeaderLen) } =
      (.ok (some ()), { m with xc := m.xc.seek (m.xc.cur + kSetHeaderLen) }) := rfl
  simp only [kSetHeaderLen] at hroom
  have hcomes := comes_of_round [] h (by omega) hrun hset
    (show m.xc.cur < m.xc.cur + 4 by omega) rfl (List.append_nil _).symm
    (hrest { m with xc := m.xc.seek (m.xc.cur + kSetHeaderLen) } (by rw [hlen]))
  cases o <;> exact hcomes

theorem comes_templates (hmax : m.xc.max < 2 ^ 16) (hsensible : Sensible id len)
    (hid : id = kTemplateSetID)
    (hrecords : RecordsTo model m.xc.mem (m.xc.cur + len.toNat) (m.xc.cur + kSetHeaderLen)
      (m.xc.cur + len.toNat))
    (hrest : ∀ t : Scan, t.xc = m.xc.seek (m.xc.cur + len.toNat) → Comes model o t) :
    Comes model o m := by
  obtain ⟨hroom, hrun⟩ := run_header h hheader hsensible
  obtain ⟨q, s, hq, -, hset⟩ | ⟨hnone, -⟩ := scanSet_templates_cases h hmax hroom hid hsensible
  · obtain rfl := hrecords.unique hq
    have hlen := hsensible.len_ge
    simp only [kSetHeaderLen] at hroom hlen
    have hcomes := comes_of_round [] h (by omega) hrun hset
      (show m.xc.cur < m.xc.cur + len.toNat by omega) rfl (List.append_nil _).symm (hrest _ rfl)
    cases o <;> exact hcomes
  · exact absurd hrecords (hnone _)

theorem comes_malformed (hmax : m.xc.max < 2 ^ 16) (hsensible : Sensible id len)
    (hid : id = kTemplateSetID)
    (hnot : ∀ q, ¬ RecordsTo model m.xc.mem (m.xc.cur + len.toNat) (m.xc.cur + kSetHeaderLen) q) :
    Comes model .throws m := by
  obtain ⟨hroom, hrun⟩ := run_header h hheader hsensible
  obtain ⟨q, s, hq, -⟩ | ⟨-, er, t, hset⟩ := scanSet_templates_cases h hmax hroom hid hsensible
  · exact absurd hq (hnot q)
  · simp only [kSetHeaderLen] at hroom
    exact comes_throws fun garbage round fuel => ⟨er, t, run_round h (by omega) hrun hset⟩

end Sets

theorem comes_of_walk {mem : List UInt8} {i : ℕ} {o : Outcome} (hwalk : Walk model mem i o) :
    ∀ {m : Scan}, m.xc.Sound → m.xc.max < 2 ^ 16 → m.xc.mem = mem → m.xc.cur = i →
      Comes model o m := by
  have hbehind : ∀ {m : Scan} {n : ℕ} {o : Outcome}, m.xc.Sound → m.xc.max < 2 ^ 16 →
      n ≤ m.xc.mem.length → (∀ {t : Scan}, t.xc.Sound → t.xc.max < 2 ^ 16 →
        t.xc.mem = m.xc.mem → t.xc.cur = n → Comes model o t) →
      ∀ t : Scan, t.xc = m.xc.seek n → Comes model o t := by
    intro m n o h hmax hn ih t ht
    rw [h.length_mem] at hn
    exact ih (ht ▸ sound_seek h hn) (ht ▸ hmax) (ht ▸ rfl) (ht ▸ rfl)
  induction hwalk with
  | ends =>
    intro m h _ hmem hi
    rw [← hmem, h.length_mem] at hi
    exact comes_ends h hi
  | trails hi hlt =>
    rintro m h _ rfl rfl
    rw [h.length_mem] at hi hlt
    exact comes_trails h hi hlt
  | nonsense hheader hnot =>
    rintro m h _ rfl rfl
    exact comes_nonsense h hheader hnot
  | data hheader hsensible hroom hid _ ih =>
    rintro m h hmax rfl rfl
    exact comes_data h hheader hsensible hroom hid (hbehind h hmax hroom ih)
  | options hheader hsensible hid hlen _ ih =>
    rintro m h hmax rfl rfl
    exact comes_options h hheader hsensible hid hlen
      (hbehind h hmax (hlen ▸ hheader.room) ih)
  | templates hheader hsensible hid hrecords _ ih =>
    rintro m h hmax rfl rfl
    exact comes_templates h hheader hmax hsensible hid hrecords
      (hbehind h hmax (le_of_recordsTo hrecords hheader.room) ih)
  | malformed hheader hsensible hid hnot =>
    rintro m h hmax rfl rfl
    exact comes_malformed h hheader hmax hsensible hid hnot

/-- Whatever the stack holds, the scan throws, or comes to an end with the data sets of this message
on the list. -/
def Scans (model : InfoModel) (m : Scan) : Prop :=
  ∀ garbage, ∃ enough, ∀ fuel ≥ enough, ∃ r t,
    (populateSetlist model garbage 0 fuel).run m = (r, t) ∧ r ≠ .ok none ∧
      (r = .ok (some ()) → DataSets m.xc.mem m.xc.cur t.mbuf.setlist)

theorem scans_of_comes_throws (h : Comes model .throws m) : Scans model m := fun garbage =>
  ⟨m.xc.max - m.xc.cur + 1, fun fuel hfuel => by
    obtain ⟨er, t, hrun⟩ := h garbage 0 fuel hfuel
    exact ⟨_, t, hrun, by simp, fun hok => by cases hok⟩⟩

theorem not_scans_of_comes_trails (h : Comes model .trails m) : ¬ Scans model m := fun hscans => by
  obtain ⟨enough, henough⟩ := hscans fun _ => (kOptionTemplateSetID, 0)
  obtain ⟨r, t, hrun, hr, -⟩ := henough enough (Nat.le_refl _)
  obtain ⟨u, hnone⟩ := h 0 enough
  rw [hnone] at hrun
  cases hrun
  exact hr rfl

theorem scans_iff_of_comes_ends {sets : List SetListEntry} (h : Comes model (.ends sets) m) :
    Scans model m ↔ DataSets m.xc.mem m.xc.cur (m.mbuf.setlist ++ sets) := by
  constructor
  · intro hscans
    obtain ⟨enough, henough⟩ := hscans fun _ => (0, 0)
    obtain ⟨r, t, hrun, -, hright⟩ := henough (enough + (m.xc.max - m.xc.cur + 1)) (by omega)
    obtain ⟨u, hok, hlist⟩ := h (fun _ => (0, 0)) 0 _
      (show m.xc.max - m.xc.cur < enough + (m.xc.max - m.xc.cur + 1) by omega)
    rw [hok] at hrun
    cases hrun
    exact hlist ▸ hright rfl
  · intro hsets garbage
    refine ⟨m.xc.max - m.xc.cur + 1, fun fuel hfuel => ?_⟩
    obtain ⟨t, hrun, hlist⟩ := h garbage 0 fuel hfuel
    exact ⟨_, t, hrun, by simp, fun _ => hlist ▸ hsets⟩

/-- The list is empty and a walk goes over the whole message, or one comes to something malformed,
whatever the list holds. -/
def Orderly (model : InfoModel) (m : Scan) : Prop :=
  ∃ o, Walk model m.xc.mem m.xc.cur o ∧ (o = .throws ∨ o ≠ .trails ∧ m.mbuf.setlist = [])

theorem scans_iff_of_walk {o : Outcome} (h : m.xc.Sound) (hlen : m.xc.max = m.mbuf.len.toNat)
    (hwalk : Walk model m.xc.mem m.xc.cur o) :
    Scans model m ↔ o = .throws ∨ o ≠ .trails ∧ m.mbuf.setlist = [] := by
  have hmax : m.xc.max < 2 ^ 16 := hlen ▸ m.mbuf.len.toNat_lt
  have hcomes : Comes model o m := comes_of_walk hwalk h hmax rfl rfl
  cases o with
  | throws => exact iff_of_true (scans_of_comes_throws hcomes) (.inl rfl)
  | trails => exact iff_of_false (not_scans_of_comes_trails hcomes) (by simp)
  | ends sets =>
    have hsets : DataSets m.xc.mem m.xc.cur sets := dataSets_of_walk hwalk rfl
    rw [scans_iff_of_comes_ends hcomes]
    constructor
    · intro hall
      exact .inr ⟨by simp, by simpa using hsets.unique hall⟩
    · intro hclear
      have hclear : m.mbuf.setlist = [] := by simpa using hclear
      rwa [hclear, List.nil_append]

/-- Every orderly message is scanned as it should be, and of those over which a walk leads no
other; `max_` was set to `buf_ + len_`. -/
theorem scans_iff (model : InfoModel) (m : Scan) (h : m.xc.Sound)
    (hlen : m.xc.max = m.mbuf.len.toNat) :
    (Orderly model m → Scans model m) ∧ ∀ o, Walk model m.xc.mem m.xc.cur o →
      (Scans model m ↔ Orderly model m) ∧
        (Orderly model m ↔ o = .throws ∨ o ≠ .trails ∧ m.mbuf.setlist = []) := by
  have hscans : Orderly model m → Scans model m := by
    rintro ⟨o, hwalk, hclear⟩
    exact (scans_iff_of_walk h hlen hwalk).2 hclear
  refine ⟨hscans, fun o hwalk => ?_⟩
  have hiff := scans_iff_of_walk h hlen hwalk
  have horderly : Scans model m → Orderly model m := fun hs => ⟨o, hwalk, hiff.1 hs⟩
  exact ⟨⟨horderly, hscans⟩, fun ho => hiff.1 (hscans ho), fun hclear => ⟨o, hwalk, hclear⟩⟩

/-- The last set is a data set. -/
theorem walk_last {mem : List UInt8} {i : ℕ} (hheader : HeaderAt mem i id len)
    (hsensible : Sensible id len) (hid : ¬ id < kMinSetID) (hend : i + len.toNat = mem.length) :
    Walk model mem i (.ends [⟨id, len, i⟩]) :=
  .data (o := .ends []) hheader hsensible hend.le hid (hend ▸ .ends)

/-- A scan of the sets behind a header of sixteen bytes. -/
def scanOf (sets : List UInt8) (setlist : List SetListEntry) : Scan where
  mbuf := ⟨List.replicate 16 0 ++ sets, UInt16.ofNat (16 + sets.length), 1, setlist⟩
  xc := ⟨List.replicate 16 0 ++ sets, 16, none, 16 + sets.length, none, none, none⟩
  session := .new

/-- With the transcoder at a position. -/
def behind (m : Scan) (i : ℕ) : Scan := { m with xc := m.xc.seek i }

/-- A template set of one record, and two sets of one counter each. -/
def counterSets : List UInt8 :=
  [0, 2, 0, 12] ++ Session.octetRecord ++ [1, 0, 0, 12, 0, 0, 0, 0, 0, 0, 0, 7] ++
    [1, 0, 0, 12, 0, 0, 0, 0, 0, 0, 0, 9]

theorem recordAt_counterSets (setlist : List SetListEntry) :
    recordAt Session.octetModel (scanOf counterSets setlist).xc.mem 20 =
      some (⟨256, [⟨"octetDeltaCount", 0, 1, .unsigned64, 8⟩]⟩, 28) := rfl

theorem walk_counterSets (setlist : List SetListEntry) :
    Walk Session.octetModel (scanOf counterSets setlist).xc.mem 16
      (.ends [⟨256, 12, 28⟩, ⟨256, 12, 40⟩]) := by
  have hsecond : Walk Session.octetModel (scanOf counterSets setlist).xc.mem 40
      (.ends [⟨256, 12, 40⟩]) :=
    walk_last ⟨rfl, rfl⟩ ⟨.inl (by decide), by decide, by decide⟩ (by decide) rfl
  have hfirst : Walk Session.octetModel (scanOf counterSets setlist).xc.mem 28
      (.ends [⟨256, 12, 28⟩, ⟨256, 12, 40⟩]) :=
    .data (o := .ends [⟨256, 12, 40⟩]) ⟨rfl, rfl⟩ ⟨.inl (by decide), by decide, by decide⟩
      (show 40 ≤ 52 by decide) (by decide) hsecond
  have hheader : HeaderAt (scanOf counterSets setlist).xc.mem 16 2 12 := ⟨rfl, rfl⟩
  exact .templates hheader ⟨.inr (.inl rfl), by decide, by decide⟩ rfl
    (.record (by decide) (recordAt_counterSets setlist) (.inr (by decide)) (.done (by decide)))
    hfirst

theorem scans_counterSets : Scans Session.octetModel (scanOf counterSets []) :=
  (scans_iff Session.octetModel (scanOf counterSets []) ⟨by decide, by decide⟩ rfl).1
    ⟨.ends [⟨256, 12, 28⟩, ⟨256, 12, 40⟩], walk_counterSets [], .inr ⟨by decide, rfl⟩⟩

/-- What another message has left on the list is still there. -/
theorem not_scans : ¬ ∀ (model : InfoModel) (m : Scan), m.xc.Sound →
    m.xc.max = m.mbuf.len.toNat → Scans model m := fun h => by
  have hscans := h Session.octetModel (scanOf counterSets [⟨256, 12, 28⟩]) ⟨by decide, by decide⟩
    rfl
  rw [scans_iff_of_walk ⟨by decide, by decide⟩ rfl (walk_counterSets [⟨256, 12, 28⟩])] at hscans
  exact absurd hscans (by decide)

def optionBody : List UInt8 := [0, 3, 0, 8, 1, 0, 0, 4]

/-- The body of an option template set is read as a set of its own. -/
theorem not_scans_options : ¬ Scans Session.octetModel (scanOf optionBody []) := by
  have hbody : Walk Session.octetModel (scanOf optionBody []).xc.mem 20 (.ends [⟨256, 4, 20⟩]) :=
    walk_last ⟨rfl, rfl⟩ ⟨.inl (by decide), by decide, by decide⟩ (by decide) rfl
  have hset : (scanSet Session.octetModel ⟨3, 8, 16⟩).run (behind (scanOf optionBody []) 20) =
      (.ok (some ()), behind (scanOf optionBody []) 20) := rfl
  have hcomes : Comes Session.octetModel (.ends [⟨256, 4, 20⟩]) (scanOf optionBody []) :=
    comes_of_round [] ⟨by decide, by decide⟩ (by decide) rfl hset (by decide) rfl rfl
      (comes_of_walk hbody ⟨by decide, by decide⟩ (by decide) rfl rfl)
  have hheader : HeaderAt (scanOf optionBody []).xc.mem 16 3 8 := ⟨rfl, rfl⟩
  have hnone : DataSets (scanOf optionBody []).xc.mem 16 [] :=
    .other hheader ⟨.inr (.inr rfl), by decide, by decide⟩ (Nat.le_refl 24) (by decide)
      (.done (by decide))
  rw [scans_iff_of_comes_ends hcomes]
  exact fun h => absurd (hnone.unique h) (by decide)

def paddedTemplates : List UInt8 := [0, 2, 0, 14] ++ Session.octetRecord ++ [0, 0]

/-- Behind the padding of a template set the scan may go round for ever. -/
theorem not_scans_padded : ¬ Scans Session.octetModel (scanOf paddedTemplates []) := by
  have hpadding : Walk Session.octetModel (scanOf paddedTemplates []).xc.mem 28 .trails :=
    .trails (by decide) (by decide)
  obtain ⟨s, hset⟩ : ∃ s, (scanSet Session.octetModel ⟨2, 14, 16⟩).run
      (behind (scanOf paddedTemplates []) 20) =
      (.ok (some ()), { behind (scanOf paddedTemplates []) 28 with session := s }) := ⟨_, rfl⟩
  exact not_scans_of_comes_trails (comes_of_round [] ⟨by decide, by decide⟩ (by decide) rfl hset
    (show 16 < 28 by decide) rfl rfl
    (comes_of_walk hpadding (sound_seek ⟨by decide, by decide⟩ (by decide))
      (show 30 < 2 ^ 16 by decide) rfl rfl))

def cutSet : List UInt8 := [1, 0, 0, 12, 1, 0, 0, 4]

/-- A data set that is cut short is on the list, and what is there of it is read as a set. -/
theorem not_scans_cut : ¬ Scans Session.octetModel (scanOf cutSet []) := by
  have hbody : Walk Session.octetModel (scanOf cutSet []).xc.mem 20 (.ends [⟨256, 4, 20⟩]) :=
    walk_last ⟨rfl, rfl⟩ ⟨.inl (by decide), by decide, by decide⟩ (by decide) rfl
  have hset : (scanSet Session.octetModel ⟨256, 12, 16⟩).run (behind (scanOf cutSet []) 20) =
      (.ok (some ()), push ⟨256, 12, 16⟩ (behind (scanOf cutSet []) 20)) := rfl
  have hcomes : Comes Session.octetModel (.ends [⟨256, 12, 16⟩, ⟨256, 4, 20⟩])
      (scanOf cutSet []) :=
    comes_of_round [⟨256, 12, 16⟩] (o := .ends [⟨256, 4, 20⟩]) ⟨by decide, by decide⟩ (by decide)
      rfl hset (by decide) rfl rfl
      (comes_of_walk hbody ⟨by decide, by decide⟩ (by decide) rfl rfl)
  rw [scans_iff_of_comes_ends hcomes]
  intro h
  cases h with
  | data _ _ hroom => exact absurd hroom (by decide)
  | other hheader _ hroom =>
    obtain ⟨rfl, rfl⟩ := HeaderAt.unique ⟨rfl, rfl⟩ hheader
    exact absurd hroom (by decide)

end MBuf

end DStreamon.Ipfix
