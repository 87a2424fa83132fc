import DStreamon.Dns
import DStreamon.Proofs.Bloom

/-!
# What the steps of the DNS parser do

One lemma for each function says how it ends and what it leaves; the name loop and the sections then
follow from the rules for loops.
-/

namespace DStreamon

open Bytes (be16 be32 be16_of_lt be32_of_lt le_of_be16 getElem?_of_lt lt_of_getElem?)
open Loop (times Round loop_of_rounds)

/-- A call that returns, or throws what the capture loop catches. -/
def Caught {α : Type} : Except Abort α → Prop
  | .ok _ => True
  | .error e => ∃ what, e = .runtimeError what

theorem checked_ok {α : Type} {x : Option α} {a : α} (h : checked x = .ok a) : x = some a := by
  cases x with
  | none => cases h
  | some b => rw [Except.ok.inj h]

theorem ok_bind {α β : Type} (a : α) (f : α → Except Abort β) : (.ok a >>= f) = f a := (rfl)

theorem error_bind {α β : Type} (e : Abort) (f : α → Except Abort β) :
    (.error e >>= f) = .error e := (rfl)

theorem Caught.bind {α β : Type} {x : Except Abort α} {f : α → Except Abort β} (hx : Caught x)
    (hf : ∀ a, x = .ok a → Caught (f a)) : Caught (x >>= f) := by
  cases x with
  | error e => exact hx
  | ok a => exact hf a rfl

/-- A call that is caught, or reads outside. -/
def Tame {α : Type} (x : Except Abort α) : Prop := Caught x ∨ x = .error .overrun

theorem tame_overrun {α : Type} : Tame (.error .overrun : Except Abort α) := .inr rfl

theorem tame_runtimeError {α : Type} (what : String) :
    Tame (.error (.runtimeError what) : Except Abort α) := .inl ⟨what, rfl⟩

theorem Tame.error {α β : Type} {e : Abort} (h : Tame (.error e : Except Abort α)) :
    Tame (.error e : Except Abort β) := by
  obtain ⟨what, rfl⟩ | h := h
  · exact tame_runtimeError what
  · cases h
    exact tame_overrun

theorem tame_ok {α : Type} (a : α) : Tame (.ok a : Except Abort α) := .inl trivial

theorem Tame.bind {α β : Type} {x : Except Abort α} {f : α → Except Abort β} (hx : Tame x)
    (hf : ∀ a, x = .ok a → Tame (f a)) : Tame (x >>= f) := by
  cases x with
  | error e => exact hx.error
  | ok a => exact hf a rfl

theorem Tame.ite {α : Type} {c : Prop} [Decidable c] {x y : Except Abort α} (hx : c → Tame x)
    (hy : ¬ c → Tame y) : Tame (if c then x else y) := by
  by_cases h : c
  · rw [if_pos h]
    exact hx h
  · rw [if_neg h]
    exact hy h

theorem tame_checked {α : Type} (x : Option α) : Tame (checked x) := by
  cases x with
  | none => exact tame_overrun
  | some a => exact tame_ok a

namespace DnsResponse

variable {mem : List UInt8} {cachedNames : DescMap ℕ (List UInt8)} {s t : NameState}
  {q : QueryName} {lhsFirst : Bool} {r r' : DnsResponse} {len offset p : ℕ} {availableBytes : ℤ}

/-! ## Names -/

/-- What `expand` takes from the cache. -/
inductive Expands (cachedNames : DescMap ℕ (List UInt8)) (s : NameState) (offset : ℕ) :
    QueryName → Prop
  | whole {base : List UInt8} : cachedNames.lowerBound offset = some (offset, base) →
      Expands cachedNames s offset ⟨base, s.p + 2, s.availableBytes⟩
  | suffix {first : ℕ} {base : List UInt8} : cachedNames.lowerBound offset = some (first, base) →
      first < offset → offset - first < base.length →
      s.buffer.length + (base.length - (offset - first)) + 1 < dnsMaxLength →
      Expands cachedNames s offset
        ⟨cString (s.buffer ++ base.drop (offset - first)), s.p + 2, s.availableBytes⟩

theorem expand_spec (cachedNames : DescMap ℕ (List UInt8)) (s : NameState) (offset : ℕ) :
    (∃ what, expand cachedNames s offset = .error (.runtimeError what)) ∨
      ∃ q, expand cachedNames s offset = .ok q ∧ Expands cachedNames s offset q := by
  unfold expand
  cases hfind : cachedNames.lowerBound offset with
  | none => exact .inl ⟨_, rfl⟩
  | some e =>
    obtain ⟨first, base⟩ := e
    have hle : first ≤ offset := DescMap.lowerBound_le hfind
    simp only
    rw [if_neg (Nat.not_lt.2 hle)]
    by_cases heq : offset = first
    · subst heq
      exact .inr ⟨_, if_pos rfl, .whole hfind⟩
    · rw [if_neg heq]
      split_ifs with hlen hbuf
      · exact .inl ⟨_, rfl⟩
      · exact .inl ⟨_, rfl⟩
      · refine .inr ⟨_, rfl, .suffix hfind (by omega) (by omega) ?_⟩
        unfold dnsMaxLength at hbuf ⊢
        omega

/-- A label is taken over. -/
structure Labelled (mem : List UInt8) (s : NameState) (len : ℕ) (t : NameState) : Prop where
  budget : len ≤ s.availableBytes
  room : s.buffer.length + len + 1 < dnsMaxLength
  inside : s.p + 1 + len ≤ mem.length
  p : t.p = s.p + len + 1
  availableBytes : t.availableBytes = s.availableBytes - len
  buffer : t.buffer = s.buffer ++ (mem.drop (s.p + 1)).take len ++ [46]

theorem label_spec (mem : List UInt8) (s : NameState) (len : ℕ) :
    (∃ what, label mem s len = .error (.runtimeError what)) ∨
      (len ≤ s.availableBytes ∧ s.buffer.length + len + 1 < dnsMaxLength ∧
        mem.length < s.p + 1 + len ∧ label mem s len = .error .overrun) ∨
      ∃ t, label mem s len = .ok t ∧ Labelled mem s len t := by
  unfold label
  split_ifs with hbudget hroom hin
  · exact .inl ⟨_, rfl⟩
  · exact .inl ⟨_, rfl⟩
  · exact .inr (.inl ⟨by omega, by omega, hin, rfl⟩)
  · exact .inr (.inr ⟨_, rfl, by omega, by omega, by omega, rfl, rfl, rfl⟩)

/-- What a round of the name loop reads outside: the length byte, a pointer, or a label. -/
inductive ReadsOutside (mem : List UInt8) (s : NameState) : Prop
  | length : mem.length ≤ s.p → ReadsOutside mem s
  | pointer {c : UInt8} : mem[s.p]? = some c → c.toNat / 64 = 3 → 2 ≤ s.availableBytes →
      mem.length < s.p + 2 → ReadsOutside mem s
  | label {c : UInt8} : mem[s.p]? = some c → c ≠ 0 → c.toNat / 64 ≠ 3 →
      c.toNat % 64 ≤ s.availableBytes - 1 →
      s.buffer.length + c.toNat % 64 + 1 < dnsMaxLength →
      mem.length < s.p + 1 + c.toNat % 64 → ReadsOutside mem s

/-- One round of the name loop, all that it can do. -/
inductive NameOutcome (mem : List UInt8) (cachedNames : DescMap ℕ (List UInt8)) (s : NameState) :
    Except Abort (NameState ⊕ QueryName) → Prop
  | overrun : ReadsOutside mem s → NameOutcome mem cachedNames s (.error .overrun)
  | throw (what : String) : NameOutcome mem cachedNames s (.error (.runtimeError what))
  | terminator : mem[s.p]? = some 0 → NameOutcome mem cachedNames s (.ok (.inr (endOfName s)))
  | cutOff {c : UInt8} : mem[s.p]? = some c → c.toNat / 64 = 3 → s.availableBytes ≤ 1 →
      NameOutcome mem cachedNames s
        (.ok (.inr (endOfName { s with availableBytes := s.availableBytes - 1 })))
  | pointer {c : UInt8} {head : UInt16} {q : QueryName} : mem[s.p]? = some c → c.toNat / 64 = 3 →
      be16 mem s.p = some head → 2 ≤ s.availableBytes →
      Expands cachedNames { s with availableBytes := s.availableBytes - 1 - 1 }
        (head.toNat % 2 ^ 14) q →
      NameOutcome mem cachedNames s (.ok (.inr q))
  | label {c : UInt8} {t : NameState} : mem[s.p]? = some c → c ≠ 0 → c.toNat / 64 ≠ 3 →
      Labelled mem { s with availableBytes := s.availableBytes - 1 } (c.toNat % 64) t →
      NameOutcome mem cachedNames s (.ok (.inl t))

theorem nameStep_spec (mem : List UInt8) (cachedNames : DescMap ℕ (List UInt8)) (s : NameState) :
    NameOutcome mem cachedNames s (nameStep mem cachedNames s) := by
  unfold nameStep
  cases hc : mem[s.p]? with
  | none =>
    exact .overrun (.length (List.getElem?_eq_none_iff.1 hc))
  | some c =>
    change NameOutcome mem cachedNames s (if c = 0 then _ else _)
    by_cases hzero : c = 0
    · rw [if_pos hzero]
      exact .terminator (hzero ▸ hc)
    · rw [if_neg hzero]
      by_cases hptr : c.toNat / 64 = 3
      · simp only [if_pos hptr]
        by_cases hcut : s.availableBytes - 1 < 1
        · rw [if_pos hcut]
          exact .cutOff hc hptr (by omega)
        · rw [if_neg hcut]
          cases hhead : be16 mem s.p with
          | none =>
            have hle : ¬ s.p + 2 ≤ mem.length := fun h => by
              obtain ⟨v, hv⟩ := be16_of_lt h
              exact absurd (hhead.symm.trans hv) (Option.some_ne_none v).symm
            exact .overrun (.pointer hc hptr (by omega) (Nat.not_le.1 hle))
          | some head =>
            obtain ⟨what, hwhat⟩ | ⟨q, hq, hexp⟩ := expand_spec cachedNames
              { s with availableBytes := s.availableBytes - 1 - 1 } (head.toNat % 2 ^ 14)
            · simp only [checked, bind, Except.bind, hwhat]
              exact .throw what
            · simp only [checked, bind, Except.bind, hq]
              exact .pointer hc hptr hhead (by omega) hexp
      · simp only [if_neg hptr]
        obtain ⟨what, hwhat⟩ | ⟨hle, hroom, hout, hover⟩ | ⟨t, ht, hlab⟩ := label_spec mem
          { s with availableBytes := s.availableBytes - 1 } (c.toNat % 64)
        · rw [hwhat]
          exact .throw what
        · rw [hover]
          exact .overrun (.label hc hzero hptr hle hroom hout)
        · rw [ht]
          exact .label hc hzero hptr hlab

/-- What a round has to keep or bring about. -/
def NameNext (Inv : NameState → Prop) (Post : Except Abort QueryName → Prop) :
    Except Abort (NameState ⊕ QueryName) → Prop
  | .error e => Post (.error e)
  | .ok (.inl t) => Inv t
  | .ok (.inr q) => Post (.ok q)

theorem nameStep_measure (h : nameStep mem cachedNames s = .ok (.inl t)) :
    mem.length - t.p < mem.length - s.p := by
  have hspec := nameStep_spec mem cachedNames s
  rw [h] at hspec
  cases hspec with
  | label hc _ _ hlab =>
    have hlt := lt_of_getElem? hc
    have hp : t.p = s.p + _ + 1 := hlab.p
    omega

theorem round_of_next {Inv : NameState → Prop} {Post : Except Abort QueryName → Prop}
    (h : NameNext Inv Post (nameStep mem cachedNames s)) :
    Round (nameStep mem cachedNames) Inv (fun s => mem.length - s.p) Post s := by
  unfold Round
  cases hstep : nameStep mem cachedNames s with
  | error e =>
    rw [hstep] at h
    exact h
  | ok r =>
    rw [hstep] at h
    cases r with
    | inl t => exact ⟨h, nameStep_measure hstep⟩
    | inr q => exact h

/-- The name loop comes to its end with what its rounds keep. -/
theorem getQueryName_rule {I : NameState → Prop} {R : Except Abort QueryName → Prop}
    (hnext : ∀ s o, I s → NameOutcome mem cachedNames s o → NameNext I R o)
    (hs : I ⟨p, availableBytes, []⟩) : R (getQueryName mem cachedNames p availableBytes) :=
  loop_of_rounds (fun s hs => round_of_next (hnext s _ hs (nameStep_spec _ _ s))) hs
    (Nat.lt_succ_of_le (Nat.sub_le _ _))

/-! ## Questions and records -/

theorem insert_readCache (name : List UInt8) : (readCache lhsFirst r p).insert (r.offsetOf p) name =
    r.cachedNames.insert (r.offsetOf p) name := by
  unfold readCache
  split_ifs
  · exact DescMap.insert_insert ..
  · rfl

theorem cacheName_error {e : Abort}
    (h : getQueryName mem (readCache lhsFirst r p) p r.availableBytes = .error e) :
    cacheName mem lhsFirst r p = .error e := by
  unfold cacheName
  simp only [h, bind, Except.bind]

theorem cacheName_ok {r' : DnsResponse × QueryName} (h : cacheName mem lhsFirst r p = .ok r') :
    ∃ q, getQueryName mem (readCache lhsFirst r p) p r.availableBytes = .ok q ∧
      r' = ({ r with
        cachedNames := (readCache lhsFirst r p).insert (r.offsetOf p) q.name
        availableBytes := q.availableBytes }, q) := by
  obtain ⟨q, hq, h⟩ := bind_ok h
  exact ⟨q, hq, (Except.ok.inj h).symm⟩

theorem question_ok (h : question mem lhsFirst r = .ok r') :
    ∃ q, getQueryName mem (readCache lhsFirst r r.data) r.data r.availableBytes = .ok q ∧
      r' = { r with
        cachedNames := (readCache lhsFirst r r.data).insert (r.offsetOf r.data) q.name
        lastAliasOffset := r.offsetOf r.data
        data := q.newData + 4
        availableBytes := q.availableBytes - 4 } := by
  obtain ⟨⟨r₁, q₁⟩, h₁, h⟩ := bind_ok h
  obtain ⟨q, hq, heq⟩ := cacheName_ok h₁
  obtain ⟨rfl, rfl⟩ := Prod.mk.inj heq
  exact ⟨q₁, hq, (Except.ok.inj h).symm⟩

/-- The owner name at `data` is a pointer and nothing else. -/
def PointerAt (mem : List UInt8) (p : ℕ) : Prop :=
  ∃ head, be16 mem p = some head ∧ head.toNat / 2 ^ 14 = 3

/-- How `owner` ends well. -/
inductive OwnerStep (mem : List UInt8) (lhsFirst : Bool) (r : DnsResponse) : DnsResponse → Prop
  | pointer : PointerAt mem r.data →
      OwnerStep mem lhsFirst r
        { r with data := r.data + 2, availableBytes := r.availableBytes - 2 }
  | name {q : QueryName} : ¬ PointerAt mem r.data →
      getQueryName mem (readCache lhsFirst r r.data) r.data r.availableBytes = .ok q →
      OwnerStep mem lhsFirst r { r with
        cachedNames := (readCache lhsFirst r r.data).insert (r.offsetOf r.data) q.name
        availableBytes := q.availableBytes
        data := q.newData }

theorem owner_ok (h : owner mem lhsFirst r = .ok r') : OwnerStep mem lhsFirst r r' := by
  obtain ⟨head, hhead, h⟩ := bind_ok h
  have hhead := checked_ok hhead
  by_cases hptr : head.toNat / 2 ^ 14 = 3
  · simp only [if_pos hptr] at h
    exact Except.ok.inj h ▸ .pointer ⟨head, hhead, hptr⟩
  · simp only [if_neg hptr] at h
    obtain ⟨⟨r₁, q₁⟩, h₁, h⟩ := bind_ok h
    obtain ⟨q, hq, heq⟩ := cacheName_ok h₁
    obtain ⟨rfl, rfl⟩ := Prod.mk.inj heq
    refine Except.ok.inj h ▸ .name (fun ⟨head', hhead', hptr'⟩ => hptr ?_) hq
    rwa [Option.some.inj (hhead.symm.trans hhead')]

/-- How `rdata` ends well. -/
inductive RdataStep (mem : List UInt8) (lhsFirst : Bool) (r : DnsResponse) (length : ℕ) :
    UInt16 → DnsResponse → Prop
  | address {ip : UInt32} : length = 4 → be32 mem (r.data + 10) = some ip →
      RdataStep mem lhsFirst r length 1 { r with
        availableBytes := r.availableBytes - 4
        ipList := r.ipList ++ [ip]
        data := r.data + 10 + length }
  | cname {q : QueryName} : length ≠ 0 →
      getQueryName mem (readCache lhsFirst r (r.data + 10)) (r.data + 10) r.availableBytes = .ok q →
      RdataStep mem lhsFirst r length 5 { r with
        cachedNames :=
          (readCache lhsFirst r (r.data + 10)).insert (r.offsetOf (r.data + 10)) q.name
        availableBytes := q.availableBytes
        lastAliasOffset := r.offsetOf (r.data + 10)
        data := r.data + 10 + length }
  | other {type : UInt16} : type ≠ 1 → type ≠ 5 →
      RdataStep mem lhsFirst r length type { r with
        availableBytes := r.availableBytes - length
        data := r.data + 10 + length }

theorem rdata_ok {type : UInt16} {length : ℕ} (h : rdata mem lhsFirst r type length = .ok r') :
    RdataStep mem lhsFirst r length type r' := by
  unfold rdata at h
  by_cases ha : type = 1
  · subst ha
    rw [if_pos rfl] at h
    by_cases hlen : length = 4
    · rw [if_neg (not_not.2 hlen)] at h
      obtain ⟨ip, hip, h⟩ := bind_ok h
      exact Except.ok.inj h ▸ .address hlen (checked_ok hip)
    · rw [if_pos hlen] at h
      cases h
  · rw [if_neg ha] at h
    by_cases hc : type = 5
    · subst hc
      rw [if_pos rfl] at h
      by_cases hlen : length = 0 ∨ r.availableBytes < length
      · rw [if_pos hlen] at h
        cases h
      · rw [if_neg hlen] at h
        obtain ⟨⟨r₁, q₁⟩, h₁, h⟩ := bind_ok h
        obtain ⟨q, hq, heq⟩ := cacheName_ok h₁
        obtain ⟨rfl, rfl⟩ := Prod.mk.inj heq
        exact Except.ok.inj h ▸ .cname (fun h => hlen (.inl h)) hq
    · rw [if_neg hc] at h
      exact Except.ok.inj h ▸ .other ha hc

/-- How a record is parsed: owner, attributes, data. -/
structure RecordStep (mem : List UInt8) (lhsFirst : Bool) (r r₁ r' : DnsResponse) (type : UInt16)
    (length : ℕ) : Prop where
  budget : 10 ≤ r.availableBytes
  ownerOk : owner mem lhsFirst r = .ok r₁
  typeAt : be16 mem r₁.data = some type
  lengthAt : ∃ l, be16 mem (r₁.data + 8) = some l ∧ l.toNat = length
  left : length ≤ r₁.availableBytes - 10
  rdataStep : RdataStep mem lhsFirst { r₁ with availableBytes := r₁.availableBytes - 10 } length
    type r'

theorem parseRecord_ok (h : parseRecord mem lhsFirst r = .ok r') :
    ∃ r₁ type length, RecordStep mem lhsFirst r r₁ r' type length := by
  unfold parseRecord at h
  by_cases hbudget : r.availableBytes < 10
  · rw [if_pos hbudget] at h
    cases h
  · rw [if_neg hbudget] at h
    obtain ⟨r₁, howner, h⟩ := bind_ok h
    obtain ⟨type, htype, h⟩ := bind_ok h
    obtain ⟨length, hlength, h⟩ := bind_ok h
    simp only at h
    by_cases hleft : r₁.availableBytes - 10 < length.toNat
    · rw [if_pos hleft] at h
      cases h
    · rw [if_neg hleft] at h
      exact ⟨r₁, type, _, by omega, howner, checked_ok htype,
        ⟨length, checked_ok hlength, rfl⟩, by omega, rdata_ok h⟩

/-- The records of all sections. -/
def recordNumber (head : DnsHeader) : ℕ :=
  head.answerRecordNumber.toNat + head.authRecordNumber.toNat + head.additionalRecordNumber.toNat

/-- One question, then the records of all sections in a row. -/
theorem new_eq {head : DnsHeader} (data : ℕ) (h : isBad head = false) :
    new mem lhsFirst data head = question mem lhsFirst (init data head) >>=
      times (parseRecord mem lhsFirst) (recordNumber head) := by
  have hone : head.questionNumber = 1 := by
    by_contra hne
    simp [isBad, hne] at h
  unfold new
  rw [hone, show (1 : UInt16).toNat = 1 from rfl, Loop.times_one]
  refine congrArg (question mem lhsFirst (init data head) >>= ·) (funext fun r => ?_)
  rw [recordNumber, Loop.times_add, Loop.times_add]
  exact (bind_assoc _ _ _).symm

/-! ## Messages -/

/-- `DnsHeader::parse` of all bytes, then `DnsResponse::parse`. -/
def message (mem : List UInt8) (lhsFirst : Bool) : Except Abort (Option DnsResponse) := do
  let head ← DnsHeader.parse mem (some 0) mem.length
  parse mem lhsFirst head

/-- The parser comes to the question of the message, in state `r`. -/
def AtQuestion (mem : List UInt8) (head : DnsHeader) (r : DnsResponse) : Prop :=
  DnsHeader.parse mem (some 0) mem.length = .ok head ∧ isBad head = false ∧
    ∃ data, head.data = some data ∧ r = init data head

/-- The budget is what is left of the packet. -/
def Tight (mem : List UInt8) (p : ℕ) (availableBytes : ℤ) : Prop := availableBytes + p = mem.length

theorem checked_be16 {m : List UInt8} {i : ℕ} (h : i + 2 ≤ m.length) :
    ∃ v, checked (be16 m i) = .ok v := by
  obtain ⟨v, hv⟩ := be16_of_lt h
  exact ⟨v, by rw [hv]; rfl⟩

theorem header_new (hlen : 40 ≤ mem.length) (payload : ℤ) :
    ∃ head, DnsHeader.new mem 0 payload = .ok head ∧ head.data = some 40 ∧
      head.dnsPayloadLength = payload := by
  obtain ⟨id, hid⟩ := checked_be16 (m := mem) (i := 0 + 28) (by omega)
  obtain ⟨flags, hflags⟩ := checked_be16 (m := mem) (i := 0 + 30) (by omega)
  obtain ⟨qd, hqd⟩ := checked_be16 (m := mem) (i := 0 + 32) (by omega)
  obtain ⟨an, han⟩ := checked_be16 (m := mem) (i := 0 + 34) (by omega)
  obtain ⟨ns, hns⟩ := checked_be16 (m := mem) (i := 0 + 36) (by omega)
  obtain ⟨ar, har⟩ := checked_be16 (m := mem) (i := 0 + 38) (by omega)
  unfold DnsHeader.new
  rw [hid, hflags, hqd, han, hns, har]
  exact ⟨_, rfl, rfl, rfl⟩

/-- With a header's bytes the header is parsed, or found to be no DNS. -/
theorem header_parse (hlen : 40 ≤ mem.length) :
    ∃ head, DnsHeader.parse mem (some 0) mem.length = .ok head ∧
      (head.data = none ∨ head.data = some 40 ∧ head.dnsPayloadLength = mem.length - 40) := by
  obtain ⟨verHlen, hver⟩ := Bytes.getElem?_of_lt (m := mem) (i := 0) (by omega)
  obtain ⟨protocol, hproto⟩ := Bytes.getElem?_of_lt (m := mem) (i := 0 + 9) (by omega)
  obtain ⟨sp, hsp⟩ := checked_be16 (m := mem) (i := 0 + 20) (by omega)
  obtain ⟨dp, hdp⟩ := checked_be16 (m := mem) (i := 0 + 22) (by omega)
  obtain ⟨length, hlength⟩ := checked_be16 (m := mem) (i := 0 + 24) (by omega)
  obtain ⟨head, hnew, hdata, hpay⟩ := header_new hlen (mem.length - DnsHeader.size)
  have hport : ∃ port, (if sp = 53 then .ok 53 else checked (be16 mem (0 + 22))) = .ok port := by
    by_cases h : sp = 53
    · exact ⟨53, if_pos h⟩
    · exact ⟨dp, (if_neg h).trans hdp⟩
  obtain ⟨port, hport⟩ := hport
  have hsize : ¬ mem.length < DnsHeader.size := Nat.not_lt.2 hlen
  simp only [DnsHeader.parse, if_neg hsize, hver, hproto, checked, bind, Except.bind]
  split_ifs
  · simp only [DnsHeader.parseUdp, hsp, hport, hlength, bind, Except.bind]
    split_ifs
    · exact ⟨head, hnew, .inr ⟨hdata, hpay⟩⟩
    · exact ⟨_, rfl, .inl rfl⟩
    · exact ⟨_, rfl, .inl rfl⟩
  · exact ⟨_, rfl, .inl rfl⟩
  · exact ⟨_, rfl, .inl rfl⟩

theorem AtQuestion.tight {head : DnsHeader} (hlen : 40 ≤ mem.length) (h : AtQuestion mem head r) :
    Tight mem r.data r.availableBytes := by
  obtain ⟨hparse, -, data, hdata, rfl⟩ := h
  obtain ⟨head', hparse', hnone | ⟨hdata', hpay⟩⟩ := header_parse hlen
  · obtain rfl := Except.ok.inj (hparse.symm.trans hparse')
    rw [hnone] at hdata
    cases hdata
  · obtain rfl := Except.ok.inj (hparse.symm.trans hparse')
    obtain rfl := Option.some.inj (hdata.symm.trans hdata')
    unfold Tight init
    simp only [hpay]
    omega

/-- Past the header there is nothing to read, or the question and the records are. -/
theorem message_eq (lhsFirst : Bool) (hlen : 40 ≤ mem.length) :
    (message mem lhsFirst = .ok none ∧ ∀ head r, ¬ AtQuestion mem head r) ∨
      ∃ head r, AtQuestion mem head r ∧
        (∀ head' r', AtQuestion mem head' r' → head' = head ∧ r' = r) ∧
        message mem lhsFirst = (question mem lhsFirst r >>=
          times (parseRecord mem lhsFirst) (recordNumber head)) >>= fun r => .ok (some r) := by
  obtain ⟨head, hparse, -⟩ := header_parse hlen
  have hmessage : message mem lhsFirst = parse mem lhsFirst head := by
    unfold message
    rw [hparse]
    rfl
  rw [hmessage, parse]
  cases hdata : head.data with
  | none =>
    refine .inl ⟨rfl, fun head' r h => ?_⟩
    obtain ⟨hparse', -, data, hdata', -⟩ := h
    obtain rfl := Except.ok.inj (hparse.symm.trans hparse')
    rw [hdata] at hdata'
    cases hdata'
  | some data =>
    simp only
    by_cases hbad : isBad head = true
    · rw [if_pos hbad]
      refine .inl ⟨rfl, fun head' r h => ?_⟩
      obtain ⟨hparse', hgood, -⟩ := h
      obtain rfl := Except.ok.inj (hparse.symm.trans hparse')
      rw [hbad] at hgood
      cases hgood
    · have hgood : isBad head = false := Bool.not_eq_true _ ▸ hbad
      rw [if_neg hbad, new_eq data hgood]
      refine .inr ⟨head, _, ⟨hparse, hgood, data, hdata, rfl⟩, fun head' r' h => ?_, rfl⟩
      obtain ⟨hparse', -, data', hdata', rfl⟩ := h
      obtain rfl := Except.ok.inj (hparse.symm.trans hparse')
      obtain rfl := Option.some.inj (hdata.symm.trans hdata')
      exact ⟨rfl, rfl⟩

end DnsResponse

end DStreamon
