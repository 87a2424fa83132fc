import DStreamon.DnsMessage
import DStreamon.Proofs.DnsNames

/-!
# Where the DNS parser stays inside of the packet

What the parser reads is told from the bytes alone: the labels of a name lead from one length byte
to the next, a record is behind the one before it, and where the message seems to end is moved by
each `CNAME` whose name is not as long as its record says.
-/

namespace DStreamon

open Bytes (be16 be32 be16_of_lt be32_of_lt be16_eq_none be32_eq_none)
open Loop (loop times)
open DnsMessage (origin questionAt)

namespace DnsResponse

variable {mem : List UInt8} {cachedNames names names' : DescMap ℕ (List UInt8)} {s t : NameState}
  {q : QueryName} {lhsFirst : Bool} {r r' r₁ : DnsResponse} {len p a i o n length : ℕ}
  {availableBytes e : ℤ} {type : UInt16} {text : List UInt8}

/-! ## A name's bytes -/

/-- The labels at `p`, with `text` in them, lead to the length byte at `i`: none goes past `e`, and
the name has room for them. -/
inductive Labels (mem : List UInt8) (e : ℤ) (p : ℕ) : ℕ → List UInt8 → Prop
  | start : Labels mem e p p []
  | label {i : ℕ} {c : UInt8} {text : List UInt8} : Labels mem e p i text → mem[i]? = some c →
      c ≠ 0 → c.toNat / 64 ≠ 3 → i + 1 + c.toNat % 64 ≤ e →
      text.length + c.toNat % 64 + 1 < dnsMaxLength →
      Labels mem e p (i + c.toNat % 64 + 1) (text ++ (mem.drop (i + 1)).take (c.toNat % 64) ++ [46])

/-- A pointer begins at `i`. -/
def PointerByte (mem : List UInt8) (i : ℕ) : Prop := ∃ c, mem[i]? = some c ∧ c.toNat / 64 = 3

/-- The name at `p` lies in the packet: each length byte its labels lead to, and the pointer behind
them unless it goes past `e`. -/
structure NameInside (mem : List UInt8) (e : ℤ) (p : ℕ) : Prop where
  lengths : ∀ i text, Labels mem e p i text → i < mem.length
  pointer : ∀ i text, Labels mem e p i text → PointerByte mem i → i + 2 ≤ e → i + 2 ≤ mem.length

/-- A pointer to the offset `o` behind `text` makes `name` of the names in front: it points to one,
or into the last one before it. -/
inductive PointsTo (names : DescMap ℕ (List UInt8)) (o : ℕ) (text : List UInt8) :
    List UInt8 → Prop
  | whole {name : List UInt8} : names.lowerBound o = some (o, name) → PointsTo names o text name
  | suffix {first : ℕ} {base : List UInt8} : names.lowerBound o = some (first, base) →
      first < o → o - first < base.length →
      text.length + (base.length - (o - first)) + 1 < dnsMaxLength →
      PointsTo names o text (cString (text ++ base.drop (o - first)))

/-- The name at `p`, where `names` are in front, and the place behind it: it ends with a
terminator, with a pointer that goes past `e`, or with one to the names in front. -/
inductive NameAt (mem : List UInt8) (names : DescMap ℕ (List UInt8)) (e : ℤ) (p : ℕ) :
    List UInt8 → ℕ → Prop
  | terminator {i : ℕ} {text : List UInt8} : Labels mem e p i text → mem[i]? = some 0 →
      NameAt mem names e p (cString text.dropLast) (i + 1)
  | cutOff {i : ℕ} {text : List UInt8} : Labels mem e p i text → PointerByte mem i → e < i + 2 →
      NameAt mem names e p (cString text.dropLast) (i + 1)
  | pointer {i : ℕ} {text name : List UInt8} {head : UInt16} : Labels mem e p i text →
      PointerByte mem i → i + 2 ≤ e → be16 mem i = some head →
      PointsTo names (head.toNat % 2 ^ 14) text name → NameAt mem names e p name (i + 2)

/-! ## Records, one behind the other -/

/-- How pointers count a place. -/
def offset (p : ℕ) : ℕ := (p - origin) % 2 ^ 16

/-- The names in front of the one at `p`.  Where the left side of an assignment is evaluated first,
that one is among them, and empty. -/
def inFront (lhsFirst : Bool) (names : DescMap ℕ (List UInt8)) (p : ℕ) : DescMap ℕ (List UInt8) :=
  if lhsFirst ∧ names.find (offset p) = none then names.insert (offset p) [] else names

/-- Where a record begins, the names in front of it, and where the message seems to end. -/
structure Place where
  names : DescMap ℕ (List UInt8)
  data : ℕ
  limit : ℤ

/-- Behind the owner name of the record at `P` are these names, and the attributes at `a`. -/
inductive OwnerAt (mem : List UInt8) (lhsFirst : Bool) (P : Place) :
    DescMap ℕ (List UInt8) → ℕ → Prop
  | pointer : PointerAt mem P.data → OwnerAt mem lhsFirst P P.names (P.data + 2)
  | name {text : List UInt8} {a : ℕ} : ¬ PointerAt mem P.data →
      NameAt mem (inFront lhsFirst P.names P.data) P.limit P.data text a →
      OwnerAt mem lhsFirst P (P.names.insert (offset P.data) text) a

/-- The attributes at `a`, with data that does not go past `e`. -/
structure AttributesAt (mem : List UInt8) (e : ℤ) (a : ℕ) (type : UInt16) (length : ℕ) :
    Prop where
  typeAt : be16 mem a = some type
  lengthAt : ∃ l, be16 mem (a + 8) = some l ∧ l.toNat = length
  room : a + 10 + length ≤ e

/-- The record at `P` lies in the packet: the first word of its owner name and the rest of it, its
attributes, an address, and the name in a `CNAME`. -/
structure RecordInside (mem : List UInt8) (lhsFirst : Bool) (P : Place) : Prop where
  owner : P.data + 2 ≤ mem.length
  ownerName : ¬ PointerAt mem P.data → NameInside mem P.limit P.data
  attributes : ∀ names a, OwnerAt mem lhsFirst P names a → a + 10 ≤ mem.length
  address : ∀ names a, OwnerAt mem lhsFirst P names a → AttributesAt mem P.limit a 1 4 →
    a + 14 ≤ mem.length
  target : ∀ names a length, OwnerAt mem lhsFirst P names a →
    AttributesAt mem P.limit a 5 length → length ≠ 0 → NameInside mem P.limit (a + 10)

/-- The record behind the one at `P`.  Behind a `CNAME` the message seems to end as many bytes later
as its data is longer than the name in it. -/
inductive NextRecord (mem : List UInt8) (lhsFirst : Bool) (P : Place) : Place → Prop
  | plain {names : DescMap ℕ (List UInt8)} {a length : ℕ} {type : UInt16} :
      OwnerAt mem lhsFirst P names a → AttributesAt mem P.limit a type length → type ≠ 5 →
      (type = 1 → length = 4) → NextRecord mem lhsFirst P ⟨names, a + 10 + length, P.limit⟩
  | cname {names : DescMap ℕ (List UInt8)} {a b length : ℕ} {text : List UInt8} :
      OwnerAt mem lhsFirst P names a → AttributesAt mem P.limit a 5 length → length ≠ 0 →
      NameAt mem (inFront lhsFirst names (a + 10)) P.limit (a + 10) text b →
      NextRecord mem lhsFirst P
        ⟨names.insert (offset (a + 10)) text, a + 10 + length, P.limit + (a + 10 + length - b)⟩

/-- `n` records from `P` on lie in the packet, up to the first that has not ten bytes up to where
the message seems to end or that nothing follows. -/
def RecordsInside (mem : List UInt8) (lhsFirst : Bool) : ℕ → Place → Prop
  | 0, _ => True
  | n + 1, P => P.data + 10 ≤ P.limit → RecordInside mem lhsFirst P ∧
      ∀ P', NextRecord mem lhsFirst P P' → RecordsInside mem lhsFirst n P'

/-! ## Names are read as their bytes say -/

theorem Expands.pointsTo (h : Expands cachedNames s o q) :
    PointsTo cachedNames o s.buffer q.name ∧ q.newData = s.p + 2 ∧
      q.availableBytes = s.availableBytes := by
  cases h with
  | whole hbase => exact ⟨.whole hbase, rfl, rfl⟩
  | suffix hbase hlt hlen hroom => exact ⟨.suffix hbase hlt hlen hroom, rfl, rfl⟩

theorem expand_of_pointsTo (h : PointsTo cachedNames o s.buffer text) :
    expand cachedNames s o = .ok ⟨text, s.p + 2, s.availableBytes⟩ := by
  unfold expand
  cases h with
  | whole hbase =>
    simp only [hbase]
    rw [if_neg (lt_irrefl o), if_pos trivial]
  | @suffix first base hbase hlt hlen hroom =>
    simp only [hbase]
    rw [if_neg (by omega), if_neg hlt.ne', if_neg (by omega), if_neg]
    unfold dnsMaxLength at hroom ⊢
    omega

theorem nameStep_outside (h : mem.length ≤ s.p) :
    nameStep mem cachedNames s = .error .overrun := by
  unfold nameStep
  rw [List.getElem?_eq_none_iff.2 h]
  rfl

theorem nameStep_terminator (hc : mem[s.p]? = some 0) :
    nameStep mem cachedNames s = .ok (.inr (endOfName s)) := by
  unfold nameStep
  rw [hc]
  rfl

theorem nameStep_cutOff (hptr : PointerByte mem s.p) (hcut : s.availableBytes ≤ 1) :
    nameStep mem cachedNames s =
      .ok (.inr (endOfName { s with availableBytes := s.availableBytes - 1 })) := by
  obtain ⟨c, hc, h3⟩ := hptr
  have hzero : c ≠ 0 := by
    rintro rfl
    cases h3
  unfold nameStep
  rw [hc]
  change (if c = 0 then _ else _) = _
  rw [if_neg hzero, if_pos h3]
  exact if_pos (by simp only; omega)

theorem nameStep_pointer (hptr : PointerByte mem s.p) (hwhole : 2 ≤ s.availableBytes) :
    nameStep mem cachedNames s = checked (be16 mem s.p) >>= fun head =>
      expand cachedNames { s with availableBytes := s.availableBytes - 1 - 1 }
        (head.toNat % 2 ^ 14) >>= fun q => .ok (.inr q) := by
  obtain ⟨c, hc, h3⟩ := hptr
  have hzero : c ≠ 0 := by
    rintro rfl
    cases h3
  unfold nameStep
  rw [hc]
  change (if c = 0 then _ else _) = _
  rw [if_neg hzero, if_pos h3]
  exact if_neg (by simp only; omega)

theorem nameStep_label {c : UInt8} (hc : mem[s.p]? = some c) (hzero : c ≠ 0)
    (hno : c.toNat / 64 ≠ 3) (hbudget : c.toNat % 64 ≤ s.availableBytes - 1)
    (hroom : s.buffer.length + c.toNat % 64 + 1 < dnsMaxLength) :
    nameStep mem cachedNames s =
      if mem.length < s.p + 1 + c.toNat % 64 then .error .overrun else .ok (.inl {
        p := s.p + c.toNat % 64 + 1
        availableBytes := s.availableBytes - 1 - (c.toNat % 64 : ℕ)
        buffer := s.buffer ++ (mem.drop (s.p + 1)).take (c.toNat % 64) ++ [46] }) := by
  unfold nameStep
  rw [hc]
  change (if c = 0 then _ else _) = _
  rw [if_neg hzero, if_neg hno]
  unfold label
  simp only
  rw [if_neg (by omega), if_neg (Nat.not_le.2 hroom)]
  split_ifs
  · rfl
  · rfl

/-- A name that is read inside is read up to every length byte its labels lead to. -/
theorem loop_of_labels
    (hne : getQueryName mem cachedNames p availableBytes ≠ .error .overrun)
    (he : availableBytes + p = e) (h : Labels mem e p i text) : ∃ n, mem.length - i < n ∧
      getQueryName mem cachedNames p availableBytes =
        loop .outOfFuel (nameStep mem cachedNames) n ⟨i, e - i, text⟩ := by
  induction h with
  | start => exact ⟨mem.length + 1, by omega, by rw [getQueryName, ← he, add_sub_cancel_right]⟩
  | @label i c text hlabels hc hzero hno hbudget hroom ih =>
    obtain ⟨n, hn, hloop⟩ := ih
    obtain ⟨m, rfl⟩ : ∃ m, n = m + 1 := ⟨n - 1, by omega⟩
    have hlt := Bytes.lt_of_getElem? hc
    rw [loop, nameStep_label (s := ⟨i, e - i, text⟩) hc hzero hno (by simp only; omega)
      hroom] at hloop
    by_cases hout : mem.length < i + 1 + c.toNat % 64
    · rw [if_pos hout] at hloop
      exact absurd hloop hne
    · rw [if_neg hout] at hloop
      refine ⟨m, by omega, hloop.trans ?_⟩
      simp only
      congr 2
      push_cast
      omega

theorem nameInside_of_getQueryName
    (hne : getQueryName mem cachedNames p availableBytes ≠ .error .overrun)
    (he : availableBytes + p = e) : NameInside mem e p where
  lengths i text h := by
    obtain ⟨n, hn, hloop⟩ := loop_of_labels hne he h
    obtain ⟨m, rfl⟩ : ∃ m, n = m + 1 := ⟨n - 1, by omega⟩
    by_contra hout
    rw [loop, nameStep_outside (Nat.not_lt.1 hout)] at hloop
    exact hne hloop
  pointer i text h hptr hwhole := by
    obtain ⟨n, hn, hloop⟩ := loop_of_labels hne he h
    obtain ⟨m, rfl⟩ : ∃ m, n = m + 1 := ⟨n - 1, by omega⟩
    by_contra hout
    rw [loop, nameStep_pointer hptr (by simp only; omega),
      be16_eq_none (by simp only; omega)] at hloop
    exact hne hloop

/-- The budget behind a name is what is left up to `e`, or used up where `e` is. -/
def Counts (q : QueryName) (e : ℤ) : Prop :=
  q.availableBytes + q.newData = e ∨ q.availableBytes < 0 ∧ e ≤ q.newData

/-- A name that lies in the packet is read inside, and what comes of it is as its bytes say. -/
theorem getQueryName_spec (mem : List UInt8) (cachedNames : DescMap ℕ (List UInt8)) (p : ℕ)
    (availableBytes : ℤ) (he : availableBytes + p = e) :
    (NameInside mem e p → getQueryName mem cachedNames p availableBytes ≠ .error .overrun) ∧
      ∀ q, getQueryName mem cachedNames p availableBytes = .ok q →
        NameAt mem cachedNames e p q.name q.newData ∧ Counts q e := by
  refine getQueryName_rule (I := fun s => Labels mem e p s.p s.buffer ∧ s.availableBytes + s.p = e)
    (R := fun x => (NameInside mem e p → x ≠ .error .overrun) ∧
      ∀ q, x = .ok q → NameAt mem cachedNames e p q.name q.newData ∧ Counts q e)
    (fun s o hs ho => ?_) ⟨.start, he⟩
  obtain ⟨hlabels, hsum⟩ := hs
  cases ho with
  | overrun hout =>
    refine ⟨fun hin => ?_, nofun⟩
    cases hout with
    | length hout => exact absurd (hin.lengths _ _ hlabels) (Nat.not_lt.2 hout)
    | pointer hc h3 hwhole hout =>
      exact absurd (hin.pointer _ _ hlabels ⟨_, hc, h3⟩ (by omega)) (Nat.not_le.2 hout)
    | label hc hzero hno hbudget hroom hout =>
      have := hin.lengths _ _ (hlabels.label hc hzero hno (by omega) hroom)
      omega
  | throw what => exact ⟨fun _ => nofun, nofun⟩
  | terminator hc =>
    refine ⟨fun _ => nofun, fun q h => ?_⟩
    cases h
    refine ⟨.terminator hlabels hc, .inl ?_⟩
    unfold endOfName
    push_cast
    omega
  | cutOff hc h3 hcut =>
    refine ⟨fun _ => nofun, fun q h => ?_⟩
    cases h
    have hpast : e < s.p + 2 := by omega
    refine ⟨.cutOff hlabels ⟨_, hc, h3⟩ hpast, .inr ⟨?_, ?_⟩⟩
    · change s.availableBytes - 1 - 1 < 0
      omega
    · change e ≤ (s.p + 1 : ℕ)
      push_cast
      omega
  | pointer hc h3 hhead hwhole hexp =>
    refine ⟨fun _ => nofun, fun q h => ?_⟩
    cases h
    obtain ⟨hpoints, hdata, hav⟩ := hexp.pointsTo
    have hbefore : s.p + 2 ≤ e := by omega
    refine ⟨?_, .inl ?_⟩
    · rw [hdata]
      exact .pointer hlabels ⟨_, hc, h3⟩ hbefore hhead hpoints
    · rw [hdata, hav]
      push_cast
      omega
  | label hc hzero hno hlab =>
    have hp := hlab.p
    have hav := hlab.availableBytes
    have hbudget := hlab.budget
    simp only at hp hav hbudget
    refine ⟨?_, ?_⟩
    · rw [hp, hlab.buffer]
      exact hlabels.label hc hzero hno (by omega) hlab.room
    · rw [hp, hav]
      push_cast
      omega

/-- What the bytes say of a name the parser finds, unless it reads outside. -/
theorem getQueryName_of_nameAt
    (hne : getQueryName mem cachedNames p availableBytes ≠ .error .overrun)
    (he : availableBytes + p = e) (h : NameAt mem cachedNames e p text a) :
    ∃ q, getQueryName mem cachedNames p availableBytes = .ok q ∧ q.name = text ∧ q.newData = a := by
  cases h with
  | terminator hlabels hc =>
    obtain ⟨n, hn, hloop⟩ := loop_of_labels hne he hlabels
    obtain ⟨m, rfl⟩ : ∃ m, n = m + 1 := ⟨n - 1, by omega⟩
    rw [loop, nameStep_terminator hc] at hloop
    exact ⟨_, hloop, rfl, rfl⟩
  | cutOff hlabels hptr hcut =>
    obtain ⟨n, hn, hloop⟩ := loop_of_labels hne he hlabels
    obtain ⟨m, rfl⟩ : ∃ m, n = m + 1 := ⟨n - 1, by omega⟩
    rw [loop, nameStep_cutOff hptr (by simp only; omega)] at hloop
    exact ⟨_, hloop, rfl, rfl⟩
  | @pointer i spelled _ head hlabels hptr hwhole hhead hpoints =>
    obtain ⟨n, hn, hloop⟩ := loop_of_labels hne he hlabels
    obtain ⟨m, rfl⟩ : ∃ m, n = m + 1 := ⟨n - 1, by omega⟩
    rw [loop, nameStep_pointer hptr (by simp only; omega)] at hloop
    have hexp := expand_of_pointsTo (s := ⟨i, e - i - 1 - 1, spelled⟩) hpoints
    simp only [hhead, checked, bind, Except.bind, hexp] at hloop
    exact ⟨_, hloop, rfl, rfl⟩

/-! ## Owner names -/

theorem readCache_eq (hstart : r.start = origin) (p : ℕ) :
    readCache lhsFirst r p = inFront lhsFirst r.cachedNames p := by
  unfold readCache inFront offsetOf offset
  rw [hstart]

theorem offsetOf_origin (hstart : r.start = origin) (p : ℕ) : r.offsetOf p = offset p := by
  unfold offsetOf offset
  rw [hstart]

/-- Where the parser is, with what it has kept. -/
def place (r : DnsResponse) : Place := ⟨r.cachedNames, r.data, r.availableBytes + r.data⟩

/-- The parser is at `P`, and its budget is what is left up to the limit or used up. -/
structure Stands (r : DnsResponse) (P : Place) : Prop where
  start : r.start = origin
  names : r.cachedNames = P.names
  data : r.data = P.data
  counts : r.availableBytes + P.data = P.limit ∨ r.availableBytes < 0 ∧ P.limit ≤ P.data

theorem Stands.eq {P : Place} (h : Stands r P) (hbudget : 0 ≤ r.availableBytes) :
    P = place r := by
  obtain ⟨names, data, limit⟩ := P
  obtain ⟨-, rfl, rfl, hcounts⟩ := h
  have hlimit : r.availableBytes + r.data = limit := hcounts.resolve_right fun h => by omega
  rw [place, hlimit]

theorem Stands.room {P : Place} (h : Stands r P) :
    10 ≤ r.availableBytes ↔ P.data + 10 ≤ P.limit := by
  have := h.counts
  omega

theorem owner_outside (h : mem.length < r.data + 2) : owner mem lhsFirst r = .error .overrun := by
  unfold owner
  rw [be16_eq_none h]
  rfl

theorem owner_name (hlen : r.data + 2 ≤ mem.length) (hno : ¬ PointerAt mem r.data) :
    owner mem lhsFirst r = cacheName mem lhsFirst r r.data >>= fun x =>
      .ok { x.1 with data := x.2.newData } := by
  obtain ⟨head, hhead⟩ := be16_of_lt (m := mem) (i := r.data) (by omega)
  have hptr : ¬ head.toNat / 2 ^ 14 = 3 := fun hptr => hno ⟨head, hhead, hptr⟩
  unfold owner
  rw [hhead]
  change (if head.toNat / 2 ^ 14 = 3 then _ else _) = _
  rw [if_neg hptr]

theorem owner_pointer (hptr : PointerAt mem r.data) : owner mem lhsFirst r =
    .ok { r with data := r.data + 2, availableBytes := r.availableBytes - 2 } := by
  obtain ⟨head, hhead, h3⟩ := hptr
  unfold owner
  rw [hhead]
  change (if head.toNat / 2 ^ 14 = 3 then _ else _) = _
  rw [if_pos h3]

theorem bind_ok_ne {α β : Type} {x : Except Abort α} {f : α → β} {err : Abort} :
    (x >>= fun a => .ok (f a)) ≠ .error err ↔ x ≠ .error err := by
  cases x with
  | error err' => simp only [error_bind, ne_eq, Except.error.injEq]
  | ok a => exact iff_of_true nofun nofun

theorem cacheName_eq (h : getQueryName mem (readCache lhsFirst r p) p r.availableBytes = .ok q) :
    cacheName mem lhsFirst r p = .ok ({ r with
      cachedNames := (readCache lhsFirst r p).insert (r.offsetOf p) q.name
      availableBytes := q.availableBytes }, q) := by
  unfold cacheName
  simp only [h, bind, Except.bind]

theorem cacheName_inside (lhsFirst : Bool) (he : r.availableBytes + p = e) :
    cacheName mem lhsFirst r p ≠ .error .overrun ↔ NameInside mem e p := by
  constructor
  · intro h
    have hname : getQueryName mem (readCache lhsFirst r p) p r.availableBytes ≠ .error .overrun :=
      fun hover => h (cacheName_error hover)
    exact nameInside_of_getQueryName hname he
  · intro h
    have hne := (getQueryName_spec mem (readCache lhsFirst r p) p r.availableBytes he).1 h
    cases hq : getQueryName mem (readCache lhsFirst r p) p r.availableBytes with
    | error err =>
      rw [cacheName_error hq]
      rintro ⟨⟩
      exact hne hq
    | ok q =>
      rw [cacheName_eq hq]
      nofun

/-- A name that is kept is one the bytes say, and what they say is kept. -/
theorem cacheName_spec {x : DnsResponse × QueryName} (hstart : r.start = origin)
    (he : r.availableBytes + p = e) (h : cacheName mem lhsFirst r p = .ok x) :
    NameAt mem (inFront lhsFirst r.cachedNames p) e p x.2.name x.2.newData ∧ Counts x.2 e ∧
      x.1 = { r with
        cachedNames := r.cachedNames.insert (offset p) x.2.name
        availableBytes := x.2.availableBytes } := by
  obtain ⟨q, hq, rfl⟩ := cacheName_ok h
  obtain ⟨hname, hcounts⟩ := (getQueryName_spec mem _ p r.availableBytes he).2 q hq
  rw [readCache_eq hstart] at hname
  refine ⟨hname, hcounts, ?_⟩
  rw [insert_readCache, offsetOf_origin hstart]

theorem cacheName_of_nameAt (hstart : r.start = origin) (he : r.availableBytes + p = e)
    (hne : cacheName mem lhsFirst r p ≠ .error .overrun)
    (h : NameAt mem (inFront lhsFirst r.cachedNames p) e p text a) :
    ∃ x, cacheName mem lhsFirst r p = .ok x ∧ x.2.name = text ∧ x.2.newData = a := by
  rw [← readCache_eq hstart] at h
  obtain ⟨q, hq, rfl, rfl⟩ := getQueryName_of_nameAt (fun hover => hne (cacheName_error hover)) he h
  exact ⟨_, cacheName_eq hq, rfl, rfl⟩

theorem owner_inside (lhsFirst : Bool) : owner mem lhsFirst r ≠ .error .overrun ↔
    r.data + 2 ≤ mem.length ∧
      (¬ PointerAt mem r.data → NameInside mem (place r).limit r.data) := by
  by_cases hlen : r.data + 2 ≤ mem.length
  · rw [and_iff_right hlen]
    by_cases hptr : PointerAt mem r.data
    · rw [owner_pointer hptr]
      exact iff_of_true nofun fun h => absurd hptr h
    · have hname : cacheName mem lhsFirst r r.data ≠ .error .overrun ↔
          NameInside mem (place r).limit r.data := cacheName_inside lhsFirst rfl
      rw [owner_name hlen hptr, forall_prop_of_true hptr, ← hname]
      exact bind_ok_ne
  · exact iff_of_false (not_not.2 (owner_outside (Nat.not_le.1 hlen))) fun h => hlen h.1

theorem owner_stands (hstart : r.start = origin) (h : owner mem lhsFirst r = .ok r₁) :
    OwnerAt mem lhsFirst (place r) r₁.cachedNames r₁.data ∧
      Stands r₁ ⟨r₁.cachedNames, r₁.data, (place r).limit⟩ := by
  by_cases hptr : PointerAt mem r.data
  · rw [owner_pointer hptr] at h
    obtain rfl := Except.ok.inj h
    refine ⟨.pointer hptr, hstart, rfl, rfl, .inl ?_⟩
    simp only [place]
    push_cast
    omega
  · have hlen : r.data + 2 ≤ mem.length :=
      ((owner_inside lhsFirst).1 (by rw [h]; nofun)).1
    rw [owner_name hlen hptr] at h
    obtain ⟨x, hx, h⟩ := bind_ok h
    obtain rfl := Except.ok.inj h
    obtain ⟨hname, hcounts, hr⟩ := cacheName_spec hstart rfl hx
    rw [hr]
    exact ⟨.name hptr hname, hstart, rfl, rfl, hcounts⟩

theorem owner_of_ownerAt (hstart : r.start = origin)
    (hne : owner mem lhsFirst r ≠ .error .overrun)
    (h : OwnerAt mem lhsFirst (place r) names a) :
    ∃ r₁, owner mem lhsFirst r = .ok r₁ ∧ Stands r₁ ⟨names, a, (place r).limit⟩ := by
  obtain ⟨r₁, h₁, rfl, rfl⟩ :
      ∃ r₁, owner mem lhsFirst r = .ok r₁ ∧ r₁.cachedNames = names ∧ r₁.data = a := by
    cases h with
    | pointer hptr => exact ⟨_, owner_pointer hptr, rfl, rfl⟩
    | name hno hname =>
      have hin := (owner_inside lhsFirst).1 hne
      have hcache := (cacheName_inside lhsFirst rfl).2 (hin.2 hno)
      obtain ⟨x, hx, rfl, rfl⟩ := cacheName_of_nameAt hstart rfl hcache hname
      obtain ⟨-, -, hr⟩ := cacheName_spec hstart rfl hx
      rw [owner_name hin.1 hno, hx]
      exact ⟨_, rfl, by rw [hr]; rfl, rfl⟩
  exact ⟨r₁, h₁, (owner_stands hstart h₁).2⟩

/-! ## Records are read as their bytes say -/

/-- The budget without the attributes. -/
def pastAttributes (r : DnsResponse) : DnsResponse :=
  { r with availableBytes := r.availableBytes - 10 }

@[simp] theorem pastAttributes_data (r : DnsResponse) : (pastAttributes r).data = r.data := rfl

@[simp] theorem pastAttributes_availableBytes (r : DnsResponse) :
    (pastAttributes r).availableBytes = r.availableBytes - 10 := rfl

/-- From the attributes on, where their words can be read. -/
theorem parseRecord_eq {len : UInt16} (hbudget : 10 ≤ r.availableBytes)
    (h₁ : owner mem lhsFirst r = .ok r₁) (htype : be16 mem r₁.data = some type)
    (hlen : be16 mem (r₁.data + 8) = some len) :
    parseRecord mem lhsFirst r = if r₁.availableBytes - 10 < len.toNat
      then .error (.runtimeError "[DnsResponse] Packet too short for the attribute len.")
      else rdata mem lhsFirst (pastAttributes r₁) type len.toNat := by
  unfold parseRecord
  rw [if_neg (by omega), h₁]
  simp only [bind, Except.bind, htype, hlen, checked]
  rfl

theorem attributes_overrun (hbudget : 10 ≤ r.availableBytes) (h₁ : owner mem lhsFirst r = .ok r₁)
    (hout : mem.length < r₁.data + 8 + 2) : parseRecord mem lhsFirst r = .error .overrun := by
  unfold parseRecord
  rw [if_neg (by omega), h₁]
  simp only [bind, Except.bind, be16_eq_none hout, checked]
  cases be16 mem r₁.data with
  | none => rfl
  | some type => rfl

theorem parseRecord_attributes (hbudget : 10 ≤ r.availableBytes)
    (h₁ : owner mem lhsFirst r = .ok r₁) (hs₁ : Stands r₁ ⟨names, a, e⟩)
    (ha : AttributesAt mem e a type length) : parseRecord mem lhsFirst r =
      rdata mem lhsFirst (pastAttributes r₁) type length := by
  obtain ⟨len, hlen, rfl⟩ := ha.lengthAt
  have hroom := ha.room
  have hcounts := hs₁.counts
  obtain rfl := hs₁.data
  rw [parseRecord_eq hbudget h₁ ha.typeAt hlen]
  exact if_neg (by simp only at hcounts; omega)

theorem rdata_address (lhsFirst : Bool) (hlen : r.data + 14 ≤ mem.length) :
    ∃ ip, rdata mem lhsFirst r 1 4 = .ok { r with
      availableBytes := r.availableBytes - 4
      ipList := r.ipList ++ [ip]
      data := r.data + 10 + 4 } := by
  obtain ⟨ip, hip⟩ := be32_of_lt (m := mem) (i := r.data + 10) (by omega)
  refine ⟨ip, ?_⟩
  unfold rdata
  rw [if_pos rfl, if_neg (not_not.2 rfl), hip]
  rfl

theorem rdata_address_overrun (hout : mem.length < r.data + 14) :
    rdata mem lhsFirst r 1 4 = .error .overrun := by
  unfold rdata
  rw [if_pos rfl, if_neg (not_not.2 rfl), be32_eq_none (by omega)]
  rfl

theorem rdata_cname (hne : length ≠ 0) (hleft : length ≤ r.availableBytes) :
    rdata mem lhsFirst r 5 length = cacheName mem lhsFirst r (r.data + 10) >>= fun x =>
      .ok { x.1 with
        lastAliasOffset := r.offsetOf (r.data + 10)
        data := x.1.data + 10 + length } := by
  unfold rdata
  rw [if_neg (by decide), if_pos rfl, if_neg (by omega)]

theorem rdata_other (hone : type ≠ 1) (hfive : type ≠ 5) : rdata mem lhsFirst r type length =
    .ok { r with
      availableBytes := r.availableBytes - length
      data := r.data + 10 + length } := by
  unfold rdata
  rw [if_neg hone, if_neg hfive]

theorem cname_stands {x : DnsResponse × QueryName} {last : ℕ} (hstart : r.start = origin)
    (he : r.availableBytes + (r.data + 10 : ℕ) = e)
    (hx : cacheName mem lhsFirst r (r.data + 10) = .ok x) :
    Stands { x.1 with lastAliasOffset := last, data := x.1.data + 10 + length }
      ⟨r.cachedNames.insert (offset (r.data + 10)) x.2.name, r.data + 10 + length,
        e + (r.data + 10 + length - x.2.newData)⟩ := by
  obtain ⟨-, hcounts, hr⟩ := cacheName_spec hstart he hx
  rw [hr]
  refine ⟨hstart, rfl, rfl, ?_⟩
  unfold Counts at hcounts
  simp only
  push_cast
  omega

theorem rdata_inside (hleft : length ≤ r.availableBytes)
    (haddress : type = 1 → length = 4 → r.data + 14 ≤ mem.length)
    (htarget : type = 5 → length ≠ 0 →
      cacheName mem lhsFirst r (r.data + 10) ≠ .error .overrun) :
    rdata mem lhsFirst r type length ≠ .error .overrun := by
  by_cases hone : type = 1
  · subst hone
    by_cases hfour : length = 4
    · subst hfour
      obtain ⟨ip, hip⟩ := rdata_address lhsFirst (haddress rfl rfl)
      rw [hip]
      nofun
    · unfold rdata
      rw [if_pos rfl, if_pos hfour]
      nofun
  · by_cases hfive : type = 5
    · subst hfive
      by_cases hzero : length = 0
      · unfold rdata
        rw [if_neg hone, if_pos rfl, if_pos (.inl hzero)]
        nofun
      · rw [rdata_cname hzero hleft]
        exact bind_ok_ne.2 (htarget rfl hzero)
    · rw [rdata_other hone hfive]
      nofun

theorem recordInside_of_parseRecord (hstart : r.start = origin) (hbudget : 10 ≤ r.availableBytes)
    (hne : parseRecord mem lhsFirst r ≠ .error .overrun) :
    RecordInside mem lhsFirst (place r) := by
  have howner : owner mem lhsFirst r ≠ .error .overrun := by
    intro h
    refine hne ?_
    unfold parseRecord
    rw [if_neg (by omega), h]
    rfl
  obtain ⟨hword, hname⟩ := (owner_inside lhsFirst).1 howner
  refine ⟨hword, hname, fun names a hat => ?_, fun names a hat ha => ?_,
    fun names a length hat ha hzero => ?_⟩ <;>
    obtain ⟨r₁, h₁, hs₁⟩ := owner_of_ownerAt hstart howner hat
  · by_contra hout
    obtain rfl := hs₁.data
    exact hne (attributes_overrun hbudget h₁ (by omega))
  · by_contra hout
    refine hne ?_
    rw [parseRecord_attributes hbudget h₁ hs₁ ha]
    obtain rfl := hs₁.data
    exact rdata_address_overrun (Nat.not_le.1 hout)
  · have hcounts := hs₁.counts
    have hroom := ha.room
    have hrecord := parseRecord_attributes hbudget h₁ hs₁ ha
    obtain rfl := hs₁.data
    simp only at hcounts hroom
    have he : (pastAttributes r₁).availableBytes + (r₁.data + 10 : ℕ) = (place r).limit := by
      simp only [pastAttributes_availableBytes]
      push_cast
      omega
    refine (cacheName_inside lhsFirst he).1 fun hover => hne ?_
    rw [hrecord, rdata_cname hzero (by simp only [pastAttributes_availableBytes]; omega),
      pastAttributes_data, hover, error_bind]

theorem parseRecord_of_recordInside (hstart : r.start = origin) (hbudget : 10 ≤ r.availableBytes)
    (hin : RecordInside mem lhsFirst (place r)) :
    parseRecord mem lhsFirst r ≠ .error .overrun := by
  have howner : owner mem lhsFirst r ≠ .error .overrun :=
    (owner_inside lhsFirst).2 ⟨hin.owner, hin.ownerName⟩
  cases h₁ : owner mem lhsFirst r with
  | error err =>
    rw [h₁] at howner
    unfold parseRecord
    rw [if_neg (by omega), h₁]
    simpa only [error_bind, ne_eq, Except.error.injEq] using howner
  | ok r₁ =>
    obtain ⟨hat, hs₁⟩ := owner_stands hstart h₁
    have hten := hin.attributes _ _ hat
    have hcounts := hs₁.counts
    simp only at hcounts
    obtain ⟨type, htype⟩ := be16_of_lt (m := mem) (i := r₁.data) (by omega)
    obtain ⟨len, hlen⟩ := be16_of_lt (m := mem) (i := r₁.data + 8) (by omega)
    by_cases hleft : r₁.availableBytes - 10 < len.toNat
    · rw [parseRecord_eq hbudget h₁ htype hlen, if_pos hleft]
      nofun
    · have ha : AttributesAt mem (place r).limit r₁.data type len.toNat :=
        ⟨htype, ⟨len, hlen, rfl⟩, by omega⟩
      rw [parseRecord_attributes hbudget h₁ hs₁ ha]
      refine rdata_inside (by simp; omega) (fun hone hfour => ?_) fun hfive hzero => ?_
      · rw [hone, hfour] at ha
        exact hin.address _ _ hat ha
      · rw [hfive] at ha
        exact (cacheName_inside lhsFirst (by simp; omega)).2 (hin.target _ _ _ hat ha hzero)

/-- The parser does not leave the packet in a record that lies in it, and only there. -/
theorem parseRecord_inside (mem : List UInt8) (lhsFirst : Bool) {P : Place} (hs : Stands r P) :
    parseRecord mem lhsFirst r ≠ .error .overrun ↔
      (P.data + 10 ≤ P.limit → RecordInside mem lhsFirst P) := by
  rw [← hs.room]
  by_cases hbudget : 10 ≤ r.availableBytes
  · obtain rfl := hs.eq (by omega)
    rw [forall_prop_of_true hbudget]
    exact ⟨recordInside_of_parseRecord hs.start hbudget,
      parseRecord_of_recordInside hs.start hbudget⟩
  · refine iff_of_true ?_ fun h => absurd h hbudget
    unfold parseRecord
    rw [if_pos (by omega)]
    nofun

theorem nextRecord_of_parseRecord (hstart : r.start = origin)
    (h : parseRecord mem lhsFirst r = .ok r') :
    ∃ P, NextRecord mem lhsFirst (place r) P ∧ Stands r' P := by
  obtain ⟨r₁, type, length, hstep⟩ := parseRecord_ok h
  obtain ⟨hat, hs₁⟩ := owner_stands hstart hstep.ownerOk
  have hleft := hstep.left
  have hcounts := hs₁.counts
  simp only at hcounts
  have ha : AttributesAt mem (place r).limit r₁.data type length :=
    ⟨hstep.typeAt, hstep.lengthAt, by omega⟩
  have hrdata : RdataStep mem lhsFirst (pastAttributes r₁) length type r' := hstep.rdataStep
  have he : (pastAttributes r₁).availableBytes + (r₁.data + 10 : ℕ) = (place r).limit := by
    rw [pastAttributes_availableBytes]
    push_cast
    omega
  cases hrdata with
  | address hfour hip =>
    refine ⟨_, .plain hat ha (by decide) fun _ => hfour, hs₁.start, rfl, rfl, .inl ?_⟩
    simp only
    omega
  | cname hzero hq =>
    have hx := cacheName_eq hq
    obtain ⟨hname, -, -⟩ := cacheName_spec (r := pastAttributes r₁) hs₁.start he hx
    exact ⟨_, .cname hat ha hzero hname, cname_stands (r := pastAttributes r₁) hs₁.start he hx⟩
  | other hone hfive =>
    refine ⟨_, .plain hat ha hfive fun h => absurd h hone, hs₁.start, rfl, rfl, .inl ?_⟩
    simp only
    push_cast
    omega

theorem parseRecord_of_nextRecord {P : Place} (hstart : r.start = origin)
    (hbudget : 10 ≤ r.availableBytes) (hin : RecordInside mem lhsFirst (place r))
    (h : NextRecord mem lhsFirst (place r) P) :
    ∃ r', parseRecord mem lhsFirst r = .ok r' ∧ Stands r' P := by
  have howner : owner mem lhsFirst r ≠ .error .overrun :=
    (owner_inside lhsFirst).2 ⟨hin.owner, hin.ownerName⟩
  cases h with
  | @plain names a length type hat ha hfive hone =>
    obtain ⟨r₁, h₁, hs₁⟩ := owner_of_ownerAt hstart howner hat
    have hroom := ha.room
    have hcounts := hs₁.counts
    obtain ⟨hstart₁, rfl, rfl, -⟩ := hs₁
    simp only at hcounts
    rw [parseRecord_attributes hbudget h₁ ⟨hstart₁, rfl, rfl, hcounts⟩ ha]
    by_cases haddr : type = 1
    · obtain rfl := hone haddr
      subst haddr
      obtain ⟨ip, hip⟩ := rdata_address (r := pastAttributes r₁) lhsFirst (hin.address _ _ hat ha)
      refine ⟨_, hip, hstart₁, rfl, rfl, .inl ?_⟩
      simp only [pastAttributes_availableBytes]
      push_cast
      omega
    · refine ⟨_, rdata_other haddr hfive, hstart₁, rfl, rfl, .inl ?_⟩
      simp only [pastAttributes_availableBytes]
      push_cast
      omega
  | @cname names a b length text hat ha hzero hname =>
    obtain ⟨r₁, h₁, hs₁⟩ := owner_of_ownerAt hstart howner hat
    have hroom := ha.room
    have hcounts := hs₁.counts
    obtain ⟨hstart₁, rfl, rfl, -⟩ := hs₁
    simp only at hcounts
    have he : (pastAttributes r₁).availableBytes + (r₁.data + 10 : ℕ) = (place r).limit := by
      simp only [pastAttributes_availableBytes]
      push_cast
      omega
    rw [parseRecord_attributes hbudget h₁ ⟨hstart₁, rfl, rfl, hcounts⟩ ha,
      rdata_cname hzero (by simp; omega)]
    have hcache := (cacheName_inside lhsFirst he).2 (hin.target _ _ _ hat ha hzero)
    obtain ⟨x, hx, rfl, rfl⟩ := cacheName_of_nameAt
      (r := pastAttributes r₁) hstart₁ he hcache hname
    rw [pastAttributes_data, hx, ok_bind]
    exact ⟨_, rfl, cname_stands (r := pastAttributes r₁) hstart₁ he hx⟩

/-- A run over `n` records stays in the packet where they lie in it, and only there. -/
theorem times_inside : ∀ {n : ℕ} {r : DnsResponse} {P : Place}, Stands r P →
    (times (parseRecord mem lhsFirst) n r ≠ .error .overrun ↔ RecordsInside mem lhsFirst n P)
  | 0, _, _, _ => iff_of_true nofun trivial
  | n + 1, r, P, hs => by
    have hrecord := parseRecord_inside mem lhsFirst hs
    rw [times, RecordsInside]
    constructor
    · intro hne hroom
      have hin := hrecord.1 (fun h => hne (by rw [h])) hroom
      refine ⟨hin, fun P' hnext => ?_⟩
      obtain rfl := hs.eq (by have := hs.room.2 hroom; omega)
      obtain ⟨r', hr', hs'⟩ := parseRecord_of_nextRecord hs.start (hs.room.2 hroom) hin hnext
      rw [hr'] at hne
      exact (times_inside hs').1 hne
    · intro hin
      have hne := hrecord.2 fun hroom => (hin hroom).1
      cases h : parseRecord mem lhsFirst r with
      | error err =>
        rw [h] at hne
        exact hne
      | ok r' =>
        have hbudget : 10 ≤ r.availableBytes := by
          obtain ⟨r₁, type, length, hstep⟩ := parseRecord_ok h
          exact hstep.budget
        obtain rfl := hs.eq (by omega)
        obtain ⟨P', hnext, hs'⟩ := nextRecord_of_parseRecord hs.start h
        exact (times_inside hs').2 ((hin (hs.room.1 hbudget)).2 P' hnext)

/-! ## Messages -/

/-- The header of the message asks one question. -/
def Asks (mem : List UInt8) (head : DnsHeader) : Prop :=
  DnsHeader.parse mem (some 0) mem.length = .ok head ∧ head.data ≠ none ∧ isBad head = false

/-- The question of the message lies in the packet, and so do its records. -/
structure Inside (mem : List UInt8) (lhsFirst : Bool) : Prop where
  question : ∀ head, Asks mem head → NameInside mem mem.length questionAt
  records : ∀ head text a, Asks mem head →
    NameAt mem (inFront lhsFirst .empty questionAt) mem.length questionAt text a →
    RecordsInside mem lhsFirst (recordNumber head)
      ⟨DescMap.empty.insert (offset questionAt) text, a + 4, mem.length⟩

theorem Asks.atQuestion {head : DnsHeader} (hlen : 40 ≤ mem.length) (h : Asks mem head) :
    AtQuestion mem head (init questionAt head) := by
  obtain ⟨hparse, hdata, hgood⟩ := h
  obtain ⟨head', hparse', hnone | ⟨hsome, -⟩⟩ := header_parse hlen
  · obtain rfl := Except.ok.inj (hparse.symm.trans hparse')
    exact absurd hnone hdata
  · obtain rfl := Except.ok.inj (hparse.symm.trans hparse')
    exact ⟨hparse, hgood, questionAt, hsome, rfl⟩

theorem AtQuestion.asks {head : DnsHeader} (h : AtQuestion mem head r) : Asks mem head := by
  obtain ⟨hparse, hgood, data, hdata, -⟩ := h
  exact ⟨hparse, by rw [hdata]; nofun, hgood⟩

theorem question_eq : question mem lhsFirst r = cacheName mem lhsFirst r r.data >>= fun x =>
    .ok { x.1 with
      lastAliasOffset := r.offsetOf r.data
      data := x.2.newData + 4
      availableBytes := x.1.availableBytes - 4 } := rfl

theorem question_inside (lhsFirst : Bool) : question mem lhsFirst r ≠ .error .overrun ↔
    NameInside mem (place r).limit r.data := by
  rw [question_eq, bind_ok_ne]
  exact cacheName_inside lhsFirst rfl

theorem question_stands {x : DnsResponse × QueryName} (hstart : r.start = origin)
    (hx : cacheName mem lhsFirst r r.data = .ok x) : ∃ r', question mem lhsFirst r = .ok r' ∧
      Stands r' ⟨r.cachedNames.insert (offset r.data) x.2.name, x.2.newData + 4,
        (place r).limit⟩ := by
  obtain ⟨-, hcounts, hr⟩ := cacheName_spec (e := (place r).limit) hstart rfl hx
  rw [question_eq, hx, ok_bind]
  refine ⟨_, rfl, ?_⟩
  rw [hr]
  refine ⟨hstart, rfl, rfl, ?_⟩
  unfold Counts at hcounts
  simp only
  push_cast
  omega

theorem caught_iff_of_tame {α : Type} {x : Except Abort α} (h : Tame x) :
    Caught x ↔ x ≠ .error .overrun := by
  constructor
  · rintro hx rfl
    obtain ⟨what, hwhat⟩ := hx
    cases hwhat
  · exact h.resolve_right

/-- The parser stays inside of the packet if the message lies in it as its bytes say, and only
then. -/
theorem stays_inside (mem : List UInt8) (lhsFirst : Bool) (hlen : 40 ≤ mem.length) :
    Caught (message mem lhsFirst) ↔ Inside mem lhsFirst := by
  have htame : Tame (message mem lhsFirst) :=
    (tame_header mem 0 mem.length).bind fun head _ => (parse_named mem lhsFirst head).1
  rw [caught_iff_of_tame htame]
  obtain ⟨hnone, hno⟩ | ⟨head, r, hat, huniq, hmessage⟩ := message_eq lhsFirst hlen
  · rw [hnone]
    exact iff_of_true nofun ⟨fun head h => absurd (h.atQuestion hlen) (hno _ _),
      fun head _ _ h => absurd (h.atQuestion hlen) (hno _ _)⟩
  · have hasks := hat.asks
    obtain ⟨-, rfl⟩ := huniq _ _ (hasks.atQuestion hlen)
    have hlimit : (place (init questionAt head)).limit = mem.length := hat.tight hlen
    have hquestion : question mem lhsFirst (init questionAt head) ≠ .error .overrun ↔
        NameInside mem mem.length questionAt := hlimit ▸ question_inside lhsFirst
    have hname : cacheName mem lhsFirst (init questionAt head) questionAt ≠ .error .overrun ↔
        NameInside mem mem.length questionAt := cacheName_inside lhsFirst hlimit
    rw [hmessage, bind_ok_ne]
    constructor
    · intro hne
      have hin := hquestion.1 fun h => hne (by rw [h]; rfl)
      refine ⟨fun _ _ => hin, fun head' text a h hat' => ?_⟩
      obtain ⟨rfl, -⟩ := huniq _ _ (h.atQuestion hlen)
      obtain ⟨x, hx, rfl, rfl⟩ :=
        cacheName_of_nameAt (r := init questionAt head') rfl hlimit (hname.2 hin) hat'
      obtain ⟨r', hr', hs⟩ := question_stands rfl hx
      rw [hr', ok_bind] at hne
      rw [hlimit] at hs
      exact (times_inside hs).1 hne
    · intro hin
      have hne := hname.2 (hin.question head hasks)
      cases hx : cacheName mem lhsFirst (init questionAt head) questionAt with
      | error err =>
        rw [hx] at hne
        have herror : question mem lhsFirst (init questionAt head) = .error err := by
          rw [question_eq]
          exact congrArg (· >>= _) hx
        rw [herror, error_bind]
        intro h
        exact hne (congrArg Except.error (Except.error.inj h))
      | ok x =>
        obtain ⟨r', hr', hs⟩ := question_stands rfl hx
        obtain ⟨hat', -, -⟩ := cacheName_spec (r := init questionAt head) rfl hlimit hx
        rw [hr', ok_bind]
        rw [hlimit] at hs
        exact (times_inside hs).2 (hin.records head _ _ hasks hat')

/-- IPv4 and UDP headers to port 53 and a header with one question, in a packet of `n` bytes. -/
def queryHeader (n : UInt8) : List UInt8 :=
  [0x45, 0, 0, n, 0, 0, 0, 0, 64, 17, 0, 0, 10, 0, 0, 1, 10, 0, 0, 2] ++
  [4, 0, 0, 53, 0, n - 20, 0, 0] ++ [0, 1, 1, 0, 0, 1, 0, 0, 0, 0, 0, 0]

/-- The answer to `a.b` with two records: the alias `c.b`, and the address of that. -/
def answer : List UInt8 :=
  [0x45, 0, 0, 83, 0, 0, 0, 0, 64, 17, 0, 0, 10, 0, 0, 1, 10, 0, 0, 2] ++
  [0, 53, 4, 0, 0, 63, 0, 0] ++ [0, 1, 0x81, 0x80, 0, 1, 0, 2, 0, 0, 0, 0] ++
  [1, 97, 1, 98, 0, 0, 1, 0, 1] ++ [0xc0, 12, 0, 5, 0, 1, 0, 0, 0, 0, 0, 4, 1, 99, 0xc0, 14] ++
  [1, 99, 0xc0, 14, 0, 1, 0, 1, 0, 0, 0, 0, 0, 4, 10, 0, 0, 7]

theorem inside_answer : Inside answer false := by
  refine (stays_inside answer false (by decide)).1 ?_
  have hok : (message answer false).map (Option.map (·.ipList)) = .ok (some [0x0a000007]) := by
    decide +kernel
  cases hmessage : message answer false with
  | ok r => trivial
  | error e =>
    rw [hmessage] at hok
    cases hok

/-- A question that ends with its first label. -/
def cutQuery : List UInt8 := queryHeader 42 ++ [1, 97]

theorem not_stays_inside :
    ¬ ∀ (mem : List UInt8) (lhsFirst : Bool), 40 ≤ mem.length → Caught (message mem lhsFirst) := by
  intro h
  have hover : (message cutQuery false).map (fun _ => ()) = .error .overrun := by decide +kernel
  have hcaught := h cutQuery false (by decide)
  cases hmessage : message cutQuery false with
  | ok r =>
    rw [hmessage] at hover
    cases hover
  | error e =>
    rw [hmessage] at hover hcaught
    obtain rfl := Except.error.inj hover
    obtain ⟨what, hwhat⟩ := hcaught
    cases hwhat

end DnsResponse

end DStreamon
