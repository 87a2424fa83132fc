import DStreamon.PacketCalls

/-!
# What the parsers find in a fresh packet

Each parse function stays within the captured bytes, and leaves the pointers and the key where the
layout of the frame says.
-/

namespace DStreamon.Messages

open Bytes (be16 be32 be16_of_lt be32_of_lt le_of_be16 getElem?_of_lt lt_of_getElem?)

theorem sizeSub_of_le {a b : ℕ} (h : b ≤ a) : sizeSub a b = a - b := if_pos h

/-! ## Layout -/

section Layout

variable {buf : List UInt8} {t o o' l4 l4' : ℕ}

theorem Ip4Behind.le (h : Ip4Behind buf t o) : t + 2 ≤ o ∧ o ≤ buf.length := by
  induction h with
  | here ht => exact ⟨Nat.le_refl _, le_of_be16 ht⟩
  | tag _ _ ih => omega

theorem Ip4Behind.unique (h : Ip4Behind buf t o) (h' : Ip4Behind buf t o') : o = o' := by
  induction h with
  | here ht =>
    cases h' with
    | here _ => rfl
    | tag ht' _ => exact absurd (Option.some.inj (ht.symm.trans ht')) (by decide)
  | tag ht _ ih =>
    cases h' with
    | here ht' => exact absurd (Option.some.inj (ht.symm.trans ht')) (by decide)
    | tag _ h' => exact ih h'

theorem Ip4Reached.behind (h : Ip4Reached buf t o) : Ip4Behind buf t o := by
  induction h with
  | here ht => exact .here ht
  | tag ht _ _ ih => exact .tag ht ih

theorem Ip4Behind.reached (h : Ip4Behind buf t o) (hle : o + 20 ≤ buf.length) :
    Ip4Reached buf t o := by
  induction h with
  | here ht => exact .here ht
  | tag ht h ih =>
    have := h.le
    exact .tag ht (by omega) (ih hle)

theorem Ip4At.unique (h : Ip4At buf o) (h' : Ip4At buf o') : o = o' := h.1.unique h'.1

end Layout

namespace Packet

variable {p q : Packet} {buf : List UInt8} {fuel t o len : ℕ} {ty : UInt16}

theorem left_of_le (h : o ≤ p.buffer.length) : p.left o = some (p.buffer.length - o) := if_pos h

/-! ## `parse_mac` -/

/-- The members `parse_mac` only passes on. -/
structure SameFrame (p q : Packet) : Prop where
  buffer : q.buffer = p.buffer
  length : q.length = p.length
  key : q.key = p.key
  l4hdrPtr : q.l4hdrPtr = p.l4hdrPtr
  l4payloadPtr : q.l4payloadPtr = p.l4payloadPtr

/-- The IP header behind the type at `t` is found. -/
structure MacFound (p q : Packet) (t o : ℕ) : Prop where
  ip : Ip4Behind p.buffer t o
  iphdrPtr : q.iphdrPtr = some o
  machdrParsed : q.machdrParsed = p.machdrParsed
  iphdrParsed : q.iphdrParsed = p.iphdrParsed
  portsParsed : q.portsParsed = p.portsParsed
  l4hdrParsed : q.l4hdrParsed = p.l4hdrParsed

/-- There is none that is complete, and nothing more is to be parsed. -/
structure NoMac (p q : Packet) (t : ℕ) : Prop where
  ip : ∀ o, Ip4Behind p.buffer t o → p.buffer.length < o + 20
  iphdrPtr : q.iphdrPtr = p.iphdrPtr
  machdrParsed : q.machdrParsed = p.machdrParsed
  iphdrParsed : q.iphdrParsed = true
  portsParsed : q.portsParsed = true
  l4hdrParsed : q.l4hdrParsed = true

def MacSpec (p q : Packet) (t : ℕ) : Prop :=
  SameFrame p q ∧ ((∃ o, MacFound p q t o) ∨ NoMac p q t)

/-! The search ends the same way for all packets of the same bytes. -/

def withIp (p : Packet) (o : ℕ) : Packet := { p with pkttype := kPktTypeIP4, iphdrPtr := some o }

/-- No IPv4 header is found behind the type at `t`, or one is. -/
def SearchEnds (buf : List UInt8) (t : ℕ) (parse : Packet → Option Packet) : Prop :=
  (∃ ty, (∀ o, ¬ Ip4Reached buf t o) ∧
    ∀ q : Packet, q.buffer = buf → parse q = some (q.noIp ty)) ∨
  ∃ o, Ip4Reached buf t o ∧ ∀ q : Packet, q.buffer = buf → parse q = some (q.withIp o)

theorem parse1q_ends {buf : List UInt8} : ∀ (fuel : ℕ) {t : ℕ} {ty : UInt16},
    be16 buf t = some ty → buf.length < fuel + (t + 2) →
    SearchEnds buf t (parse1q fuel ty (t + 2))
  | 0, t, ty, ht, hfuel => absurd (le_of_be16 ht) (by omega)
  | fuel + 1, t, ty, ht, hfuel => by
    have hle := le_of_be16 ht
    by_cases htag : ty = kPktType1q
    · subst htag
      have hstep : ∀ q : Packet, q.buffer = buf → parse1q (fuel + 1) kPktType1q (t + 2) q =
          if buf.length - (t + 2) < 14 then some (q.noIp kPktTypeRuntL2)
          else (be16 buf (t + 2 + 2)).bind fun ty => parse1q fuel ty (t + 4 + 2) q := by
        intro q hq
        rw [parse1q, if_pos rfl, left_of_le (by rw [hq]; exact hle), hq]
        rfl
      by_cases hshort : buf.length - (t + 2) < 14
      · refine .inl ⟨_, fun o ho => ?_, fun q hq => by rw [hstep q hq, if_pos hshort]⟩
        cases ho with
        | here h => exact absurd (Option.some.inj (h.symm.trans ht)) (by decide)
        | tag _ h _ => omega
      · obtain ⟨ty, hty⟩ := be16_of_lt (m := buf) (i := t + 4) (by omega)
        have hnext : ∀ q : Packet, q.buffer = buf →
            parse1q (fuel + 1) kPktType1q (t + 2) q = parse1q fuel ty (t + 4 + 2) q := by
          intro q hq
          rw [hstep q hq, if_neg hshort, show t + 2 + 2 = t + 4 from rfl, hty, Option.bind_some]
        obtain ⟨ty', hno, hparse⟩ | ⟨o, ho, hparse⟩ := parse1q_ends fuel hty (by omega)
        · refine .inl ⟨ty', fun o ho => ?_, fun q hq => (hnext q hq).trans (hparse q hq)⟩
          cases ho with
          | here h => exact absurd (Option.some.inj (h.symm.trans ht)) (by decide)
          | tag _ _ h => exact hno o h
        · exact .inr ⟨o, .tag ht (by omega) ho, fun q hq => (hnext q hq).trans (hparse q hq)⟩
    · have hstep : ∀ q : Packet, parse1q (fuel + 1) ty (t + 2) q = some (q.atMac ty (t + 2)) := by
        intro q
        rw [parse1q, if_neg htag]
      by_cases hip : ty = kPktTypeIP4
      · subst hip
        exact .inr ⟨t + 2, .here ht, fun q _ => by rw [hstep q, atMac, if_pos rfl, withIp]⟩
      · refine .inl ⟨ty, fun o ho => ?_, fun q _ => by rw [hstep q, atMac, if_neg hip]⟩
        cases ho with
        | here h => exact absurd (Option.some.inj (ht.symm.trans h)) hip
        | tag h _ _ => exact absurd (Option.some.inj (ht.symm.trans h)) htag

/-- On Ethernet, the search starts from the type in the MAC header. -/
theorem ethernet_ends (buf : List UInt8) : SearchEnds buf 12 fun q =>
    if q.caplen < 14 then some (q.noIp kPktTypeRuntL2)
    else (be16 q.buffer 12).bind fun ty => parse1q (q.caplen + 1) ty 14 q := by
  by_cases hshort : buf.length < 14
  · refine .inl ⟨_, fun o ho => ?_, fun q hq => if_pos (by rw [caplen, hq]; exact hshort)⟩
    have := ho.behind.le
    omega
  · obtain ⟨ty, hty⟩ := be16_of_lt (m := buf) (i := 12) (by omega)
    have hparse : ∀ q : Packet, q.buffer = buf → (if q.caplen < 14 then
        some (q.noIp kPktTypeRuntL2) else (be16 q.buffer 12).bind fun ty =>
          parse1q (q.caplen + 1) ty 14 q) = parse1q (buf.length + 1) ty (12 + 2) q := by
      intro q hq
      rw [caplen, hq, if_neg hshort, hty, Option.bind_some]
    obtain ⟨ty', hno, h⟩ | ⟨o, ho, h⟩ := parse1q_ends (buf.length + 1) hty (by omega)
    · exact .inl ⟨ty', hno, fun q hq => (hparse q hq).trans (h q hq)⟩
    · exact .inr ⟨o, ho, fun q hq => (hparse q hq).trans (h q hq)⟩

/-- A packet of the same bytes whose MAC header is still to be parsed. -/
structure SameBytes (p q : Packet) : Prop where
  buffer : q.buffer = p.buffer
  mactype : q.mactype = p.mactype
  pkttype : q.pkttype = p.pkttype
  machdrParsed : q.machdrParsed = false

theorem parseMac_ends (p : Packet) :
    (∃ ty, (∀ o, ¬ p.HeaderAt o) ∧ ∀ q, p.SameBytes q →
      q.parseMac = some ({ q with machdrParsed := true }.noIp ty)) ∨
    ∃ o ≤ p.caplen, p.HeaderAt o ∧ ∀ q, p.SameBytes q →
      q.parseMac = some ({ q with machdrParsed := true }.withIp o) := by
  have hopen : ∀ q : Packet, p.SameBytes q → ¬ q.machdrParsed = true := fun q hq => by
    rw [hq.machdrParsed]
    decide
  cases hmac : p.mactype with
  | ethernet =>
    have hparse : ∀ q : Packet, p.SameBytes q → q.parseMac =
        (fun q : Packet => if q.caplen < 14 then some (q.noIp kPktTypeRuntL2)
          else (be16 q.buffer 12).bind fun ty => parse1q (q.caplen + 1) ty 14 q)
          { q with machdrParsed := true } := by
      intro q hq
      rw [parseMac, if_neg (hopen q hq)]
      simp only [hq.mactype, hmac]
      rfl
    have hat : ∀ o, p.HeaderAt o ↔ Ip4Reached p.buffer 12 o := fun o => by
      rw [HeaderAt, hmac]
    obtain ⟨ty, hno, h⟩ | ⟨o, ho, h⟩ := ethernet_ends p.buffer
    · exact .inl ⟨ty, fun o => (hat o).not.2 (hno o),
        fun q hq => (hparse q hq).trans (h _ hq.buffer)⟩
    · exact .inr ⟨o, ho.behind.le.2, (hat o).2 ho, fun q hq => (hparse q hq).trans (h _ hq.buffer)⟩
  | rawIP =>
    refine .inr ⟨0, Nat.zero_le _, by rw [HeaderAt, hmac], fun q hq => ?_⟩
    rw [parseMac, if_neg (hopen q hq)]
    simp only [hq.mactype, hmac]
    rfl
  | other =>
    have hparse : ∀ q : Packet, p.SameBytes q →
        q.parseMac = some ({ q with machdrParsed := true }.atMac p.pkttype 0) := by
      intro q hq
      rw [parseMac, if_neg (hopen q hq)]
      simp only [hq.mactype, hmac, hq.pkttype]
    have hat : ∀ o, p.HeaderAt o ↔ p.pkttype = kPktTypeIP4 ∧ o = 0 := fun o => by
      rw [HeaderAt, hmac]
    by_cases hip : p.pkttype = kPktTypeIP4
    · refine .inr ⟨0, Nat.zero_le _, (hat 0).2 ⟨hip, rfl⟩, fun q hq => ?_⟩
      rw [hparse q hq, atMac, if_pos hip, hip, withIp]
    · refine .inl ⟨p.pkttype, fun o ho => hip ((hat o).1 ho).1, fun q hq => ?_⟩
      rw [hparse q hq, atMac, if_neg hip]

theorem parseMac_spec (hmac : p.machdrParsed = false) (hether : p.mactype = .ethernet) :
    ∃ q, p.parseMac = some q ∧ MacSpec { p with machdrParsed := true } q 12 := by
  have hat : ∀ o, p.HeaderAt o ↔ Ip4Reached p.buffer 12 o := fun o => by
    rw [HeaderAt, hether]
  obtain ⟨ty, hno, hparse⟩ | ⟨o, -, ho, hparse⟩ := parseMac_ends p
  · refine ⟨_, hparse p ⟨rfl, rfl, rfl, hmac⟩, ⟨rfl, rfl, rfl, rfl, rfl⟩,
      .inr ⟨fun o ho => ?_, rfl, rfl, rfl, rfl, rfl⟩⟩
    by_contra hle
    exact hno o ((hat o).2 (ho.reached (Nat.not_lt.1 hle)))
  · exact ⟨_, hparse p ⟨rfl, rfl, rfl, hmac⟩, ⟨rfl, rfl, rfl, rfl, rfl⟩,
      .inl ⟨o, ((hat o).1 ho).behind, rfl, rfl, rfl, rfl, rfl⟩⟩

/-! ## `parse_iphdr` -/

/-- Nothing behind the frame's first bytes has been parsed. -/
structure Fresh (p : Packet) : Prop where
  mactype : p.mactype = .ethernet
  machdrParsed : p.machdrParsed = false
  iphdrParsed : p.iphdrParsed = false
  iphdrPtr : p.iphdrPtr = none
  l4hdrPtr : p.l4hdrPtr = none
  l4payloadPtr : p.l4payloadPtr = none
  key : p.key = ⟨0, 0, 0, 0, 0⟩

/-- What `parse_iphdr` has parsed and what it leaves. -/
structure IpParsed (p q : Packet) : Prop where
  buffer : q.buffer = p.buffer
  length : q.length = p.length
  machdrParsed : q.machdrParsed = true
  iphdrParsed : q.iphdrParsed = true
  l4payloadPtr : q.l4payloadPtr = none
  srcPort : q.key.srcPort = 0
  dstPort : q.key.dstPort = 0

/-- The header at `o` is found. -/
structure IpFound (p q : Packet) (o : ℕ) : Prop where
  ip : Ip4At p.buffer o
  iphdrPtr : q.iphdrPtr = some o
  portsParsed : q.portsParsed = p.portsParsed
  l4hdrParsed : q.l4hdrParsed = p.l4hdrParsed
  proto : p.buffer[o + 9]? = some q.key.proto
  l4hdrPtr : ∃ hlv, p.buffer[o]? = some hlv ∧ q.l4hdrPtr =
    if o + decodeHlv hlv ≤ p.buffer.length then some (o + decodeHlv hlv) else none

/-- No header is found. -/
structure NoIp (p q : Packet) : Prop where
  ip : ∀ o, ¬ Ip4At p.buffer o
  proto : q.key.proto = 0
  l4hdrPtr : q.l4hdrPtr = none
  portsParsed : q.portsParsed = true

def IpSpec (p q : Packet) : Prop := IpParsed p q ∧ (NoIp p q ∨ ∃ o, IpFound p q o)

theorem parseIphdr_spec (hp : p.Fresh) : ∃ q, p.parseIphdr = some q ∧ IpSpec p q := by
  obtain ⟨q, hq, hsame, hfound⟩ := parseMac_spec (p := { p with iphdrParsed := true })
    hp.machdrParsed hp.mactype
  have hbuf : q.buffer = p.buffer := hsame.buffer
  have hkey : q.key = ⟨0, 0, 0, 0, 0⟩ := hsame.key.trans hp.key
  have hl4 : q.l4hdrPtr = none := hsame.l4hdrPtr.trans hp.l4hdrPtr
  have hpay : q.l4payloadPtr = none := hsame.l4payloadPtr.trans hp.l4payloadPtr
  rw [parseIphdr, if_neg (by rw [hp.iphdrParsed]; decide), hq]
  simp only [Option.bind_eq_bind, Option.bind_some]
  obtain ⟨o, ho⟩ | hno := hfound
  · have hip : Ip4Behind p.buffer 12 o := ho.ip
    have hle : o ≤ q.buffer.length := by rw [hbuf]; exact hip.le.2
    simp only [ho.iphdrPtr]
    rw [left_of_le hle, Option.bind_some]
    by_cases hshort : 20 ≤ q.buffer.length - o
    · obtain ⟨src, hsrc⟩ := be32_of_lt (m := q.buffer) (i := o + 12) (by omega)
      obtain ⟨dst, hdst⟩ := be32_of_lt (m := q.buffer) (i := o + 16) (by omega)
      obtain ⟨proto, hproto⟩ := getElem?_of_lt (m := q.buffer) (i := o + 9) (by omega)
      obtain ⟨tos, htos⟩ := getElem?_of_lt (m := q.buffer) (i := o + 1) (by omega)
      obtain ⟨ttl, httl⟩ := getElem?_of_lt (m := q.buffer) (i := o + 8) (by omega)
      obtain ⟨hlv, hhlv⟩ := getElem?_of_lt (m := q.buffer) (i := o) (by omega)
      rw [if_pos hshort, hsrc, hdst, hproto, htos, httl, hhlv]
      refine ⟨_, rfl, ⟨hbuf, hsame.length, ho.machdrParsed, ho.iphdrParsed, hpay, ?_, ?_⟩,
        .inr ⟨o, ⟨hip, ?_⟩, rfl, ho.portsParsed, ho.l4hdrParsed, ?_, hlv, ?_, ?_⟩⟩
      · simp only [hkey]
      · simp only [hkey]
      · rw [← hbuf]
        omega
      · rw [← hbuf, hproto]
      · rw [← hbuf, hhlv]
      · rw [← hbuf]
        simp only [hl4]
        exact if_congr (by omega) rfl rfl
    · rw [if_neg hshort]
      refine ⟨_, rfl, ⟨hbuf, hsame.length, ho.machdrParsed, ho.iphdrParsed, hpay, ?_, ?_⟩,
        .inl ⟨fun o' ho' => ?_, ?_, hl4, rfl⟩⟩
      · simp only [hkey]
      · simp only [hkey]
      · obtain rfl := hip.unique ho'.1
        have := ho'.2
        rw [← hbuf] at this
        omega
      · simp only [hkey]
  · have hptr : q.iphdrPtr = none := hno.iphdrPtr.trans hp.iphdrPtr
    simp only [hptr]
    refine ⟨q, rfl, ⟨hbuf, hsame.length, hno.machdrParsed, hno.iphdrParsed, hpay, ?_, ?_⟩,
      .inl ⟨fun o ho => absurd ho.2 (Nat.not_le.2 (hno.ip o ho.1)), ?_, hl4, hno.portsParsed⟩⟩
    · rw [hkey]
    · rw [hkey]
    · rw [hkey]

theorem parseIphdr_of_parsed (h : p.iphdrParsed = true) : p.parseIphdr = some p := if_pos h

/-! ## `parse_ports` and `parse_tcphdr` -/

/-- TCP or UDP ports are found. -/
structure PortsFound (p q : Packet) (o l4 : ℕ) : Prop where
  ports : PortsAt p.buffer o l4 q.key.proto q.key.srcPort q.key.dstPort
  proto : q.key.proto = kTCP ∨ q.key.proto = kUDP
  iphdrPtr : q.iphdrPtr = some o
  l4hdrPtr : q.l4hdrPtr = some l4
  l4hdrParsed : q.l4hdrParsed = p.l4hdrParsed
  l4payloadPtr : q.key.proto = kTCP → q.l4payloadPtr = none

/-- There are none, nor a TCP header. -/
structure NoPorts (p q : Packet) : Prop where
  ports : ∀ o l4 proto sp dp, proto = kTCP ∨ proto = kUDP → ¬ PortsAt p.buffer o l4 proto sp dp
  srcPort : q.key.srcPort = 0
  dstPort : q.key.dstPort = 0
  l4hdr : q.key.proto = kTCP → q.l4hdrParsed = true ∨ q.l4hdrPtr = none

structure PortsParsed (p q : Packet) : Prop where
  buffer : q.buffer = p.buffer
  length : q.length = p.length
  machdrParsed : q.machdrParsed = true
  iphdrParsed : q.iphdrParsed = true
  portsParsed : q.portsParsed = true

def PortsSpec (p q : Packet) : Prop :=
  PortsParsed p q ∧ (NoPorts p q ∨ ∃ o l4, PortsFound p q o l4)

theorem parsePorts_spec (hp : p.Fresh) (hports : p.portsParsed = false) :
    ∃ q, p.parsePorts = some q ∧ PortsSpec p q := by
  obtain ⟨q, hq, hparsed, hfound⟩ := parseIphdr_spec (p := { p with portsParsed := true })
    ⟨hp.mactype, hp.machdrParsed, hp.iphdrParsed, hp.iphdrPtr, hp.l4hdrPtr, hp.l4payloadPtr, hp.key⟩
  have hbuf : q.buffer = p.buffer := hparsed.buffer
  rw [parsePorts, if_neg (by rw [hports]; decide), hq]
  simp only [Option.bind_eq_bind, Option.bind_some]
  obtain hno | ⟨o, ho⟩ := hfound
  · simp only [hno.l4hdrPtr]
    exact ⟨q, rfl, ⟨hbuf, hparsed.length, hparsed.machdrParsed, hparsed.iphdrParsed,
      hno.portsParsed⟩, .inl ⟨fun o l4 _ _ _ _ h => hno.ip o h.ip, hparsed.srcPort,
      hparsed.dstPort, fun _ => .inr hno.l4hdrPtr⟩⟩
  · have hip : Ip4At p.buffer o := ho.ip
    have hproto : p.buffer[o + 9]? = some q.key.proto := ho.proto
    obtain ⟨hlv, hhlv, hl4⟩ := ho.l4hdrPtr
    have hhlv : p.buffer[o]? = some hlv := hhlv
    have hat : ∀ {o' l4 proto sp dp}, PortsAt p.buffer o' l4 proto sp dp →
        l4 = o + decodeHlv hlv ∧ proto = q.key.proto ∧ l4 + 4 ≤ p.buffer.length := by
      intro o' l4 proto sp dp h
      obtain rfl := h.ip.unique hip
      obtain ⟨hlv', hhlv', rfl⟩ := h.header
      obtain rfl := Option.some.inj (hhlv'.symm.trans hhlv)
      exact ⟨rfl, Option.some.inj (h.proto.symm.trans hproto), le_of_be16 h.dp⟩
    have hspec : PortsParsed p q :=
      ⟨hbuf, hparsed.length, hparsed.machdrParsed, hparsed.iphdrParsed, ho.portsParsed⟩
    have hnone : ∀ {q' : Packet}, q'.key = q.key → (∀ o' l4 proto sp dp,
        (proto = kTCP ∨ proto = kUDP) → ¬ PortsAt p.buffer o' l4 proto sp dp) →
        (q'.key.proto = kTCP → q'.l4hdrParsed = true ∨ q'.l4hdrPtr = none) → NoPorts p q' :=
      fun hkey hno hl4 => ⟨hno, by rw [hkey]; exact hparsed.srcPort,
        by rw [hkey]; exact hparsed.dstPort, hl4⟩
    by_cases hle : o + decodeHlv hlv ≤ p.buffer.length
    · have hptr : q.l4hdrPtr = some (o + decodeHlv hlv) := hl4.trans (if_pos hle)
      have hleft : q.left (o + decodeHlv hlv) = some (p.buffer.length - (o + decodeHlv hlv)) := by
        rw [left_of_le (by rw [hbuf]; exact hle), hbuf]
      simp only [hptr, hleft, Option.bind_some]
      by_cases htrans : q.key.proto = kTCP ∨ q.key.proto = kUDP
      · rw [if_pos htrans]
        by_cases hshort : 4 ≤ p.buffer.length - (o + decodeHlv hlv)
        · obtain ⟨sp, hsp⟩ := be16_of_lt (m := p.buffer) (i := o + decodeHlv hlv) (by omega)
          obtain ⟨dp, hdp⟩ := be16_of_lt (m := p.buffer) (i := o + decodeHlv hlv + 2) (by omega)
          rw [if_pos hshort, hbuf, hsp, hdp]
          refine ⟨_, rfl, ⟨rfl, hparsed.length, hparsed.machdrParsed, hparsed.iphdrParsed,
            ho.portsParsed⟩, .inr ⟨o, _, ⟨hip, hproto, ⟨hlv, hhlv, rfl⟩, hsp, hdp⟩, htrans,
            ho.iphdrPtr, rfl, ho.l4hdrParsed, fun htcp => ?_⟩⟩
          have htcp : q.key.proto = kTCP := htcp
          simp only [htcp]
          rw [if_neg (by simp [kTCP, kUDP])]
          exact hparsed.l4payloadPtr
        · rw [if_neg hshort]
          refine ⟨_, rfl, ⟨hbuf, hparsed.length, hparsed.machdrParsed, hparsed.iphdrParsed,
            ho.portsParsed⟩, .inl (hnone rfl (fun o' l4 proto sp dp _ h => ?_) fun _ => .inl rfl)⟩
          obtain ⟨rfl, -, hl4⟩ := hat h
          omega
      · rw [if_neg htrans]
        refine ⟨q, rfl, hspec, .inl (hnone rfl (fun o' l4 proto sp dp hproto h => ?_)
          fun htcp => absurd (.inl htcp) htrans)⟩
        exact htrans ((hat h).2.1 ▸ hproto)
    · have hptr : q.l4hdrPtr = none := hl4.trans (if_neg hle)
      simp only [hptr]
      refine ⟨q, rfl, hspec, .inl (hnone rfl (fun o' l4 proto sp dp _ h => ?_) fun _ => .inr hptr)⟩
      obtain ⟨rfl, -, hl4⟩ := hat h
      omega

theorem parsePorts_of_parsed (h : p.portsParsed = true) : p.parsePorts = some p := if_pos h

theorem parseTcphdr_noPorts (hip : q.iphdrParsed = true) (hno : NoPorts p q)
    (htcp : q.key.proto = kTCP) : ∃ q', q.parseTcphdr = some q' := by
  unfold parseTcphdr
  obtain hl4 | hl4 := hno.l4hdr htcp
  · exact ⟨q, if_pos hl4⟩
  · by_cases hpar : q.l4hdrParsed = true
    · exact ⟨q, if_pos hpar⟩
    · rw [if_neg hpar, parseIphdr_of_parsed (p := { q with l4hdrParsed := true }) hip]
      simp only [Option.bind_eq_bind, Option.bind_some, hl4]
      exact ⟨_, rfl⟩

/-- The TCP header, where there are ports, and where its payload starts. -/
theorem parseTcphdr_spec {l4 : ℕ} (hip : q.iphdrParsed = true) (hl4p : q.l4hdrParsed = false)
    (hl4 : q.l4hdrPtr = some l4) (htcp : q.key.proto = kTCP) (hpay : q.l4payloadPtr = none)
    (hle : l4 ≤ q.buffer.length) :
    ∃ q', q.parseTcphdr = some q' ∧ q'.buffer = q.buffer ∧ q'.length = q.length ∧
      q'.iphdrParsed = true ∧ q'.l4hdrParsed = true ∧ q'.key.proto = kTCP ∧
      ∀ o, q'.l4payloadPtr = some o ↔ TcpPayloadAt q.buffer l4 o ∧ o ≤ q.buffer.length := by
  rw [parseTcphdr, if_neg (by rw [hl4p]; decide),
    parseIphdr_of_parsed (p := { q with l4hdrParsed := true }) hip]
  generalize hq₁ : { q with l4hdrParsed := true } = q₁
  have hbuf : q₁.buffer = q.buffer := by rw [← hq₁]
  have hlen : q₁.length = q.length := by rw [← hq₁]
  have hpar : q₁.l4hdrParsed = true := by rw [← hq₁]
  have hip₁ : q₁.iphdrParsed = true := by rw [← hq₁]; exact hip
  have hl4₁ : q₁.l4hdrPtr = some l4 := by rw [← hq₁]; exact hl4
  have htcp₁ : q₁.key.proto = kTCP := by rw [← hq₁]; exact htcp
  have hpay₁ : q₁.l4payloadPtr = none := by rw [← hq₁]; exact hpay
  have hleft : q₁.left l4 = some (q.buffer.length - l4) := by
    rw [left_of_le (by rw [hbuf]; exact hle), hbuf]
  simp only [Option.bind_eq_bind, Option.bind_some, hl4₁, hleft]
  rw [if_pos htcp₁]
  by_cases hshort : 20 ≤ q.buffer.length - l4
  · have hin : l4 + 20 ≤ q₁.buffer.length := by rw [hbuf]; omega
    obtain ⟨sp, hsp⟩ := be16_of_lt (m := q₁.buffer) (i := l4) (by omega)
    obtain ⟨dp, hdp⟩ := be16_of_lt (m := q₁.buffer) (i := l4 + 2) (by omega)
    obtain ⟨flags, hflags⟩ := getElem?_of_lt (m := q₁.buffer) (i := l4 + 13) (by omega)
    obtain ⟨seq, hseq⟩ := be32_of_lt (m := q₁.buffer) (i := l4 + 4) (by omega)
    obtain ⟨ack, hack⟩ := be32_of_lt (m := q₁.buffer) (i := l4 + 8) (by omega)
    obtain ⟨urg, hurg⟩ := be16_of_lt (m := q₁.buffer) (i := l4 + 18) (by omega)
    obtain ⟨win, hwin⟩ := be16_of_lt (m := q₁.buffer) (i := l4 + 14) (by omega)
    obtain ⟨off, hoff⟩ := getElem?_of_lt (m := q₁.buffer) (i := l4 + 12) (by omega)
    rw [if_pos hshort, hsp, hdp, hflags, hseq, hack, hurg, hwin, hoff]
    refine ⟨_, rfl, hbuf, hlen, hip₁, hpar, htcp₁, fun o => ?_⟩
    simp only [hpay₁]
    rw [hbuf] at hoff
    constructor
    · intro h
      split at h
      · obtain rfl := Option.some.inj h
        exact ⟨⟨by omega, off, hoff, rfl⟩, by omega⟩
      · cases h
    · rintro ⟨⟨-, off', hoff', rfl⟩, hin⟩
      obtain rfl := Option.some.inj (hoff'.symm.trans hoff)
      exact if_pos (by omega)
  · rw [if_neg hshort]
    refine ⟨_, rfl, hbuf, hlen, hip₁, hpar, htcp₁, fun o => ?_⟩
    simp only [hpay₁]
    constructor
    · intro h
      cases h
    · rintro ⟨⟨h, -⟩, -⟩
      omega

theorem parseTcphdr_of_parsed (h : p.l4hdrParsed = true) : p.parseTcphdr = some p := if_pos h

end Packet

end DStreamon.Messages
