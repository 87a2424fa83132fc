import DStreamon.Lib.Forall2
import DStreamon.Proofs.Packet

/-!
# Parsing on demand, in any order

What the stages put into a packet is fixed by its bytes, and they do not undo each other.  So a
packet on which some stages are done is the same however it got there.  Only the type of a packet
that is cut off is written twice.
-/

namespace DStreamon.Messages.Packet

open Bytes (be16 be32 be16_of_lt be32_of_lt getElem?_of_lt lt_of_getElem?)

variable {p q m : Packet} {buf : List UInt8} {l4 : Option ℕ} {proto : UInt8} {fr : Frame}
  {tr : Transport} {g : Progress} {o : ℕ}

/-! ## What is behind the IPv4 header -/

/-- The two stages behind the IPv4 header, once it is parsed into `m`. -/
structure Transport.Describes (tr : Transport) (buf : List UInt8) (l4 : Option ℕ)
    (proto : UInt8) : Prop where
  ports : ∀ q m : Packet, q.portsParsed = false →
    { q with portsParsed := true }.parseIphdr = some m → m.buffer = buf → m.l4hdrPtr = l4 →
    m.key.proto = proto → q.parsePorts = some (tr.putPorts m)
  tcphdr : ∀ q m : Packet, q.l4hdrParsed = false →
    { q with l4hdrParsed := true }.parseIphdr = some m → m.buffer = buf → m.l4hdrPtr = l4 →
    m.key.proto = proto → q.parseTcphdr = some (tr.putTcp m)
  udp : ∀ sp dp payload, tr = .udp sp dp payload → proto ≠ kTCP
  tcp : ∀ sp dp flags seq ack urg win payload, tr = .tcp sp dp flags seq ack urg win payload →
    proto = kTCP
  payload : ∀ o, tr.payload = some o → o ≤ buf.length
  runt : tr.Runt ↔ ∃ o, l4 = some o ∧ buf.length < o + transportLen proto

theorem kUDP_ne_kTCP : kUDP ≠ kTCP := by decide

theorem none_describes (hle : ∀ o, l4 = some o → o ≤ buf.length)
    (h : l4 = none ∨ (proto ≠ kTCP ∧ proto ≠ kUDP)) :
    Transport.none.Describes buf l4 proto where
  ports := by
    rintro q m hpar hip rfl rfl rfl
    rw [parsePorts, if_neg (by rw [hpar]; decide), hip, Option.bind_eq_bind, Option.bind_some]
    cases hptr : m.l4hdrPtr with
    | none => rfl
    | some o =>
      rw [hptr] at h
      exact if_neg (not_or.2 (h.resolve_left (by simp)))
  tcphdr := by
    rintro q m hpar hip rfl rfl rfl
    rw [parseTcphdr, if_neg (by rw [hpar]; decide), hip, Option.bind_eq_bind, Option.bind_some]
    cases hptr : m.l4hdrPtr with
    | none => rfl
    | some o =>
      rw [hptr] at h
      exact if_neg (h.resolve_left (by simp)).1
  udp := fun _ _ _ h => nomatch h
  tcp := fun _ _ _ _ _ _ _ _ h => nomatch h
  payload := fun _ h => nomatch h
  runt := by
    refine ⟨False.elim, ?_⟩
    rintro ⟨o, ho, hlt⟩
    obtain hnone | ⟨htcp, hudp⟩ := h
    · cases ho.symm.trans hnone
    · rw [transportLen, if_neg htcp, if_neg hudp] at hlt
      exact absurd (hle o ho) (by omega)

/-- `parse_ports` where there is a transport header. -/
theorem parsePorts_at (hpar : q.portsParsed = false)
    (hip : { q with portsParsed := true }.parseIphdr = some m) (hl4 : m.l4hdrPtr = some o)
    (hle : o ≤ m.buffer.length) (hproto : m.key.proto = kTCP ∨ m.key.proto = kUDP) :
    q.parsePorts = if 4 ≤ m.buffer.length - o then (do
        let srcPort ← be16 m.buffer o
        let dstPort ← be16 m.buffer (o + 2)
        some { m with
          key := { m.key with srcPort, dstPort }
          l4payloadPtr := if m.key.proto = kUDP ∧ 8 ≤ m.buffer.length - o then some (o + 8)
            else m.l4payloadPtr })
      else some { m with pkttype := kPktTypeRuntL4, l4hdrParsed := true } := by
  rw [parsePorts, if_neg (by rw [hpar]; decide), hip, Option.bind_eq_bind, Option.bind_some]
  simp only [hl4, left_of_le hle]
  rw [if_pos hproto, Option.bind_eq_bind, Option.bind_some]

theorem parsePorts_runt (hpar : q.portsParsed = false)
    (hip : { q with portsParsed := true }.parseIphdr = some m) (hl4 : m.l4hdrPtr = some o)
    (hle : o ≤ m.buffer.length) (hproto : m.key.proto = kTCP ∨ m.key.proto = kUDP)
    (hshort : m.buffer.length < o + 4) :
    q.parsePorts = some { m with pkttype := kPktTypeRuntL4, l4hdrParsed := true } := by
  rw [parsePorts_at hpar hip hl4 hle hproto, if_neg (by omega)]

theorem parseTcphdr_udp (hpar : q.l4hdrParsed = false)
    (hip : { q with l4hdrParsed := true }.parseIphdr = some m) (hproto : m.key.proto ≠ kTCP) :
    q.parseTcphdr = some m := by
  rw [parseTcphdr, if_neg (by rw [hpar]; decide), hip, Option.bind_eq_bind, Option.bind_some]
  cases m.l4hdrPtr with
  | none => rfl
  | some o => exact if_neg hproto

theorem parseTcphdr_runt (hpar : q.l4hdrParsed = false)
    (hip : { q with l4hdrParsed := true }.parseIphdr = some m) (hl4 : m.l4hdrPtr = some o)
    (hle : o ≤ m.buffer.length) (hproto : m.key.proto = kTCP)
    (hshort : m.buffer.length < o + 20) :
    q.parseTcphdr = some { m with pkttype := kPktTypeRuntL4 } := by
  rw [parseTcphdr, if_neg (by rw [hpar]; decide), hip, Option.bind_eq_bind, Option.bind_some]
  simp only [hl4, left_of_le hle]
  rw [if_pos hproto, Option.bind_eq_bind, Option.bind_some, if_neg (by omega)]

theorem udp_describes (hle : o ≤ buf.length) :
    ∃ tr : Transport, tr.Describes buf (some o) kUDP := by
  by_cases hshort : buf.length < o + 4
  · refine ⟨.runtPorts false, ?_, ?_, by simp, by simp, by simp [Transport.payload],
      fun _ => ⟨o, rfl, hshort⟩, fun _ => trivial⟩
    · rintro q m hpar hip rfl hl4 hproto
      exact parsePorts_runt hpar hip hl4 hle (.inr hproto) hshort
    · rintro q m hpar hip rfl hl4 hproto
      exact parseTcphdr_udp hpar hip (hproto.trans_ne kUDP_ne_kTCP)
  · obtain ⟨sp, hsp⟩ := be16_of_lt (m := buf) (i := o) (by omega)
    obtain ⟨dp, hdp⟩ := be16_of_lt (m := buf) (i := o + 2) (by omega)
    refine ⟨.udp sp dp (if 8 ≤ buf.length - o then some (o + 8) else none), ?_, ?_,
      fun _ _ _ _ => kUDP_ne_kTCP, by simp, fun o' h => ?_,
      False.elim, ?_⟩
    · rintro q m hpar hip rfl hl4 hproto
      rw [parsePorts_at hpar hip hl4 hle (.inr hproto), if_pos (by omega), hsp, hdp]
      by_cases hpay : 8 ≤ m.buffer.length - o
      · simp [hproto, hpay, Transport.putPorts]
      · simp [hpay, Transport.putPorts]
    · rintro q m hpar hip rfl hl4 hproto
      exact parseTcphdr_udp hpar hip (hproto.trans_ne kUDP_ne_kTCP)
    · rw [Transport.payload] at h
      split_ifs at h with hpay
      obtain rfl := Option.some.inj h
      omega
    · rintro ⟨o', ho', hlt⟩
      obtain rfl := Option.some.inj ho'
      exact hshort hlt

theorem tcp_describes (hle : o ≤ buf.length) :
    ∃ tr : Transport, tr.Describes buf (some o) kTCP := by
  by_cases hports : buf.length < o + 4
  · have hshort : buf.length < o + 20 := by omega
    refine ⟨.runtPorts true, ?_, ?_, by simp, by simp, by simp [Transport.payload],
      fun _ => ⟨o, rfl, hshort⟩, fun _ => trivial⟩
    · rintro q m hpar hip rfl hl4 hproto
      exact parsePorts_runt hpar hip hl4 hle (.inl hproto) hports
    · rintro q m hpar hip rfl hl4 hproto
      exact parseTcphdr_runt hpar hip hl4 hle hproto hshort
  · obtain ⟨sp, hsp⟩ := be16_of_lt (m := buf) (i := o) (by omega)
    obtain ⟨dp, hdp⟩ := be16_of_lt (m := buf) (i := o + 2) (by omega)
    have hparse : ∀ q m : Packet, q.portsParsed = false →
        { q with portsParsed := true }.parseIphdr = some m → m.buffer = buf →
        m.l4hdrPtr = some o → m.key.proto = kTCP → q.parsePorts =
          some { m with key := { m.key with srcPort := sp, dstPort := dp } } := by
      rintro q m hpar hip rfl hl4 hproto
      rw [parsePorts_at hpar hip hl4 hle (.inl hproto), if_pos (by omega), hsp, hdp]
      simp [hproto, kUDP_ne_kTCP.symm]
    by_cases hshort : buf.length < o + 20
    · refine ⟨.runtTcp sp dp, hparse, ?_, by simp, by simp, by simp [Transport.payload],
        fun _ => ⟨o, rfl, hshort⟩,
        fun _ => trivial⟩
      rintro q m hpar hip rfl hl4 hproto
      exact parseTcphdr_runt hpar hip hl4 hle hproto hshort
    · obtain ⟨flags, hflags⟩ := getElem?_of_lt (m := buf) (i := o + 13) (by omega)
      obtain ⟨seq, hseq⟩ := be32_of_lt (m := buf) (i := o + 4) (by omega)
      obtain ⟨ack, hack⟩ := be32_of_lt (m := buf) (i := o + 8) (by omega)
      obtain ⟨urg, hurg⟩ := be16_of_lt (m := buf) (i := o + 18) (by omega)
      obtain ⟨win, hwin⟩ := be16_of_lt (m := buf) (i := o + 14) (by omega)
      obtain ⟨off, hoff⟩ := getElem?_of_lt (m := buf) (i := o + 12) (by omega)
      refine ⟨.tcp sp dp flags seq ack urg win
        (if decodePayoff off ≤ buf.length - o then some (o + decodePayoff off) else none), hparse,
        ?_, by simp, fun _ _ _ _ _ _ _ _ _ => rfl, fun o' h => ?_, False.elim, ?_⟩
      · rintro q m hpar hip rfl hl4 hproto
        rw [parseTcphdr, if_neg (by rw [hpar]; decide), hip, Option.bind_eq_bind, Option.bind_some]
        simp only [hl4, left_of_le hle]
        rw [if_pos hproto, Option.bind_eq_bind, Option.bind_some, if_pos (by omega), hsp, hdp,
          hflags, hseq, hack, hurg, hwin, hoff]
        by_cases hpay : decodePayoff off ≤ m.buffer.length - o
        · simp [hpay, hl4, Transport.putTcp]
        · simp [hpay, hl4, Transport.putTcp]
      · rw [Transport.payload] at h
        split_ifs at h with hpay
        obtain rfl := Option.some.inj h
        omega
      · rintro ⟨o', ho', hlt⟩
        obtain rfl := Option.some.inj ho'
        exact hshort hlt

/-- Whatever the bytes are, they are one of these. -/
theorem transport_describes (hle : ∀ o, l4 = some o → o ≤ buf.length) :
    ∃ tr : Transport, tr.Describes buf l4 proto := by
  cases l4 with
  | none => exact ⟨_, none_describes hle (.inl rfl)⟩
  | some o =>
    by_cases htcp : proto = kTCP
    · exact htcp ▸ tcp_describes (hle o rfl)
    · by_cases hudp : proto = kUDP
      · exact hudp ▸ udp_describes (hle o rfl)
      · exact ⟨_, none_describes hle (.inr ⟨htcp, hudp⟩)⟩

/-! ## Frames -/

theorem HeaderAt.unique {o' : ℕ} (h : p.HeaderAt o) (h' : p.HeaderAt o') : o = o' := by
  unfold HeaderAt at h h'
  cases hmac : p.mactype with
  | ethernet =>
    rw [hmac] at h h'
    exact h.behind.unique h'.behind
  | rawIP =>
    rw [hmac] at h h'
    exact h.trans h'.symm
  | other =>
    rw [hmac] at h h'
    exact h.2.trans h'.2.symm

/-- The stages, on packets of the same bytes as `p`. -/
structure Frame.Describes (fr : Frame) (p : Packet) : Prop where
  mac : ∀ q, p.SameBytes q → q.parseMac = some (fr.putMac { q with machdrParsed := true })
  iphdr : ∀ q m : Packet, q.iphdrParsed = false →
    { q with iphdrParsed := true }.parseMac = some m → m.buffer = p.buffer →
    m.iphdrPtr = fr.iphdrPtr → m.l4hdrPtr = none → q.parseIphdr = some (fr.putIp m)
  transport : fr.transport.Describes p.buffer fr.l4hdrPtr (fr.proto p)
  bounded : ∀ o, fr.iphdrPtr = some o ∨ fr.l4hdrPtr = some o → o ≤ p.caplen
  runt : fr.Runt ↔ p.CutOff

theorem other_describes {ty : UInt16} (hno : ∀ o, ¬ p.HeaderAt o)
    (hmac : ∀ q, p.SameBytes q → q.parseMac = some ({ q with machdrParsed := true }.noIp ty)) :
    (Frame.other ty).Describes p where
  mac := hmac
  iphdr := fun q m hpar hm _ hptr _ => by
    rw [parseIphdr, if_neg (by rw [hpar]; decide), hm, Option.bind_eq_bind, Option.bind_some]
    simp only [hptr]
    rfl
  transport := none_describes (fun _ h => nomatch h) (.inl rfl)
  bounded := fun _ h => h.elim nofun nofun
  runt := ⟨False.elim, fun ⟨o, ho, _⟩ => hno o ho⟩

theorem runtIp_describes (ho : p.HeaderAt o) (hle : o ≤ p.caplen) (hshort : p.caplen < o + 20)
    (hmac : ∀ q, p.SameBytes q → q.parseMac = some ({ q with machdrParsed := true }.withIp o)) :
    (Frame.runtIp o).Describes p where
  mac := hmac
  iphdr := fun q m hpar hm hbuf hptr _ => by
    rw [parseIphdr, if_neg (by rw [hpar]; decide), hm, Option.bind_eq_bind, Option.bind_some]
    have hlen : m.buffer.length < o + 20 := by rw [hbuf]; exact hshort
    simp only [hptr, Frame.iphdrPtr, left_of_le (show o ≤ m.buffer.length by rw [hbuf]; exact hle)]
    rw [Option.bind_eq_bind, Option.bind_some, if_neg (by omega)]
    simp only [Frame.putIp, hptr, Frame.iphdrPtr]
  transport := none_describes (fun _ h => nomatch h) (.inl rfl)
  bounded := fun o' h => by
    obtain h | h := h
    · exact Option.some.inj h ▸ hle
    · cases h
  runt := ⟨fun _ => ⟨o, ho, .inl hshort⟩, fun _ => trivial⟩

theorem ip_describes (ho : p.HeaderAt o) (hlen : o + 20 ≤ p.caplen)
    (hmac : ∀ q, p.SameBytes q → q.parseMac = some ({ q with machdrParsed := true }.withIp o)) :
    ∃ fr : Frame, fr.Describes p := by
  unfold caplen at hlen
  obtain ⟨src, hsrc⟩ := be32_of_lt (m := p.buffer) (i := o + 12) (by omega)
  obtain ⟨dst, hdst⟩ := be32_of_lt (m := p.buffer) (i := o + 16) (by omega)
  obtain ⟨proto, hproto⟩ := getElem?_of_lt (m := p.buffer) (i := o + 9) (by omega)
  obtain ⟨tos, htos⟩ := getElem?_of_lt (m := p.buffer) (i := o + 1) (by omega)
  obtain ⟨ttl, httl⟩ := getElem?_of_lt (m := p.buffer) (i := o + 8) (by omega)
  obtain ⟨hlv, hhlv⟩ := getElem?_of_lt (m := p.buffer) (i := o) (by omega)
  generalize hl4 : (if decodeHlv hlv ≤ p.buffer.length - o then some (o + decodeHlv hlv)
    else none) = l4
  have hle : ∀ o', l4 = some o' ↔ o' = o + decodeHlv hlv ∧ o' ≤ p.buffer.length := by
    intro o'
    rw [← hl4]
    split_ifs with h
    · rw [Option.some.injEq]
      omega
    · constructor
      · exact nofun
      · omega
  obtain ⟨tr, htr⟩ : ∃ tr : Transport, tr.Describes p.buffer l4 proto :=
    transport_describes fun o' h => ((hle o').1 h).2
  refine ⟨.ip o src dst proto tos ttl l4 tr, hmac, ?_, htr, ?_, htr.runt.trans ?_⟩
  · intro q m hpar hm hbuf hptr hl4ptr
    rw [parseIphdr, if_neg (by rw [hpar]; decide), hm, Option.bind_eq_bind, Option.bind_some]
    simp only [hptr, Frame.iphdrPtr, left_of_le (show o ≤ m.buffer.length by rw [hbuf]; omega),
      hl4ptr]
    rw [Option.bind_eq_bind, Option.bind_some, hbuf, if_pos (by omega), hsrc, hdst, hproto, htos,
      httl, hhlv, ← hl4]
    simp only [Option.bind_eq_bind, Option.bind_some, Frame.putIp, hptr, Frame.iphdrPtr, hbuf]
  · intro o' h
    obtain h | h := h
    · obtain rfl : o = o' := Option.some.inj h
      unfold caplen
      omega
    · exact ((hle o').1 h).2
  · constructor
    · rintro ⟨o', ho', hlt⟩
      obtain ⟨rfl, hle'⟩ := (hle o').1 ho'
      exact ⟨o, ho, .inr ⟨hlv, proto, hhlv, hproto, hle', hlt⟩⟩
    · rintro ⟨o', ho', hcut⟩
      obtain rfl := ho.unique ho'
      obtain hcut | ⟨hlv', proto', hhlv', hproto', hle', hlt⟩ := hcut
      · exact absurd hcut (Nat.not_lt.2 hlen)
      · obtain rfl := Option.some.inj (hhlv.symm.trans hhlv')
        obtain rfl := Option.some.inj (hproto.symm.trans hproto')
        exact ⟨_, (hle _).2 ⟨rfl, hle'⟩, hlt⟩

theorem frame_describes (p : Packet) : ∃ fr : Frame, fr.Describes p := by
  obtain ⟨ty, hno, hmac⟩ | ⟨o, hle, ho, hmac⟩ := parseMac_ends p
  · exact ⟨_, other_describes hno hmac⟩
  · by_cases hshort : p.caplen < o + 20
    · exact ⟨_, runtIp_describes ho hle hshort hmac⟩
    · exact ip_describes ho (Nat.not_lt.1 hshort) hmac

/-! ## Stages -/

/-- The packet with the headers up to the IPv4 header parsed. -/
def Frame.ipView (fr : Frame) (q : Packet) : Packet :=
  fr.putIp { fr.putMac { q with machdrParsed := true } with iphdrParsed := true }

/-- What the stages behind the IPv4 header leave. -/
structure SameIp (p q : Packet) : Prop where
  buffer : q.buffer = p.buffer
  iphdrPtr : q.iphdrPtr = p.iphdrPtr
  l4hdrPtr : q.l4hdrPtr = p.l4hdrPtr
  machdrParsed : q.machdrParsed = p.machdrParsed
  iphdrParsed : q.iphdrParsed = p.iphdrParsed
  srcIp4 : q.key.srcIp4 = p.key.srcIp4
  dstIp4 : q.key.dstIp4 = p.key.dstIp4
  proto : q.key.proto = p.key.proto

theorem sameIp_putPorts (b : Bool) : SameIp p (tr.putPorts { p with portsParsed := b }) := by
  cases tr <;> constructor <;> rfl

theorem sameIp_putTcp (b : Bool) : SameIp p (tr.putTcp { p with l4hdrParsed := b }) := by
  obtain _ | (_ | _) | _ | _ | _ := tr <;> constructor <;> rfl

theorem SameIp.trans (h : SameIp p q) (h' : SameIp q m) : SameIp p m where
  buffer := h'.buffer.trans h.buffer
  iphdrPtr := h'.iphdrPtr.trans h.iphdrPtr
  l4hdrPtr := h'.l4hdrPtr.trans h.l4hdrPtr
  machdrParsed := h'.machdrParsed.trans h.machdrParsed
  iphdrParsed := h'.iphdrParsed.trans h.iphdrParsed
  srcIp4 := h'.srcIp4.trans h.srcIp4
  dstIp4 := h'.dstIp4.trans h.dstIp4
  proto := h'.proto.trans h.proto

theorem sameIp_view (fr : Frame) (p : Packet) (ports tcp : Bool) :
    SameIp (fr.ipView p) (fr.view p (.ip ports tcp)) := by
  have hrefl : SameIp (fr.ipView p) (fr.ipView p) := ⟨rfl, rfl, rfl, rfl, rfl, rfl, rfl, rfl⟩
  cases ports <;> cases tcp
  · exact hrefl
  · exact sameIp_putTcp true
  · exact sameIp_putPorts true
  · exact (sameIp_putPorts true).trans (sameIp_putTcp true)

theorem parseMac_of_parsed (h : q.machdrParsed = true) : q.parseMac = some q := if_pos h

section Stages

variable (hp : p.Unparsed) (hd : fr.Describes p)

include hd in
/-- `parse_iphdr` gives the same before and after `parse_mac`. -/
theorem parseIphdr_ipView (hq : p.SameBytes q) (hpar : q.iphdrParsed = false)
    (hptr : q.iphdrPtr = none) (hl4 : q.l4hdrPtr = none) :
    q.parseIphdr = some (fr.ipView q) ∧
      (fr.putMac { q with machdrParsed := true }).parseIphdr = some (fr.ipView q) := by
  have hmac := hd.mac { q with iphdrParsed := true } ⟨hq.buffer, hq.mactype, hq.pkttype,
    hq.machdrParsed⟩
  have hbuf : q.buffer = p.buffer := hq.buffer
  cases fr with
  | other ty => exact ⟨hd.iphdr q _ hpar hmac hbuf hptr hl4, parseIphdr_of_parsed rfl⟩
  | runtIp o =>
    exact ⟨hd.iphdr q _ hpar hmac hbuf rfl hl4,
      hd.iphdr _ _ hpar (parseMac_of_parsed rfl) hbuf rfl hl4⟩
  | ip o src dst proto tos ttl l4 tr =>
    exact ⟨hd.iphdr q _ hpar hmac hbuf rfl hl4,
      hd.iphdr _ _ hpar (parseMac_of_parsed rfl) hbuf rfl hl4⟩

include hp

variable (fr) in
theorem ipView_members : (fr.ipView p).buffer = p.buffer ∧ (fr.ipView p).machdrParsed = true ∧
    (fr.ipView p).iphdrParsed = true ∧ (fr.ipView p).iphdrPtr = fr.iphdrPtr ∧
    (fr.ipView p).l4hdrPtr = fr.l4hdrPtr ∧ (fr.ipView p).key.proto = fr.proto p := by
  cases fr with
  | other ty => exact ⟨rfl, rfl, rfl, hp.iphdrPtr, hp.l4hdrPtr, rfl⟩
  | runtIp o => exact ⟨rfl, rfl, rfl, rfl, hp.l4hdrPtr, rfl⟩
  | ip => exact ⟨rfl, rfl, rfl, rfl, rfl, rfl⟩

variable (fr) in
/-- Neither transport stage has anything to do with a packet that has no complete IPv4 header. -/
theorem parsed_or_ip (ports tcp : Bool) :
    ((fr.view p (.ip ports tcp)).portsParsed = true ∧
      (fr.view p (.ip ports tcp)).l4hdrParsed = true ∧
      ∀ ports' tcp', fr.view p (.ip ports' tcp') = fr.view p (.ip ports tcp)) ∨
    ((fr.ipView p).portsParsed = false ∧ (fr.ipView p).l4hdrParsed = false) := by
  cases fr with
  | other ty =>
    refine .inl ⟨?_, ?_, fun ports' tcp' => ?_⟩
    · cases ports <;> cases tcp <;> rfl
    · cases ports <;> cases tcp <;> rfl
    · cases ports <;> cases tcp <;> cases ports' <;> cases tcp' <;> rfl
  | runtIp o =>
    refine .inl ⟨?_, ?_, fun ports' tcp' => ?_⟩
    · cases ports <;> cases tcp <;> rfl
    · cases ports <;> cases tcp <;> rfl
    · cases ports <;> cases tcp <;> cases ports' <;> cases tcp' <;> rfl
  | ip => exact .inr ⟨hp.portsParsed, hp.l4hdrParsed⟩

omit hp in
theorem putTcp_putPorts (q : Packet) :
    tr.putPorts { tr.putTcp { q with l4hdrParsed := true } with portsParsed := true } =
      tr.putTcp { tr.putPorts { q with portsParsed := true } with l4hdrParsed := true } := by
  obtain _ | (_ | _) | _ | _ | _ := tr <;> rfl

omit hp in
/-- `parse_ports` has found less than the ports, and leaves nothing to `parse_tcphdr`. -/
theorem putTcp_runt (hq : q.l4hdrParsed = false)
    (h : (tr.putPorts { q with portsParsed := true }).l4hdrParsed = true) :
    tr.putTcp { tr.putPorts { q with portsParsed := true } with l4hdrParsed := true } =
      tr.putPorts { q with portsParsed := true } := by
  cases tr with
  | runtPorts tcp => cases tcp <;> rfl
  | none | udp | runtTcp | tcp => exact absurd (hq.symm.trans h) (by decide)

omit hp in
theorem portsParsed_view (tcp : Bool) : (fr.view p (.ip true tcp)).portsParsed = true := by
  have h : (fr.view p (.ip true false)).portsParsed = true := by
    unfold Frame.view
    cases fr.transport <;> rfl
  cases tcp with
  | false => exact h
  | true =>
    refine Eq.trans ?_ h
    unfold Frame.view
    obtain _ | (_ | _) | _ | _ | _ := fr.transport <;> rfl

omit hp in
theorem l4hdrParsed_view (ports : Bool) : (fr.view p (.ip ports true)).l4hdrParsed = true := by
  unfold Frame.view
  obtain _ | (_ | _) | _ | _ | _ := fr.transport <;> rfl

include hd

theorem parseMac_view : (fr.view p g).parseMac = some (fr.view p g.afterMac) := by
  cases g with
  | fresh => exact hd.mac p ⟨rfl, rfl, rfl, hp.machdrParsed⟩
  | mac => exact parseMac_of_parsed (by cases fr <;> rfl)
  | ip ports tcp =>
    exact parseMac_of_parsed ((sameIp_view fr p ports tcp).machdrParsed.trans
      (ipView_members fr hp).2.1)

theorem parseIphdr_view : (fr.view p g).parseIphdr = some (fr.view p g.afterIphdr) := by
  have h := parseIphdr_ipView hd ⟨rfl, rfl, rfl, hp.machdrParsed⟩ hp.iphdrParsed hp.iphdrPtr
    hp.l4hdrPtr
  cases g with
  | fresh => exact h.1
  | mac => exact h.2
  | ip ports tcp =>
    exact parseIphdr_of_parsed ((sameIp_view fr p ports tcp).iphdrParsed.trans
      (ipView_members fr hp).2.2.1)

theorem parsePorts_view : (fr.view p g).parsePorts = some (fr.view p g.afterPorts) := by
  have hip := parseIphdr_ipView hd (q := { p with portsParsed := true })
    ⟨rfl, rfl, rfl, hp.machdrParsed⟩ hp.iphdrParsed hp.iphdrPtr hp.l4hdrPtr
  have hview : fr.ipView { p with portsParsed := true } =
      { fr.ipView p with portsParsed := true } := by
    cases fr <;> rfl
  obtain ⟨hbuf, -, hpar, -, hl4, hproto⟩ := ipView_members fr hp
  have hports : ∀ q : Packet, q.portsParsed = false →
      { q with portsParsed := true }.parseIphdr = some (fr.ipView { p with portsParsed := true }) →
      q.parsePorts = some (fr.view p (.ip true false)) := by
    intro q hq h
    rw [hview] at h
    exact hd.transport.ports q _ hq h hbuf hl4 hproto
  cases g with
  | fresh => exact hports p hp.portsParsed hip.1
  | mac =>
    cases fr with
    | other ty => exact parsePorts_of_parsed rfl
    | runtIp o => exact hports _ hp.portsParsed hip.2
    | ip => exact hports _ hp.portsParsed hip.2
  | ip ports tcp =>
    obtain ⟨hdone, -, heq⟩ | ⟨hopen, -⟩ := parsed_or_ip fr hp ports tcp
    · rw [parsePorts_of_parsed hdone]
      exact congrArg some (heq true tcp).symm
    · cases ports with
      | true => exact parsePorts_of_parsed (portsParsed_view tcp)
      | false =>
        have hsame := sameIp_view fr p false tcp
        have hq : (fr.view p (.ip false tcp)).portsParsed = false := by
          cases tcp with
          | false => exact hopen
          | true =>
            refine Eq.trans ?_ hopen
            unfold Frame.view
            obtain _ | (_ | _) | _ | _ | _ := fr.transport <;> rfl
        have hrun := hd.transport.ports _ _ hq
          (parseIphdr_of_parsed (hsame.iphdrParsed.trans hpar)) (hsame.buffer.trans hbuf)
          (hsame.l4hdrPtr.trans hl4) (hsame.proto.trans hproto)
        refine hrun.trans (congrArg some ?_)
        cases tcp with
        | false => rfl
        | true => exact putTcp_putPorts _

theorem parseTcphdr_view : (fr.view p g).parseTcphdr = some (fr.view p g.afterTcphdr) := by
  have hip := parseIphdr_ipView hd (q := { p with l4hdrParsed := true })
    ⟨rfl, rfl, rfl, hp.machdrParsed⟩ hp.iphdrParsed hp.iphdrPtr hp.l4hdrPtr
  have hview : fr.ipView { p with l4hdrParsed := true } =
      { fr.ipView p with l4hdrParsed := true } := by
    cases fr <;> rfl
  obtain ⟨hbuf, -, hpar, -, hl4, hproto⟩ := ipView_members fr hp
  have htcp : ∀ q : Packet, q.l4hdrParsed = false →
      { q with l4hdrParsed := true }.parseIphdr = some (fr.ipView { p with l4hdrParsed := true }) →
      q.parseTcphdr = some (fr.view p (.ip false true)) := by
    intro q hq h
    rw [hview] at h
    exact hd.transport.tcphdr q _ hq h hbuf hl4 hproto
  cases g with
  | fresh => exact htcp p hp.l4hdrParsed hip.1
  | mac =>
    cases fr with
    | other ty => exact parseTcphdr_of_parsed rfl
    | runtIp o => exact htcp _ hp.l4hdrParsed hip.2
    | ip => exact htcp _ hp.l4hdrParsed hip.2
  | ip ports tcp =>
    obtain ⟨-, hdone, heq⟩ | ⟨-, hopen⟩ := parsed_or_ip fr hp ports tcp
    · rw [parseTcphdr_of_parsed hdone]
      exact congrArg some (heq ports true).symm
    · cases tcp with
      | true => exact parseTcphdr_of_parsed (l4hdrParsed_view ports)
      | false =>
        have hsame := sameIp_view fr p ports false
        by_cases hq : (fr.view p (.ip ports false)).l4hdrParsed = true
        · rw [parseTcphdr_of_parsed hq]
          refine congrArg some ?_
          cases ports with
          | false => exact absurd (hopen.symm.trans hq) (by decide)
          | true => exact (putTcp_runt hopen hq).symm
        · exact (hd.transport.tcphdr _ _ (Bool.not_eq_true _ ▸ hq)
            (parseIphdr_of_parsed (hsame.iphdrParsed.trans hpar)) (hsame.buffer.trans hbuf)
            (hsame.l4hdrPtr.trans hl4) (hsame.proto.trans hproto)).trans rfl

/-! ## Calls -/

end Stages

/-- The member an accessor returns. -/
def member (p : Packet) : Accessor → Member
  | .iphdr => .pointer p.iphdrPtr
  | .l4hdr => .pointer p.l4hdrPtr
  | .l4payload => .pointer p.l4payloadPtr
  | .l3Protocol => .u16 p.pkttype
  | .srcIp4 => .u32 p.key.srcIp4
  | .dstIp4 => .u32 p.key.dstIp4
  | .srcPort => .u16 p.key.srcPort
  | .dstPort => .u16 p.key.dstPort
  | .protocol => .u8 p.key.proto
  | .key => .key p.key
  | .tcpFlags => .u8 p.tcpflags
  | .tcpSeq => .u32 p.tcpseq
  | .tcpWin => .u32 p.tcpwin

/-- The packet with everything parsed. -/
def Frame.done (fr : Frame) (p : Packet) : Packet := fr.view p (.ip true true)

theorem get_eq {α : Type} {parse : Packet → Option Packet} (f : Packet → α)
    (h : parse p = some q) : get parse f p = some (q, f q) := by
  rw [get, h, Option.map_some]

theorem key_view (fr : Frame) (p : Packet) (tcp : Bool) :
    (fr.view p (.ip true tcp)).key = (fr.done p).key := by
  cases tcp with
  | true => rfl
  | false =>
    unfold Frame.done Frame.view
    obtain _ | (_ | _) | _ | _ | _ := fr.transport <;> rfl

/-- What only `parse_tcphdr` writes. -/
theorem tcp_view (fr : Frame) (p : Packet) (ports : Bool) :
    (fr.view p (.ip ports true)).tcpflags = (fr.done p).tcpflags ∧
      (fr.view p (.ip ports true)).tcpseq = (fr.done p).tcpseq ∧
      (fr.view p (.ip ports true)).tcpwin = (fr.done p).tcpwin := by
  cases ports with
  | true => exact ⟨rfl, rfl, rfl⟩
  | false =>
    unfold Frame.done Frame.view
    obtain _ | (_ | _) | _ | _ | _ := fr.transport <;> exact ⟨rfl, rfl, rfl⟩

section Calls

variable (hp : p.Unparsed) (hd : fr.Describes p)

include hp

theorem iphdrPtr_view : (fr.view p g.afterMac).iphdrPtr = (fr.done p).iphdrPtr := by
  have hip : ∀ ports tcp, (fr.view p (.ip ports tcp)).iphdrPtr = fr.iphdrPtr := fun ports tcp =>
    (sameIp_view fr p ports tcp).iphdrPtr.trans (ipView_members fr hp).2.2.2.1
  have hmac : (fr.view p .mac).iphdrPtr = fr.iphdrPtr := by
    cases fr with
    | other => exact hp.iphdrPtr
    | runtIp | ip => rfl
  refine Eq.trans ?_ (hip true true).symm
  cases g with
  | fresh | mac => exact hmac
  | ip ports tcp => exact hip ports tcp

theorem l4payloadPtr_done : (fr.done p).l4payloadPtr = fr.transport.payload := by
  have hip : (fr.ipView p).l4payloadPtr = none := by
    cases fr <;> exact hp.l4payloadPtr
  have hdone : (fr.done p).l4payloadPtr = fr.transport.payload.or (fr.ipView p).l4payloadPtr := by
    unfold Frame.done Frame.view
    obtain _ | (_ | _) | _ | _ | _ := fr.transport <;> rfl
  rw [hdone, hip, Option.or_none]

omit hp in
include hd in
/-- UDP's payload is found with the ports, TCP's with its header. -/
theorem l4payloadPtr_view (ports tcp : Bool) (h : if fr.proto p = kTCP then tcp else ports) :
    (fr.view p (.ip ports tcp)).l4payloadPtr = (fr.done p).l4payloadPtr := by
  unfold Frame.done Frame.view
  split_ifs at h with htcp
  · subst h
    cases ports with
    | true => rfl
    | false =>
      cases htr : fr.transport with
      | udp => exact absurd htcp (hd.transport.udp _ _ _ htr)
      | runtPorts tcp => cases tcp <;> rfl
      | none | runtTcp | tcp => rfl
  · subst h
    cases tcp with
    | true => rfl
    | false =>
      cases htr : fr.transport with
      | tcp => exact absurd (hd.transport.tcp _ _ _ _ _ _ _ _ htr) htcp
      | runtPorts tcp => cases tcp <;> rfl
      | none | runtTcp | udp => rfl

include hd

theorem read_l3Protocol : (fr.view p g).read .l3Protocol =
    some (fr.view p g.afterMac, .u16 (fr.view p g.afterMac).pkttype) := by
  rw [Packet.read, l3Protocol, get_eq _ (parseMac_view hp hd)]
  rfl

omit hp hd in
theorem afterIphdr_ip (g : Progress) : ∃ ports tcp, g.afterIphdr = .ip ports tcp := by
  cases g with
  | fresh | mac => exact ⟨_, _, rfl⟩
  | ip => exact ⟨_, _, rfl⟩

omit hp hd in
theorem afterPorts_ip (g : Progress) : ∃ tcp, g.afterPorts = .ip true tcp := by
  cases g with
  | fresh | mac => exact ⟨_, rfl⟩
  | ip => exact ⟨_, rfl⟩

omit hp hd in
theorem afterTcphdr_ip (g : Progress) : ∃ ports, g.afterTcphdr = .ip ports true := by
  cases g with
  | fresh | mac => exact ⟨_, rfl⟩
  | ip => exact ⟨_, rfl⟩

omit hp hd in
/-- A stage after which a member is as it stays. -/
theorem read_get {α : Type} {parse : Packet → Option Packet} {f : Packet → α} {c : α → Member}
    {g' : Progress} (h : parse (fr.view p g) = some (fr.view p g'))
    (hf : f (fr.view p g') = f (fr.done p)) :
    ∃ g', (get parse f (fr.view p g)).map (Prod.map id c) =
      some (fr.view p g', c (f (fr.done p))) :=
  ⟨g', by rw [get_eq f h, hf]; rfl⟩

omit hp hd in
theorem ip_view {α : Type} {f : Packet → α} (hf : ∀ {q q'}, SameIp q q' → f q' = f q) :
    f (fr.view p g.afterIphdr) = f (fr.done p) := by
  obtain ⟨ports, tcp, hg⟩ := afterIphdr_ip g
  rw [hg]
  exact (hf (sameIp_view fr p ports tcp)).trans (hf (sameIp_view fr p true true)).symm

theorem read_l4payload : ∃ g', (fr.view p g).read .l4payload =
    some (fr.view p g', .pointer (fr.done p).l4payloadPtr) := by
  have htcp : (fr.view p g).isTcp =
      some (fr.view p g.afterIphdr, decide (fr.proto p = kTCP)) := by
    have hproto : (fr.view p g.afterIphdr).key.proto = fr.proto p :=
      (ip_view (f := fun q => q.key.proto) SameIp.proto).trans
        ((sameIp_view fr p true true).proto.trans (ipView_members fr hp).2.2.2.2.2)
    refine (get_eq _ (parseIphdr_view hp hd)).trans ?_
    rw [hproto]
  have hread : (fr.view p g).read .l4payload =
      (get (if decide (fr.proto p = kTCP) then parseTcphdr else parsePorts) l4payloadPtr
        (fr.view p g.afterIphdr)).map (Prod.map id .pointer) := by
    rw [Packet.read, l4payload, htcp]
    rfl
  rw [hread]
  by_cases h : fr.proto p = kTCP
  · rw [decide_eq_true h, if_pos rfl]
    obtain ⟨ports, hg⟩ := afterTcphdr_ip g.afterIphdr
    exact read_get (parseTcphdr_view hp hd)
      (hg ▸ l4payloadPtr_view hd ports true (by rw [if_pos h]))
  · rw [decide_eq_false h, if_neg Bool.false_ne_true]
    obtain ⟨tcp, hg⟩ := afterPorts_ip g.afterIphdr
    exact read_get (parsePorts_view hp hd)
      (hg ▸ l4payloadPtr_view hd true tcp (by rw [if_neg h]))

/-- All but one accessor have the answer that everything parsed gives. -/
theorem read_settled : ∀ {a : Accessor}, a ≠ .l3Protocol →
    ∃ g', (fr.view p g).read a = some (fr.view p g', (fr.done p).member a) := by
  have hports : (fr.view p g.afterPorts).key = (fr.done p).key := by
    obtain ⟨tcp, hg⟩ := afterPorts_ip g
    rw [hg]
    exact key_view fr p tcp
  obtain ⟨ports, hg⟩ := afterTcphdr_ip g
  have htcp := tcp_view fr p ports
  rw [← hg] at htcp
  obtain ⟨hflags, hseq, hwin⟩ := htcp
  have hmac := parseMac_view hp hd (g := g)
  have hiphdr := parseIphdr_view hp hd (g := g)
  have hparts := parsePorts_view hp hd (g := g)
  have htcphdr := parseTcphdr_view hp hd (g := g)
  intro a ha
  cases a with
  | iphdr => exact read_get hmac (iphdrPtr_view hp)
  | l4hdr => exact read_get hiphdr (ip_view SameIp.l4hdrPtr)
  | l4payload => exact read_l4payload hp hd
  | l3Protocol => exact absurd rfl ha
  | srcIp4 => exact read_get hiphdr (ip_view (f := fun q => q.key.srcIp4) SameIp.srcIp4)
  | dstIp4 => exact read_get hiphdr (ip_view (f := fun q => q.key.dstIp4) SameIp.dstIp4)
  | srcPort => exact read_get hparts (congrArg FlowKey.srcPort hports)
  | dstPort => exact read_get hparts (congrArg FlowKey.dstPort hports)
  | protocol => exact read_get hiphdr (ip_view (f := fun q => q.key.proto) SameIp.proto)
  | key => exact read_get hparts hports
  | tcpFlags => exact read_get htcphdr hflags
  | tcpSeq => exact read_get htcphdr hseq
  | tcpWin => exact read_get htcphdr hwin

omit hp hd in
/-- The type that `parse_mac` writes stays where nothing is reported as cut off. -/
theorem pkttype_view (h : ¬ fr.Runt) (ports tcp : Bool) :
    (fr.view p (.ip ports tcp)).pkttype = (fr.view p .mac).pkttype := by
  cases fr with
  | other ty => cases ports <;> cases tcp <;> rfl
  | runtIp o => exact absurd trivial h
  | ip o src dst proto tos ttl l4 tr =>
    cases tr with
    | runtPorts | runtTcp => exact absurd trivial h
    | none | udp | tcp => cases ports <;> cases tcp <;> rfl

omit hp hd in
theorem pkttype_runt (h : fr.Runt) : (fr.view p .mac).pkttype ≠ (fr.done p).pkttype := by
  cases fr with
  | other ty => exact h.elim
  | runtIp o => exact show kPktTypeIP4 ≠ kPktTypeRuntL3 by decide
  | ip o src dst proto tos ttl l4 tr =>
    cases tr with
    | none | udp | tcp => exact h.elim
    | runtPorts tcp => cases tcp <;> exact show kPktTypeIP4 ≠ kPktTypeRuntL4 by decide
    | runtTcp => exact show kPktTypeIP4 ≠ kPktTypeRuntL4 by decide

omit hp hd in
theorem pkttype_settled (h : ¬ fr.Runt) :
    (fr.view p g.afterMac).pkttype = (fr.done p).pkttype := by
  refine Eq.trans ?_ (pkttype_view h true true).symm
  cases g with
  | fresh | mac => rfl
  | ip ports tcp => exact pkttype_view h ports tcp

theorem read_answer (h : ¬ fr.Runt) (a : Accessor) :
    ∃ g', (fr.view p g).read a = some (fr.view p g', (fr.done p).member a) := by
  by_cases ha : a = .l3Protocol
  · subst ha
    exact ⟨_, (read_l3Protocol hp hd).trans (by rw [pkttype_settled h]; rfl)⟩
  · exact read_settled hp hd ha

omit hp hd in
/-- What one call gives from any stage on, the calls give. -/
theorem reads_view {P : Accessor → Member → Prop}
    (hread : ∀ g a, ∃ g' v, (fr.view p g).read a = some (fr.view p g', v) ∧ P a v) :
    ∀ (calls : List Accessor) (g : Progress),
      ∃ q vs, (fr.view p g).reads calls = some (q, vs) ∧ List.Forall₂ P calls vs
  | [], g => ⟨_, [], rfl, .nil⟩
  | a :: calls, g => by
    obtain ⟨g', v, hread', hv⟩ := hread g a
    obtain ⟨q, vs, hreads, hvs⟩ := reads_view hread calls g'
    refine ⟨q, v :: vs, ?_, .cons hv hvs⟩
    rw [reads, hread', Option.bind_eq_bind, Option.bind_some, hreads]
    rfl

/-- No pointer leads outside of what was captured. -/
theorem pointer_le {a : Accessor} {o : ℕ} (h : (fr.done p).member a = .pointer (some o)) :
    o ≤ p.caplen := by
  have hsame := sameIp_view fr p true true
  obtain ⟨-, -, -, hiphdr, hl4, -⟩ := ipView_members fr hp
  cases a with
  | iphdr =>
    refine hd.bounded o (.inl ?_)
    rw [← hiphdr, ← hsame.iphdrPtr]
    exact Member.pointer.inj h
  | l4hdr =>
    refine hd.bounded o (.inr ?_)
    rw [← hl4, ← hsame.l4hdrPtr]
    exact Member.pointer.inj h
  | l4payload =>
    refine hd.transport.payload o ?_
    rw [← l4payloadPtr_done hp]
    exact Member.pointer.inj h
  | _ => cases h

omit hp hd in
theorem reads_cons {q q' : Packet} {a : Accessor} {as : List Accessor} {v : Member}
    {vs : List Member} (hread : q.read a = some (q', v))
    (hreads : q.reads (a :: as) = some (m, vs)) :
    ∃ vs', vs = v :: vs' ∧ q'.reads as = some (m, vs') := by
  rw [reads, hread, Option.bind_eq_bind, Option.bind_some] at hreads
  obtain ⟨⟨q'', vs'⟩, hrest, heq⟩ := Option.bind_eq_some_iff.1 hreads
  obtain ⟨rfl, rfl⟩ := Prod.mk.inj (Option.some.inj heq)
  exact ⟨vs', rfl, hrest⟩

/-- A packet that is cut off has the type of IPv4 first, and another once the stage is done that
finds it cut off. -/
theorem not_orderIndependent (h : fr.Runt) : ¬ p.OrderIndependent := by
  rintro ⟨answer, hanswer, -⟩
  have hports : p.read .srcPort = some (fr.view p (.ip true false),
      .u16 (fr.view p (.ip true false)).key.srcPort) :=
    congrArg (Option.map _) (get_eq (·.key.srcPort) (parsePorts_view hp hd (g := .fresh)))
  have htcp : (fr.view p (.ip true false)).read .tcpFlags = some (fr.done p,
      .u8 (fr.done p).tcpflags) :=
    congrArg (Option.map _) (get_eq (·.tcpflags) (parseTcphdr_view hp hd (g := .ip true false)))
  obtain ⟨q, hfirst⟩ := hanswer [.l3Protocol]
  obtain ⟨q', hlast⟩ := hanswer [.srcPort, .tcpFlags, .l3Protocol]
  obtain ⟨vs, hmac, -⟩ := reads_cons (read_l3Protocol hp hd (g := .fresh)) hfirst
  obtain ⟨vs₁, hvs₁, hlast⟩ := reads_cons hports hlast
  obtain ⟨vs₂, hvs₂, hlast⟩ := reads_cons htcp hlast
  obtain ⟨vs₃, hvs₃, -⟩ := reads_cons (read_l3Protocol hp hd (g := .ip true true)) hlast
  obtain rfl := (List.cons.inj hvs₁).2
  obtain rfl := (List.cons.inj hvs₂).2
  have hanswer := (List.cons.inj hmac).1.symm.trans (List.cons.inj hvs₃).1
  exact pkttype_runt h (Member.u16.inj hanswer)

end Calls

theorem new_unparsed (buf : List UInt8) (len : ℕ) (mactype : MacType) :
    (new buf len mactype).Unparsed := ⟨rfl, rfl, rfl, rfl, rfl, rfl, rfl⟩

/-- Even of a packet that is cut off, nothing outside is read or pointed to. -/
theorem reads_inside (hp : p.Unparsed) (calls : List Accessor) :
    ∃ q vs, p.reads calls = some (q, vs) ∧ ∀ v ∈ vs, ∀ o, v = .pointer (some o) → o ≤ p.caplen := by
  obtain ⟨fr, hd⟩ := frame_describes p
  have hread : ∀ g a, ∃ g' v, (fr.view p g).read a = some (fr.view p g', v) ∧
      ∀ o, v = .pointer (some o) → o ≤ p.caplen := by
    intro g a
    by_cases ha : a = .l3Protocol
    · subst ha
      exact ⟨_, _, read_l3Protocol hp hd, nofun⟩
    · obtain ⟨g', hread⟩ := read_settled hp hd ha
      exact ⟨g', _, hread, fun o => pointer_le hp hd⟩
  obtain ⟨q, vs, hreads, hvs⟩ := reads_view hread calls .fresh
  refine ⟨q, vs, hreads, fun v hv => ?_⟩
  obtain ⟨a, -, ha⟩ := Forall2.exists_left hvs hv
  exact ha

/-- The answers do not depend on the order of the calls just where no header is cut off. -/
theorem accessors_orderIndependent_iff (hp : p.Unparsed) :
    p.OrderIndependent ↔ ¬ p.CutOff := by
  obtain ⟨fr, hd⟩ := frame_describes p
  rw [← hd.runt]
  constructor
  · exact fun h hrunt => not_orderIndependent hp hd hrunt h
  · intro h
    refine ⟨(fr.done p).member, fun calls => ?_, fun a o => pointer_le hp hd⟩
    obtain ⟨q, vs, hreads, hvs⟩ := reads_view (P := fun a v => (fr.done p).member a = v)
      (fun g a => (read_answer hp hd h a).imp fun _ hread => ⟨_, hread, rfl⟩) calls .fresh
    have hmap : List.Forall₂ Eq (calls.map (fr.done p).member) vs :=
      List.forall₂_map_left_iff.2 hvs
    rw [List.forall₂_eq_eq_eq] at hmap
    exact ⟨q, hmap ▸ hreads⟩

/-- An Ethernet frame of a SYN from port 4660 to port 80. -/
def synFrame : List UInt8 :=
  List.replicate 12 0 ++ [8, 0] ++
    [69, 0, 0, 40, 0, 0, 0, 0, 64, 6, 0, 0, 192, 168, 3, 40, 192, 168, 3, 41] ++
    [18, 52, 0, 80, 0, 0, 0, 1, 0, 0, 0, 0, 80, 2, 0, 0, 0, 0, 0, 0]

theorem accessors_orderIndependent_syn : (new synFrame 0 .ethernet).OrderIndependent := by
  refine (accessors_orderIndependent_iff (new_unparsed _ _ _)).2 ?_
  rintro ⟨o, ho, hcut⟩
  have hat : o = 14 := by
    cases ho with
    | here => rfl
    | tag htag => exact absurd htag (by decide)
  subst hat
  obtain hcut | ⟨hlv, proto, hhlv, hproto, hle, hlt⟩ := hcut
  · exact absurd hcut (by decide)
  · obtain rfl : 69 = hlv := Option.some.inj hhlv
    obtain rfl : 6 = proto := Option.some.inj hproto
    exact absurd hlt (by decide)

/-- An Ethernet frame that ends behind the type of IPv4: its type changes with the call that looks
for addresses. -/
theorem not_accessors_orderIndependent : ¬ ∀ p : Packet, p.Unparsed → p.OrderIndependent := by
  intro h
  obtain ⟨answer, hanswer, -⟩ := h (new (List.replicate 12 0 ++ [8, 0]) 0 .ethernet)
    (new_unparsed _ _ _)
  obtain ⟨q, hfirst⟩ := hanswer [.l3Protocol]
  obtain ⟨q', hlast⟩ := hanswer [.srcIp4, .l3Protocol]
  have hfirst : Member.u16 0x0800 = answer .l3Protocol :=
    (List.cons.inj (Prod.mk.inj (Option.some.inj hfirst)).2).1
  have hlast : Member.u16 0xFFF3 = answer .l3Protocol :=
    (List.cons.inj (List.cons.inj (Prod.mk.inj (Option.some.inj hlast)).2).2).1
  exact absurd (hfirst.trans hlast.symm) (by decide)

end DStreamon.Messages.Packet
