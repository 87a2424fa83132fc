import DStreamon.Proofs.Packet

/-!
# What the layer-7 parsers are handed

The constructor calls a parser exactly where the frame has the ports for it, with the payload the
layout says and a length counted from the wire.
-/

namespace DStreamon.Messages

open Bytes (le_of_be16 getElem?_of_lt)
open Packet (Fresh NoPorts PortsFound PortsParsed parsePorts_spec parsePorts_of_parsed
  parseIphdr_of_parsed parseTcphdr_spec parseTcphdr_of_parsed parseTcphdr_noPorts kTCP kUDP)

variable {buf : List UInt8} {len : ℕ}

theorem PortsAt.unique {o l4 o' l4' : ℕ} {proto proto' : UInt8} {sp dp sp' dp' : UInt16}
    (h : PortsAt buf o l4 proto sp dp) (h' : PortsAt buf o' l4' proto' sp' dp') :
    o = o' ∧ l4 = l4' ∧ proto = proto' ∧ sp = sp' ∧ dp = dp' := by
  obtain rfl := h.ip.unique h'.ip
  obtain ⟨hlv, hhlv, rfl⟩ := h.header
  obtain ⟨hlv', hhlv', rfl⟩ := h'.header
  obtain rfl := Option.some.inj (hhlv.symm.trans hhlv')
  exact ⟨rfl, rfl, Option.some.inj (h.proto.symm.trans h'.proto),
    Option.some.inj (h.sp.symm.trans h'.sp), Option.some.inj (h.dp.symm.trans h'.dp)⟩

namespace PacketPlus

/-- The calls a frame of wire length `len` leads to. -/
inductive Hands (buf : List UInt8) (len : ℕ) : Layer7Call → Prop
  | http {o l4 : ℕ} {sp : UInt16} {packet : Option ℕ} : PortsAt buf o l4 kTCP sp 80 →
      (∀ o, packet = some o ↔ TcpPayloadAt buf l4 o ∧ o ≤ buf.length) →
      Hands buf len ⟨.httpRequest, packet, sizeSub (sizeSub len 14) 40⟩
  | modbus {o l4 : ℕ} {sp : UInt16} {packet : Option ℕ} : PortsAt buf o l4 kTCP sp 502 →
      (∀ o, packet = some o ↔ TcpPayloadAt buf l4 o ∧ o ≤ buf.length) →
      Hands buf len ⟨.modbus, packet, sizeSub len 14⟩
  | dns {o l4 : ℕ} {sp dp : UInt16} : PortsAt buf o l4 kUDP sp dp → dp = 53 ∨ sp = 53 →
      Hands buf len ⟨.dnsHeader, some o, sizeSub len 14⟩

/-- A frame leads to one call at most. -/
theorem Hands.unique {c c' : Layer7Call} (h : Hands buf len c) (h' : Hands buf len c') :
    c = c' := by
  cases h with
  | http hp ho =>
    cases h' with
    | http hp' ho' =>
      obtain ⟨-, rfl, -⟩ := hp.unique hp'
      rw [Option.ext fun o => (ho o).trans (ho' o).symm]
    | modbus hp' _ => exact absurd (hp.unique hp').2.2.2.2 (by decide)
    | dns hp' _ => exact absurd (hp.unique hp').2.2.1 (by decide)
  | modbus hp ho =>
    cases h' with
    | http hp' _ => exact absurd (hp.unique hp').2.2.2.2 (by decide)
    | modbus hp' ho' =>
      obtain ⟨-, rfl, -⟩ := hp.unique hp'
      rw [Option.ext fun o => (ho o).trans (ho' o).symm]
    | dns hp' _ => exact absurd (hp.unique hp').2.2.1 (by decide)
  | dns hp _ =>
    cases h' with
    | http hp' _ => exact absurd (hp.unique hp').2.2.1 (by decide)
    | modbus hp' _ => exact absurd (hp.unique hp').2.2.1 (by decide)
    | dns hp' _ =>
      obtain ⟨rfl, -⟩ := hp.unique hp'
      rfl

theorem Hands.mem_iff {c : Layer7Call} (h : Hands buf len c) (c' : Layer7Call) :
    c' ∈ [c] ↔ Hands buf len c' := by
  rw [List.mem_singleton]
  exact ⟨fun heq => heq ▸ h, fun h' => h'.unique h⟩

/-- Ports that lead to no call. -/
theorem not_hands {o l4 : ℕ} {proto : UInt8} {sp dp : UInt16} {c : Layer7Call}
    (h : PortsAt buf o l4 proto sp dp) (h80 : proto = kTCP → dp ≠ 80)
    (h502 : proto = kTCP → dp ≠ 502) (h53 : proto = kUDP → ¬ (dp = 53 ∨ sp = 53)) :
    ¬ Hands buf len c := by
  rintro (⟨hp, -⟩ | ⟨hp, -⟩ | ⟨hp, hdns⟩)
  · obtain ⟨-, -, rfl, -, rfl⟩ := h.unique hp
    exact h80 rfl rfl
  · obtain ⟨-, -, rfl, -, rfl⟩ := h.unique hp
    exact h502 rfl rfl
  · obtain ⟨-, -, rfl, rfl, rfl⟩ := h.unique hp
    exact h53 rfl hdns

theorem fresh_new : (Packet.new buf len .ethernet).Fresh := ⟨rfl, rfl, rfl, rfl, rfl, rfl, rfl⟩

/-! ## The accessors of a parsed packet -/

section Accessors

variable {p q : Packet}

theorem srcPort_eq (h : p.parsePorts = some q) : p.srcPort = some (q, q.key.srcPort) := by
  rw [Packet.srcPort, Packet.get, h, Option.map_some]

theorem dstPort_eq (h : p.parsePorts = some q) : p.dstPort = some (q, q.key.dstPort) := by
  rw [Packet.dstPort, Packet.get, h, Option.map_some]

theorem isTcp_eq (h : p.iphdrParsed = true) : p.isTcp = some (p, decide (p.key.proto = kTCP)) := by
  rw [Packet.isTcp, Packet.get, parseIphdr_of_parsed h, Option.map_some]

theorem isUdp_eq (h : p.iphdrParsed = true) : p.isUdp = some (p, decide (p.key.proto = kUDP)) := by
  rw [Packet.isUdp, Packet.get, parseIphdr_of_parsed h, Option.map_some]

theorem tcpFlags_eq (h : p.parseTcphdr = some q) : p.tcpFlags = some (q, q.tcpflags) := by
  rw [Packet.tcpFlags, Packet.get, h, Option.map_some]

theorem iphdr_eq (h : p.machdrParsed = true) : p.iphdr = some (p, p.iphdrPtr) := by
  rw [Packet.iphdr, Packet.get, Packet.parseMac, if_pos h, Option.map_some]

theorem l4payload_eq (hip : p.iphdrParsed = true) (hl4 : p.l4hdrParsed = true)
    (htcp : p.key.proto = kTCP) : p.l4payload = some (p, p.l4payloadPtr) := by
  rw [Packet.l4payload, isTcp_eq hip]
  simp only [Option.bind_eq_bind, Option.bind_some, htcp, decide_true, if_true, Packet.get]
  rw [parseTcphdr_of_parsed hl4, Option.map_some]

end Accessors

/-- The constructor reads no header outside of the captured bytes, and calls what the frame leads
to. -/
theorem layer7_spec (buf : List UInt8) (len : ℕ) :
    ∃ q b, layer7 (.new buf len .ethernet) = some (q, b) ∧
      ∀ c, c ∈ b.calls ↔ Hands buf (Packet.new buf len .ethernet).length c := by
  obtain ⟨q, hq, hparsed, hcase⟩ := parsePorts_spec (p := .new buf len .ethernet) fresh_new rfl
  have hbuf : q.buffer = buf := hparsed.buffer
  have hlen : q.length = (Packet.new buf len .ethernet).length := hparsed.length
  generalize (Packet.new buf len .ethernet).length = n at hlen ⊢
  simp only [layer7, branch, srcPort_eq hq, dstPort_eq (parsePorts_of_parsed hparsed.portsParsed),
    isTcp_eq hparsed.iphdrParsed, Option.bind_eq_bind, Option.bind_some, decide_eq_true_eq]
  obtain hno | ⟨o, l4, hports⟩ := hcase
  · have hnone : ∀ c, ¬ Hands buf n c := by
      rintro c (⟨hp, -⟩ | ⟨hp, -⟩ | ⟨hp, -⟩)
      · exact hno.ports _ _ _ _ _ (.inl rfl) hp
      · exact hno.ports _ _ _ _ _ (.inl rfl) hp
      · exact hno.ports _ _ _ _ _ (.inr rfl) hp
    have hempty : ∀ c, c ∈ ([] : List Layer7Call) ↔ Hands buf n c :=
      fun c => ⟨fun h => absurd h List.not_mem_nil, fun h => absurd h (hnone c)⟩
    rw [hno.srcPort, hno.dstPort]
    by_cases htcp : q.key.proto = kTCP
    · obtain ⟨q', hq'⟩ := parseTcphdr_noPorts hparsed.iphdrParsed hno htcp
      rw [if_pos htcp, tcpFlags_eq hq']
      exact ⟨_, _, rfl, hempty⟩
    · rw [if_neg htcp]
      exact ⟨_, _, rfl, hempty⟩
  · have hat : PortsAt buf o l4 q.key.proto q.key.srcPort q.key.dstPort := hports.ports
    by_cases htcp : q.key.proto = kTCP
    · have hle : l4 ≤ q.buffer.length := by
        have := le_of_be16 hat.sp
        rw [hbuf]
        omega
      obtain ⟨q', hq', hbuf', hlen', hip', hl4', htcp', hpay⟩ := parseTcphdr_spec
        hparsed.iphdrParsed hports.l4hdrParsed hports.l4hdrPtr htcp (hports.l4payloadPtr htcp) hle
      rw [hbuf] at hpay
      rw [htcp] at hat
      rw [if_pos htcp, tcpFlags_eq hq']
      simp only [Option.bind_some, l4payload_eq hip' hl4' htcp', hlen'.trans hlen]
      by_cases h80 : q.key.dstPort = 80
      · rw [if_pos h80]
        rw [h80] at hat
        exact ⟨_, _, rfl, (Hands.http hat hpay).mem_iff⟩
      · rw [if_neg h80]
        by_cases h502 : q.key.dstPort = 502
        · rw [if_pos h502]
          rw [h502] at hat
          exact ⟨_, _, rfl, (Hands.modbus hat hpay).mem_iff⟩
        · rw [if_neg h502]
          refine ⟨_, _, rfl, fun c => ⟨fun h => absurd h List.not_mem_nil, fun h => ?_⟩⟩
          exact absurd h (not_hands hat (fun _ => h80) (fun _ => h502) (fun h => by cases h))
    · have hudp : q.key.proto = kUDP := hports.proto.resolve_left htcp
      rw [hudp] at hat
      simp only [if_neg htcp, isUdp_eq hparsed.iphdrParsed, iphdr_eq hparsed.machdrParsed,
        Option.bind_some, decide_eq_true_eq, if_pos hudp, hlen, hports.iphdrPtr]
      by_cases h53 : q.key.dstPort = 53 ∨ q.key.srcPort = 53
      · rw [if_pos h53]
        exact ⟨_, _, rfl, (Hands.dns hat h53).mem_iff⟩
      · rw [if_neg h53]
        refine ⟨_, _, rfl, fun c => ⟨fun h => absurd h List.not_mem_nil, fun h => ?_⟩⟩
        exact absurd h (not_hands hat (fun h => by cases h) (fun h => by cases h) (fun _ => h53))

/-! ## The lengths -/

theorem sizeSub_14 {o n : ℕ} (h : n ≤ len) :
    o + sizeSub len 14 ≤ n ↔ 14 ≤ len ∧ o + len ≤ n + 14 := by
  unfold sizeSub
  split <;> omega

theorem sizeSub_14_40 {o n : ℕ} (h : n ≤ len) :
    o + sizeSub (sizeSub len 14) 40 ≤ n ↔ 54 ≤ len ∧ o + len ≤ n + 54 := by
  unfold sizeSub
  split_ifs <;> omega

theorem exists_payload (buf : List UInt8) (l4 : ℕ) :
    ∃ packet, ∀ o, packet = some o ↔ TcpPayloadAt buf l4 o ∧ o ≤ buf.length := by
  by_cases h : ∃ o, TcpPayloadAt buf l4 o ∧ o ≤ buf.length
  · obtain ⟨o, ⟨hin, off, hoff, rfl⟩, hle⟩ := h
    refine ⟨some (l4 + decodePayoff off), fun o' => ⟨fun h => ?_, ?_⟩⟩
    · obtain rfl := Option.some.inj h
      exact ⟨⟨hin, off, hoff, rfl⟩, hle⟩
    · rintro ⟨⟨-, off', hoff', rfl⟩, -⟩
      rw [Option.some.inj (hoff.symm.trans hoff')]
  · exact ⟨none, fun o => ⟨fun h' => (by cases h'), fun h' => absurd ⟨o, h'⟩ h⟩⟩

theorem le_len_of_portsAt {o l4 : ℕ} {proto : UInt8} {sp dp : UInt16}
    (h : PortsAt buf o l4 proto sp dp) (hlen : buf.length ≤ len) : 14 ≤ len := by
  have := h.ip.1.le
  omega

/-- All a frame leads to lies inside exactly if it fits. -/
theorem hands_inside_iff (hlen : buf.length ≤ len) :
    (∀ c, Hands buf len c → c.Inside buf) ↔ Fits buf len := by
  constructor
  · refine fun hall => ⟨fun {o l4 sp} h => ?_, fun {o l4 sp} h => ?_, fun {o l4 sp dp} h h53 => ?_⟩
    · obtain ⟨packet, hpacket⟩ := exists_payload buf l4
      obtain ⟨o, ho, hin⟩ := hall _ (.http h hpacket)
      obtain ⟨hle, hin⟩ := (sizeSub_14_40 hlen).1 hin
      exact ⟨hle, o, ((hpacket o).1 ho).1, hin⟩
    · obtain ⟨packet, hpacket⟩ := exists_payload buf l4
      obtain ⟨o, ho, hin⟩ := hall _ (.modbus h hpacket)
      exact ⟨o, ((hpacket o).1 ho).1, ((sizeSub_14 hlen).1 hin).2⟩
    · obtain ⟨o', ho', hin⟩ := hall _ (.dns h h53)
      obtain rfl := Option.some.inj ho'
      exact ((sizeSub_14 hlen).1 hin).2
  · intro hfits c hc
    cases hc with
    | http h hpacket =>
      obtain ⟨hle, o, ho, hin⟩ := hfits.http h
      exact ⟨o, (hpacket o).2 ⟨ho, by omega⟩, (sizeSub_14_40 hlen).2 ⟨hle, hin⟩⟩
    | modbus h hpacket =>
      obtain ⟨o, ho, hin⟩ := hfits.modbus h
      have hle := le_len_of_portsAt h hlen
      exact ⟨o, (hpacket o).2 ⟨ho, by omega⟩, (sizeSub_14 hlen).2 ⟨hle, hin⟩⟩
    | dns h h53 =>
      have hle := le_len_of_portsAt h hlen
      exact ⟨_, rfl, (sizeSub_14 hlen).2 ⟨hle, hfits.dns h h53⟩⟩

/-- The layer-7 parsers are handed captured bytes only, exactly where the frame fits. -/
theorem captured_only_iff (buf : List UInt8) (len : ℕ) (hlen : buf.length ≤ len) :
    (∃ q b, layer7 (.new buf len .ethernet) = some (q, b) ∧ ∀ c ∈ b.calls, c.Inside buf) ↔
      Fits buf len := by
  have hn : (Packet.new buf len .ethernet).length = len := by
    change (if len = 0 then buf.length else len) = len
    split <;> omega
  obtain ⟨q, b, hq, hcalls⟩ := layer7_spec buf len
  rw [hn] at hcalls
  rw [← hands_inside_iff hlen]
  constructor
  · rintro ⟨q', b', hq', hin⟩ c hc
    obtain ⟨-, rfl⟩ := Prod.mk.inj (Option.some.inj (hq.symm.trans hq'))
    exact hin c ((hcalls c).2 hc)
  · exact fun hin => ⟨q, b, hq, fun c hc => hin c ((hcalls c).1 hc)⟩

/-- A UDP datagram to port 53 of a DNS server, captured whole. -/
def dnsFrame : List UInt8 :=
  [0, 0, 0, 0, 0, 0, 0, 0, 0, 0, 0, 0, 8, 0] ++
  [0x45, 0, 0, 28, 0, 0, 0, 0, 64, 17, 0, 0, 10, 0, 0, 1, 10, 0, 0, 2] ++ [4, 0, 0, 53, 0, 8, 0, 0]

theorem captured_only_dnsFrame :
    ∃ q b, layer7 (.new dnsFrame 42 .ethernet) = some (q, b) ∧
      ∀ c ∈ b.calls, c.Inside dnsFrame := by
  have hports : PortsAt dnsFrame 14 34 kUDP 1024 53 :=
    ⟨⟨.here (by decide), by decide⟩, by decide, ⟨0x45, by decide, by decide⟩, by decide, by decide⟩
  refine (captured_only_iff dnsFrame 42 (by decide)).2 ⟨fun h => ?_, fun h => ?_, fun h _ => ?_⟩
  · exact absurd (h.unique hports).2.2.1 (by decide)
  · exact absurd (h.unique hports).2.2.1 (by decide)
  · obtain ⟨rfl, -⟩ := h.unique hports
    decide

/-- A TCP segment to port 502 of a Modbus server, captured whole. -/
def modbusFrame : List UInt8 :=
  [0, 0, 0, 0, 0, 0, 0, 0, 0, 0, 0, 0, 8, 0] ++
  [0x45, 0, 0, 52, 0, 0, 0, 0, 64, 6, 0, 0, 10, 0, 0, 1, 10, 0, 0, 2] ++
  [4, 0, 1, 246, 0, 0, 0, 0, 0, 0, 0, 0, 0x50, 0x18, 0, 0, 0, 0, 0, 0] ++
  [0, 1, 0, 0, 0, 6, 1, 3, 0, 0, 0, 1]

/-- `Modbus::parse` is handed all but the MAC header's length behind all headers. -/
theorem not_captured_only : modbusFrame.length ≤ 66 ∧
    ¬ ∃ q b, layer7 (.new modbusFrame 66 .ethernet) = some (q, b) ∧
      ∀ c ∈ b.calls, c.Inside modbusFrame := by
  refine ⟨by decide, ?_⟩
  rintro ⟨q, b, h, hin⟩
  have hcalls : (layer7 (.new modbusFrame 66 .ethernet)).map (fun r => r.2.calls) =
      some [⟨.modbus, some 54, 52⟩] := by decide +kernel
  rw [h] at hcalls
  obtain ⟨o, ho, hle⟩ := hin ⟨.modbus, some 54, 52⟩ (by
    rw [show b.calls = [⟨.modbus, some 54, 52⟩] from Option.some.inj hcalls]
    exact List.mem_singleton_self _)
  obtain rfl := Option.some.inj ho
  exact absurd hle (by decide)

end PacketPlus

end DStreamon.Messages
