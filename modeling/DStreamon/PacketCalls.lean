import DStreamon.PacketPlus

/-!
# Calls on a `Packet`

Each accessor parses what it needs and returns a member.  A packet is parsed in stages, which may
be taken in any order, and each at most once.
-/

namespace DStreamon.Messages

inductive Accessor where
  | iphdr
  | l4hdr
  | l4payload
  | l3Protocol
  | srcIp4
  | dstIp4
  | srcPort
  | dstPort
  | protocol
  | key
  | tcpFlags
  | tcpSeq
  | tcpWin
deriving DecidableEq

/-- What an accessor returns. -/
inductive Member where
  | pointer (p : Option ℕ)
  | u8 (n : UInt8)
  | u16 (n : UInt16)
  | u32 (n : UInt32)
  | key (k : FlowKey)
deriving DecidableEq

namespace Packet

def read (p : Packet) : Accessor → Option (Packet × Member)
  | .iphdr => p.iphdr.map (Prod.map id .pointer)
  | .l4hdr => p.l4hdr.map (Prod.map id .pointer)
  | .l4payload => p.l4payload.map (Prod.map id .pointer)
  | .l3Protocol => p.l3Protocol.map (Prod.map id .u16)
  | .srcIp4 => p.srcIp4.map (Prod.map id .u32)
  | .dstIp4 => p.dstIp4.map (Prod.map id .u32)
  | .srcPort => p.srcPort.map (Prod.map id .u16)
  | .dstPort => p.dstPort.map (Prod.map id .u16)
  | .protocol => p.protocol.map (Prod.map id .u8)
  | .key => p.flowKey.map (Prod.map id .key)
  | .tcpFlags => p.tcpFlags.map (Prod.map id .u8)
  | .tcpSeq => p.tcpSeq.map (Prod.map id .u32)
  | .tcpWin => p.tcpWin.map (Prod.map id .u32)

/-- One call after the other. -/
def reads : Packet → List Accessor → Option (Packet × List Member)
  | p, [] => some (p, [])
  | p, a :: as => do
    let r ← p.read a
    let rs ← r.1.reads as
    some (rs.1, r.2 :: rs.2)

/-- As the constructors leave a packet; the members not named here may hold anything. -/
structure Unparsed (p : Packet) : Prop where
  iphdrPtr : p.iphdrPtr = none
  l4hdrPtr : p.l4hdrPtr = none
  l4payloadPtr : p.l4payloadPtr = none
  machdrParsed : p.machdrParsed = false
  iphdrParsed : p.iphdrParsed = false
  portsParsed : p.portsParsed = false
  l4hdrParsed : p.l4hdrParsed = false

/-- Every accessor has one answer, whatever is called before; the calls read captured bytes only,
subtract nothing that is larger, and point to a captured byte or right behind the last. -/
def OrderIndependent (p : Packet) : Prop :=
  ∃ answer : Accessor → Member,
    (∀ calls, ∃ q, p.reads calls = some (q, calls.map answer)) ∧
    ∀ a o, answer a = .pointer (some o) → o ≤ p.caplen

/-- Where `parse_mac` finds an IPv4 header to begin. -/
def HeaderAt (p : Packet) (o : ℕ) : Prop :=
  match p.mactype with
  | .ethernet => Ip4Reached p.buffer 12 o
  | .rawIP => o = 0
  | .other => p.pkttype = kPktTypeIP4 ∧ o = 0

/-- The bytes wanted of a transport header. -/
def transportLen (proto : UInt8) : ℕ := if proto = kTCP then 20 else if proto = kUDP then 4 else 0

/-- The capture ends within the IPv4 header, the TCP header or the ports of UDP. -/
def CutOff (p : Packet) : Prop :=
  ∃ o, p.HeaderAt o ∧ (p.caplen < o + 20 ∨ ∃ hlv proto, p.buffer[o]? = some hlv ∧
    p.buffer[o + 9]? = some proto ∧ o + decodeHlv hlv ≤ p.caplen ∧
    p.caplen < o + decodeHlv hlv + transportLen proto)

/-! ## What the stages find -/

/-- What there is behind the IPv4 header. -/
inductive Transport where
  | none
  | runtPorts (tcp : Bool)
  | udp (sp dp : UInt16) (payload : Option ℕ)
  | runtTcp (sp dp : UInt16)
  | tcp (sp dp : UInt16) (flags : UInt8) (seq ack : UInt32) (urg win : UInt16)
    (payload : Option ℕ)

namespace Transport

def putPorts (p : Packet) : Transport → Packet
  | none => p
  | runtPorts _ => { p with pkttype := kPktTypeRuntL4, l4hdrParsed := true }
  | udp sp dp payload =>
    { p with
      key := { p.key with srcPort := sp, dstPort := dp }
      l4payloadPtr := payload.or p.l4payloadPtr }
  | runtTcp sp dp | tcp sp dp .. =>
    { p with key := { p.key with srcPort := sp, dstPort := dp } }

def putTcp (p : Packet) : Transport → Packet
  | none | udp .. | runtPorts false => p
  | runtTcp .. | runtPorts true => { p with pkttype := kPktTypeRuntL4 }
  | tcp sp dp flags seq ack urg win payload =>
    { p with
      key := { p.key with srcPort := sp, dstPort := dp }
      tcpflags := flags
      tcpseq := seq
      tcpack := ack
      tcpurg := urg.toUInt32
      tcpwin := win.toUInt32
      l4payloadPtr := payload.or p.l4payloadPtr }

def payload : Transport → Option ℕ
  | udp _ _ payload | tcp _ _ _ _ _ _ _ payload => payload
  | _ => Option.none

/-- A stage reports the header as cut off. -/
def Runt : Transport → Prop
  | runtPorts _ | runtTcp .. => True
  | _ => False

end Transport

/-- What a frame is to the parsers. -/
inductive Frame where
  | other (pkttype : UInt16)
  | runtIp (o : ℕ)
  | ip (o : ℕ) (srcIp4 dstIp4 : UInt32) (proto tos ttl : UInt8) (l4 : Option ℕ)
    (transport : Transport)

/-- Which stages are done. -/
inductive Progress where
  | fresh
  | mac
  | ip (ports tcp : Bool)

namespace Progress

def afterMac : Progress → Progress
  | fresh => mac
  | g => g

def afterIphdr : Progress → Progress
  | ip ports tcp => ip ports tcp
  | _ => ip false false

def afterPorts : Progress → Progress
  | ip _ tcp => ip true tcp
  | _ => ip true false

def afterTcphdr : Progress → Progress
  | ip ports _ => ip ports true
  | _ => ip false true

end Progress

namespace Frame

def transport : Frame → Transport
  | ip _ _ _ _ _ _ _ t => t
  | _ => .none

def iphdrPtr : Frame → Option ℕ
  | other _ => none
  | runtIp o | ip (o := o) .. => some o

def l4hdrPtr : Frame → Option ℕ
  | ip _ _ _ _ _ _ l4 _ => l4
  | _ => none

/-- The member where no IPv4 header is parsed. -/
def proto (p : Packet) : Frame → UInt8
  | ip _ _ _ proto _ _ _ _ => proto
  | _ => p.key.proto

def putMac (p : Packet) : Frame → Packet
  | other pkttype => p.noIp pkttype
  | runtIp o | ip o .. => { p with pkttype := kPktTypeIP4, iphdrPtr := some o }

def putIp (p : Packet) : Frame → Packet
  | other _ => p
  | runtIp _ => { p with pkttype := kPktTypeRuntL3, portsParsed := true, l4hdrParsed := true }
  | ip _ srcIp4 dstIp4 proto iptos ipttl l4 _ =>
    { p with key := { p.key with srcIp4, dstIp4, proto }, iptos, ipttl, l4hdrPtr := l4 }

/-- The packet once some stages are done. -/
def view (fr : Frame) (p : Packet) : Progress → Packet
  | .fresh => p
  | .mac => fr.putMac { p with machdrParsed := true }
  | .ip ports tcp =>
    let p := fr.putIp { fr.putMac { p with machdrParsed := true } with iphdrParsed := true }
    let p := if ports then fr.transport.putPorts { p with portsParsed := true } else p
    if tcp then fr.transport.putTcp { p with l4hdrParsed := true } else p

/-- A stage reports a packet that is cut off. -/
def Runt : Frame → Prop
  | other _ => False
  | runtIp _ => True
  | ip _ _ _ _ _ _ _ t => t.Runt

end Frame

end Packet

end DStreamon.Messages
