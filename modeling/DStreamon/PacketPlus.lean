import DStreamon.Dns
import DStreamon.Hash
import DStreamon.HttpRequest

/-!
# `PacketPlus`

The constructor reads ports and protocol, and these decide which layer-7 parser gets which pointer
and length.  What it reads is put into the registers of the packet's tags.
-/

namespace DStreamon

open Function (update)
open Bytes (be16 le)

namespace HashedBuffer

/-- `append`, whose length is an `int`. -/
def append (b : HashedBuffer) (bytes : List UInt8) : Except Abort HashedBuffer :=
  let len := toInt32 bytes.length
  if 256 < b.data.length + len then .error (.outOfRange "Buffer full.")
  else if len < 0 then .error .overrun
  else .ok ⟨b.data ++ bytes.take len.toNat⟩

end HashedBuffer

namespace Messages

inductive Layer7 where
  | httpRequest
  | modbus
  | dnsHeader
deriving DecidableEq

/-- A call of a layer-7 parser, its pointer `NULL` or an offset into the captured bytes. -/
structure Layer7Call where
  parser : Layer7
  packet : Option ℕ
  len : ℕ
deriving DecidableEq

/-- The bytes handed over are captured ones. -/
def Layer7Call.Inside (c : Layer7Call) (buf : List UInt8) : Prop :=
  ∃ o, c.packet = some o ∧ o + c.len ≤ buf.length

/-- The branches of the constructor. -/
inductive Branch where
  | tcp (flags : UInt8) (call : Option Layer7Call)
  | dns (call : Layer7Call)
  | other
deriving DecidableEq

namespace Branch

def calls : Branch → List Layer7Call
  | tcp _ call => call.toList
  | dns call => [call]
  | other => []

end Branch

namespace PacketPlus

/-- From `is_tcp()` up to the call of a parser. -/
def branch (p : Packet) (sPort dPort : UInt16) : Option (Packet × Branch) := do
  let (p, tcp) ← p.isTcp
  if tcp then do
    let (p, flags) ← p.tcpFlags
    if dPort = 80 then do
      let (p, payload) ← p.l4payload
      some (p, .tcp flags (some ⟨.httpRequest, payload, sizeSub (sizeSub p.length 14) 40⟩))
    else if dPort = 502 then do
      let (p, payload) ← p.l4payload
      some (p, .tcp flags (some ⟨.modbus, payload, sizeSub p.length 14⟩))
    else some (p, .tcp flags none)
  else if dPort = 53 ∨ sPort = 53 then do
    let (p, udp) ← p.isUdp
    if udp then do
      let (p, ip) ← p.iphdr
      some (p, .dns ⟨.dnsHeader, ip, sizeSub p.length 14⟩)
    else some (p, .other)
  else some (p, .other)

/-- From the ports on. -/
def layer7 (p : Packet) : Option (Packet × Branch) := do
  let (p, sPort) ← p.srcPort
  let (p, dPort) ← p.dstPort
  branch p sPort dPort

end PacketPlus

/-! ## `Modbus` -/

structure Modbus where
  transactionIdentifier : UInt16
  protocolIdentifier : UInt16
  length : UInt16
  unitIdentifier : UInt8
  functionCode : UInt8
  data : Option ℕ
  modbusPayloadLength : ℤ
deriving DecidableEq

/-- `Modbus::parse`; `sizeof(struct modbus)` is 8. -/
def Modbus.parse (mem : List UInt8) (tcpPacket : Option ℕ) (tcpLen : ℕ) : Except Abort Modbus :=
  if tcpLen < 8 then .ok ⟨0, 0, 0, 0, 0, none, 0⟩
  else
    match tcpPacket with
    | none => .error .overrun
    | some p => do
      let transactionIdentifier ← checked (be16 mem p)
      let protocolIdentifier ← checked (be16 mem (p + 2))
      let length ← checked (be16 mem (p + 4))
      let unitIdentifier ← checked mem[p + 6]?
      let functionCode ← checked mem[p + 7]?
      .ok {
        transactionIdentifier, protocolIdentifier, length, unitIdentifier, functionCode
        data := some (p + 8)
        modbusPayloadLength := toInt32 (tcpLen - 8) }

/-! ## The constructor -/

/-- The registers of a message, by their place in `ppfield`. -/
abbrev Registers := ℕ → HashedBuffer

namespace PacketPlus

def ipSrcF : ℕ := 0
def ipDstF : ℕ := 1
def srcPortF : ℕ := 2
def dstPortF : ℕ := 3
def protocolF : ℕ := 4
def flagsF : ℕ := 5
def domainNameF : ℕ := 6
def httpUrlF : ℕ := 6
def modbusTransactionIdentifierF : ℕ := 6
def domainAddrF : ℕ := 7
def httpMethodF : ℕ := 7
def modbusFunctionCodeF : ℕ := 7
def packetNoF : ℕ := 8
def ipLenF : ℕ := 9
def httpHostF : ℕ := 10
def domainSecondLevelF : ℕ := 10

def append (map : Registers) (f : ℕ) (bytes : List UInt8) : Except Abort Registers := do
  let b ← (map f).append bytes
  .ok (update map f b)

/-- An integer of at most 32 bits. -/
def appendInt (map : Registers) (f n : ℕ) : Except Abort Registers := append map f (le 4 n)

/-- `roffset` of `dns_second_level`, from the last character on and behind `count` dots. -/
def secondLevel : ℕ → List UInt8 → ℕ
  | _, [] => 0
  | count, c :: s =>
    if c = 46 then if count + 1 = 2 then 0 else 1 + secondLevel (count + 1) s
    else 1 + secondLevel count s

def dnsSecondLevel (s : List UInt8) : Except Abort (List UInt8) :=
  let offset := sizeSub s.length (secondLevel 0 s.reverse)
  if s.length < offset then .error (.outOfRange "basic_string::substr") else .ok (s.drop offset)

variable (mem : List UInt8) (addr : ℕ)

def http (map : Registers) (packet : Option ℕ) (len : ℕ) : Except Abort Registers :=
  match (HttpRequest.new packet len).parse mem addr with
  | (.error e, _) => .error e
  | (.ok false, _) => .ok map
  | (.ok true, h) => do
    let (method, h) := h.getMethod mem addr
    let method ← method
    let map ← appendInt map httpMethodF method.value.toNat
    let (uri, h) := h.getAbsoluteUri mem addr
    let uri ← uri
    let map ← append map httpUrlF uri
    let host ← (h.getHeader mem addr HttpRequest.hostName).1
    append map httpHostF host

def modbus (map : Registers) (packet : Option ℕ) (len : ℕ) : Except Abort Registers := do
  let m ← Modbus.parse mem packet len
  if m.length = 0 then .ok map
  else do
    let map ← appendInt map modbusTransactionIdentifierF m.transactionIdentifier.toNat
    appendInt map modbusFunctionCodeF m.functionCode.toNat

/-- With whether the packet is valid DNS. -/
def dns (lhsFirst : Bool) (map : Registers) (packet : Option ℕ) (len : ℕ) :
    Except Abort (Registers × Bool) := do
  let head ← DnsHeader.parse mem packet len
  if head.data = none then .ok (map, false)
  else do
    let map ← appendInt map flagsF head.getReturnCode
    let response ← DnsResponse.parse mem lhsFirst head
    match response with
    | none => .ok (map, false)
    | some r => do
      let dnsAlias ← r.getAlias
      let map ← append map domainNameF dnsAlias
      let level ← dnsSecondLevel dnsAlias
      let map ← append map domainSecondLevelF level
      match head.isAnswer, r.ipList with
      | true, ip :: _ => do
        let map ← appendInt map domainAddrF ip.toNat
        .ok (map, true)
      | _, _ => .ok (map, true)

/-- What the branches do; `Registers` and whether the packet is valid DNS. -/
def layer7Registers (lhsFirst : Bool) (map : Registers) : Branch → Except Abort (Registers × Bool)
  | .tcp flags call => do
    let map ← appendInt map flagsF flags.toNat
    let map ← (match call with
      | some ⟨.httpRequest, packet, len⟩ => http mem addr map packet len
      | some ⟨.modbus, packet, len⟩ => modbus mem map packet len
      | _ => .ok map)
    .ok (map, false)
  | .dns call => dns mem lhsFirst map call.packet call.len
  | .other => do
    let map ← appendInt map flagsF (2 ^ 32 - 1)
    .ok (map, false)

end PacketPlus

structure PacketPlus where
  packet : Packet
  map : Registers
  isValidDns : Bool

/-- The constructor.  `double` is the bit pattern of a `double`, `count` is `m_pkt_count`. -/
def PacketPlus.new (addr : ℕ) (double : ℕ → UInt64) (lhsFirst : Bool) (count : UInt32)
    (buf : List UInt8) (len : ℕ) : Except Abort PacketPlus := do
  let p : Packet := .new buf len .ethernet
  let (p, sPort) ← checked p.srcPort
  let (p, dPort) ← checked p.dstPort
  let (p, src) ← checked p.srcIp4
  let map ← appendInt (fun _ => ⟨[]⟩) ipSrcF src.toNat
  let (p, dst) ← checked p.dstIp4
  let map ← appendInt map ipDstF dst.toNat
  let map ← appendInt map srcPortF sPort.toNat
  let map ← appendInt map dstPortF dPort.toNat
  let (p, protocol) ← checked p.protocol
  let map ← appendInt map protocolF protocol.toNat
  let map ← append map ipLenF (le 8 (double p.length).toNat)
  let (p, b) ← checked (branch p sPort dPort)
  let (map, isValidDns) ← layer7Registers buf addr lhsFirst map b
  let map ← appendInt map packetNoF count.toNat
  .ok { packet := p, map, isValidDns }

/-! ## Frames by their layout -/

/-- An IPv4 header lies at `o` behind the type at `t`, with 802.1q headers between them. -/
inductive Ip4Behind (buf : List UInt8) : ℕ → ℕ → Prop
  | here {t : ℕ} : be16 buf t = some Packet.kPktTypeIP4 → Ip4Behind buf t (t + 2)
  | tag {t o : ℕ} : be16 buf t = some Packet.kPktType1q → Ip4Behind buf (t + 4) o →
      Ip4Behind buf t o

/-- It lies where `parse_mac` looks for it, which wants 14 bytes behind the type of an 802.1q
header. -/
inductive Ip4Reached (buf : List UInt8) : ℕ → ℕ → Prop
  | here {t : ℕ} : be16 buf t = some Packet.kPktTypeIP4 → Ip4Reached buf t (t + 2)
  | tag {t o : ℕ} : be16 buf t = some Packet.kPktType1q → t + 16 ≤ buf.length →
      Ip4Reached buf (t + 4) o → Ip4Reached buf t o

/-- The frame is IPv4, its header of 20 bytes captured. -/
def Ip4At (buf : List UInt8) (o : ℕ) : Prop := Ip4Behind buf 12 o ∧ o + 20 ≤ buf.length

/-- The header at `o` says that the bytes at `l4` are of a protocol, and they start with two
ports. -/
structure PortsAt (buf : List UInt8) (o l4 : ℕ) (proto : UInt8) (sp dp : UInt16) : Prop where
  ip : Ip4At buf o
  proto : buf[o + 9]? = some proto
  header : ∃ hlv, buf[o]? = some hlv ∧ l4 = o + decodeHlv hlv
  sp : be16 buf l4 = some sp
  dp : be16 buf (l4 + 2) = some dp

/-- The header of 20 bytes at `l4` is captured, and `o` follows it where its length says. -/
def TcpPayloadAt (buf : List UInt8) (l4 o : ℕ) : Prop :=
  l4 + 20 ≤ buf.length ∧ ∃ payoff, buf[l4 + 12]? = some payoff ∧ o = l4 + decodePayoff payoff

/-- The frame leaves its layer-7 parser as many bytes as the constructor takes it to. -/
structure Fits (buf : List UInt8) (len : ℕ) : Prop where
  http : ∀ {o l4 sp}, PortsAt buf o l4 Packet.kTCP sp 80 →
    54 ≤ len ∧ ∃ o, TcpPayloadAt buf l4 o ∧ o + len ≤ buf.length + 54
  modbus : ∀ {o l4 sp}, PortsAt buf o l4 Packet.kTCP sp 502 →
    ∃ o, TcpPayloadAt buf l4 o ∧ o + len ≤ buf.length + 14
  dns : ∀ {o l4 sp dp}, PortsAt buf o l4 Packet.kUDP sp dp → dp = 53 ∨ sp = 53 →
    o + len ≤ buf.length + 14

/-- The frame has no request to port 80 that overflows. -/
def NotOverflowing (buf : List UInt8) (len : ℕ) : Prop :=
  ∀ o l4 sp payload, PortsAt buf o l4 Packet.kTCP sp 80 → TcpPayloadAt buf l4 payload →
    payload ≤ buf.length →
    ¬ HttpRequest.Overflows (buf.drop payload)
      (toInt32 (sizeSub (sizeSub (if len = 0 then buf.length else len) 14) 40))

end Messages

end DStreamon
