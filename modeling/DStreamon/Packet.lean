import DStreamon.Lib.Bytes

/-!
# `Packet`: headers parsed on demand

Pointers are offsets into the captured bytes.  The parse functions have no result where they read
outside of them, or subtract more from the captured length than it is.
-/

namespace DStreamon

open Bytes (be16 be32)

/-- `a - b` of two `size_t`s. -/
def sizeSub (a b : ℕ) : ℕ := if b ≤ a then a - b else 2 ^ 64 + a - b

/-- How a call ends that does not return: the exceptions, a failed `assert`, a read outside of the
memory. -/
inductive Abort where
  | runtimeError (what : String)
  | outOfRange (what : String)
  | assertion
  | overrun
  | outOfFuel
deriving DecidableEq

/-- A read that aborts. -/
def checked {α : Type} : Option α → Except Abort α
  | none => .error .overrun
  | some a => .ok a

namespace Messages

structure FlowKey where
  srcIp4 : UInt32
  dstIp4 : UInt32
  srcPort : UInt16
  dstPort : UInt16
  proto : UInt8
deriving DecidableEq

/-- `m_mactype` is an `int`, of which two values are named. -/
inductive MacType where
  | ethernet
  | rawIP
  | other
deriving DecidableEq

/-- The members read of the headers start uninitialized in the source; `new` starts them at 0. -/
structure Packet where
  buffer : List UInt8
  length : ℕ
  mactype : MacType
  iphdrPtr : Option ℕ
  l4hdrPtr : Option ℕ
  l4payloadPtr : Option ℕ
  machdrParsed : Bool
  iphdrParsed : Bool
  portsParsed : Bool
  l4hdrParsed : Bool
  pkttype : UInt16
  key : FlowKey
  iptos : UInt8
  ipttl : UInt8
  tcpflags : UInt8
  tcpseq : UInt32
  tcpack : UInt32
  tcpurg : UInt32
  tcpwin : UInt32
deriving DecidableEq

/-- `decode_hlv` -/
def decodeHlv (hlv : UInt8) : ℕ := hlv.toNat % 16 * 4

/-- `decode_payoff` -/
def decodePayoff (payoff : UInt8) : ℕ := payoff.toNat / 16 * 4

namespace Packet

def kPktTypeRuntL2 : UInt16 := 0xFFF2
def kPktTypeRuntL3 : UInt16 := 0xFFF3
def kPktTypeRuntL4 : UInt16 := 0xFFF4
def kPktTypeIP4 : UInt16 := 0x0800
def kPktType1q : UInt16 := 0x8100
def kUDP : UInt8 := 17
def kTCP : UInt8 := 6

def new (buffer : List UInt8) (len : ℕ) (mactype : MacType) : Packet where
  buffer := buffer
  length := if len = 0 then buffer.length else len
  mactype := mactype
  iphdrPtr := none
  l4hdrPtr := none
  l4payloadPtr := none
  machdrParsed := false
  iphdrParsed := false
  portsParsed := false
  l4hdrParsed := false
  pkttype := 0
  key := ⟨0, 0, 0, 0, 0⟩
  iptos := 0
  ipttl := 0
  tcpflags := 0
  tcpseq := 0
  tcpack := 0
  tcpurg := 0
  tcpwin := 0

def caplen (p : Packet) : ℕ := p.buffer.length

/-- The bytes from a pointer to the end of what was captured; none where the `size_t` would
underflow. -/
def left (p : Packet) (offset : ℕ) : Option ℕ :=
  if offset ≤ p.caplen then some (p.caplen - offset) else none

/-! ## Parsers -/

/-- Nothing behind the MAC header is to be parsed. -/
def noIp (p : Packet) (pkttype : UInt16) : Packet :=
  { p with pkttype, iphdrParsed := true, portsParsed := true, l4hdrParsed := true }

def atMac (p : Packet) (pkttype : UInt16) (macbuf : ℕ) : Packet :=
  if pkttype = kPktTypeIP4 then { p with pkttype, iphdrPtr := some macbuf } else p.noIp pkttype

/-- The loop over the 802.1q headers, which takes each time four of the captured bytes. -/
def parse1q : ℕ → UInt16 → ℕ → Packet → Option Packet
  | 0, _, _, _ => none
  | fuel + 1, pkttype, macbuf, p =>
    if pkttype = kPktType1q then do
      let rest ← p.left macbuf
      if rest < 14 then some (p.noIp kPktTypeRuntL2)
      else do
        let pkttype ← be16 p.buffer (macbuf + 2)
        parse1q fuel pkttype (macbuf + 4) p
    else some (p.atMac pkttype macbuf)

def parseMac (p : Packet) : Option Packet :=
  if p.machdrParsed then some p
  else
    let p := { p with machdrParsed := true }
    match p.mactype with
    | .ethernet =>
      if p.caplen < 14 then some (p.noIp kPktTypeRuntL2)
      else do
        let pkttype ← be16 p.buffer 12
        parse1q (p.caplen + 1) pkttype 14 p
    | .rawIP => some (p.atMac kPktTypeIP4 0)
    | .other => some (p.atMac p.pkttype 0)

def parseIphdr (p : Packet) : Option Packet :=
  if p.iphdrParsed then some p
  else do
    let p ← { p with iphdrParsed := true }.parseMac
    match p.iphdrPtr with
    | none => some p
    | some iphoff => do
      let rest ← p.left iphoff
      if 20 ≤ rest then do
        let srcIp4 ← be32 p.buffer (iphoff + 12)
        let dstIp4 ← be32 p.buffer (iphoff + 16)
        let proto ← p.buffer[iphoff + 9]?
        let iptos ← p.buffer[iphoff + 1]?
        let ipttl ← p.buffer[iphoff + 8]?
        let hlv ← p.buffer[iphoff]?
        let iphlen := decodeHlv hlv
        some { p with
          key := { p.key with srcIp4, dstIp4, proto }
          iptos
          ipttl
          l4hdrPtr := if iphlen ≤ rest then some (iphoff + iphlen) else p.l4hdrPtr }
      else some { p with pkttype := kPktTypeRuntL3, portsParsed := true, l4hdrParsed := true }

def parsePorts (p : Packet) : Option Packet :=
  if p.portsParsed then some p
  else do
    let p ← { p with portsParsed := true }.parseIphdr
    match p.l4hdrPtr with
    | none => some p
    | some l4hoff =>
      if p.key.proto = kTCP ∨ p.key.proto = kUDP then do
        let rest ← p.left l4hoff
        if 4 ≤ rest then do
          let srcPort ← be16 p.buffer l4hoff
          let dstPort ← be16 p.buffer (l4hoff + 2)
          some { p with
            key := { p.key with srcPort, dstPort }
            l4payloadPtr :=
              if p.key.proto = kUDP ∧ 8 ≤ rest then some (l4hoff + 8)
              else p.l4payloadPtr }
        else some { p with pkttype := kPktTypeRuntL4, l4hdrParsed := true }
      else some p

def parseTcphdr (p : Packet) : Option Packet :=
  if p.l4hdrParsed then some p
  else do
    let p ← { p with l4hdrParsed := true }.parseIphdr
    match p.l4hdrPtr with
    | none => some p
    | some tcphoff =>
      if p.key.proto = kTCP then do
        let rest ← p.left tcphoff
        if 20 ≤ rest then do
          let srcPort ← be16 p.buffer tcphoff
          let dstPort ← be16 p.buffer (tcphoff + 2)
          let tcpflags ← p.buffer[tcphoff + 13]?
          let tcpseq ← be32 p.buffer (tcphoff + 4)
          let tcpack ← be32 p.buffer (tcphoff + 8)
          let tcpurg ← be16 p.buffer (tcphoff + 18)
          let tcpwin ← be16 p.buffer (tcphoff + 14)
          let payoff ← p.buffer[tcphoff + 12]?
          let tcphlen := decodePayoff payoff
          some { p with
            key := { p.key with srcPort, dstPort }
            tcpflags
            tcpseq
            tcpack
            tcpurg := tcpurg.toUInt32
            tcpwin := tcpwin.toUInt32
            l4payloadPtr :=
              if tcphlen ≤ rest then some (tcphoff + tcphlen) else p.l4payloadPtr }
        else some { p with pkttype := kPktTypeRuntL4 }
      else some p

/-! ## Accessors

Each gives the packet with what it has parsed. -/

/-- Parse and read a member. -/
def get {α : Type} (parse : Packet → Option Packet) (member : Packet → α) (p : Packet) :
    Option (Packet × α) :=
  (parse p).map fun p => (p, member p)

def iphdr : Packet → Option (Packet × Option ℕ) := get parseMac iphdrPtr

def l4hdr : Packet → Option (Packet × Option ℕ) := get parseIphdr l4hdrPtr

def l3Protocol : Packet → Option (Packet × UInt16) := get parseMac pkttype

def srcIp4 : Packet → Option (Packet × UInt32) := get parseIphdr (·.key.srcIp4)

def dstIp4 : Packet → Option (Packet × UInt32) := get parseIphdr (·.key.dstIp4)

def srcPort : Packet → Option (Packet × UInt16) := get parsePorts (·.key.srcPort)

def dstPort : Packet → Option (Packet × UInt16) := get parsePorts (·.key.dstPort)

def protocol : Packet → Option (Packet × UInt8) := get parseIphdr (·.key.proto)

def isTcp : Packet → Option (Packet × Bool) := get parseIphdr (·.key.proto = kTCP)

def isUdp : Packet → Option (Packet × Bool) := get parseIphdr (·.key.proto = kUDP)

/-- `key()` -/
def flowKey : Packet → Option (Packet × FlowKey) := get parsePorts key

def tcpFlags : Packet → Option (Packet × UInt8) := get parseTcphdr tcpflags

def tcpSeq : Packet → Option (Packet × UInt32) := get parseTcphdr tcpseq

def tcpWin : Packet → Option (Packet × UInt32) := get parseTcphdr tcpwin

def l4payload (p : Packet) : Option (Packet × Option ℕ) := do
  let (p, tcp) ← p.isTcp
  get (if tcp then parseTcphdr else parsePorts) l4payloadPtr p

end Packet

end Messages

end DStreamon
