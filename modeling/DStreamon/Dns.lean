import DStreamon.Packet
import DStreamon.Lib.DescMap
import DStreamon.Lib.Loop

/-!
# `DnsHeader` and `DnsResponse`

The parser moves a pointer through the packet and counts down the bytes it takes to be left.  Names
are kept by their offset as they are expanded, and a compressed name is looked up among them.
-/

namespace DStreamon

open Bytes (be16 be32)
open Loop (loop times)

/-- What a C string holds: the bytes up to the first zero. -/
def cString (s : List UInt8) : List UInt8 := s.takeWhile (· ≠ 0)

/-! ## `DnsHeader` -/

structure DnsHeader where
  id : UInt16
  flags : UInt16
  questionNumber : UInt16
  answerRecordNumber : UInt16
  authRecordNumber : UInt16
  additionalRecordNumber : UInt16
  data : Option ℕ
  dnsPayloadLength : ℤ
deriving DecidableEq

namespace DnsHeader

/-- `sizeof(struct dns_header)`: IPv4 header, UDP header and six words. -/
def size : ℕ := 40

/-- The default header, for which `operator!` holds. -/
def bad : DnsHeader := ⟨0, 0, 0, 0, 0, 0, none, 0⟩

/-- The constructor from the bytes at `ip`. -/
def new (mem : List UInt8) (ip : ℕ) (dnsPayloadLen : ℤ) : Except Abort DnsHeader := do
  let id ← checked (be16 mem (ip + 28))
  let flags ← checked (be16 mem (ip + 30))
  let questionNumber ← checked (be16 mem (ip + 32))
  let answerRecordNumber ← checked (be16 mem (ip + 34))
  let authRecordNumber ← checked (be16 mem (ip + 36))
  let additionalRecordNumber ← checked (be16 mem (ip + 38))
  .ok {
    id, flags, questionNumber, answerRecordNumber, authRecordNumber, additionalRecordNumber
    data := some (ip + size)
    dnsPayloadLength := dnsPayloadLen }

/-- The last checks: a port is 53, and the UDP length is that of the packet. -/
def parseUdp (mem : List UInt8) (ip ipLen : ℕ) : Except Abort DnsHeader := do
  let sourcePort ← checked (be16 mem (ip + 20))
  let destPort ← (if sourcePort = 53 then .ok 53 else checked (be16 mem (ip + 22)))
  if destPort = 53 then do
    let length ← checked (be16 mem (ip + 24))
    if ipLen = 20 + length.toNat then new mem ip (ipLen - size) else .ok bad
  else .ok bad

def parse (mem : List UInt8) (ipPacket : Option ℕ) (ipLen : ℕ) : Except Abort DnsHeader :=
  match ipPacket with
  | none => .error .assertion
  | some ip =>
    if ipLen < size then .ok bad
    else do
      let verHlen ← checked mem[ip]?
      if verHlen.toNat / 16 = 4 then do
        let protocol ← checked mem[ip + 9]?
        if protocol = 17 then parseUdp mem ip ipLen else .ok bad
      else .ok bad

def isAnswer (h : DnsHeader) : Bool := h.flags.toNat / 2 ^ 15 ≠ 0

def getOpCode (h : DnsHeader) : ℕ := h.flags.toNat / 2 ^ 11 % 16

def getReturnCode (h : DnsHeader) : ℕ := h.flags.toNat % 16

end DnsHeader

/-! ## `DnsResponse` -/

/-- `start` is where offsets in the message count from. -/
structure DnsResponse where
  data : ℕ
  start : ℕ
  availableBytes : ℤ
  lastAliasOffset : ℕ
  cachedNames : DescMap ℕ (List UInt8)
  ipList : List UInt32

/-- The loop of `getQueryName`: where it reads, the bytes left, and the buffer below `b`. -/
structure NameState where
  p : ℕ
  availableBytes : ℤ
  buffer : List UInt8

/-- A name, the byte behind it and the bytes left. -/
structure QueryName where
  name : List UInt8
  newData : ℕ
  availableBytes : ℤ

namespace DnsResponse

def dnsMaxLength : ℕ := 256

variable (mem : List UInt8)

section Names

variable (cachedNames : DescMap ℕ (List UInt8))

/-- Behind the loop: past the terminator, without the last dot. -/
def endOfName (s : NameState) : QueryName where
  name := cString s.buffer.dropLast
  newData := s.p + 1
  availableBytes := s.availableBytes - 1

/-- A compressed name's end: the name in the cache with the greatest offset up to that of the
pointer, from the byte there on. -/
def expand (s : NameState) (offset : ℕ) : Except Abort QueryName :=
  match cachedNames.lowerBound offset with
  | none => .error (.runtimeError "[DnsResponse] Compressed name refers to an invalid position.")
  | some (first, base) =>
    if offset < first then .error .assertion
    else if offset = first then .ok ⟨base, s.p + 2, s.availableBytes⟩
    else
      let length : ℤ := base.length - (offset - first : ℕ)
      if length ≤ 0 then
        .error (.runtimeError "[DnsResponse] Compressed name concatenation with 0-length string.")
      else if dnsMaxLength ≤ s.buffer.length + length + 1 then
        .error (.runtimeError
          "[DnsResponse] Error: compressed name length greater than buffer size? ")
      else .ok ⟨cString (s.buffer ++ base.drop (offset - first)), s.p + 2, s.availableBytes⟩

/-- A label of `len` bytes behind its length byte. -/
def label (s : NameState) (len : ℕ) : Except Abort NameState :=
  if s.availableBytes < len then
    .error (.runtimeError "[DnsResponse] Packet buffer too short (maybe corrupted).")
  else if dnsMaxLength ≤ s.buffer.length + len + 1 then
    .error (.runtimeError "[DnsResponse] Error: name length greater than 128? ")
  else if mem.length < s.p + 1 + len then .error .overrun
  else .ok {
    p := s.p + len + 1
    availableBytes := s.availableBytes - len
    buffer := s.buffer ++ (mem.drop (s.p + 1)).take len ++ [46] }

/-- `while (*p)`, once; a pointer that is cut off behind its first byte ends the loop. -/
def nameStep (s : NameState) : Except Abort (NameState ⊕ QueryName) := do
  let c ← checked mem[s.p]?
  if c = 0 then .ok (.inr (endOfName s))
  else
    let s := { s with availableBytes := s.availableBytes - 1 }
    if c.toNat / 64 = 3 then
      if s.availableBytes < 1 then .ok (.inr (endOfName s))
      else do
        let head ← checked (be16 mem s.p)
        let q ← expand cachedNames { s with availableBytes := s.availableBytes - 1 }
          (head.toNat % 2 ^ 14)
        .ok (.inr q)
    else do
      let s ← label mem s (c.toNat % 64)
      .ok (.inl s)

def getQueryName (p : ℕ) (availableBytes : ℤ) : Except Abort QueryName :=
  loop .outOfFuel (nameStep mem cachedNames) (mem.length + 1) ⟨p, availableBytes, []⟩

end Names

variable (lhsFirst : Bool)

def offsetOf (r : DnsResponse) (p : ℕ) : ℕ := (p - r.start) % 2 ^ 16

/-- The cache the name at `p` is read with. -/
def readCache (r : DnsResponse) (p : ℕ) : DescMap ℕ (List UInt8) :=
  if lhsFirst ∧ r.cachedNames.find (r.offsetOf p) = none then
    r.cachedNames.insert (r.offsetOf p) []
  else r.cachedNames

/-- `cachedNames[offset] = getQueryName(p, ..)`.  Which side is evaluated first is left open; where
it is the left one, the name is already there while it is read, and empty. -/
def cacheName (r : DnsResponse) (p : ℕ) : Except Abort (DnsResponse × QueryName) := do
  let cache := readCache lhsFirst r p
  let q ← getQueryName mem cache p r.availableBytes
  .ok ({ r with
    cachedNames := cache.insert (r.offsetOf p) q.name
    availableBytes := q.availableBytes }, q)

def question (r : DnsResponse) : Except Abort DnsResponse := do
  let offset := r.offsetOf r.data
  let (r, q) ← cacheName mem lhsFirst r r.data
  .ok { r with
    lastAliasOffset := offset
    data := q.newData + 4
    availableBytes := r.availableBytes - 4 }

/-- The owner name, up to the attributes. -/
def owner (r : DnsResponse) : Except Abort DnsResponse := do
  let head ← checked (be16 mem r.data)
  if head.toNat / 2 ^ 14 = 3 then
    .ok { r with data := r.data + 2, availableBytes := r.availableBytes - 2 }
  else do
    let (r, q) ← cacheName mem lhsFirst r r.data
    .ok { r with data := q.newData }

/-- The data of a record, behind ten bytes of attributes at `data`. -/
def rdata (r : DnsResponse) (type : UInt16) (length : ℕ) : Except Abort DnsResponse :=
  if type = 1 then
    if length ≠ 4 then
      .error (.runtimeError "[DnsResponse] TYPE A expects an attribute length of 4.")
    else do
      let ip ← checked (be32 mem (r.data + 10))
      .ok { r with
        availableBytes := r.availableBytes - 4
        ipList := r.ipList ++ [ip]
        data := r.data + 10 + length }
  else if type = 5 then
    if length = 0 ∨ r.availableBytes < length then
      .error (.runtimeError "[DnsResponse] CNAME length is 0.")
    else do
      let offset := r.offsetOf (r.data + 10)
      let (r, _) ← cacheName mem lhsFirst r (r.data + 10)
      .ok { r with lastAliasOffset := offset, data := r.data + 10 + length }
  else .ok { r with
    availableBytes := r.availableBytes - length
    data := r.data + 10 + length }

def parseRecord (r : DnsResponse) : Except Abort DnsResponse :=
  if r.availableBytes < 10 then
    .error (.runtimeError "[DnsResponse] Packet buffer too short (maybe corrupted).")
  else do
    let r ← owner mem lhsFirst r
    let type ← checked (be16 mem r.data)
    let length ← checked (be16 mem (r.data + 8))
    let r := { r with availableBytes := r.availableBytes - 10 }
    if r.availableBytes < (length.toNat : ℤ) then
      .error (.runtimeError "[DnsResponse] Packet too short for the attribute len.")
    else rdata mem lhsFirst r type length.toNat

/-- The members before the sections are read. -/
def init (data : ℕ) (head : DnsHeader) : DnsResponse where
  data := data
  start := data - DnsHeader.size + 28
  availableBytes := head.dnsPayloadLength
  lastAliasOffset := 0
  cachedNames := .empty
  ipList := []

/-- The constructor. -/
def new (data : ℕ) (head : DnsHeader) : Except Abort DnsResponse := do
  let r ← times (question mem lhsFirst) head.questionNumber.toNat (init data head)
  let r ← times (parseRecord mem lhsFirst) head.answerRecordNumber.toNat r
  let r ← times (parseRecord mem lhsFirst) head.authRecordNumber.toNat r
  times (parseRecord mem lhsFirst) head.additionalRecordNumber.toNat r

/-- `isBad`, of a header that is there. -/
def isBad (head : DnsHeader) : Bool :=
  head.getOpCode ≠ 0 ∨ head.getReturnCode = 1 ∨ 4 < head.getReturnCode ∨ head.questionNumber ≠ 1

/-- `none` is the default response, for which `operator!` holds. -/
def parse (head : DnsHeader) : Except Abort (Option DnsResponse) :=
  match head.data with
  | none => .ok none
  | some data =>
    if isBad head then .ok none
    else do
      let r ← new mem lhsFirst data head
      .ok (some r)

/-- The name with the smallest offset. -/
def getName (r : DnsResponse) : Option (List UInt8) := r.cachedNames.last.map Prod.snd

def getAlias (r : DnsResponse) : Except Abort (List UInt8) :=
  match r.cachedNames.find r.lastAliasOffset with
  | none => .error .assertion
  | some (_, name) => .ok name

end DnsResponse

end DStreamon
