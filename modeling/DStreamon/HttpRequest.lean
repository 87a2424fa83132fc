import DStreamon.Packet
import Mathlib.Data.Int.Notation

/-!
# `HttpRequest`

A request is parsed in place: its members are pointers into the packet and the length that is left.
What a call has changed stays changed when it throws.
-/

namespace DStreamon

open Bytes (le32 strchr strstr skip)

/-- A value kept in an `int32_t`. -/
def toInt32 (n : ℤ) : ℤ := n.bmod (2 ^ 32)

inductive HttpMethod where
  | unknown
  | get
  | head
  | post
deriving DecidableEq

namespace HttpMethod

def value : HttpMethod → UInt32
  | unknown => 0x00000000
  | get => 0x20544547
  | head => 0x44414548
  | post => 0x54534F50

/-- The cases of the `switch`. -/
def ofWord (word : UInt32) : Option HttpMethod :=
  if word = get.value then some get
  else if word = head.value then some head
  else if word = post.value then some post
  else none

end HttpMethod

/-- The members `parse` and `getHeader` use. -/
structure HttpRequest where
  buffer : Option ℕ
  headers : Option ℕ
  len : ℕ
  availableLen : ℤ
  method : HttpMethod
  methodLen : ℤ
  uri : List UInt8
  argsLen : ℤ
  pArgs : Option ℕ
  pVersion : Option ℕ
  versionLen : ℤ
  maxUriLen : ℕ
deriving DecidableEq

/-- The loop over the URI. -/
structure UriScan where
  uriLen : ℕ
  availableLen : ℤ
  pArgs : Option ℕ
deriving DecidableEq

namespace HttpRequest

def new (buffer : Option ℕ) (len : ℕ) : HttpRequest where
  buffer := buffer
  headers := none
  len := len
  availableLen := toInt32 len
  method := .unknown
  methodLen := 4
  uri := []
  argsLen := 0
  pArgs := none
  pVersion := none
  versionLen := 0
  maxUriLen := 128

/-- What a call gives, and the request it leaves. -/
abbrev Result (α : Type) := Except Abort α × HttpRequest

/-- From `ptr` on, where the rest of the memory is given. -/
def uriLoop (ptr : ℕ) : List UInt8 → UriScan → Option UriScan
  | [], s => if 0 < s.availableLen then none else some s
  | c :: rest, s =>
    if 0 < s.availableLen ∧ c ≠ 32 then
      uriLoop (ptr + 1) rest {
        uriLen := s.uriLen + 1
        availableLen := s.availableLen - 1
        pArgs := if c = 63 then some (ptr + 1) else s.pArgs }
    else some s

variable (mem : List UInt8) (addr : ℕ)

/-- The difference of a pointer that may be `NULL` and one that is not; the memory lies at
`addr`. -/
def pointerDiff (p : Option ℕ) (q : ℕ) : ℤ :=
  match p with
  | some p => (p : ℤ) - q
  | none => -((addr : ℤ) + q)

/-- From the blank behind the URI on. -/
def parseVersion (ptr : ℕ) (h : HttpRequest) : Result Bool :=
  let h := { h with pVersion := some (ptr + 1) }
  match strchr 13 (mem.drop ptr) with
  | none => (.error .overrun, h)
  | some found =>
    let headers := found.map (ptr + ·)
    let versionLen := toInt32 (pointerDiff addr headers (ptr + 1))
    let h := { h with headers, versionLen }
    if h.availableLen < versionLen then
      (.error (.runtimeError "[HttpRequest] Not enough bytes to parse version."), h)
    else
      let h := { h with availableLen := toInt32 (h.availableLen - versionLen) }
      match headers with
      | none => (.ok true, h)
      | some p =>
        match mem[p + 1]? with
        | none => (.error .overrun, h)
        | some c => (.ok true, if c = 10 then { h with headers := some (p + 2) } else h)

/-- From the method on; `b` is the buffer. -/
def parseUri (b : ℕ) (h : HttpRequest) : Result Bool :=
  let url := b + h.methodLen + 1
  if url < 0 then
    if 0 < h.availableLen then (.error .overrun, h)
    else (.error (.runtimeError "[HttpRequest] Not enough bytes to parse uri."), h)
  else
    let url := url.toNat
    match uriLoop url (mem.drop url) ⟨0, h.availableLen, h.pArgs⟩ with
    | none => (.error .overrun, h)
    | some s =>
      let ptr := url + s.uriLen
      let h := { h with availableLen := s.availableLen, pArgs := s.pArgs }
      if s.availableLen ≤ 0 then
        (.error (.runtimeError "[HttpRequest] Not enough bytes to parse uri."), h)
      else
        let h := { h with argsLen := -pointerDiff addr h.pArgs ptr }
        let uriLen := min s.uriLen h.maxUriLen
        if uriLen = 0 then
          if mem[ptr]? = some 32 then (.error (.runtimeError "[HttpRequest] URI Length 0"), h)
          else (.error .assertion, h)
        else parseVersion mem addr ptr { h with uri := (mem.drop url).take uriLen }

def parse (h : HttpRequest) : Result Bool :=
  if h.headers.isSome then (.ok true, h)
  else if h.len = 0 then (.ok false, h)
  else if h.availableLen < h.methodLen then
    (.error (.runtimeError "[HttpRequest] Not enough bytes to parse method."), h)
  else
    match h.buffer with
    | none => (.error .overrun, h)
    | some b =>
      match le32 mem b with
      | none => (.error .overrun, h)
      | some word =>
        match HttpMethod.ofWord word with
        | none => (.ok false, { h with method := .unknown })
        | some method =>
          parseUri mem addr b { h with
            method
            methodLen := if method = .get then h.methodLen - 1 else h.methodLen }

/-- The value at `value`, up to the end of its line. -/
def headerValue (value : ℕ) : Except Abort (List UInt8) := do
  let found ← checked (strchr 13 (mem.drop value))
  match found with
  | none => .ok []
  | some n => do
    let c ← checked mem[value + n + 1]?
    .ok (if c = 10 then (mem.drop value).take n else [])

/-- The search of `getHeader` from `headers` on. -/
def searchHeader (headers : ℕ) (name : List UInt8) : Except Abort (List UInt8) := do
  let found ← checked (strstr name (mem.drop headers))
  match found with
  | none => .ok []
  | some i => do
    let colon := headers + i + name.length
    let c ← checked mem[colon]?
    if c = 58 then do
      let n ← checked (skip 32 (mem.drop (colon + 1)))
      headerValue mem (colon + 1 + n)
    else .ok []

def getHeader (name : List UInt8) (h : HttpRequest) : Result (List UInt8) :=
  match h.parse mem addr with
  | (.error e, h) => (.error e, h)
  | (.ok false, h) => (.ok [], h)
  | (.ok true, h) =>
    if name.length = 0 ∨ h.availableLen < name.length then
      (.error (.runtimeError "[HttpRequest] getHeader: not enough bytes to read header"), h)
    else
      match h.headers with
      | none => (.error .overrun, h)
      | some p => (searchHeader mem p name, h)

/-- Parse and read a member. -/
def get {α : Type} (member : HttpRequest → α) (h : HttpRequest) : Result α :=
  match h.parse mem addr with
  | (.error e, h) => (.error e, h)
  | (.ok _, h) => (.ok (member h), h)

def getMethod : HttpRequest → Result HttpMethod := get mem addr method

def getUri : HttpRequest → Result (List UInt8) := get mem addr uri

/-- `"Host"` -/
def hostName : List UInt8 := [72, 111, 115, 116]

/-- Which of the two getters comes first makes no difference once `headers` is set. -/
def getAbsoluteUri (h : HttpRequest) : Result (List UInt8) :=
  match h.getHeader mem addr hostName with
  | (.error e, h) => (.error e, h)
  | (.ok host, h) =>
    match h.getUri mem addr with
    | (.error e, h) => (.error e, h)
    | (.ok uri, h) => (.ok (host ++ uri), h)

/-! ## Requests by their layout -/

/-- What precedes the URI: `GET` and a blank, or one of the others and any byte. -/
inductive MethodBytes : List UInt8 → Prop
  | get : MethodBytes [71, 69, 84, 32]
  | head (c : UInt8) : MethodBytes [72, 69, 65, 68, c]
  | post (c : UInt8) : MethodBytes [80, 79, 83, 84, c]

/-- The bytes of a request line that `n` bytes leave room for.  `tail` is what follows the carriage
return. -/
structure RequestLine (payload : List UInt8) (n : ℤ) (method uri version tail : List UInt8) :
    Prop where
  bytes : payload = method ++ (uri ++ 32 :: (version ++ 13 :: tail))
  method : MethodBytes method
  blank : 32 ∉ uri
  nonempty : uri ≠ []
  terminator : 13 ∉ version ∧ 0 ∉ version
  four : 4 ≤ n
  uriLen : uri.length < n
  versionLen : toInt32 version.length ≤ n - uri.length

/-- The length left behind the request line. -/
def leftLen (n : ℤ) (uri version : List UInt8) : ℤ :=
  toInt32 (n - uri.length - toInt32 version.length)

/-- The headers start behind a line feed, or with the carriage return. -/
def headersOf : List UInt8 → List UInt8
  | 10 :: l => l
  | tail => 13 :: tail

/-- The bytes of the first `Host` header and its value. -/
structure HostLine (headers host : List UInt8) : Prop where
  bytes : ∃ before blanks rest, headers =
    before ++ (hostName ++ 58 :: (List.replicate blanks 32 ++ (host ++ 13 :: 10 :: rest))) ∧
      0 ∉ before ∧ ∀ j < before.length, ¬ hostName <+: headers.drop j
  blank : host.head? ≠ some 32
  terminator : 13 ∉ host ∧ 0 ∉ host

/-- Behind the first place of a name there are a colon, blanks and a value up to the end of a
line. -/
structure NameLine (name headers value : List UInt8) : Prop where
  bytes : ∃ before blanks rest, headers =
    before ++ (name ++ 58 :: (List.replicate blanks 32 ++ (value ++ 13 :: 10 :: rest))) ∧
      0 ∉ before ∧ ∀ j < before.length, ¬ name <+: headers.drop j
  blank : value.head? ≠ some 32
  terminator : 13 ∉ value ∧ 0 ∉ value

/-- A request of `n` bytes has a `Host` header that makes its URI longer than a register is. -/
def Overflows (payload : List UInt8) (n : ℤ) : Prop :=
  ∃ method uri version tail host, RequestLine payload n method uri version tail ∧ tail ≠ [] ∧
    4 ≤ leftLen n uri version ∧ HostLine (headersOf tail) host ∧
    256 < toInt32 (host.length + min uri.length 128 : ℕ)

end HttpRequest

/-! ## Well-formed requests -/

/-- A header line. -/
structure HeaderField where
  name : List UInt8
  blanks : ℕ
  value : List UInt8
  nameChars : ∀ c ∈ name, c ≠ 0 ∧ c ≠ 10 ∧ c ≠ 13 ∧ c ≠ 32 ∧ c ≠ 58
  valueChars : ∀ c ∈ value, c ≠ 0 ∧ c ≠ 10 ∧ c ≠ 13
  blank : value.head? ≠ some 32

namespace HeaderField

def bytes (f : HeaderField) : List UInt8 :=
  f.name ++ 58 :: (List.replicate f.blanks 32 ++ (f.value ++ [13, 10]))

/-- The value of the first line of a name, or the empty string. -/
def valueOf (fields : List HeaderField) (name : List UInt8) : List UInt8 :=
  ((fields.find? fun f => f.name = name).map value).getD []

end HeaderField

/-- A request line, header lines, an empty line and a body. -/
structure HttpMessage where
  method : List UInt8
  uri : List UInt8
  version : List UInt8
  fields : List HeaderField
  body : List UInt8
  lineChars : ∀ c ∈ method ++ (uri ++ version), c ≠ 0 ∧ c ≠ 10 ∧ c ≠ 13 ∧ c ≠ 32

namespace HttpMessage

/-- What follows the request line. -/
def headers (q : HttpMessage) : List UInt8 :=
  q.fields.flatMap HeaderField.bytes ++ 13 :: 10 :: q.body

def bytes (q : HttpMessage) : List UInt8 :=
  q.method ++ 32 :: (q.uri ++ 32 :: (q.version ++ 13 :: 10 :: q.headers))

/-- `getHeader` gives the value of the first line of the name, and the empty string iff there is
none. -/
def Finds (q : HttpMessage) (name : List UInt8) (value : Except Abort (List UInt8)) : Prop :=
  value = .ok (HeaderField.valueOf q.fields name) ∧
    (value = .ok [] ↔ ∀ f ∈ q.fields, f.name ≠ name)

/-- The name stands first where it names a line whose value is not empty, or where it reads like
that line.  If it names no line, it does not read like one where it stands first.  `text` begins
with the headers. -/
def StandsFirst (q : HttpMessage) (name text : List UInt8) : Prop :=
  match q.fields.find? fun f => f.name = name with
  | some f => f.value ≠ [] ∧ HttpRequest.NameLine name text f.value
  | none => ∀ value, value ≠ [] → ¬HttpRequest.NameLine name text value

end HttpMessage

end DStreamon
