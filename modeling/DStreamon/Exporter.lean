import DStreamon.Session

/-!
# The exporter

Records go into sets of the template's ID, and sets into a message that is sent when the buffer is
full or somebody asks for it.  What a message is made of is kept beside its bytes.
-/

namespace DStreamon.Ipfix

/-- What a call finds outside: the time, and what the transport has against a message. -/
structure Env where
  now : UInt32
  refusal : List UInt8 → Option String

/-- A record in a set, with the template that it is of. -/
structure Written where
  key : WireTemplateKey
  bytes : List UInt8
deriving DecidableEq, Repr

structure SetWritten where
  id : UInt16
  records : List Written
deriving DecidableEq, Repr

structure Message where
  domain : UInt32
  sets : List SetWritten
  bytes : List UInt8
deriving DecidableEq, Repr

structure Exporter where
  /-- Its buffer is `buf_`. -/
  xcoder : Transcoder
  setId : UInt16
  msgEmpty : Bool
  setActive : Bool
  session : Session
  /-- The template that the pointer leads to. -/
  tmpl : Option WireTemplateKey
  domain : UInt32
  mtu : ℕ
  /-- The sets of the message under way, the open one, and the messages sent: no call reads them. -/
  sets : List SetWritten
  opened : Option SetWritten
  sent : List Message
deriving DecidableEq, Repr

namespace Exporter

def encoding {α : Type} (x : Attempt Error Transcoder α) : Attempt Error Exporter α :=
  Attempt.zoom xcoder (fun xc e => { e with xcoder := xc }) x

def inSession {α : Type} (x : Attempt Error Session α) : Attempt Error Exporter α :=
  Attempt.zoom session (fun s e => { e with session := s }) x

def startMessage : Attempt Error Exporter Unit := do
  Attempt.modify fun e => { e with xcoder := e.xcoder.setBase e.xcoder.buf e.mtu }
  if ← encoding Transcoder.encodeMessageStart then
    Attempt.modify fun e => { e with msgEmpty := true, sets := [] }
  else
    Attempt.throw (.mtuError "MTU too small for message")

/-- The constructor's members, and the memory that `malloc` found. -/
def members (domain : UInt32) (buf : List UInt8) : Exporter where
  xcoder := { Transcoder.new with buf := buf }
  setId := 0
  msgEmpty := true
  setActive := false
  session := .new
  tmpl := none
  domain := domain
  mtu := buf.length
  sets := []
  opened := none
  sent := []

def new (domain : UInt32) (buf : List UInt8) : Except Error Unit × Exporter :=
  startMessage.run (members domain buf)

def endSet : Attempt Error Exporter Unit := do
  encoding Transcoder.encodeSetEnd
  Attempt.modify fun e =>
    { e with setActive := false, sets := e.sets ++ e.opened.toList, opened := none }

/-- `if (set_active_) endSet()`. -/
def endActiveSet : Attempt Error Exporter Unit := do
  let e ← Attempt.get
  if e.setActive then endSet else pure ()

def sendMessage (env : Env) : Attempt Error Exporter Unit := do
  let e ← Attempt.get
  let bytes := e.xcoder.buf.take e.xcoder.len
  match env.refusal bytes with
  | some what => Attempt.throw (.runtimeError what)
  | none => Attempt.modify fun e => { e with sent := e.sent ++ [⟨e.domain, e.sets, bytes⟩] }

def flush (env : Env) (exportTime : UInt32) : Attempt Error Exporter Unit := do
  endActiveSet
  let e ← Attempt.get
  if e.xcoder.len > kMessageHeaderLen then
    encoding (Transcoder.encodeMessageEnd exportTime 0 e.domain)
    sendMessage env
    startMessage
  else
    pure ()

def openSet (e : Exporter) : Exporter := { e with setActive := true, opened := some ⟨e.setId, []⟩ }

def ensureSet (env : Env) : Attempt Error Exporter Unit := do
  let e ← Attempt.get
  if e.setActive then
    pure ()
  else if ← encoding (Transcoder.encodeSetStart e.setId) then
    Attempt.modify openSet
  else
    flush env env.now
    if ← encoding (Transcoder.encodeSetStart e.setId) then
      Attempt.modify openSet
    else
      Attempt.throw (.mtuError "MTU too small for initial set header")

/-- What a set of data gives way to. -/
def enterTemplateSet : Attempt Error Exporter Unit := do
  let e ← Attempt.get
  if e.setId ≠ kTemplateSetID then
    endActiveSet
    Attempt.modify fun e => { e with tmpl := none, setId := kTemplateSetID }
  else
    pure ()

def ensureTemplateSet (env : Env) : Attempt Error Exporter Unit := do
  enterTemplateSet
  ensureSet env

/-- The bytes from `cur` on are a record of the open set. -/
def note (key : WireTemplateKey) (cur : ℕ) (e : Exporter) : Exporter :=
  { e with
    opened := e.opened.map fun s =>
      { s with records := s.records ++ [⟨key, (e.xcoder.buf.take e.xcoder.cur).drop cur⟩] } }

def encodeRecord (key : WireTemplateKey) (x : Attempt Error Transcoder Bool) :
    Attempt Error Exporter Bool := do
  let e ← Attempt.get
  if ← encoding x then
    Attempt.modify (note key e.xcoder.cur)
    pure true
  else
    pure false

/-- A record of a template, in a new message where the one under way has no room for it. -/
def putRecord (env : Env) (what : String) (key : WireTemplateKey)
    (x : Attempt Error Transcoder Bool) : Attempt Error Exporter Unit := do
  if ← encodeRecord key x then
    pure ()
  else
    flush env env.now
    ensureSet env
    if ← encodeRecord key x then
      pure ()
    else
      Attempt.throw (.mtuError what)

/-! ## What a client calls -/

def getTemplate (tid : UInt16) : Attempt Error Exporter WireTemplate := do
  let e ← Attempt.get
  inSession (Session.getTemplate e.domain tid)

/-- `if (domain_ != domain && !msg_empty_) flush()`. -/
def flushDomain (env : Env) (domain : UInt32) : Attempt Error Exporter Unit := do
  let e ← Attempt.get
  if e.domain ≠ domain ∧ !e.msgEmpty then flush env env.now else pure ()

def setDomain (env : Env) (domain : UInt32) : Attempt Error Exporter Unit := do
  flushDomain env domain
  Attempt.modify fun e => { e with domain := domain }

/-- `if (set_id_) endSet()`. -/
def finalizeSet : Attempt Error Exporter Unit := do
  let e ← Attempt.get
  if e.setId ≠ 0 then endSet else pure ()

def setTemplate (tid : UInt16) : Attempt Error Exporter Unit := do
  let e ← Attempt.get
  if e.setId = tid then
    pure ()
  else if tid < kMinSetID then
    Attempt.throw (.logicError "Cannot set template with reserved ID")
  else
    let newTmpl ← inSession (Session.getTemplate e.domain tid)
    if !newTmpl.active then
      Attempt.throw (.logicError "Cannot set inactive template")
    else
      finalizeSet
      Attempt.modify fun e => { e with tmpl := some (e.domain, tid), setId := newTmpl.tid }

def exportTemplatesForDomain (env : Env) : Attempt Error Exporter Unit := do
  ensureTemplateSet env
  let e ← Attempt.get
  Attempt.forEach
    (fun wt => putRecord env "MTU too small for template record" (wt.domain, wt.tid)
      wt.encodeTemplateRecord)
    (e.session.activeTemplates e.domain)
  Attempt.modify fun e => { e with msgEmpty := false }

def exportRecord (env : Env) (st : StructTemplate) (s : Struct) : Attempt Error Exporter Unit := do
  ensureSet env
  let e ← Attempt.get
  let key ← Attempt.orThrow .undefined e.tmpl
  let wt ← Attempt.orThrow .undefined (e.session.find key)
  putRecord env "MTU too small for record" key (wt.encode st s)
  Attempt.modify fun e => { e with msgEmpty := false }

end Exporter

end DStreamon.Ipfix
