import DStreamon.Collector
import DStreamon.Exporter

/-!
# Files of messages

An exporter's messages go into a file one behind the other.  A reader takes them out again, the
header first and then what its length says, and hands the data sets of each to the receivers.
-/

namespace DStreamon.Ipfix

/-- What a program finds where it has not written anything: the ID and the length of a set whose
header is not there, the bytes of a buffer, and the text for `errno`. -/
structure Unset where
  header : ℕ → UInt16 × UInt16
  byte : ℕ → UInt8
  errno : String

/-! ## Message headers -/

structure MessageHeader where
  len : UInt16
  exportTime : UInt32
  sequence : UInt32
  domain : UInt32
deriving DecidableEq, Repr

namespace MessageHeader

/-- The transcoder, and the variables that are set. -/
abbrev Decoder := Transcoder × MessageHeader

def unexpected : Error := .logicError "unexpected failure in decodeMessageHeader()"

/-- `if (!decode(..)) throw`. -/
def insist {α : Type} (x : Attempt Error Transcoder (Option α)) : Attempt Error Decoder α := do
  let v ← Attempt.zoom Prod.fst (fun xc d => (xc, d.2)) x
  Attempt.orThrow unexpected v

def set (f : MessageHeader → MessageHeader) : Attempt Error Decoder Unit :=
  Attempt.modify fun d => (d.1, f d.2)

def decodeMessageHeader : Attempt Error Decoder Bool := do
  let d ← Attempt.get
  if kMessageHeaderLen > d.1.avail then
    pure false
  else
    let version ← insist Transcoder.decodeUint16
    if version.toNat ≠ kIpfixVersion then
      Attempt.throw
        (.formatError "wrong IPFIX version; trying to decode non-IPFIX data?")
    else
      let len ← insist Transcoder.decodeUint16
      set fun h => { h with len := len }
      if len.toNat < kMessageHeaderLen then
        Attempt.throw
          (.formatError "nonsensical message length; trying to decode non-IPFIX data?")
      else
        let exportTime ← insist Transcoder.decodeUint32
        set fun h => { h with exportTime := exportTime }
        let sequence ← insist Transcoder.decodeUint32
        set fun h => { h with sequence := sequence }
        let domain ← insist Transcoder.decodeUint32
        set fun h => { h with domain := domain }
        pure true

end MessageHeader

/-! ## Message buffers -/

/-- A file that is open: what is ahead, and whether a read has come to its end. -/
structure File where
  ahead : List UInt8
  eof : Bool
deriving DecidableEq, Repr

/-- With the members that no scan uses. -/
structure MessageBuffer extends MBuf where
  exportTime : UInt32
  sequence : UInt32
deriving DecidableEq, Repr

/-- Nothing reads the numbers of a new one. -/
def MessageBuffer.new : MessageBuffer := ⟨⟨[], 0, 0, []⟩, 0, 0⟩

/-- A message buffer, what it is filled from, and the session for the templates. -/
structure Framing where
  file : File
  buffer : MessageBuffer
  session : Session
deriving DecidableEq, Repr

namespace Framing

/-- `realloc` keeps what the buffer holds. -/
def ensure (u : Unset) (length : ℕ) (f : Framing) : Framing :=
  let buf := f.buffer.buf
  if buf.length > length then f
  else
    { f with buffer := { f.buffer with
        buf := buf ++ (List.range' buf.length (length - buf.length)).map u.byte } }

/-- What `fread` of one item leaves: the bytes that were there, also where they are too few. -/
def fread (len off : ℕ) (f : Framing) : Framing :=
  { f with
    file := ⟨f.file.ahead.drop len, f.file.eof || decide (f.file.ahead.length < len)⟩
    buffer := { f.buffer with
      buf := Bytes.splice f.buffer.buf off (f.file.ahead.take len) } }

/-- An item of no bytes is not read, and that is not the end of the file. -/
def consume (u : Unset) (len off : ℕ) : Attempt Error Framing Bool := do
  let f ← Attempt.get
  Attempt.modify (fread len off)
  if len ≠ 0 ∧ len ≤ f.file.ahead.length then
    pure true
  else
    let f ← Attempt.get
    if f.file.eof then pure false else Attempt.throw (.runtimeError u.errno)

/-- With a transcoder over the first bytes of the buffer. -/
def decoding {α : Type} (x : Attempt Error MessageHeader.Decoder α) : Attempt Error Framing α :=
  Attempt.zoom
    (fun f => (Transcoder.new.setBase f.buffer.buf kMessageHeaderLen,
      ⟨f.buffer.len, f.buffer.exportTime, f.buffer.sequence, f.buffer.domain⟩))
    (fun d f =>
      { f with buffer := { f.buffer with
          len := d.2.len
          exportTime := d.2.exportTime
          sequence := d.2.sequence
          domain := d.2.domain } })
    x

/-- With a transcoder over the message. -/
def scanning {α : Type} (x : Attempt Error Scan α) : Attempt Error Framing α :=
  Attempt.zoom
    (fun f => ⟨f.buffer.toMBuf, Transcoder.new.setBase f.buffer.buf f.buffer.len.toNat, f.session⟩)
    (fun m f =>
      { f with
        buffer := { f.buffer with toMBuf := m.mbuf }
        session := m.session })
    x

/-- `none` where the scan does not end within the fuel. -/
def deframe (model : InfoModel) (u : Unset) (fuel : ℕ) : Attempt Error Framing (Option Bool) := do
  Attempt.modify (ensure u kMessageHeaderLen)
  if ← consume u kMessageHeaderLen 0 then
    let _ ← decoding MessageHeader.decodeMessageHeader
    let f ← Attempt.get
    Attempt.modify (ensure u f.buffer.len.toNat)
    if ← consume u (MBuf.sizeSub f.buffer.len.toNat kMessageHeaderLen) kMessageHeaderLen then
      let done ← scanning do
        let _ ← MBuf.transcoding (Transcoder.advance kMessageHeaderLen)
        MBuf.populateSetlist model u.header 0 fuel
      pure (done.map fun _ => true)
    else
      Attempt.throw (.formatError "End of stream after message header")
  else
    pure (some false)

end Framing

/-! ## Reading a file -/

/-- A collector with one session. -/
structure FileReader where
  collector : Collector
  fp : Option File
deriving DecidableEq, Repr

namespace FileReader

def new : FileReader := ⟨Collector.new.putSession 0 .new, none⟩

/-- What a reader needs to know: the bytes of the file or why it cannot be opened, the information
model, and what receivers do. -/
structure Setting where
  disk : Except String (List UInt8)
  model : InfoModel
  unset : Unset
  receive : Receive

def ensureFP (disk : Except String (List UInt8)) : Attempt Error FileReader Unit := do
  let r ← Attempt.get
  if r.fp.isNone then
    match disk with
    | .error errno => Attempt.throw (.runtimeError errno)
    | .ok bytes => Attempt.modify fun r => { r with fp := some ⟨bytes, false⟩ }
  else
    pure ()

/-- The reader, and the buffer that it is given. -/
abbrev Receiving := FileReader × MessageBuffer

def inReader {α : Type} (x : Attempt Error FileReader α) : Attempt Error Receiving α :=
  Attempt.zoom Prod.fst (fun r d => (r, d.2)) x

def collecting {α : Type} (x : Attempt Error Collector α) : Attempt Error Receiving α :=
  Attempt.zoom (fun d => d.1.collector) (fun c d => ({ d.1 with collector := c }, d.2)) x

/-- On the open file. -/
def framing {α : Type} (x : Attempt Error Framing α) : Attempt Error Receiving α :=
  Attempt.zoom
    (fun d => ⟨d.1.fp.getD ⟨[], false⟩, d.2, d.1.collector.getSession 0⟩)
    (fun f d => (⟨d.1.collector.putSession 0 f.session, some f.file⟩, f.buffer)) x

def _receiveMessage (c : Setting) (fuel : ℕ) : Attempt Error Receiving (Option Bool) := do
  inReader (ensureFP c.disk)
  framing (Framing.deframe c.model c.unset fuel)

def receiveMessage (c : Setting) (fuel : ℕ) : Attempt Error Receiving (Option Bool) := do
  let more ← _receiveMessage c fuel
  if more = some true then
    let d ← Attempt.get
    collecting (Collector.receiveMessage c.receive 0 d.2.toMBuf)
    pure more
  else
    pure more

end FileReader

/-! ## Receiving -/

namespace SetReceiver

/-- `while (wt->decode(setxc, st, &s))`, and what is in the structure each time; `none` where that
does not end within the fuel. -/
def receive (wt : WireTemplate) (st : StructTemplate) :
    ℕ → Struct → Attempt Error Transcoder (Option (List Struct))
  | 0, _ => pure none
  | fuel + 1, s => do
    match ← wt.decode st s with
    | some s =>
      let rest ← receive wt st fuel s
      pure (rest.map fun ss => s :: ss)
    | none => pure (some [])

end SetReceiver

/-! ## Writing a file -/

namespace FileWriter

/-- What was written with `fwrite`. -/
def file (e : Exporter) : List UInt8 := e.sent.flatMap Message.bytes

/-- `~FileWriter`: the file was opened for the first message, and without one nothing is flushed. -/
def destroy (env : Env) : Attempt Error Exporter Unit := do
  let e ← Attempt.get
  if e.sent ≠ [] then Exporter.flush env env.now else pure ()

end FileWriter

end DStreamon.Ipfix
