import DStreamon.InfoElement
import DStreamon.Lib.Attempt
import DStreamon.Lib.Fields

/-!
# The transcoder

A buffer with a cursor, and what writes fields, set headers and message headers at it or reads them
there.  Pointers are offsets into the buffer; the host is a little-endian one.
-/

namespace DStreamon.Ipfix

inductive Error
  /-- An `IETypeError`, one of the `logic_error`s. -/
  | ieTypeError (what : String)
  | logicError (what : String)
  | formatError (what : String)
  | mtuError (what : String)
  | runtimeError (what : String)
  /-- Memory that is not the buffer's is read, or a null pointer followed. -/
  | undefined
deriving DecidableEq, Repr

def Error.isLogicError : Error → Bool
  | .ieTypeError _ => true
  | .logicError _ => true
  | _ => false

structure Transcoder where
  buf : List UInt8
  cur : ℕ
  check : Option ℕ
  max : ℕ
  savemax : Option ℕ
  msgBase : Option ℕ
  setStart : Option ℕ
deriving DecidableEq, Repr

namespace Transcoder

/-- A transcoder without a buffer. -/
def new : Transcoder := ⟨[], 0, none, 0, none, none, none⟩

/-- The checkpoint and the open headers stay. -/
def setBase (buf : List UInt8) (sz : ℕ) (xc : Transcoder) : Transcoder :=
  { xc with buf := buf, cur := 0, max := sz }

def len (xc : Transcoder) : ℕ := xc.cur

/-- `max_ - cur_`, an unsigned number also when the cursor is past the end. -/
def avail (xc : Transcoder) : ℕ :=
  if xc.cur ≤ xc.max then xc.max - xc.cur else 2 ^ 64 - (xc.cur - xc.max)

def checkpoint (xc : Transcoder) : Transcoder := { xc with check := some xc.cur }

def rollback (xc : Transcoder) : Transcoder :=
  match xc.check with
  | none => xc
  | some c => { xc with cur := c }

def focus (off len : ℕ) : Attempt Error Transcoder Unit := do
  Attempt.modify fun xc => { xc.checkpoint with cur := off }
  let xc ← Attempt.get
  if xc.savemax.isSome then
    Attempt.throw (.logicError "attempt to focus an already focused transcoder")
  else
    Attempt.modify fun xc =>
      { xc with
        savemax := some xc.max
        max := if xc.max > xc.cur + len then xc.cur + len else xc.max }

def defocus : Attempt Error Transcoder Unit := do
  let xc ← Attempt.get
  match xc.savemax with
  | none => Attempt.throw (.logicError "attempt to defocus a defocused transcoder")
  | some m => Attempt.modify fun xc => { xc.rollback with max := m, savemax := none }

def advance (len : ℕ) : Attempt Error Transcoder Bool := do
  let xc ← Attempt.get
  if len > xc.avail then
    pure false
  else
    Attempt.modify fun xc => { xc with cur := xc.cur + len }
    pure true

/-- Bytes written at the cursor, which goes behind them. -/
def put (bs : List UInt8) (xc : Transcoder) : Transcoder :=
  { xc with buf := Bytes.splice xc.buf xc.cur bs, cur := xc.cur + bs.length }

/-! ## Fields -/

/-- `xcode_raw_left`: the first `d` bytes, with zeros after them where there are fewer. -/
def rawLeft (src : List UInt8) (d : ℕ) : List UInt8 :=
  src.take d ++ List.replicate (d - src.length) 0

/-- `xcode_raw_left` into a field of `d` bytes, and `xcode_swap` over it for a number. -/
def xcode (iet : IEType) (src : List UInt8) (d : ℕ) : List UInt8 :=
  if iet.isEndian then (rawLeft src d).reverse else rawLeft src d

def encodeVarlenLength (varlen : ℕ) : List UInt8 :=
  if varlen < 255 then [UInt8.ofNat varlen]
  else [255, UInt8.ofNat (varlen / 256), UInt8.ofNat (varlen % 256)]

def u16ie : InfoElement := ⟨"_internal_unsigned16", 0, 0, IEType.unsigned16, 2⟩

def u32ie : InfoElement := ⟨"_internal_unsigned32", 0, 0, IEType.unsigned32, 4⟩

/-- Once there is room: the length is checked, and the field written. -/
def encodeContent (val : List UInt8) (ielen : ℕ) (ie : InfoElement) :
    Attempt Error Transcoder Bool :=
  if ie.ietype.permitsLength ielen then do
    Attempt.modify (put (xcode ie.ietype val ielen))
    pure true
  else
    Attempt.throw (.ieTypeError "IE type size mismatch")

def encode (val : List UInt8) (ie : InfoElement) : Attempt Error Transcoder Bool := do
  let xc ← Attempt.get
  if ie.len = kVarlen then
    if val.length + (if val.length > 254 then 3 else 1) > xc.avail then
      pure false
    else do
      Attempt.modify (put (encodeVarlenLength val.length))
      encodeContent val val.length ie
  else if ie.len.toNat > xc.avail then
    pure false
  else
    encodeContent val ie.len.toNat ie

def encodeUint16 (val : UInt16) : Attempt Error Transcoder Bool :=
  encode (Bytes.le 2 val.toNat) u16ie

def encodeUint32 (val : UInt32) : Attempt Error Transcoder Bool :=
  encode (Bytes.le 4 val.toNat) u32ie

/-- Zeros over the whole width, 65535 of them where the width is variable. -/
def encodeZero (ie : InfoElement) : Attempt Error Transcoder Bool := do
  let xc ← Attempt.get
  if !ie.ietype.permitsLength ie.len.toNat then
    Attempt.throw (.ieTypeError "IE type size mismatch")
  else if ie.len.toNat > xc.avail then
    pure false
  else
    Attempt.modify (put (List.replicate ie.len.toNat 0))
    pure true

/-! ## Headers written -/

def encodeMessageStart : Attempt Error Transcoder Bool := do
  let xc ← Attempt.get
  if xc.msgBase.isSome then
    Attempt.throw (.logicError "out-of-sequence call to encodeMessageStart()")
  else if kMessageHeaderLen > xc.avail then
    pure false
  else
    Attempt.modify fun xc => { xc with msgBase := some xc.cur }
    advance kMessageHeaderLen

/-- `if (!encode(..) || ..) throw`. -/
def insist (what : String) (x : Attempt Error Transcoder Bool) : Attempt Error Transcoder Unit := do
  if ← x then pure () else Attempt.throw (.logicError what)

def encodeMessageEnd (exportTime sequence domain : UInt32) : Attempt Error Transcoder Unit := do
  let xc ← Attempt.get
  match xc.msgBase with
  | none => Attempt.throw (.logicError "out-of-sequence call to encodeMessageEnd()")
  | some base =>
    Attempt.modify fun xc => { xc with cur := base }
    insist "unexpected failure in encodeMessageEnd()" (encodeUint16 (UInt16.ofNat kIpfixVersion))
    insist "unexpected failure in encodeMessageEnd()" (encodeUint16 (UInt16.ofNat (xc.cur - base)))
    insist "unexpected failure in encodeMessageEnd()" (encodeUint32 exportTime)
    insist "unexpected failure in encodeMessageEnd()" (encodeUint32 sequence)
    insist "unexpected failure in encodeMessageEnd()" (encodeUint32 domain)
    Attempt.modify fun t => { t with msgBase := none, cur := xc.cur }

def encodeSetStart (setId : UInt16) : Attempt Error Transcoder Bool := do
  let xc ← Attempt.get
  if xc.setStart.isSome then
    Attempt.throw (.logicError "out-of-sequence call to encodeSetStart()")
  else if kSetHeaderLen > xc.avail then
    pure false
  else
    Attempt.modify fun xc => { xc with setStart := some xc.cur }
    insist "unexpected failure in encodeSetStart()" (encodeUint16 setId)
    insist "unexpected failure in encodeSetStart()" (encodeUint16 0)
    pure true

def encodeSetEnd : Attempt Error Transcoder Unit := do
  let xc ← Attempt.get
  match xc.setStart with
  | none => Attempt.throw (.logicError "out-of-sequence call to encodeSetEnd()")
  | some base =>
    Attempt.modify fun xc => { xc with cur := base + kSetLenOffset }
    insist "unexpected failure in encodeSetEnd()" (encodeUint16 (UInt16.ofNat (xc.cur - base)))
    Attempt.modify fun t => { t with setStart := none, cur := xc.cur }

/-! ## Reading -/

def next : Attempt Error Transcoder UInt8 := do
  let xc ← Attempt.get
  match xc.buf[xc.cur]? with
  | none => Attempt.throw .undefined
  | some b =>
    Attempt.modify fun xc => { xc with cur := xc.cur + 1 }
    pure b

/-- The cursor moves before anything is compared with what is left. -/
def decodeVarlenLength : Attempt Error Transcoder ℕ := do
  let first ← next
  if first = 255 then do
    let hi ← next
    let lo ← next
    pure (hi.toNat * 256 + lo.toNat)
  else
    pure first.toNat

/-- The next `ielen` bytes, and the cursor behind them; `none` where they are not all there. -/
def contentBytes (ie : InfoElement) (ielen : ℕ) :
    Attempt Error Transcoder (Option (List UInt8)) := do
  let xc ← Attempt.get
  if ielen > xc.avail then
    pure none
  else if !ie.ietype.permitsLength ielen then
    Attempt.throw (.ieTypeError "IE type size mismatch")
  else if xc.buf.length < xc.cur + ielen then
    Attempt.throw .undefined
  else
    Attempt.modify fun xc => { xc with cur := xc.cur + ielen }
    pure (some ((xc.buf.drop xc.cur).take ielen))

def content (ie : InfoElement) : Attempt Error Transcoder (Option (List UInt8)) :=
  if ie.len = kVarlen then do
    let ielen ← decodeVarlenLength
    contentBytes ie ielen
  else
    contentBytes ie ie.len.toNat

/-- Into a field of `len` bytes. -/
def decode (len : ℕ) (ie : InfoElement) : Attempt Error Transcoder (Option (List UInt8)) := do
  let field ← content ie
  pure (field.map fun bs => xcode ie.ietype bs len)

/-- Into a `VarlenField`, which points to the content. -/
def decodeVarlen (ie : InfoElement) : Attempt Error Transcoder (Option (List UInt8)) := content ie

def decodeUint16 : Attempt Error Transcoder (Option UInt16) := do
  let field ← decode 2 u16ie
  pure (field.map fun bs => UInt16.ofNat (Bytes.value bs))

def decodeUint32 : Attempt Error Transcoder (Option UInt32) := do
  let field ← decode 4 u32ie
  pure (field.map fun bs => UInt32.ofNat (Bytes.value bs))

/-- `none` where not even a header is left. -/
def decodeSetHeader : Attempt Error Transcoder (Option (UInt16 × UInt16)) := do
  let xc ← Attempt.get
  if kSetHeaderLen > xc.avail then
    pure none
  else
    let sid ← decodeUint16
    match sid with
    | none => Attempt.throw (.logicError "unexpected failure in decodeMessageHeader()")
    | some sid =>
      if sid < kMinSetID ∧ sid ≠ kTemplateSetID ∧ sid ≠ kOptionTemplateSetID then
        Attempt.throw
          (.formatError "nonsensical set ID; trying to decode non-IPFIX data?")
      else
        let len ← decodeUint16
        match len with
        | none => Attempt.throw (.logicError "unexpected failure in decodeMessageHeader()")
        | some len =>
          if len.toNat < kSetHeaderLen ∨ len.toNat > kMaxSetLen then
            Attempt.throw
              (.formatError "nonsensical set length; trying to decode non-IPFIX data?")
          else
            pure (some (sid, len))

end Transcoder

end DStreamon.Ipfix
