import DStreamon.Transcoder

/-!
# Templates

A template is a list of elements, and an active one cannot be changed.  A wire template says what a
record is on the wire, a structure template where the fields are in memory.
-/

namespace DStreamon.Ipfix

/-- What `index_map_` finds: the last element with the number. -/
def lastIndex (key : UInt32 × UInt16) : List InfoElement → Option ℕ
  | [] => none
  | e :: es =>
    match lastIndex key es with
    | some i => some (i + 1)
    | none => if e.key = key then some 0 else none

structure WireTemplate where
  domain : UInt32
  tid : UInt16
  ies : List InfoElement
  offsets : List ℕ
  minlen : ℕ
  active : Bool
  trlen : ℕ
deriving DecidableEq, Repr

namespace WireTemplate

def new (domain : UInt32) (tid : UInt16) : WireTemplate :=
  ⟨domain, tid, [], [], 0, false, kTemplateHeaderLen⟩

def contains (wt : WireTemplate) (ie : InfoElement) : Bool := (lastIndex ie.key wt.ies).isSome

def containsAll (wt : WireTemplate) (ies : List InfoElement) : Bool := ies.all wt.contains

/-- Where the record goes on, if that does not depend on its content.  The element is in `ies_`
already, so the length added is its own. -/
def nextOffset (wt : WireTemplate) (ie : InfoElement) : ℕ :=
  match wt.offsets.getLast? with
  | none => 0
  | some back =>
    if back = kVarlen.toNat ∨ ie.len = kVarlen then kVarlen.toNat else back + ie.len.toNat

def push (ie : InfoElement) (wt : WireTemplate) : WireTemplate :=
  { wt with
    ies := wt.ies ++ [ie]
    offsets := wt.offsets ++ [wt.nextOffset ie]
    minlen := wt.minlen + if ie.len = kVarlen then 1 else ie.len.toNat
    trlen := wt.trlen + if ie.pen ≠ 0 then 8 else 4 }

def add (ie : InfoElement) : Attempt Error WireTemplate Unit := do
  let wt ← Attempt.get
  if wt.active then
    Attempt.throw (.logicError "Cannot add IEs to an active template")
  else
    Attempt.modify (push ie)

def activate : Attempt Error WireTemplate Unit := do
  let wt ← Attempt.get
  if wt.active then
    Attempt.throw (.logicError "Cannot activate active template")
  else
    Attempt.modify fun wt => { wt with active := true }

def clear (wt : WireTemplate) : WireTemplate :=
  { wt with ies := [], offsets := [], minlen := 0, trlen := 0, active := false }

/-- The elements of another template; none of them where that is the same one, which is cleared. -/
def mimic (rhs : List InfoElement) : Attempt Error WireTemplate Unit := do
  Attempt.modify clear
  Attempt.forEach add rhs
  activate

/-- One field of a template record. -/
def encodeField (ie : InfoElement) : Attempt Error Transcoder Unit :=
  if ie.pen ≠ 0 then do
    let _ ← Transcoder.encodeUint16 (ie.number ||| kEnterpriseBit)
    let _ ← Transcoder.encodeUint16 ie.len
    let _ ← Transcoder.encodeUint32 ie.pen
  else do
    let _ ← Transcoder.encodeUint16 ie.number
    let _ ← Transcoder.encodeUint16 ie.len

/-- What the calls return is not looked at. -/
def encodeTemplateRecord (wt : WireTemplate) : Attempt Error Transcoder Bool := do
  if !wt.active then
    Attempt.throw (.logicError "Cannot encode an inactive template")
  else
    let xc ← Attempt.get
    if xc.avail < wt.trlen then
      pure false
    else
      let _ ← Transcoder.encodeUint16 wt.tid
      let _ ← Transcoder.encodeUint16 (UInt16.ofNat wt.ies.length)
      Attempt.forEach encodeField wt.ies
      pure true

end WireTemplate

/-! ## Records -/

/-- The fields of a structure, each with its offset. -/
structure StructTemplate where
  fields : List (InfoElement × ℕ)
deriving DecidableEq, Repr

/-- Offset and length of an element's field, if the structure has one. -/
def StructTemplate.slot (st : StructTemplate) (ie : InfoElement) : Option (ℕ × ℕ) :=
  (lastIndex ie.key (st.fields.map Prod.fst)).bind fun i =>
    st.fields[i]?.map fun f => (f.2, f.1.len.toNat)

/-- What a structure holds at its offsets: the bytes of a field, or what a `VarlenField` points
to. -/
abbrev Struct := ℕ → List UInt8

namespace WireTemplate

def encodeElement (st : StructTemplate) (s : Struct) (ie : InfoElement) :
    Attempt Error Transcoder Bool :=
  match st.slot ie with
  | none => Transcoder.encodeZero ie
  | some (off, len) =>
    if len = kVarlen.toNat then Transcoder.encode (s off) ie
    else Transcoder.encode (Transcoder.rawLeft (s off) len) ie

def encodeElements (st : StructTemplate) (s : Struct) :
    List InfoElement → Attempt Error Transcoder Bool
  | [] => pure true
  | ie :: ies => do
    if ← encodeElement st s ie then encodeElements st s ies else pure false

def encode (wt : WireTemplate) (st : StructTemplate) (s : Struct) :
    Attempt Error Transcoder Bool := do
  if !wt.active then
    Attempt.throw (.logicError "Cannot encode using an inactive template")
  else
    let xc ← Attempt.get
    if xc.avail < wt.minlen then
      pure false
    else
      Attempt.modify Transcoder.checkpoint
      if ← encodeElements st s wt.ies then
        pure true
      else
        Attempt.modify Transcoder.rollback
        pure false

/-- Into a field of `len` bytes or a `VarlenField`. -/
def decodeField (len : ℕ) (ie : InfoElement) : Attempt Error Transcoder (Option (List UInt8)) :=
  if len = kVarlen.toNat then Transcoder.decodeVarlen ie else Transcoder.decode len ie

/-- An element that the structure does not have is not read. -/
def decodeElement (st : StructTemplate) (ie : InfoElement) (s : Struct) :
    Attempt Error Transcoder (Option Struct) :=
  match st.slot ie with
  | none => pure (some s)
  | some (off, len) => do
    let field ← decodeField len ie
    pure (field.map fun bs => Function.update s off bs)

def decodeElements (st : StructTemplate) :
    List InfoElement → Struct → Attempt Error Transcoder (Option Struct)
  | [], s => pure (some s)
  | ie :: ies, s => do
    match ← decodeElement st ie s with
    | some s => decodeElements st ies s
    | none => pure none

/-- The structure that is filled; `none` where the record is not all there. -/
def decode (wt : WireTemplate) (st : StructTemplate) (s : Struct) :
    Attempt Error Transcoder (Option Struct) := do
  if !wt.active then
    Attempt.throw (.logicError "Cannot decode using an inactive template")
  else
    let xc ← Attempt.get
    if xc.avail < wt.minlen then
      pure none
    else
      Attempt.modify Transcoder.checkpoint
      match ← decodeElements st wt.ies s with
      | some s => pure (some s)
      | none =>
        Attempt.modify Transcoder.rollback
        pure none

end WireTemplate

end DStreamon.Ipfix
