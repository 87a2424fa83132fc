import DStreamon.Lib.SortedAssoc
import DStreamon.WireTemplate

/-!
# Sessions

The templates of a transport session, and how a template record changes them.  The fields of a
record are added one by one to the template that is kept, which the next record finds as it was
left.
-/

namespace DStreamon.Ipfix

/-- Domain and template ID. -/
abbrev WireTemplateKey := UInt32 × UInt16

structure Session where
  tib : List (WireTemplateKey × WireTemplate)
deriving DecidableEq, Repr

namespace Session

def new : Session := ⟨[]⟩

/-- The order of a map's keys. -/
def keyLt (a b : WireTemplateKey) : Bool := a.1 < b.1 || a.1 == b.1 && a.2 < b.2

def find (k : WireTemplateKey) (s : Session) : Option WireTemplate := SortedAssoc.lookup k s.tib

def put (k : WireTemplateKey) (wt : WireTemplate) (s : Session) : Session :=
  ⟨SortedAssoc.insert keyLt k wt s.tib⟩

def getTemplate (domain : UInt32) (tid : UInt16) : Attempt Error Session WireTemplate :=
  if tid < kMinSetID then
    Attempt.throw (.logicError "Cannot get template with reserved ID")
  else do
    let s ← Attempt.get
    match s.find (domain, tid) with
    | some wt => pure wt
    | none =>
      Attempt.modify (put (domain, tid) (.new domain tid))
      pure (.new domain tid)

def deleteTemplate (domain : UInt32) (tid : UInt16) (s : Session) : Session :=
  ⟨SortedAssoc.erase (domain, tid) s.tib⟩

/-- All the templates of a domain, active or not; of every domain, where it is 0. -/
def activeTemplates (domain : UInt32) (s : Session) : List WireTemplate :=
  (s.tib.filter fun e => domain == 0 || e.1.1 == domain).map Prod.snd

/-- A call on the template that a pointer leads to. -/
def onTemplate (k : WireTemplateKey) (x : Attempt Error WireTemplate Unit) :
    Attempt Error Session Unit := do
  let s ← Attempt.get
  match s.find k with
  | none => Attempt.throw .undefined
  | some wt => Attempt.zoom (fun _ => wt) (put k) x

/-! ## Template records -/

/-- A transcoder to read from and the session. -/
abbrev Decoder := Transcoder × Session

def reading {α : Type} (x : Attempt Error Transcoder α) : Attempt Error Decoder α :=
  Attempt.zoom Prod.fst (fun xc d => (xc, d.2)) x

def inSession {α : Type} (x : Attempt Error Session α) : Attempt Error Decoder α :=
  Attempt.zoom Prod.snd (fun s d => (d.1, s)) x

def decodePen (ienum : UInt16) : Attempt Error Transcoder (Option UInt32) :=
  if ienum &&& kEnterpriseBit ≠ 0 then Transcoder.decodeUint32 else pure (some 0)

/-- The element of one field; `none` where the field is not all there. -/
def decodeField (model : InfoModel) : Attempt Error Transcoder (Option InfoElement) := do
  let ienum ← Transcoder.decodeUint16
  match ienum with
  | none => pure none
  | some ienum =>
    let ielen ← Transcoder.decodeUint16
    match ielen with
    | none => pure none
    | some ielen =>
      let iepen ← decodePen ienum
      match iepen with
      | none => pure none
      | some iepen =>
        match model.lookupIE iepen ienum ielen with
        | none =>
          Attempt.throw
            (.runtimeError "Unknown IE in template; check information model and try again")
        | some ie => pure (some ie)

def decodeFields (model : InfoModel) (k : WireTemplateKey) : ℕ → Attempt Error Decoder Bool
  | 0 => pure true
  | n + 1 => do
    let ie ← reading (decodeField model)
    match ie with
    | none => pure false
    | some ie =>
      inSession (onTemplate k (WireTemplate.add ie))
      decodeFields model k n

def decodeTemplateRecord (model : InfoModel) (domain : UInt32) : Attempt Error Decoder Bool := do
  let d ← Attempt.get
  if d.1.avail < kTemplateHeaderLen then
    pure false
  else
    let tid ← reading Transcoder.decodeUint16
    let iecount ← reading Transcoder.decodeUint16
    let tid ← Attempt.orThrow .undefined tid
    let iecount ← Attempt.orThrow .undefined iecount
    if iecount = 0 then
      inSession (Attempt.modify (deleteTemplate domain tid))
      pure true
    else
      let tmpl ← inSession (getTemplate domain tid)
      if tmpl.active then
        inSession (onTemplate (domain, tid) (Attempt.modify WireTemplate.clear))
        decodeDefinition (domain, tid) iecount
      else
        decodeDefinition (domain, tid) iecount
where
  /-- The fields, and the template is active. -/
  decodeDefinition (k : WireTemplateKey) (iecount : UInt16) : Attempt Error Decoder Bool := do
    if ← decodeFields model k iecount.toNat then
      inSession (onTemplate k WireTemplate.activate)
      pure true
    else
      pure false

end Session

end DStreamon.Ipfix
