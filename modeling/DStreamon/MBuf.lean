import DStreamon.Session

/-!
# Message buffers

A message is scanned set by set: templates go to the session, and the data sets onto a list.  What
the stack holds where a set header was not read is a parameter.
-/

namespace DStreamon.Ipfix

structure SetListEntry where
  id : UInt16
  len : UInt16
  off : ℕ
deriving DecidableEq, Repr

structure MBuf where
  buf : List UInt8
  len : UInt16
  domain : UInt32
  setlist : List SetListEntry
deriving DecidableEq, Repr

/-- A message buffer, and the transcoder and the session that it is scanned with. -/
structure Scan where
  mbuf : MBuf
  xc : Transcoder
  session : Session
deriving DecidableEq, Repr

namespace MBuf

def transcoding {α : Type} (x : Attempt Error Transcoder α) : Attempt Error Scan α :=
  Attempt.zoom Scan.xc (fun xc m => { m with xc := xc }) x

def decoding {α : Type} (x : Attempt Error Session.Decoder α) : Attempt Error Scan α :=
  Attempt.zoom (fun m => (m.xc, m.session)) (fun d m => { m with xc := d.1, session := d.2 }) x

/-- The difference of two sizes. -/
def sizeSub (a b : ℕ) : ℕ := if b ≤ a then a - b else 2 ^ 64 - (b - a)

/-- The records of a template set that ends at `xcend`, up to which what is left is compared as a
`size_t`; `none` where they do not end within the fuel. -/
def decodeTemplates (model : InfoModel) (xcend : ℕ) : ℕ → Attempt Error Scan (Option Unit)
  | 0 => pure none
  | fuel + 1 => do
    let m ← Attempt.get
    if kTemplateHeaderLen ≤ sizeSub xcend m.xc.cur then
      if ← decoding (Session.decodeTemplateRecord model m.mbuf.domain) then
        decodeTemplates model xcend fuel
      else
        Attempt.throw (.formatError "Malformed template")
    else
      pure (some ())

def push (sle : SetListEntry) (m : Scan) : Scan :=
  { m with mbuf := { m.mbuf with setlist := m.mbuf.setlist ++ [sle] } }

/-- What follows a set's header.  A template record takes some bytes, so that the fuel suffices. -/
def scanSet (model : InfoModel) (sle : SetListEntry) : Attempt Error Scan (Option Unit) :=
  if sle.id = kTemplateSetID then do
    let m ← Attempt.get
    decodeTemplates model (m.xc.cur + sizeSub sle.len.toNat kSetHeaderLen) (m.xc.avail + 1)
  else if sle.id < kMinSetID then
    pure (some ())
  else do
    Attempt.modify (push sle)
    let _ ← transcoding (Transcoder.advance (sizeSub sle.len.toNat kSetHeaderLen))
    pure (some ())

/-- `setlist_.empty()` does not change the list.  In the rounds in which no header is left, the ID
and the length are what `garbage` has for the round. -/
def populateSetlist (model : InfoModel) (garbage : ℕ → UInt16 × UInt16) :
    ℕ → ℕ → Attempt Error Scan (Option Unit)
  | _, 0 => pure none
  | round, fuel + 1 => do
    let m ← Attempt.get
    if m.xc.avail = 0 then
      pure (some ())
    else
      let header ← transcoding Transcoder.decodeSetHeader
      let sle := header.getD (garbage round)
      let done ← scanSet model ⟨sle.1, sle.2, m.xc.len⟩
      match done with
      | none => pure none
      | some () => populateSetlist model garbage (round + 1) fuel

end MBuf

end DStreamon.Ipfix
