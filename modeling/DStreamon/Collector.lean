import DStreamon.MBuf

/-!
# The collector

The data sets of a message go to receivers: a set to one whose minimal template is in the set's
template, which is remembered by the template's key.
-/

namespace DStreamon.Ipfix

/-- A receiver that was called, with the template and with what its transcoder was restricted to. -/
structure Delivery where
  receiver : ℕ
  template : WireTemplate
  content : List UInt8
deriving DecidableEq, Repr

structure Collector where
  sessions : List (ℤ × Session)
  /-- The minimal templates in the map's order, each with its receiver. -/
  receivers : List (List InfoElement × ℕ)
  receiverCache : List (WireTemplateKey × ℕ)
  delivered : List Delivery
deriving DecidableEq, Repr

/-- What a receiver does with the transcoder. -/
abbrev Receive := ℕ → WireTemplate → Attempt Error Transcoder Unit

namespace Collector

def new : Collector := ⟨[], [], [], []⟩

def getSession (sk : ℤ) (c : Collector) : Session := (SortedAssoc.lookup sk c.sessions).getD .new

def putSession (sk : ℤ) (s : Session) (c : Collector) : Collector :=
  { c with sessions := SortedAssoc.insert (fun a b => decide (a < b)) sk s c.sessions }

def endSession (sk : ℤ) (c : Collector) : Collector :=
  { c with sessions := SortedAssoc.erase sk c.sessions }

/-- In its place by the template's address. -/
def registerReceiver (place : ℕ) (mintmpl : List InfoElement) (receiver : ℕ) (c : Collector) :
    Collector :=
  { c with receivers := c.receivers.take place ++ (mintmpl, receiver) :: c.receivers.drop place }

/-- The first receiver, in the map's order, whose minimal template is in `wt`. -/
def firstReceiver (wt : WireTemplate) (receivers : List (List InfoElement × ℕ)) : Option ℕ :=
  (receivers.find? fun r => wt.containsAll r.1).map Prod.snd

def key (wt : WireTemplate) : WireTemplateKey := (wt.domain, wt.tid)

def receiverForTemplate (wt : WireTemplate) : Attempt Error Collector (Option ℕ) := do
  let c ← Attempt.get
  match SortedAssoc.lookup (key wt) c.receiverCache with
  | some receiver => pure (some receiver)
  | none =>
    match firstReceiver wt c.receivers with
    | some receiver =>
      Attempt.modify fun c =>
        { c with receiverCache :=
            SortedAssoc.insert Session.keyLt (key wt) receiver c.receiverCache }
      pure (some receiver)
    | none => pure none

/-- The collector, and the transcoder over the message. -/
abbrev Receiving := Collector × Transcoder

def collecting {α : Type} (x : Attempt Error Collector α) : Attempt Error Receiving α :=
  Attempt.zoom Prod.fst (fun c d => (c, d.2)) x

def transcoding {α : Type} (x : Attempt Error Transcoder α) : Attempt Error Receiving α :=
  Attempt.zoom Prod.snd (fun xc d => (d.1, xc)) x

def inSession {α : Type} (sk : ℤ) (x : Attempt Error Session α) : Attempt Error Collector α :=
  Attempt.zoom (getSession sk) (putSession sk) x

def note (receiver : ℕ) (wt : WireTemplate) (d : Receiving) : Receiving :=
  ({ d.1 with delivered :=
      d.1.delivered ++ [⟨receiver, wt, (d.2.buf.take d.2.max).drop d.2.cur⟩] }, d.2)

/-- Both ways to skip a set are a `break`: the sets behind it are skipped as well. -/
def receiveSets (receive : Receive) (sk : ℤ) (domain : UInt32) :
    List SetListEntry → Attempt Error Receiving Unit
  | [] => pure ()
  | sle :: sets => do
    let setTmpl ← collecting (inSession sk (Session.getTemplate domain sle.id))
    if !setTmpl.active then
      pure ()
    else
      let receiver ← collecting (receiverForTemplate setTmpl)
      match receiver with
      | none => pure ()
      | some receiver =>
        transcoding (Transcoder.focus (sle.off + kSetHeaderLen)
          (MBuf.sizeSub sle.len.toNat kSetHeaderLen))
        Attempt.modify (note receiver setTmpl)
        transcoding (receive receiver setTmpl)
        transcoding Transcoder.defocus
        receiveSets receive sk domain sets

/-- With the message that the derived class has received on session `sk`. -/
def receiveMessage (receive : Receive) (sk : ℤ) (mbuf : MBuf) : Attempt Error Collector Unit :=
  Attempt.zoom (fun c => (c, Transcoder.new.setBase mbuf.buf mbuf.len.toNat)) (fun d _ => d.1)
    (receiveSets receive sk mbuf.domain mbuf.setlist)

end Collector

end DStreamon.Ipfix
