import DStreamon.DBQueue
import DStreamon.Lib.Links
import DStreamon.Lib.StepRun

/-!
# Gates and the links between them

`InGate` and `OutGate` keep their peers, `Composition` finds the gates of a link by the names of
their blocks and of the gates.  `I` and `O` stand for the addresses of gates.
-/

namespace DStreamon

open Attempt (modify forEach orThrow zoom)
open Function (update)

structure Gates (I O : Type) where
  inPeers : I → List O
  outPeers : O → List I
  queue : I → DBQueue ℕ

/-- `m_input_ids` and `m_output_ids` of a block, with the gates at the indices. -/
structure BlockGates (I O : Type) where
  inputIds : String → Option I
  outputIds : String → Option O

/-- `m_map` of a composition, and all the gates. -/
structure Composition (I O : Type) where
  map : String → Option (BlockGates I O)
  gates : Gates I O

variable {I O : Type}

/-- The template argument of `queue_type`. -/
def queueLength : ℕ := 1024

/-- What both kinds of gate throw. -/
def notConnected : String := "trying to disconect a non-connected gate"

namespace Gates

def ofIn {α : Type} (x : Attempt String (I → List O) α) : Attempt String (Gates I O) α :=
  zoom inPeers (fun p s => { s with inPeers := p }) x

def ofOut {α : Type} (x : Attempt String (O → List I) α) : Attempt String (Gates I O) α :=
  zoom outPeers (fun p s => { s with outPeers := p }) x

end Gates

variable [DecidableEq I] [DecidableEq O]

namespace InGate

def connect (i : I) (out : O) : Attempt String (Gates I O) Unit :=
  modify fun s => { s with inPeers := Links.add s.inPeers i out }

def disconnect (i : I) (out : O) : Attempt String (Gates I O) Unit :=
  Gates.ofIn (Links.unlink notConnected i out)

end InGate

namespace OutGate

def connect (o : O) (inn : I) : Attempt String (Gates I O) Unit :=
  modify fun s => { s with outPeers := Links.add s.outPeers o inn }

def disconnect (o : O) (inn : I) : Attempt String (Gates I O) Unit :=
  Gates.ofOut (Links.unlink notConnected o inn)

def disconnectAll (o : O) : Attempt String (Gates I O) Unit := do
  let s ← Attempt.get
  forEach (fun i => InGate.disconnect i o) (s.outPeers o)
  modify fun s => { s with outPeers := update s.outPeers o [] }

end OutGate

def InGate.disconnectAll (i : I) : Attempt String (Gates I O) Unit := do
  let s ← Attempt.get
  forEach (fun o => OutGate.disconnect o i) (s.inPeers i)
  modify fun s => { s with inPeers := update s.inPeers i [] }
  modify fun s => { s with queue := update s.queue i ((s.queue i).reset queueLength) }

namespace Composition

variable {I O : Type}

def findBlock (block : String) : Attempt String (Composition I O) (BlockGates I O) := do
  let c ← Attempt.get
  orThrow (block ++ " non existent block in link") (c.map block)

def findOutputGate (block gate : String) : Attempt String (Composition I O) O := do
  let b ← findBlock block
  orThrow (gate ++ ": no such gate") (b.outputIds gate)

def findInputGate (block gate : String) : Attempt String (Composition I O) I := do
  let b ← findBlock block
  orThrow (gate ++ ": no such gate") (b.inputIds gate)

def ofGates {α : Type} (x : Attempt String (Gates I O) α) : Attempt String (Composition I O) α :=
  zoom gates (fun g c => { c with gates := g }) x

variable [DecidableEq I] [DecidableEq O]

def createLink (fromBlock fromGate toBlock toGate : String) :
    Attempt String (Composition I O) Unit := do
  let o ← findOutputGate fromBlock fromGate
  let i ← findInputGate toBlock toGate
  ofGates (InGate.connect i o)
  ofGates (OutGate.connect o i)

def deleteLink (fromBlock fromGate toBlock toGate : String) :
    Attempt String (Composition I O) Unit := do
  let o ← findOutputGate fromBlock fromGate
  let i ← findInputGate toBlock toGate
  ofGates (InGate.disconnect i o)
  ofGates (OutGate.disconnect o i)

inductive Op (I O : Type) where
  | createLink (fromBlock fromGate toBlock toGate : String)
  | deleteLink (fromBlock fromGate toBlock toGate : String)
  | inDisconnectAll (i : I)
  | outDisconnectAll (o : O)

def call : Op I O → Attempt String (Composition I O) Unit
  | .createLink fromBlock fromGate toBlock toGate => createLink fromBlock fromGate toBlock toGate
  | .deleteLink fromBlock fromGate toBlock toGate => deleteLink fromBlock fromGate toBlock toGate
  | .inDisconnectAll i => ofGates (InGate.disconnectAll i)
  | .outDisconnectAll o => ofGates (OutGate.disconnectAll o)

/-- The caller goes on after an exception. -/
def step (c : Composition I O) (op : Op I O) : Option (Composition I O) := some ((call op).run c).2

/-- The gates of these blocks, none of them linked. -/
def unlinked (map : String → Option (BlockGates I O)) : Composition I O where
  map := map
  gates := ⟨fun _ => [], fun _ => [], fun _ => .new⟩

def Op.isDisconnectAll : Op I O → Bool
  | .inDisconnectAll _ | .outDisconnectAll _ => true
  | _ => false

/-- The operation leaves every link at both its ends equally often, and a `disconnect_all` does not
throw. -/
def Symmetric (c : Composition I O) (op : Op I O) : Prop :=
  Links.Matched ((call op).run c).2.gates.inPeers ((call op).run c).2.gates.outPeers ∧
    (op.isDisconnectAll = true → ((call op).run c).1 = .ok ())

/-- A gate whose peers are all disconnected is linked to none of them twice. -/
def Single (c : Composition I O) : Op I O → Prop
  | .inDisconnectAll i => (c.gates.inPeers i).Nodup
  | .outDisconnectAll o => (c.gates.outPeers o).Nodup
  | _ => True

end Composition

end DStreamon
