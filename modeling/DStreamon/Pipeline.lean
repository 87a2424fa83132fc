import DStreamon.FilteringBlock
import DStreamon.Timeout

/-!
# Messages between the blocks

One call of a block is a step, in any order: `EventFactory` takes a new packet or the message of an
expired timer, `FilteringBlock` a message that was sent on.  A message belongs to no one: the last
block to see it destroys it, unless an action has set a timer that keeps it.
-/

namespace DStreamon

open MutableQueue

/-- A message: how often it has been sent on and not been filtered since, and how often it has been
destroyed.  The tags of a destroyed message read as they were left. -/
structure Message (K : Type) where
  tags : Tags K Slot
  inFlight : ℕ
  destroyed : ℕ

/-- A timer's context is the place of its message; `PrimaryFlowkey` names a register. -/
structure Pipeline (H K : Type) where
  statesMap : DLeft StateData
  tmanager : TimeoutManager H ℕ (Option ℤ)
  messages : List (Message K)

namespace Pipeline

variable {H K : Type} [DecidableEq H] [Inhabited H] [IReadBuffer K]
variable (C : Choice H (TimeoutEvent ℕ (Option ℤ))) (events : List Event)

def new (timeoutClasses : ℕ) : Pipeline H K := ⟨DStreamon.statesMap, .new timeoutClasses, []⟩

/-! ## `EventFactory` -/

/-- `_receive_msg` of message `i`. -/
def receive (s : Pipeline H K) (i : ℕ) (msg : Message K) (matcher : String → Bool)
    (now : UInt64) : Option (Pipeline H K) := do
  let (d, tags, sent) ← EventFactory.receiveMsg events s.statesMap msg.tags matcher now
  let msg : Message K :=
    { tags, inFlight := if sent then msg.inFlight + 1 else msg.inFlight
      destroyed := if sent then msg.destroyed else msg.destroyed + 1 }
  some { s with statesMap := d, messages := s.messages.set i msg }

def newMessage (map : ℕ → K) : Message K := ⟨.new map, 0, 0⟩

def packet (s : Pipeline H K) (map : ℕ → K) (matcher : String → Bool) (now : UInt64) :
    Option (Pipeline H K) :=
  receive events { s with messages := s.messages ++ [newMessage map] } s.messages.length
    (newMessage map) matcher now

/-- The loop of `_handle_timer`, one event of the queue; `Tags->Message` is `NULL` in a message that
was not kept. -/
def handleTimer (s : Pipeline H K) (time now : UInt64) : Option (Pipeline H K) := do
  match ← s.tmanager.pop C time with
  | (tmanager, none) => some { s with tmanager }
  | (tmanager, some tmsg) =>
    let s := { s with tmanager }
    let msg ← s.messages[tmsg.context]?
    if msg.tags.kept then
      if tmsg.value = 0 then
        some { s with messages :=
          s.messages.set tmsg.context { msg with destroyed := msg.destroyed + 1 } }
      else
        receive events s tmsg.context
          { msg with tags := { msg.tags with tEventId := tmsg.type.toNat } } (fun _ => false) now
    else none

/-! ## `FilteringBlock` -/

/-- The calls of `Set` on message `i`, the first at `clock n`. -/
def runActions (tags : Tags K Slot) (i : ℕ) (clock : ℕ → Timespec) :
    ℕ → TimeoutManager H ℕ (Option ℤ) → List Action → Option (TimeoutManager H ℕ (Option ℤ))
  | _, m, [] => some m
  | n, m, .other _ :: actions => runActions tags i clock n m actions
  | n, m, .timeoutSet key value evid pkey :: actions => do
    let key ← tags.getFlowkey key
    let m ← m.set C key (UInt32.ofInt value) i (UInt16.ofNat evid) pkey (clock n)
    runActions tags i clock (n + 1) m actions

/-- Whether some action answers `TIMEOUT_SETTED`. -/
def setted (actions : List Action) : Bool :=
  actions.any fun
    | .timeoutSet _ value _ _ => value ≠ 0
    | .other _ => false

/-- `_receive_msg` of message `i`. -/
def filter (s : Pipeline H K) (i : ℕ) (holds : String → Bool) (clock : ℕ → Timespec) :
    Option (Pipeline H K) := do
  let msg ← s.messages[i]?
  if msg.inFlight = 0 then none
  else do
    let (d, actions) ← FilteringBlock.filterState events s.statesMap msg.tags holds
    let tmanager ← runActions C msg.tags i clock 0 s.tmanager actions
    let kept := msg.tags.kept || (setted actions && msg.tags.tEventId == -1)
    let msg : Message K :=
      { tags := { msg.tags with kept }, inFlight := msg.inFlight - 1
        destroyed := if kept then msg.destroyed else msg.destroyed + 1 }
    some ⟨d, tmanager, s.messages.set i msg⟩

/-! ## Runs -/

inductive Op (K : Type) where
  | packet (map : ℕ → K) (matcher : String → Bool) (now : UInt64)
  | handleTimer (time now : UInt64)
  | filter (i : ℕ) (holds : String → Bool) (clock : ℕ → Timespec)
  | remove (key : K) (type : UInt16)

def step (s : Pipeline H K) : Op K → Option (Pipeline H K)
  | .packet map matcher now => s.packet events map matcher now
  | .handleTimer time now => s.handleTimer C events time now
  | .filter i holds clock => s.filter C events i holds clock
  | .remove key type => (s.tmanager.remove key type).map fun tmanager => { s with tmanager }

end Pipeline

end DStreamon
