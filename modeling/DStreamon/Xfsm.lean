import DStreamon.FilteringBlock
import DStreamon.Lib.StepRun

/-!
# Packets one at a time

The two blocks over an ideal map, each packet going through both before the next one comes; and
the machine they are meant to run, one step on the entry of the packet's own flow.
-/

namespace DStreamon

/-! ## An ideal map -/

/-- An ideal `states_map`, in which a key points at its own entry. -/
@[ext] structure FlowMap (K : Type) where
  entry : K → Option StateData

variable {K : Type} [DecidableEq K]

namespace FlowMap

def empty : FlowMap K := ⟨fun _ => none⟩

def set (d : FlowMap K) (key : K) (v : Option StateData) : FlowMap K :=
  ⟨fun k => if k = key then v else d.entry k⟩

theorem entry_set (d : FlowMap K) (key : K) (v : Option StateData) (k : K) :
    (d.set key v).entry k = if k = key then v else d.entry k := rfl

@[simp] theorem entry_set_self (d : FlowMap K) (key : K) (v : Option StateData) :
    (d.set key v).entry key = v := if_pos rfl

@[simp] theorem set_set (d : FlowMap K) (key : K) (v w : Option StateData) :
    (d.set key v).set key w = d.set key w := by
  ext1
  funext k
  simp only [entry_set]
  split_ifs <;> rfl

theorem set_eq_self {d : FlowMap K} {key : K} {v : Option StateData} (h : d.entry key = v) :
    d.set key v = d := by
  ext1
  funext k
  rw [entry_set]
  split_ifs with hk
  · rw [hk, h]
  · rfl

end FlowMap

instance : IEntries (FlowMap K) K where
  load d k := (d.entry k).getD default
  store d k v := d.set k (some v)

instance : IDictionary (FlowMap K) K K where
  get d k := (d.entry k).map fun _ => k
  add d k v := (d.set k (some v), some k)
  remove d k := d.set k none

/-! ## The blocks -/

/-- A packet: its registers, the selectors it matches, the conditions that are true of it in the
row it is found in, and the time it comes. -/
structure Packet (K : Type) where
  map : ℕ → K
  matcher : String → Bool
  holds : String → Bool
  now : UInt64

/-- A packet through `EventFactory` and then, unless it is dropped, `FilteringBlock`. -/
def processPacket (events : List Event) (d : FlowMap K) (p : Packet K) : Option (FlowMap K) := do
  let (d, tags, sent) ← EventFactory.receiveMsg events d (.new p.map) p.matcher p.now
  if sent then (FilteringBlock.filterState events d tags p.holds).map Prod.fst else some d

/-- What the generated tables promise, `n` being the number of rows: a row for every number that
stands in one, and conditions wherever there are metrics. -/
structure Emitted (n : ℕ) (ev : Event) : Prop where
  length : ev.stateTable.length = n
  pos : 0 < n
  timeoutState : ∀ row ∈ ev.stateTable, 0 ≤ row.timeoutState ∧ row.timeoutState < n
  conditions : ∀ row ∈ ev.stateTable, row.metricSet = row.conditionList.isSome
  nextState : ∀ row ∈ ev.stateTable, ∀ tuples, row.conditionList = some tuples →
    ∀ t ∈ tuples, t.nextState = -1 ∨ 0 ≤ t.nextState ∧ t.nextState < n

/-! ## The machine -/

namespace Packet

variable (events : List Event) (p : Packet K)

/-- The first event that matches. -/
def event? : Option ℕ := events.findIdx? fun ev => ev.selector.any p.matcher

/-- The register of the event's primary key. -/
def key? : Option K :=
  ((p.event? events).bind (events[·]?)).bind fun ev =>
    (Tags.new p.map : Tags K K).getFlowkey ev.regId

end Packet

/-- The rows of an event's table by their number. -/
def rowOf (events : List Event) (e : ℕ) (i : ℤ) : StateTuple :=
  ((events[e]?.bind fun ev => ev.row? i)).getD default

/-- An expired flow moves to its row's timeout state; the entry, and the resulting row. -/
def expireStep (row : ℤ → StateTuple) (now : UInt64) :
    Option StateData → Option StateData × ℤ
  | none => (none, 0)
  | some s =>
    if EventFactory.Expired s now then
      if (row s.id).timeoutState = 0 then (none, 0)
      else
        let q := (row s.id).timeoutState
        (some ⟨q, if 0 < (row q).timeout then now + (row q).timeout.toUInt64 else 0⟩, q)
    else (some s, s.id)

/-- An entry armed with the timeout of a row, if it has one. -/
def armStep (row : StateTuple) (now : UInt64) (entry : Option StateData) : Option StateData :=
  if 0 < row.timeout then entry.map fun s => { s with expire := now + row.timeout.toUInt64 }
  else entry

/-- The first true condition of row `i` takes the flow to its next state and arms it; a row without
metrics drops the packet. -/
def fireStep (row : ℤ → StateTuple) (now : UInt64) (holds : String → Bool)
    (entry : Option StateData) (i : ℤ) : Option StateData :=
  if (row i).metricSet then
    match ((row i).conditionList.getD []).find? fun t => holds t.condition with
    | none => entry
    | some t =>
      if t.nextState = -1 then armStep (row i) now entry
      else armStep (row t.nextState) now (some ⟨t.nextState, 0⟩)
  else entry

/-- The machine's step on the entry of the packet's flow. -/
def xfsmStep (events : List Event) (row : ℕ → ℤ → StateTuple) (entry : Option StateData)
    (p : Packet K) : Option StateData :=
  match p.event? events with
  | none => entry
  | some e =>
    let moved := expireStep (row e) p.now entry
    fireStep (row e) p.now p.holds moved.1 moved.2

end DStreamon
