import DStreamon.Hash

/-!
# The d-left table

A table of up to `nhash` sub-tables of `2 ^ shash` nodes each, allocated one at a time.  A key is
probed at one place of each sub-table, the places cut from its digest by a `HashSplitter`; a node
whose `hashKey` is zero is free, any other holds a key's fingerprint.
-/

namespace DStreamon

open IReadBuffer

/-! ## `HashSplitter` -/

structure HashSplitter where
  buffer : ℕ → UInt32
  length : ℕ
  ptr : ℕ

def sBitmask (bits : ℕ) : UInt32 := ((1 : UInt32) <<< bits.toUInt32) - 1

def HashSplitter.set (dig : Digest) (beginFrom : ℕ) : HashSplitter where
  buffer i := dig.value (beginFrom + i)
  length := dig.size * 32
  ptr := 0

/-- The `bits` bits at `ptr` of a word buffer, taken from two words where they straddle one. -/
def extract (buffer : ℕ → UInt32) (ptr bits : ℕ) : UInt32 :=
  let sBlk := ptr / 32
  let sBit := ptr % 32
  let out := (buffer sBlk >>> sBit.toUInt32) &&& sBitmask bits
  if 32 < sBit + bits then
    let carry := sBit + bits - 32
    out ||| ((buffer (sBlk + 1) &&& sBitmask carry) <<< (bits - carry).toUInt32)
  else out

/-- The next `bits` bits, and the splitter past them; `none` when the pointer is past the end. -/
def HashSplitter.next (s : HashSplitter) (bits : ℕ) : Option (ℕ × HashSplitter) :=
  if s.length < s.ptr then none
  else some ((extract s.buffer s.ptr bits).toNat, { s with ptr := s.ptr + bits })

/-! ## The table -/

/-- The address of a node: its sub-table and its place there. -/
abbrev Slot := ℕ × ℕ

structure DleftNode (V : Type*) where
  object : V
  hashKey : UInt32

/-- `data i` is the sub-table `i`, allocated when `i < tableCount`; `nodeSize` is
`sizeof(dleft_node)`. -/
structure DLeft (V : Type*) where
  nodeSize : ℕ
  nhash : ℕ
  shash : ℕ
  tableCount : ℕ
  data : ℕ → ℕ → DleftNode V

namespace DLeft

variable {V K : Type*} [IReadBuffer K]

/-- A node of a new or cleared sub-table.  Its object is never read before it is written, except
through the pointer a bare `reserve` hands out. -/
def blank [Inhabited V] : DleftNode V := ⟨default, 0⟩

def new [Inhabited V] (nodeSize nhash shash : ℕ) : DLeft V :=
  ⟨nodeSize, nhash, shash, 1, fun _ _ => blank⟩

/-- The object a pointer points to. -/
def load (d : DLeft V) (p : Slot) : V := (d.data p.1 p.2).object

def hashKey (d : DLeft V) (p : Slot) : UInt32 := (d.data p.1 p.2).hashKey

/-- Write the node at `p`. -/
def setNode (d : DLeft V) (p : Slot) (n : DleftNode V) : DLeft V :=
  { d with data := fun i j => if (i, j) = p then n else d.data i j }

/-- `*p = v`. -/
def store (d : DLeft V) (p : Slot) (v : V) : DLeft V := d.setNode p ⟨v, d.hashKey p⟩

def setHashKey (d : DLeft V) (p : Slot) (h : UInt32) : DLeft V := d.setNode p ⟨d.load p, h⟩

/-- A new sub-table, if there is room for one. -/
def expand [Inhabited V] (d : DLeft V) : Option (DLeft V) :=
  if d.nhash ≤ d.tableCount then none
  else some { d with
    tableCount := d.tableCount + 1
    data := fun i j => if i = d.tableCount then blank else d.data i j }

/-- What the loop over the allocated sub-tables comes to. -/
inductive Probe where
  | hit (p : Slot)
  | noBits
  | miss (i : ℕ) (splitter : HashSplitter)

/-- The loop over `n` sub-tables from `i` on, stopping at the first node `stop` accepts. -/
def probe (d : DLeft V) (stop : UInt32 → Bool) : ℕ → ℕ → HashSplitter → Probe
  | 0, i, splitter => .miss i splitter
  | n + 1, i, splitter =>
    match splitter.next d.shash with
    | none => .noBits
    | some (place, splitter) =>
      if stop (d.hashKey (i, place)) then .hit (i, place)
      else d.probe stop n (i + 1) splitter

/-- The `do` loop of `reserve`: probe the sub-tables not probed yet, then expand and go on.  `n`
counts the expansions left, so at `0` the table is full. -/
def reserveLoop [Inhabited V] (fhash : UInt32) : ℕ → DLeft V → ℕ → HashSplitter →
    DLeft V × Option Slot
  | n, d, i, splitter =>
    match d.probe (fun h => h = 0 || h = fhash) (d.tableCount - i) i splitter with
    | .hit p =>
      (if d.hashKey p = 0 then d.setHashKey p fhash else d, some p)
    | .noBits => (d, none)
    | .miss i splitter =>
      match n, d.expand with
      | n + 1, some d => reserveLoop fhash n d i splitter
      | _, _ => (d, none)

def reserve [Inhabited V] (d : DLeft V) (key : K) : DLeft V × Option Slot :=
  reserveLoop (fhash key) (d.nhash - d.tableCount) d 0 (.set (getHash key) 1)

def add [Inhabited V] (d : DLeft V) (key : K) (value : V) : DLeft V × Option Slot :=
  match d.reserve key with
  | (d, some slot) => (d.store slot value, some slot)
  | (d, none) => (d, none)

/-- The search of `get` and `remove`: the first node on the key's path with its fingerprint. -/
def find (d : DLeft V) (key : K) : Option Slot :=
  match d.probe (fun h => h = fhash key) d.tableCount 0 (.set (getHash key) 1) with
  | .hit p => some p
  | _ => none

def get (d : DLeft V) (key : K) : Option Slot := d.find key

/-- `remove(IReadBuffer&)`. -/
def remove (d : DLeft V) (key : K) : DLeft V × Bool :=
  match d.find key with
  | some p => (d.setHashKey p 0, true)
  | none => (d, false)

/-- The bytes `clear` zeroes of each sub-table, counted in a `uint32_t`. -/
def tableSizeBytes (d : DLeft V) : ℕ := 2 ^ d.shash * d.nodeSize % 2 ^ 32

/-- Zero the allocated sub-tables.  A node the zeroed bytes end in keeps its `hashKey`, which
follows its object. -/
def clear [Inhabited V] (d : DLeft V) : DLeft V :=
  { d with data := fun i j =>
      if i < d.tableCount ∧ (j + 1) * d.nodeSize ≤ d.tableSizeBytes then blank
      else d.data i j }

/-- `remove(V*)`: the node is freed if some sub-table owns it, else the call throws. -/
def removeNode (d : DLeft V) (element : Slot) : Option (DLeft V) :=
  if element.1 < d.tableCount ∧ element.2 < 2 ^ d.shash then some (d.setHashKey element 0)
  else none

end DLeft

end DStreamon
