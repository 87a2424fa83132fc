import DStreamon.DLeft
import Mathlib.Algebra.Order.Field.Basic
import Mathlib.Algebra.Order.Floor.Defs

/-!
# Counters

The four counters `getInstance` makes: two that decay with time, one in cells that keys share and
one in the nodes of a d-left table, and two that only count, by key and altogether.  Doubles are
the elements of a field.
-/

namespace DStreamon

open Function (update)
open IReadBuffer

variable {F K : Type} [Field F] [LinearOrder F] [IReadBuffer K]

/-- `none` where a call fails an assert or throws. -/
class ICounter (S F K : Type) where
  get : S → K → UInt64 → Option (S × F)
  add : S → K → F → UInt64 → Option (S × F)
  clear : S → Option S
  reset : S → K → Option (S × Bool) := fun s _ => some (s, false)

/-- `(time_t) args` -/
def timeT (args : UInt64) : ℤ := args.toInt64.toInt

/-- The node of a key: the one it has, or a new one with the object `init`. -/
def DLeft.getOrReserve {V : Type} [Inhabited V] (d : DLeft V) (key : K) (init : V) :
    Option (DLeft V × Slot) :=
  match d.get key with
  | some p => some (d, p)
  | none =>
    match d.reserve key with
    | (_, none) => none
    | (d, some p) => some (d.store p init, p)

/-! ## `TewmaCounter` -/

/-- `slots` cells, each a time stamp `t` and a value `c`; the time unit is a second. -/
structure TewmaCounter (F : Type) where
  t : ℕ → ℤ
  c : ℕ → F
  beta : F
  logbeta : F
  nhash : ℕ
  shash : ℕ

namespace TewmaCounter

/-- The constructor, with its asserts. -/
def new (log : F → F) (nhash shash : ℕ) (beta : F) : Option (TewmaCounter F) :=
  if 0 < shash ∧ shash < 32 ∧ 0 < beta ∧ beta < 1 then
    some { t := fun _ => 0, c := fun _ => 0, beta, logbeta := -log beta, nhash, shash }
  else none

/-- The next `n` places of a splitter. -/
def places (shash : ℕ) : ℕ → HashSplitter → Option (List ℕ)
  | 0, _ => some []
  | n + 1, splitter => do
    let (place, splitter) ← splitter.next shash
    some (place :: (← places shash n splitter))

/-- `H[1]` and the rest of `H`, which holds eight; with no hash `H[1]` is read all the same. -/
def cells (s : TewmaCounter F) (key : K) : Option (ℕ × List ℕ) :=
  if 8 < s.nhash then none
  else
    match places s.shash s.nhash (.set (getHash key) 1) with
    | some (h :: hs) => some (h, hs)
    | _ => none

/-- One turn of the loop that brings the cells up to date and looks for the least. -/
def decay (s : TewmaCounter F) (timestamp : ℤ) (minctr : F) (h : ℕ) :
    Option (TewmaCounter F × F) :=
  let deltat := timestamp - s.t h
  if deltat < 0 then none
  else
    let x := s.c h * s.beta ^ deltat.toNat
    some ({ s with t := update s.t h timestamp, c := update s.c h x },
      if x < minctr then x else minctr)

def decayLoop (timestamp : ℤ) : List ℕ → TewmaCounter F → F → Option (TewmaCounter F × F)
  | [], s, minctr => some (s, minctr)
  | h :: hs, s, minctr => do
    let (s, minctr) ← s.decay timestamp minctr h
    decayLoop timestamp hs s minctr

/-- The cells below `newctr` are raised to it. -/
def raise (newctr : F) : List ℕ → (ℕ → F) → ℕ → F
  | [], c => c
  | h :: hs, c => raise newctr hs (if c h < newctr then update c h newctr else c)

def get (s : TewmaCounter F) (key : K) (args : UInt64) : Option (TewmaCounter F × F) := do
  let (h, hs) ← s.cells key
  decayLoop (timeT args) (h :: hs) s (s.c h)

def add (s : TewmaCounter F) (key : K) (quantity : F) (args : UInt64) :
    Option (TewmaCounter F × F) := do
  let (h, hs) ← s.cells key
  let (s, minctr) ← decayLoop (timeT args) (h :: hs) s (s.c h)
  let newctr := minctr + quantity * s.logbeta
  if newctr ≤ 10 ^ 99 then some ({ s with c := raise newctr (h :: hs) s.c }, newctr) else none

def clear (s : TewmaCounter F) : TewmaCounter F := { s with t := fun _ => 0, c := fun _ => 0 }

instance : ICounter (TewmaCounter F) F K where
  get := get
  add := add
  clear s := some s.clear

end TewmaCounter

/-! ## `TewmaFastCounter` -/

structure TewmaNode (F : Type) where
  timestamp : ℤ
  value : F

instance : Inhabited (TewmaNode F) := ⟨⟨0, 0⟩⟩

/-- `exp(deltat * logbeta)` is a power of `beta`. -/
structure TewmaFastCounter (F : Type) where
  data : DLeft (TewmaNode F)
  beta : F
  logbeta : F

namespace TewmaFastCounter

/-- A node of the table is a time, a value and a fingerprint. -/
def new (log : F → F) (nhash shash : ℕ) (beta : F) : TewmaFastCounter F :=
  { data := .new 24 nhash shash, beta, logbeta := log beta }

def getActualizedNode (s : TewmaFastCounter F) (key : K) (timestamp : UInt64) :
    Option (TewmaFastCounter F × Slot) := do
  let (data, node) ← s.data.getOrReserve key ⟨0, 0⟩
  let deltat := timeT timestamp - (data.load node).timestamp
  if deltat < 0 then none
  else
    let value := (data.load node).value * s.beta ^ deltat.toNat
    some ({ s with data := data.store node ⟨timeT timestamp, value⟩ }, node)

def add (s : TewmaFastCounter F) (key : K) (quantity : F) (args : UInt64) :
    Option (TewmaFastCounter F × F) := do
  let (s, node) ← s.getActualizedNode key args
  let value := (s.data.load node).value + quantity * -s.logbeta
  some ({ s with data := s.data.store node { s.data.load node with value } }, value)

def get (s : TewmaFastCounter F) (key : K) (args : UInt64) : Option (TewmaFastCounter F × F) := do
  let (s, node) ← s.getActualizedNode key args
  some (s, (s.data.load node).value)

/-- `clear` throws. -/
instance : ICounter (TewmaFastCounter F) F K where
  get := get
  add := add
  clear _ := none

end TewmaFastCounter

/-! ## `DLeftCounter` and `SimpleCounter` -/

variable [FloorRing F]

/-- A `double` as a `uint32_t`: cut off towards zero. -/
def toUInt32 (x : F) : UInt32 := UInt32.ofInt (if 0 ≤ x then ⌊x⌋ else ⌈x⌉)

/-- A `uint32_t` as a `double`. -/
def ofUInt32 (n : UInt32) : F := (n.toNat : F)

structure DLeftCounter where
  table : DLeft UInt32

namespace DLeftCounter

/-- A node of the table is two words. -/
def new (nhash shash : ℕ) : Option DLeftCounter :=
  if 0 < shash ∧ shash < 32 then some ⟨.new 8 nhash shash⟩ else none

def get (s : DLeftCounter) (key : K) : F :=
  match s.table.get key with
  | none => 0
  | some entry => ofUInt32 (s.table.load entry)

def add (s : DLeftCounter) (key : K) (quantity : F) : Option (DLeftCounter × F) := do
  let (table, entry) ← s.table.getOrReserve key 0
  let x := toUInt32 (ofUInt32 (table.load entry) + quantity)
  some (⟨table.store entry x⟩, ofUInt32 x)

instance : ICounter DLeftCounter F K where
  get s key _ := some (s, s.get key)
  add s key quantity _ := s.add key quantity
  clear s := some ⟨s.table.clear⟩
  reset s key := some (⟨(s.table.remove key).1⟩, (s.table.remove key).2)

end DLeftCounter

structure SimpleCounter where
  count : UInt32

instance : ICounter SimpleCounter F K where
  get s _ _ := some (s, ofUInt32 s.count)
  add s _ value _ :=
    let count := s.count + toUInt32 value
    some (⟨count⟩, ofUInt32 count)
  clear _ := some ⟨0⟩

/-! ## `ICounter::getInstance` -/

inductive Counter (F : Type) where
  | tewma (s : TewmaCounter F)
  | tewmaFast (s : TewmaFastCounter F)
  | dleft (s : DLeftCounter)
  | simple (s : SimpleCounter)

namespace Counter

instance : ICounter (Counter F) F K where
  get
    | tewma s, key, args => (ICounter.get s key args).map (Prod.map tewma id)
    | tewmaFast s, key, args => (ICounter.get s key args).map (Prod.map tewmaFast id)
    | dleft s, key, args => (ICounter.get s key args).map (Prod.map dleft id)
    | simple s, key, args => (ICounter.get s key args).map (Prod.map simple id)
  add
    | tewma s, key, value, args => (ICounter.add s key value args).map (Prod.map tewma id)
    | tewmaFast s, key, value, args => (ICounter.add s key value args).map (Prod.map tewmaFast id)
    | dleft s, key, value, args => (ICounter.add s key value args).map (Prod.map dleft id)
    | simple s, key, value, args => (ICounter.add s key value args).map (Prod.map simple id)
  clear
    | tewma s => (ICounter.clear F K s).map tewma
    | tewmaFast s => (ICounter.clear F K s).map tewmaFast
    | dleft s => (ICounter.clear F K s).map dleft
    | simple s => (ICounter.clear F K s).map simple
  reset
    | tewma s, key => (ICounter.reset F s key).map (Prod.map tewma id)
    | tewmaFast s, key => (ICounter.reset F s key).map (Prod.map tewmaFast id)
    | dleft s, key => (ICounter.reset F s key).map (Prod.map dleft id)
    | simple s, key => (ICounter.reset F s key).map (Prod.map simple id)

/-- The counter of a type, if there is one and its constructor's asserts hold. -/
def getInstance (log : F → F) (type : String) (nhash shash : ℕ) (beta : F) : Option (Counter F) :=
  if type = "tewma" then (TewmaCounter.new log nhash shash beta).map tewma
  else if type = "tewma-fast" then some (tewmaFast (.new log nhash shash beta))
  else if type = "dleft" then (DLeftCounter.new nhash shash).map dleft
  else if type = "simple" then some (simple ⟨0⟩)
  else none

end Counter

end DStreamon
