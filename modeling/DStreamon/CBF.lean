import DStreamon.SwapBF

/-!
# `CBF`: a counting filter

`lib_botstream`.  Each digest of a key is the place of a counter, which an `add` or `fill` raises;
the count of a key is the least of its counters.  A counter that is full stays so, and the call
throws when it has raised the others.
-/

namespace DStreamon

open Function (update)

/-- `UINT_MAX` -/
def uintMax : UInt32 := 0xFFFFFFFF

structure CBF where
  countset : ℕ → UInt32
  nhash : ℕ
  hashsize : ℕ
  counters : ℕ

namespace CBF

/-- The constructor, with its asserts and that of `KHASH`. -/
def new (counters nhash : ℕ) : Option CBF :=
  let hashsize := BLOOMFILTER.log2 counters
  if 0 < counters ∧ 0 < nhash ∧ counters >>> (hashsize + 1) = 0 ∧ hashsize ≠ 0 then
    some { countset := fun _ => 0, nhash, hashsize, counters }
  else none

/-- What a call returns, or throws. -/
def result (exc : Bool) (x : UInt32) : Except UInt32 UInt32 :=
  if exc then .error uintMax else .ok x

def addNormalLoop (H : ℕ → ℕ) :
    ℕ → ℕ → (ℕ → UInt32) → UInt32 → Bool → (ℕ → UInt32) × UInt32 × Bool
  | 0, _, countset, x, exc => (countset, x, exc)
  | n + 1, i, countset, x, exc =>
    let k := H i
    if countset k = uintMax then addNormalLoop H n (i + 1) countset x true
    else
      let countset := update countset k (countset k + 1)
      addNormalLoop H n (i + 1) countset (if countset k < x then countset k else x) exc

/-- `add_normal(in, len)` -/
def addNormal (f : CBF) (H : ℕ → ℕ) : CBF × Except UInt32 UInt32 :=
  let (countset, x, exc) := addNormalLoop H f.nhash 0 f.countset uintMax false
  ({ f with countset }, result exc x)

def addAmountLoop (H : ℕ → ℕ) (amount : UInt32) :
    ℕ → ℕ → (ℕ → UInt32) → UInt32 → Bool → (ℕ → UInt32) × UInt32 × Bool
  | 0, _, countset, x, exc => (countset, x, exc)
  | n + 1, i, countset, x, exc =>
    let k := H i
    if uintMax - countset k < amount then
      addAmountLoop H amount n (i + 1) (update countset k uintMax) x true
    else
      let countset := update countset k (countset k + amount)
      addAmountLoop H amount n (i + 1) countset (if countset k < x then countset k else x) exc

/-- `add_normal(in, len, amount)` -/
def addAmount (f : CBF) (H : ℕ → ℕ) (amount : UInt32) : CBF × Except UInt32 UInt32 :=
  let (countset, x, exc) := addAmountLoop H amount f.nhash 0 f.countset uintMax false
  ({ f with countset }, result exc x)

/-- The search for the least counter, the same in three functions. -/
def leastLoop (H : ℕ → ℕ) (countset : ℕ → UInt32) : ℕ → ℕ → UInt32 → UInt32
  | 0, _, x => x
  | n + 1, i, x =>
    leastLoop H countset n (i + 1) (if countset (H i) < x then countset (H i) else x)

/-- `get_count` -/
def getCount (f : CBF) (H : ℕ → ℕ) : UInt32 := leastLoop H f.countset f.nhash 0 uintMax

def conservativeLoop (H : ℕ → ℕ) (x : UInt32) : ℕ → ℕ → (ℕ → UInt32) → ℕ → UInt32
  | 0, _, countset => countset
  | n + 1, i, countset =>
    conservativeLoop H x n (i + 1)
      (if countset (H i) = x then update countset (H i) (countset (H i) + 1) else countset)

/-- `add_conservative` -/
def addConservative (f : CBF) (H : ℕ → ℕ) : CBF × Except UInt32 UInt32 :=
  let x := leastLoop H f.countset f.nhash 0 uintMax
  if x = uintMax then (f, .error uintMax)
  else ({ f with countset := conservativeLoop H x f.nhash 0 f.countset }, .ok (x + 1))

def fillLoop (H : ℕ → ℕ) (x : UInt32) : ℕ → ℕ → (ℕ → UInt32) → ℕ → UInt32
  | 0, _, countset => countset
  | n + 1, i, countset =>
    fillLoop H x n (i + 1) (if countset (H i) < x then update countset (H i) x else countset)

def fill (f : CBF) (H : ℕ → ℕ) (amount : UInt32) : CBF × Except UInt32 UInt32 :=
  let x := leastLoop H f.countset f.nhash 0 uintMax
  let exc : Bool := ¬ amount ≤ uintMax - x
  let x := if exc then uintMax else x + amount
  ({ f with countset := fillLoop H x f.nhash 0 f.countset }, result exc x)

end CBF

/-! ## Calls -/

inductive CBFOp (K : Type) where
  | addNormal (key : K)
  | addAmount (key : K) (amount : UInt32)
  | addConservative (key : K)
  | fill (key : K) (amount : UInt32)

namespace CBFOp

variable {K : Type}

/-- A call on a filter, with the digests of the keys. -/
def run (H : K → ℕ → ℕ) (f : CBF) : CBFOp K → CBF × Except UInt32 UInt32
  | addNormal key => f.addNormal (H key)
  | addAmount key amount => f.addAmount (H key) amount
  | addConservative key => f.addConservative (H key)
  | fill key amount => f.fill (H key) amount

/-- The filter after some calls, whether they return or throw. -/
def runs (H : K → ℕ → ℕ) (f : CBF) (ops : List (CBFOp K)) : CBF :=
  ops.foldl (fun f o => (run H f o).1) f

/-- What a call adds to a key. -/
def added [DecidableEq K] (x : K) : CBFOp K → ℕ
  | addNormal key | addConservative key => if key = x then 1 else 0
  | addAmount key amount | fill key amount => if key = x then amount.toNat else 0

def total [DecidableEq K] (x : K) (ops : List (CBFOp K)) : ℕ := (ops.map (added x)).sum

end CBFOp

end DStreamon
