import DStreamon.SubDigests
import Mathlib.Data.List.Count
import Mathlib.Logic.Function.Basic

/-!
# `BLOOMFILTER` and `SwapBF`

`lib_botstream`.  A filter sets one bit for each digest of a key, over the whole of its bits or,
with `div`, each in a part of its own.  A `SwapBF` marks a key in two filters and clears one of them
when the other has few zeros left.
-/

namespace DStreamon

open Function (update)

structure BLOOMFILTER where
  bitset : ℕ → Bool
  size : ℕ
  nhash : ℕ
  hashsize : ℕ
  div : Bool

namespace BLOOMFILTER

/-- The zeros at the end of `n`; 32 rounds are enough for an `unsigned int`. -/
def log2Loop : ℕ → ℕ → ℕ → ℕ
  | 0, _, i => i
  | fuel + 1, n, i => if n % 2 = 0 ∧ n ≠ 0 then log2Loop fuel (n / 2) (i + 1) else i

def log2 (n : ℕ) : ℕ := log2Loop 32 n 0

/-- The constructor, with its asserts. -/
def new (size nhash : ℕ) (div : Bool) : Option BLOOMFILTER :=
  let hashsize := log2 size
  let j := log2 nhash
  if 0 < size ∧ 0 < nhash ∧ size >>> (hashsize + 1) = 0 ∧ (div = true → nhash >>> (j + 1) = 0) then
    some { bitset := fun _ => false, size, nhash, div
           hashsize := if div then (hashsize + 2 ^ 32 - j) % 2 ^ 32 else hashsize }
  else none

def reset (f : BLOOMFILTER) : BLOOMFILTER :=
  { f with bitset := fun p => if p < f.size then false else f.bitset p }

/-- The bit of the `i`-th digest. -/
def pos (f : BLOOMFILTER) (H : ℕ → ℕ) (i : ℕ) : ℕ :=
  if f.div then i * 2 ^ f.hashsize + H i else H i

/-- `none` is a failed `assert(pos<bitset.size())`. -/
def insertLoop (f : BLOOMFILTER) (H : ℕ → ℕ) : ℕ → ℕ → (ℕ → Bool) → Option (ℕ → Bool)
  | 0, _, bitset => some bitset
  | n + 1, i, bitset =>
    if f.pos H i < f.size then insertLoop f H n (i + 1) (update bitset (f.pos H i) true) else none

def insert (f : BLOOMFILTER) (H : ℕ → ℕ) : Option BLOOMFILTER :=
  (insertLoop f H f.nhash 0 f.bitset).map fun bitset => { f with bitset }

def presentLoop (f : BLOOMFILTER) (H : ℕ → ℕ) : ℕ → ℕ → Option Bool
  | 0, _ => some true
  | n + 1, i =>
    if f.pos H i < f.size then
      if f.bitset (f.pos H i) then presentLoop f H n (i + 1) else some false
    else none

def isPresent (f : BLOOMFILTER) (H : ℕ → ℕ) : Option Bool := presentLoop f H f.nhash 0

def zeros (f : BLOOMFILTER) : ℕ := (List.range f.size).countP fun p => f.bitset p = false

/-- `zeros <= bitset.size()/sqrt(2)` -/
def statsSbf (f : BLOOMFILTER) : Prop := 2 * f.zeros ^ 2 ≤ f.size ^ 2

instance (f : BLOOMFILTER) : Decidable f.statsSbf := inferInstanceAs (Decidable (_ ≤ _))

end BLOOMFILTER

/-! ## Two filters -/

structure SwapBF where
  sbf1 : BLOOMFILTER
  sbf2 : BLOOMFILTER
  activeBF : ℕ

namespace SwapBF

/-- `KHASH` asserts that it has bits to cut. -/
def new (size nhash : ℕ) : Option SwapBF :=
  (BLOOMFILTER.new size nhash false).bind fun f =>
    if f.hashsize ≠ 0 then some ⟨f, f, 1⟩ else none

/-- Marked in both filters if the active one does not have the key. -/
def insertBoth (s : SwapBF) (present : Bool) (H : ℕ → ℕ) : Option SwapBF :=
  if present then some s
  else do
    let sbf1 ← s.sbf1.insert H
    let sbf2 ← s.sbf2.insert H
    some { s with sbf1, sbf2 }

def insert (s : SwapBF) (H : ℕ → ℕ) : Option SwapBF :=
  match s.activeBF with
  | 1 => do
    let s ← s.insertBoth (← s.sbf1.isPresent H) H
    some (if s.sbf2.statsSbf then { s with activeBF := 2, sbf1 := s.sbf1.reset } else s)
  | 2 => do
    let s ← s.insertBoth (← s.sbf2.isPresent H) H
    some (if s.sbf1.statsSbf then { s with activeBF := 1, sbf2 := s.sbf2.reset } else s)
  | _ => some s

def isPresent (s : SwapBF) (H : ℕ → ℕ) : Option Bool := do
  if ← s.sbf1.isPresent H then some true else s.sbf2.isPresent H

/-- The keys one after the other, with their digests. -/
def run {K : Type} (H : K → ℕ → ℕ) (s : SwapBF) (keys : List K) : Option SwapBF :=
  keys.foldlM (fun s x => s.insert (H x)) s

/-- The filter that is not active has more zeros than a swap asks for. -/
def BelowFill (s : SwapBF) : Prop :=
  (s.activeBF = 1 ∧ ¬ s.sbf2.statsSbf) ∨ (s.activeBF = 2 ∧ ¬ s.sbf1.statsSbf)

end SwapBF

/-! ## A filter with its `KHASH` -/

structure KeyedFilter where
  filter : BLOOMFILTER
  khash : KHASH

namespace KeyedFilter

variable (h : HASH)

def new (size nhash : ℕ) (div : Bool) : Option KeyedFilter := do
  let filter ← BLOOMFILTER.new size nhash div
  let khash ← KHASH.new h nhash filter.hashsize false
  some { filter, khash }

def insert (f : KeyedFilter) (key : List UInt8) : Option KeyedFilter := do
  let khash ← KHASH.compute h f.khash key
  let filter ← f.filter.insert khash.res
  some { filter, khash }

def isPresent (f : KeyedFilter) (key : List UInt8) : Option (KeyedFilter × Bool) := do
  let khash ← KHASH.compute h f.khash key
  let present ← f.filter.isPresent khash.res
  some ({ f with khash }, present)

inductive Op where
  | insert (key : List UInt8)
  | isPresent (key : List UInt8)
  | reset

def step (f : KeyedFilter) : Op → Option KeyedFilter
  | .insert key => f.insert h key
  | .isPresent key => (f.isPresent h key).map Prod.fst
  | .reset => some { f with filter := f.filter.reset }

def run (f : KeyedFilter) (ops : List Op) : Option KeyedFilter := ops.foldlM (step h) f

/-- A key is present after its insertion as long as the filter is not reset. -/
def Remembers (hashdiglen nhash shash len : ℕ) : Prop :=
  ∀ (h : HASH) (key : List UInt8) (size : ℕ) (div : Bool) (f f' : KeyedFilter) (ops ops' : List Op),
    h.digestLength = hashdiglen → key.length = len → new h size nhash div = some f →
    f.filter.hashsize = shash → Op.reset ∉ ops' → run h f (ops ++ .insert key :: ops') = some f' →
    ∃ f'', f'.isPresent h key = some (f'', true)

end KeyedFilter

end DStreamon
