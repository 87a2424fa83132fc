import DStreamon.Khash
import DStreamon.Lib.BitArray
import DStreamon.Lib.Bytes
import Mathlib.Data.Int.DivMod

/-!
# Bloom filters and the learning and detecting pair

A `BloomPair` marks every element in a learning and a detecting filter and answers from the
detecting one.  When the learning filter has few zeros left the two change roles and the new
learning filter is cleared; the swap goes on to the pair a `slavePlace` names.
-/

namespace DStreamon

open Function (update)

/-! ## `bloomfilter` -/

structure Bloomfilter where
  nhash : ℕ
  shash : ℕ
  norep : Bool
  m : ℕ → BitVec 8
  mmax : ℕ
  mmaxArr : ℕ
  numZeros : ℕ

namespace Bloomfilter

def clear (f : Bloomfilter) : Bloomfilter :=
  { f with
    m := fun i => if i < f.mmaxArr then 0#8 else f.m i
    numZeros := f.mmax }

/-- The constructor, with the asserts of `khash`. -/
def new (nhash shash : ℕ) (norep : Bool) : Except Fault Bloomfilter :=
  if 1 ≤ nhash ∧ 1 ≤ shash ∧ shash < 32 ∧ (norep → nhash ≤ 2 ^ shash) then
    .ok { nhash, shash, norep
          m := fun _ => 0#8
          mmax := 2 ^ shash
          mmaxArr := if shash < 3 then 1 else 2 ^ (shash - 3)
          numZeros := 2 ^ shash }
  else .error .badShape

/-- The loop of `insert` and `set_bits` over `n` digests from `H(i)` on: mark the bits, and count
those that were zero. -/
def markLoop (mmaxArr : ℕ) (H : ℕ → UInt32) :
    ℕ → ℕ → (ℕ → BitVec 8) → ℕ → Except Fault ((ℕ → BitVec 8) × ℕ)
  | 0, _, m, extraOnes => .ok (m, extraOnes)
  | n + 1, i, m, extraOnes =>
    let b := (H i).toNat / 8
    let bit := BitArray.mask ((H i).toNat % 8)
    if ¬ b < mmaxArr then .error .badIndex
    else if m b &&& bit = 0#8 then
      markLoop mmaxArr H n (i + 1) (update m b (m b ||| bit)) (extraOnes + 1)
    else markLoop mmaxArr H n (i + 1) m extraOnes

/-- Mark `H(1)` to `H(nhash)`, and whether some bit of them was zero. -/
def mark (f : Bloomfilter) (H : ℕ → UInt32) : Except Fault (Bloomfilter × Bool) := do
  let (m, extraOnes) ← markLoop f.mmaxArr H f.nhash 1 f.m 0
  if extraOnes = 0 then .ok (f, false)
  else .ok ({ f with m, numZeros := f.numZeros - extraOnes }, true)

/-- The loop of `check` and `check_bits`. -/
def checkLoop (f : Bloomfilter) (H : ℕ → UInt32) : ℕ → ℕ → Except Fault Bool
  | 0, _ => .ok true
  | n + 1, i =>
    let b := (H i).toNat / 8
    if ¬ b < f.mmaxArr then .error .badIndex
    else if f.m b &&& BitArray.mask ((H i).toNat % 8) = 0#8 then .ok false
    else f.checkLoop H n (i + 1)

def insert (fuel : ℕ) (f : Bloomfilter) (key : List UInt8) : Except Fault (Bloomfilter × Bool) := do
  f.mark (← compute fuel f.nhash f.shash f.norep key)

def check (fuel : ℕ) (f : Bloomfilter) (key : List UInt8) : Except Fault Bool := do
  f.checkLoop (← compute fuel f.nhash f.shash f.norep key) f.nhash 1

def setBits (f : Bloomfilter) (bits : ℕ → UInt32) : Except Fault (Bloomfilter × Bool) := do
  f.mark (← split f.nhash f.shash f.norep bits)

def checkBits (f : Bloomfilter) (bits : ℕ → UInt32) : Except Fault Bool := do
  f.checkLoop (← split f.nhash f.shash f.norep bits) f.nhash 1

/-- What `serialize` writes to a buffer of `maxLen` bytes; `none` where it returns -1. -/
def serialize (f : Bloomfilter) (maxLen : ℕ) : Option (List UInt8) :=
  if maxLen < f.mmaxArr + 8 then none
  else some (Bytes.le 4 f.nhash ++ (Bytes.le 4 f.shash ++
    (List.range f.mmaxArr).map fun i => UInt8.ofBitVec (f.m i)))

/-- `(1 << shash)/8`, an `int` made a `size_t`. -/
def memorySize (shash : ℕ) : ℕ := (((2 ^ (shash % 32) : ℤ).bmod (2 ^ 32)).tdiv 8 % 2 ^ 64).toNat

/-- `deserialize`; `none` is a null pointer, which fewer than eight bytes give too. -/
def deserialize (buffer : List UInt8) : Except Fault (Option Bloomfilter) :=
  match Bytes.le32 buffer 0, Bytes.le32 buffer 4 with
  | some nhash, some shash =>
    if buffer.length - 8 < memorySize shash.toNat then .ok none
    else if 2 ^ 31 ≤ nhash.toNat ∨ 2 ^ 31 ≤ shash.toNat then .error .badShape
    else do
      let bf ← new nhash.toNat shash.toNat true
      .ok (some { bf with
        m := fun i =>
          if i < memorySize shash.toNat then (buffer.getD (8 + i) 0).toBitVec else bf.m i })
  | _, _ => .ok none

end Bloomfilter

/-! ## `BloomPair` -/

/-- What a pair does with its `double` threshold. -/
structure Threshold (τ : Type) where
  /-- `double(m)/sqrt(2.0)` -/
  initial : ℕ → τ
  /-- `threshold * sqrt(double(m)/2/dd)` -/
  rescale : τ → ℕ → ℕ → τ
  /-- `get_nzero()<threshold` -/
  above : τ → ℕ → Bool

/-- A pair; its slave is named by the place in `det_instances` that `slave_place` points to. -/
structure BloomPair (τ : Type) where
  learning : Bloomfilter
  detecting : Bloomfilter
  m : ℕ
  threshold : τ
  slavePlace : Option ℕ

/-- The pairs, by place. -/
abbrev DetInstances (τ : Type) := ℕ → Option (BloomPair τ)

namespace BloomPair

variable {τ : Type} (T : Threshold τ)

def new (nhash shash : ℕ) (slavePlace : Option ℕ) : Except Fault (BloomPair τ) := do
  let f ← Bloomfilter.new nhash shash true
  .ok { learning := f, detecting := f, m := 2 ^ shash, threshold := T.initial (2 ^ shash),
        slavePlace }

/-- The roles change and the new learning filter is cleared. -/
def exchange (p : BloomPair τ) : BloomPair τ :=
  { p with
    detecting := p.learning
    learning := p.detecting.clear
    threshold := T.rescale p.threshold p.m p.detecting.numZeros }

/-- Both filters cleared. -/
def blank (p : BloomPair τ) : BloomPair τ :=
  { p with
    learning := p.learning.clear
    detecting := p.detecting.clear
    threshold := T.initial p.m }

/-- `swap` of the pair at a place, and of its slave's, and so on; with the places swapped, in
order. -/
def swap : ℕ → ℕ → DetInstances τ → Except Fault (DetInstances τ × List ℕ)
  | 0, _, _ => .error .outOfFuel
  | fuel + 1, i, w =>
    match w i with
    | none => .error .noBloom
    | some p =>
      let w := update w i (some (p.exchange T))
      match p.slavePlace with
      | none => .ok (w, [i])
      | some s => do
        let (w, log) ← swap fuel s w
        .ok (w, i :: log)

/-- The end of `add` and `set_bits`: the two filters updated by `upd`, and the swap if one is
due. -/
def update' (fuel i : ℕ) (w : DetInstances τ)
    (upd : Bloomfilter → Except Fault (Bloomfilter × Bool)) :
    Except Fault (DetInstances τ × List ℕ × Bool) :=
  match w i with
  | none => .error .noBloom
  | some p => do
    let (learning, resL) ← upd p.learning
    let (detecting, resD) ← upd p.detecting
    if resD = true ∧ resL = false then .error .detectingOnly
    else
      let w := update w i (some { p with learning, detecting })
      if T.above p.threshold learning.numZeros then do
        let (w, log) ← swap T fuel i w
        .ok (w, log, resD)
      else .ok (w, [], resD)

def add (fuel i : ℕ) (w : DetInstances τ) (key : List UInt8) :
    Except Fault (DetInstances τ × List ℕ × Bool) :=
  update' T fuel i w (Bloomfilter.insert fuel · key)

def setBits (fuel i : ℕ) (w : DetInstances τ) (bits : ℕ → UInt32) :
    Except Fault (DetInstances τ × List ℕ × Bool) :=
  update' T fuel i w (Bloomfilter.setBits · bits)

def check (fuel i : ℕ) (w : DetInstances τ) (key : List UInt8) : Except Fault Bool :=
  match w i with
  | none => .error .noBloom
  | some p => p.detecting.check fuel key

def checkBits (i : ℕ) (w : DetInstances τ) (bits : ℕ → UInt32) : Except Fault Bool :=
  match w i with
  | none => .error .noBloom
  | some p => p.detecting.checkBits bits

def clear (i : ℕ) (w : DetInstances τ) : Except Fault (DetInstances τ) :=
  match w i with
  | none => .error .noBloom
  | some p => .ok (update w i (some (p.blank T)))

/-! ## The pairs of a process -/

inductive Op where
  | create (i nhash shash : ℕ) (slavePlace : Option ℕ)
  | add (i : ℕ) (key : List UInt8)
  | setBits (i : ℕ) (bits : ℕ → UInt32)
  | check (i : ℕ) (key : List UInt8)
  | checkBits (i : ℕ) (bits : ℕ → UInt32)
  | clear (i : ℕ)

/-- One call on the pairs, with the places it swaps and its answer.  A metric's pair is shared: the
first block to be configured makes it. -/
def exec (fuel : ℕ) (w : DetInstances τ) : Op → Except Fault (DetInstances τ × List ℕ × Bool)
  | .create i nhash shash slavePlace =>
    match w i with
    | some _ => .ok (w, [], true)
    | none => do
      let p ← new T nhash shash slavePlace
      .ok (update w i (some p), [], true)
  | .add i key => add T fuel i w key
  | .setBits i bits => setBits T fuel i w bits
  | .check i key => do .ok (w, [], ← check fuel i w key)
  | .checkBits i bits => do .ok (w, [], ← checkBits i w bits)
  | .clear i => do .ok (← clear T i w, [], true)

end BloomPair

end DStreamon
