import DStreamon.Bloom

/-!
# The two ways from a key to its digests

`insert` and `check` hash the bytes they are given, `set_bits` and `check_bits` cut the digest the
key has cached.  Both over any `hashlittle2`, with the bits of digest that `compute` uses up.
-/

namespace DStreamon

open Function (update)

variable (hash : List UInt8 → UInt32 → UInt32 → UInt32 × UInt32)

/-- The words of `HashedBuffer::GetHash`. -/
def bufferHashBy (data : List UInt8) : Digest where
  value i := match i with
    | 0 => 1
    | 1 => (hash data 1 2).1
    | 2 => (hash data 1 2).2
    | 3 => (hash data 3 4).1
    | 4 => (hash data 3 4).2
    | 5 => (hash data 5 6).1
    | 6 => (hash data 5 6).2
    | _ => 0
  size := 7

/-- `GetHash().value()+1` -/
def cachedBits (data : List UInt8) : ℕ → UInt32 := fun i => (bufferHashBy hash data).value (i + 1)

def rehashBy (key : List UInt8) (msgdig : ℕ → UInt32) : ℕ → UInt32 := fun i =>
  match i with
  | 0 => (hash key (msgdig 0) (msgdig 1)).1
  | 1 => (hash key (msgdig 0) (msgdig 1)).2
  | 2 => (hash key (msgdig 2) (msgdig 3)).1
  | 3 => (hash key (msgdig 2) (msgdig 3)).2
  | 4 => (hash key (msgdig 4) (msgdig 5)).1
  | 5 => (hash key (msgdig 4) (msgdig 5)).2
  | i => msgdig i

/-- The loop of `compute`, after `bits` bits of digest. -/
def computeBitsLoop (nhash shash : ℕ) (norep : Bool) (key : List UInt8) :
    ℕ → ℕ → ℕ → ℕ → (ℕ → UInt32) → (ℕ → UInt32) → Except Fault ((ℕ → UInt32) × ℕ)
  | fuel, ptr, bits, k, msgdig, res =>
    if nhash < k then .ok (res, bits)
    else match fuel with
      | 0 => .error .outOfFuel
      | fuel + 1 =>
        let carry := ptr % 32 + shash - 32
        let low := lowBits msgdig ptr shash
        let again : Bool := 32 ≤ ptr % 32 + shash ∧ ptr / 32 = hashIntegers - 1
        let msgdig := if again then rehashBy hash key msgdig else msgdig
        let next := msgdig (if again then 0 else ptr / 32 + 1)
        let res := update res k (if 0 < carry then low ||| highBits next carry shash else low)
        let ptr := if again then ptr + shash - hashBits else ptr + shash
        if hashBits < ptr then .error .digestOverrun
        else computeBitsLoop nhash shash norep key fuel ptr (bits + shash) (nextK norep res k)
          msgdig res

/-- `compute`, and the bits of digest it uses up. -/
def computeBits (fuel nhash shash : ℕ) (norep : Bool) (key : List UInt8) :
    Except Fault ((ℕ → UInt32) × ℕ) :=
  if key.length = 0 then .error .emptyInput
  else computeBitsLoop hash nhash shash norep key fuel 0 0 1
    (rehashBy hash key fun i => UInt32.ofNat (i + 1)) fun _ => 0

namespace Bloomfilter

/-- A filter made with these arguments. -/
structure Shaped (f : Bloomfilter) (nhash shash : ℕ) (norep : Bool) : Prop where
  nhash : f.nhash = nhash
  shash : f.shash = shash
  norep : f.norep = norep

def insertBy (fuel : ℕ) (f : Bloomfilter) (key : List UInt8) :
    Except Fault (Bloomfilter × Bool) := do
  f.mark (← computeBits hash fuel f.nhash f.shash f.norep key).1

def checkBy (fuel : ℕ) (f : Bloomfilter) (key : List UInt8) : Except Fault Bool := do
  f.checkLoop (← computeBits hash fuel f.nhash f.shash f.norep key).1 f.nhash 1

end Bloomfilter

namespace BloomPair

variable {τ : Type} (T : Threshold τ)

def addBy (fuel i : ℕ) (w : DetInstances τ) (key : List UInt8) :
    Except Fault (DetInstances τ × List ℕ × Bool) :=
  update' T fuel i w (Bloomfilter.insertBy hash fuel · key)

def checkBy (fuel i : ℕ) (w : DetInstances τ) (key : List UInt8) : Except Fault Bool :=
  match w i with
  | none => .error .noBloom
  | some p => p.detecting.checkBy hash fuel key

end BloomPair

end DStreamon
