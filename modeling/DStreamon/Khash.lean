import DStreamon.Hash

/-!
# `khash`: short digests of a long one

`split` cuts `nhash` digests of `shash` bits from the words of a cached digest; `compute` hashes
the input itself, and hashes on when the six words are used up.  With `norep` a digest that
repeats an earlier one is dropped and cut again from the bits that follow.
-/

namespace DStreamon

open Function (update)

/-- The ways a call ends in a failed assertion or never ends. -/
inductive Fault where
  /-- A constructor's asserts. -/
  | badShape
  /-- `assert(len>0)` -/
  | emptyInput
  /-- `assert((ptr>=0)&&(ptr<=HASH_BITS))` -/
  | digestOverrun
  /-- `assert(b<mmax_arr)` -/
  | badIndex
  /-- `assert((res_d==false)||((res_d==true)&&(res_l==true)))` -/
  | detectingOnly
  /-- `assert( slave )`, or a call on a filter that is not there. -/
  | noBloom
  /-- The steps allowed to the call have run out. -/
  | outOfFuel
deriving DecidableEq, Repr

def hashIntegers : ℕ := 6

def hashBits : ℕ := 192

/-- The low `bit` bits of a word. -/
def bitmask (bit : ℕ) : UInt32 :=
  if bit = 32 then 0xFFFFFFFF else ((1 : UInt32) <<< bit.toUInt32) - 1

/-- The bits of a digest in the word it starts in. -/
def lowBits (msgdig : ℕ → UInt32) (ptr shash : ℕ) : UInt32 :=
  (msgdig (ptr / 32) >>> (ptr % 32).toUInt32) &&& bitmask shash

/-- The `carry` bits of a digest in the word after. -/
def highBits (word : UInt32) (carry shash : ℕ) : UInt32 :=
  (word &&& bitmask carry) <<< (shash - carry).toUInt32

/-- `for(int i=1; i<k; i++) if (res[i]==res[k]) k--;`, the index never more than `k` times up. -/
def norepLoop (res : ℕ → UInt32) : ℕ → ℕ → ℕ → ℕ
  | 0, _, k => k
  | n + 1, i, k => if i < k then norepLoop res n (i + 1) (if res i = res k then k - 1 else k) else k

/-- The next `k`, after the digest `res k` is cut. -/
def nextK (norep : Bool) (res : ℕ → UInt32) (k : ℕ) : ℕ :=
  (if norep then norepLoop res k 1 k else k) + 1

/-! ## `split` -/

/-- The loop of `split`.  Every turn moves the pointer on, so it fails its assert before
`hashBits + 1` turns are over. -/
def splitLoop (nhash shash : ℕ) (norep : Bool) (msgdig : ℕ → UInt32) :
    ℕ → ℕ → ℕ → (ℕ → UInt32) → Except Fault (ℕ → UInt32)
  | fuel, ptr, k, res =>
    if nhash < k then .ok res
    else match fuel with
      | 0 => .error .digestOverrun
      | fuel + 1 =>
        let carry := ptr % 32 + shash - 32
        let low := lowBits msgdig ptr shash
        let res := update res k
          (if 0 < carry then low ||| highBits (msgdig (ptr / 32 + 1)) carry shash else low)
        if hashBits < ptr + shash then .error .digestOverrun
        else splitLoop nhash shash norep msgdig fuel (ptr + shash) (nextK norep res k) res

/-- `H(1)` to `H(nhash)` of a cached digest. -/
def split (nhash shash : ℕ) (norep : Bool) (msgdig : ℕ → UInt32) :
    Except Fault (ℕ → UInt32) :=
  splitLoop nhash shash norep msgdig (hashBits + 1) 0 1 fun _ => 0

/-! ## `compute` -/

/-- The six words hashed again, each pair seeded with itself. -/
def rehash (key : List UInt8) (msgdig : ℕ → UInt32) : ℕ → UInt32 := fun i =>
  match i with
  | 0 => (hashlittle2 key (msgdig 0) (msgdig 1)).1
  | 1 => (hashlittle2 key (msgdig 0) (msgdig 1)).2
  | 2 => (hashlittle2 key (msgdig 2) (msgdig 3)).1
  | 3 => (hashlittle2 key (msgdig 2) (msgdig 3)).2
  | 4 => (hashlittle2 key (msgdig 4) (msgdig 5)).1
  | 5 => (hashlittle2 key (msgdig 4) (msgdig 5)).2
  | i => msgdig i

/-- The loop over the sub-digests; the key is hashed again also where one of them ends with the last
word of the digest. -/
def computeLoop (nhash shash : ℕ) (norep : Bool) (key : List UInt8) :
    ℕ → ℕ → ℕ → (ℕ → UInt32) → (ℕ → UInt32) → Except Fault (ℕ → UInt32)
  | fuel, ptr, k, msgdig, res =>
    if nhash < k then .ok res
    else match fuel with
      | 0 => .error .outOfFuel
      | fuel + 1 =>
        let carry := ptr % 32 + shash - 32
        let low := lowBits msgdig ptr shash
        let again : Bool := 32 ≤ ptr % 32 + shash ∧ ptr / 32 = hashIntegers - 1
        let msgdig := if again then rehash key msgdig else msgdig
        let next := msgdig (if again then 0 else ptr / 32 + 1)
        let res := update res k (if 0 < carry then low ||| highBits next carry shash else low)
        let ptr := if again then ptr + shash - hashBits else ptr + shash
        if hashBits < ptr then .error .digestOverrun
        else computeLoop nhash shash norep key fuel ptr (nextK norep res k) msgdig res

/-- `H(1)` to `H(nhash)` of an input; with `norep` the loop may take any number of turns. -/
def compute (fuel nhash shash : ℕ) (norep : Bool) (key : List UInt8) :
    Except Fault (ℕ → UInt32) :=
  if key.length = 0 then .error .emptyInput
  else computeLoop nhash shash norep key fuel 0 1
    (rehash key fun i => UInt32.ofNat (i + 1)) fun _ => 0

end DStreamon
