import DStreamon.Hash
import DStreamon.Lib.StepRun
import Mathlib.Data.List.Range

/-!
# The buffers of keys

`Buffer<S>` appends bytes to an array of `S` and keeps their number in 16 bits; `ReadBuffer` is
bound to bytes that lie elsewhere.  The hashed ones cache the digest of their bytes behind a flag
that is the digest's own first word, and which whatever changes the bytes has to take down.
-/

namespace DStreamon.Buffers

open Function (update)

inductive BufferType where
  | unknown
  | uint
  | ipv4
  | double
  | string
deriving DecidableEq, Repr

/-- How a call ends. -/
inductive Outcome where
  | returned
  /-- It throws `std::out_of_range`. -/
  | outOfRange
  /-- It copies past the end of the array. -/
  | undefined
deriving DecidableEq, Repr

/-! ## `Buffer<S>` -/

/-- `data` is the array and, from `S` on, the memory that follows it. -/
structure Buffer (S : ℕ) where
  type : BufferType
  count : UInt16
  data : ℕ → UInt8

/-- `memcpy` of `len` bytes. -/
def memcpy (mem : ℕ → UInt8) (dst : ℕ) (ptr : List UInt8) (len : ℕ) : ℕ → UInt8 := fun i =>
  if dst ≤ i ∧ i < dst + len then ptr.getD (i - dst) 0 else mem i

namespace Buffer

variable {S : ℕ}

/-- The constructor; the array is not set. -/
def new (data : ℕ → UInt8) : Buffer S := ⟨.unknown, 0, data⟩

def getLength (b : Buffer S) : ℕ := b.count.toNat

def getType (b : Buffer S) : BufferType := b.type

/-- The bytes at `GetRawData()`, as many as `GetLength()`. -/
def bytes (b : Buffer S) : List UInt8 := (List.range b.getLength).map b.data

/-- `append` of the `len` bytes at `ptr`; the new length is compared as an `int`. -/
def append (b : Buffer S) (ptr : List UInt8) (len : ℤ) (ty : BufferType) : Buffer S × Outcome :=
  if (S : ℤ) < (b.count.toNat + len).bmod (2 ^ 32) then (b, .outOfRange)
  else if ¬(0 ≤ len ∧ b.count.toNat + len ≤ S) then (b, .undefined)
  else
    ({ type := ty
       count := UInt16.ofNat (b.count.toNat + len.toNat)
       data := memcpy b.data b.count.toNat ptr len.toNat }, .returned)

def reset (b : Buffer S) : Buffer S := { b with count := 0 }

/-- `Get<T>`, for a `T` of `size` bytes: these, or `none` where it throws. -/
def get (b : Buffer S) (size : ℕ) (offset : UInt64) : Option (List UInt8) :=
  if (b.count.toUInt64 - offset).toNat < size then none
  else some ((List.range size).map fun i => b.data (offset.toNat + i))

end Buffer

/-- What `operator<<` takes. -/
inductive Shl where
  | buffer (bytes : List UInt8)
  | uint8 (v : UInt8)
  | uint16 (v : UInt16)
  | uint32 (v : UInt32)
  /-- By its bits. -/
  | double (v : UInt64)
  | str (s : List UInt8)

namespace Shl

/-- The `size` bytes of a variable. -/
def raw (size v : ℕ) : List UInt8 := (List.range size).map fun i => UInt8.ofNat (v / 256 ^ i)

/-- The bytes `operator<<` appends. -/
def ptr : Shl → List UInt8
  | buffer bytes => bytes
  | uint8 v => raw 4 v.toNat
  | uint16 v => raw 4 v.toNat
  | uint32 v => raw 4 v.toNat
  | double v => raw 8 v.toNat
  | str s => s

/-- Their number, in the `int` that `append` takes. -/
def len (v : Shl) : ℤ := (v.ptr.length : ℤ).bmod (2 ^ 32)

def type : Shl → BufferType
  | buffer _ => .unknown
  | uint8 _ | uint16 _ | uint32 _ => .uint
  | double _ => .double
  | str _ => .string

end Shl

/-! ## The cached digest -/

/-- The words of a digest, `hashIntegers` of them behind the flag. -/
def digestSize : ℕ := 7

def digestReset (digest : ℕ → UInt32) : ℕ → UInt32 := fun i =>
  if i < digestSize then UInt32.ofNat i else digest i

/-- `hashlittle2` into two words of the digest, from the seeds they hold. -/
def hashInto (data : List UInt8) (p q : ℕ) (digest : ℕ → UInt32) : ℕ → UInt32 :=
  let (c, b) := hashlittle2 data (digest p) (digest q)
  update (update digest p c) q b

/-- `GetHash` on the bytes of a buffer: the digest it leaves and, through `dig`, returns. -/
def digestOf (data : List UInt8) (digest : ℕ → UInt32) : ℕ → UInt32 :=
  if digest 0 ≠ 1 then
    let digest := digestReset digest
    let digest := hashInto data 1 2 digest
    let digest := hashInto data 3 4 digest
    let digest := hashInto data 5 6 digest
    update digest 0 1
  else digest

/-! ## `HashedBuffer<S>` -/

structure HashedBuffer (S : ℕ) extends Buffer S where
  digest : ℕ → UInt32

namespace HashedBuffer

variable {S : ℕ}

/-- The constructor, in memory that holds anything. -/
def new (data : ℕ → UInt8) (digest : ℕ → UInt32) : HashedBuffer S :=
  { toBuffer := Buffer.new data, digest := update digest 0 0 }

/-- The flag is down before `super::append` can throw. -/
def append (h : HashedBuffer S) (ptr : List UInt8) (len : ℤ) (ty : BufferType) :
    HashedBuffer S × Outcome :=
  let (b, out) := h.toBuffer.append ptr len ty
  ({ b with digest := update h.digest 0 0 }, out)

def reset (h : HashedBuffer S) : HashedBuffer S :=
  { h.toBuffer.reset with digest := update h.digest 0 0 }

/-- `Reset` of a `HashedBuffer` that is known as a `Buffer`, as `append` returns it. -/
def superReset (h : HashedBuffer S) : HashedBuffer S := { h with toBuffer := h.toBuffer.reset }

/-- The copy constructor. -/
def copy (data : ℕ → UInt8) (digest : ℕ → UInt32) (other : HashedBuffer S) :
    HashedBuffer S × Outcome :=
  append { toBuffer := Buffer.new data, digest } other.bytes other.count.toNat other.type

/-- `operator=`; `none` is an assignment to itself, which takes `Count` after the reset. -/
def assign (h : HashedBuffer S) (other : Option (HashedBuffer S)) : HashedBuffer S × Outcome :=
  let other := other.getD h.reset
  h.reset.append other.bytes other.count.toNat other.type

def getHash (h : HashedBuffer S) : HashedBuffer S × Digest :=
  let digest := digestOf h.bytes h.digest
  ({ h with digest }, ⟨digest, digestSize⟩)

/-- The buffer as the rest of the program knows it. -/
def key (h : HashedBuffer S) : DStreamon.HashedBuffer := ⟨h.bytes⟩

/-- The calls on the buffers of a process, each by its place. -/
inductive Op where
  | new (i : ℕ) (data : ℕ → UInt8) (digest : ℕ → UInt32)
  | copy (i : ℕ) (data : ℕ → UInt8) (digest : ℕ → UInt32) (j : ℕ)
  | append (i : ℕ) (ptr : List UInt8) (len : ℤ) (ty : BufferType)
  | shl (i : ℕ) (v : Shl)
  | reset (i : ℕ)
  | superReset (i : ℕ)
  | assign (i j : ℕ)
  | getHash (i : ℕ)

abbrev Heap (S : ℕ) := ℕ → Option (HashedBuffer S)

/-- Put a buffer back after a call; what it throws is caught. -/
def put (w : Heap S) (i : ℕ) (r : HashedBuffer S × Outcome) : Option (Heap S) :=
  if r.2 = .undefined then none else some (update w i (some r.1))

def step (w : Heap S) : Op → Option (Heap S)
  | .new i data digest => some (update w i (some (new data digest)))
  | .copy i data digest j => (w j).bind fun other => put w i (copy data digest other)
  | .append i ptr len ty => (w i).bind fun h => put w i (h.append ptr len ty)
  | .shl i v => (w i).bind fun h => put w i (h.append v.ptr v.len v.type)
  | .reset i => (w i).map fun h => update w i (some h.reset)
  | .superReset i => (w i).map fun h => update w i (some h.superReset)
  | .assign i j => (w i).bind fun h => (w j).bind fun other =>
      put w i (h.assign (if i = j then none else some other))
  | .getHash i => (w i).map fun h => update w i (some h.getHash.1)

end HashedBuffer

/-! ## `HashedReadBuffer` -/

/-- `data` is the memory from `Data` on. -/
structure ReadBuffer where
  type : BufferType
  count : UInt16
  data : List UInt8

/-- What `bind` takes. -/
inductive Binding where
  /-- A variable of an integral type, by its bytes. -/
  | integral (bytes : List UInt8)
  | floating (bytes : List UInt8)
  | other (bytes : List UInt8)
  /-- The memory from a C string on. -/
  | cstr (mem : List UInt8)
  | str (s : List UInt8)

namespace ReadBuffer

def new : ReadBuffer := ⟨.unknown, 0, []⟩

def bytes (r : ReadBuffer) : List UInt8 := r.data.take r.count.toNat

def strlen (mem : List UInt8) : ℕ := (mem.takeWhile (· ≠ 0)).length

def bind (r : ReadBuffer) : Binding → ReadBuffer
  | .integral v => ⟨.uint, UInt16.ofNat v.length, v⟩
  | .floating v => ⟨.double, UInt16.ofNat v.length, v⟩
  | .other v => ⟨r.type, UInt16.ofNat v.length, v⟩
  | .cstr mem => ⟨.string, UInt16.ofNat (strlen mem), mem⟩
  | .str s => ⟨.string, UInt16.ofNat s.length, s⟩

end ReadBuffer

structure HashedReadBuffer extends ReadBuffer where
  digest : ℕ → UInt32

namespace HashedReadBuffer

/-- The two constructors, without and with a variable to bind. -/
def new (digest : ℕ → UInt32) : Option Binding → HashedReadBuffer
  | none => { ReadBuffer.new with digest := digestReset digest }
  | some v => { ReadBuffer.new.bind v with digest := digestReset digest }

/-- `bind` is the base class's. -/
def bind (r : HashedReadBuffer) (v : Binding) : HashedReadBuffer :=
  { r with toReadBuffer := r.toReadBuffer.bind v }

def getHash (r : HashedReadBuffer) : HashedReadBuffer × Digest :=
  let digest := digestOf r.bytes r.digest
  ({ r with digest }, ⟨digest, digestSize⟩)

inductive Op where
  | bind (v : Binding)
  | getHash

def step (r : HashedReadBuffer) : Op → Option HashedReadBuffer
  | .bind v => some (r.bind v)
  | .getHash => some r.getHash.1

end HashedReadBuffer

end DStreamon.Buffers
