import Mathlib.Algebra.Group.Nat.Defs
import Mathlib.Data.List.Range
import Mathlib.Data.UInt

/-!
# `KHASH`: many small digests from a few long ones

`lib/hash/khash.cpp`.  The first block of the buffer is the digest of the key, each further block
the digest of bytes from the block before on, as many as the key has.  `H(i)` are `shash` bits at
`i * shash`.
-/

namespace DStreamon

/-- A hash, by the bytes of its digests. -/
structure HASH where
  digestLength : ℕ
  compute : List UInt8 → ℕ → UInt8
  /-- The bits of a digest are counted in an `unsigned int`. -/
  small : 8 * digestLength < 2 ^ 32

structure KHASH where
  nhash : ℕ
  shash : ℕ
  hashtodo : ℕ
  msgdig : ℕ → UInt8
  res : ℕ → ℕ

namespace KHASH

/-- The blocks needed, where a digest has `hashdiglen` bytes. -/
def hashTodo (hashdiglen nhash shash : ℕ) : ℕ :=
  let bitneeded := shash * nhash % 2 ^ 32
  let todo := bitneeded / (8 * hashdiglen)
  if todo * bitneeded % 2 ^ 32 ≠ 8 * hashdiglen then todo + 1 else todo

/-- The bytes allocated for `msgdig`. -/
def bufferSize (hashdiglen hashtodo : ℕ) : ℕ := hashtodo * hashdiglen + 4

variable (h : HASH)

/-- The constructor, with its asserts; the buffer is cleared. -/
def new (nhash shash : ℕ) (norep : Bool) : Option KHASH :=
  if shash ≤ 32 ∧ shash ≤ h.digestLength * 8 ∧ shash ≠ 0 ∧ (norep = true → nhash ≤ 2 ^ shash) then
    some ⟨nhash, shash, hashTodo h.digestLength nhash shash, fun _ => 0, fun _ => 0⟩
  else none

/-- `len` bytes of the buffer; `none` if they are not all in it. -/
def read (size : ℕ) (m : ℕ → UInt8) (off len : ℕ) : Option (List UInt8) :=
  if off + len ≤ size then some ((List.range len).map fun j => m (off + j)) else none

def write (m : ℕ → UInt8) (off : ℕ) (d : ℕ → UInt8) : ℕ → UInt8 := fun a =>
  if off ≤ a ∧ a < off + h.digestLength then d (a - off) else m a

/-- The rounds from `i` on of the loop that hashes on. -/
def hashLoop (size len : ℕ) : ℕ → ℕ → (ℕ → UInt8) → Option (ℕ → UInt8)
  | 0, _, m => some m
  | n + 1, i, m =>
    (read size m ((i - 1) * h.digestLength) len).bind fun bytes =>
      hashLoop size len n (i + 1) (write h m (i * h.digestLength) (h.compute bytes))

section Cut

variable (shash : ℕ)

def startoffset (i : ℕ) : ℕ := i * shash % 2 ^ 32
def endoffset (i : ℕ) : ℕ := (i + 1) * shash % 2 ^ 32

/-- Four bytes are read for `H(i)`, and one more where its bits do not lie in them. -/
def InBuffer (size i : ℕ) : Prop :=
  startoffset shash i / 8 + 4 ≤ size ∧
    (32 < shash + startoffset shash i % 8 → endoffset shash i / 8 < size)

instance (size i : ℕ) : Decidable (InBuffer shash size i) :=
  inferInstanceAs (Decidable (_ ∧ _))

def subDigest (m : ℕ → UInt8) (i : ℕ) : ℕ :=
  let at' := startoffset shash i / 8
  let word := (m at').toNat ||| (m (at' + 1)).toNat <<< 8 ||| (m (at' + 2)).toNat <<< 16 |||
    (m (at' + 3)).toNat <<< 24
  let bitoffset := startoffset shash i % 8
  let low := word >>> bitoffset
  let all := if 32 < shash + bitoffset then
      low ||| (m (endoffset shash i / 8)).toNat <<< (shash - endoffset shash i % 8)
    else low
  all &&& (2 ^ shash - 1)

end Cut

/-- `none` where a byte is read that is not in the buffer. -/
def compute (k : KHASH) (key : List UInt8) : Option KHASH :=
  let size := bufferSize h.digestLength k.hashtodo
  (hashLoop h size key.length (k.hashtodo - 1) 1 (write h k.msgdig 0 (h.compute key))).bind fun m =>
    if ∀ i < k.nhash, InBuffer k.shash size i then
      some { k with
        msgdig := m
        res := fun i => if i < k.nhash then subDigest k.shash m i else k.res i }
    else none

def run (k : KHASH) (keys : List (List UInt8)) : Option KHASH := keys.foldlM (compute h) k

/-- `H(0)` to `H(nhash - 1)` of a key depend on nothing but the key, whatever was hashed before. -/
def Stateless (hashdiglen nhash shash : ℕ) (norep : Bool) (len : ℕ) : Prop :=
  ∀ (h : HASH) (key : List UInt8), h.digestLength = hashdiglen → key.length = len →
    ∃ H : ℕ → ℕ, ∀ (k s : KHASH) (keys : List (List UInt8)), new h nhash shash norep = some k →
      run h k keys = some s → ∃ s', compute h s key = some s' ∧ ∀ i < nhash, s'.res i = H i

/-- One block is enough or the key is not longer than a block, and what is read for the small
digests is in the buffer. -/
def Enough (hashdiglen nhash shash len : ℕ) : Prop :=
  (hashTodo hashdiglen nhash shash ≤ 1 ∨ len ≤ hashdiglen) ∧
    ∀ i < nhash, InBuffer shash (bufferSize hashdiglen (hashTodo hashdiglen nhash shash)) i

end KHASH

end DStreamon
