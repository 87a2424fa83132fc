import Mathlib.Data.UInt
import Mathlib.Data.List.Basic

/-!
# Keys and their hashes

A key is a run of bytes.  `getHash` caches six words of `hashlittle2` behind a flag word, seeded
with the words' own indices, and the d-left tables add a 32-bit fingerprint of the bytes,
`fnvModifiedHash`.
-/

namespace DStreamon

/-! ## `hashlittle2` -/

def rot (x : UInt32) (k : UInt32) : UInt32 := (x <<< k) ||| (x >>> (32 - k))

def mix (a b c : UInt32) : UInt32 × UInt32 × UInt32 :=
  let a := (a - c) ^^^ rot c 4
  let c := c + b
  let b := (b - a) ^^^ rot a 6
  let a := a + c
  let c := (c - b) ^^^ rot b 8
  let b := b + a
  let a := (a - c) ^^^ rot c 16
  let c := c + b
  let b := (b - a) ^^^ rot a 19
  let a := a + c
  let c := (c - b) ^^^ rot b 4
  let b := b + a
  (a, b, c)

def final (a b c : UInt32) : UInt32 × UInt32 × UInt32 :=
  let c := (c ^^^ b) - rot b 14
  let a := (a ^^^ c) - rot c 11
  let b := (b ^^^ a) - rot a 25
  let c := (c ^^^ b) - rot b 16
  let a := (a ^^^ c) - rot c 4
  let b := (b ^^^ a) - rot a 14
  let c := (c ^^^ b) - rot b 24
  (a, b, c)

/-- The little-endian word at `o`, the bytes past the end read as zero. -/
def leWord (k : List UInt8) (o : ℕ) : UInt32 :=
  (k.getD o 0).toUInt32 + ((k.getD (o + 1) 0).toUInt32 <<< 8)
    + ((k.getD (o + 2) 0).toUInt32 <<< 16) + ((k.getD (o + 3) 0).toUInt32 <<< 24)

/-- The loop over all but the last block.  Each block takes twelve bytes, so the key's length is
fuel enough. -/
def hashBlocks : ℕ → List UInt8 → UInt32 × UInt32 × UInt32 → List UInt8 × UInt32 × UInt32 × UInt32
  | 0, k, s => (k, s)
  | n + 1, k, (a, b, c) =>
    if 12 < k.length then
      hashBlocks n (k.drop 12) (mix (a + leWord k 0) (b + leWord k 4) (c + leWord k 8))
    else (k, a, b, c)

/-- The primary and secondary hash of `key`, from the two seeds. -/
def hashlittle2 (key : List UInt8) (pc pb : UInt32) : UInt32 × UInt32 :=
  let a := 0xdeadbeef + key.length.toUInt32 + pc
  let (k, a, b, c) := hashBlocks key.length key (a, a, a + pb)
  if k.length = 0 then (c, b)
  else
    let (_, b, c) := final (a + leWord k 0) (b + leWord k 4) (c + leWord k 8)
    (c, b)

/-! ## Keys -/

/-- The words of a digest; what lies past `size` is whatever the memory holds. -/
structure Digest where
  value : ℕ → UInt32
  size : ℕ

class IReadBuffer (K : Type*) where
  getRawData : K → List UInt8
  getHash : K → Digest

open IReadBuffer

/-- The digest a `HashedBuffer` caches: a flag, then three pairs of hashes. -/
def bufferHash (data : List UInt8) : Digest where
  value i := match i with
    | 0 => 1
    | 1 => (hashlittle2 data 1 2).1
    | 2 => (hashlittle2 data 1 2).2
    | 3 => (hashlittle2 data 3 4).1
    | 4 => (hashlittle2 data 3 4).2
    | 5 => (hashlittle2 data 5 6).1
    | 6 => (hashlittle2 data 5 6).2
    | _ => 0
  size := 7

/-- `HashedBuffer`, by its bytes. -/
structure HashedBuffer where
  data : List UInt8
deriving DecidableEq, Repr

instance : IReadBuffer HashedBuffer where
  getRawData k := k.data
  getHash k := bufferHash k.data

/-- The 32-bit fingerprint a d-left node keeps of its key. -/
def fnvModifiedHash (buffer : List UInt8) : UInt32 :=
  let hash := buffer.foldl (fun hash b => (hash ^^^ b.toUInt32) * 16777619) 2166136261
  let hash := hash + (hash <<< 13)
  let hash := hash ^^^ (hash >>> 7)
  let hash := hash + (hash <<< 3)
  let hash := hash ^^^ (hash >>> 17)
  hash + (hash <<< 5)

/-- A key's fingerprint. -/
def fhash {K : Type*} [IReadBuffer K] (key : K) : UInt32 := fnvModifiedHash (getRawData key)

end DStreamon
