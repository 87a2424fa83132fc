import DStreamon.Buffer
import DStreamon.Flowkeys

/-!
# The composite keys of a packet

The register of a composite key starts out empty.  `EventFactory` appends the registers of the
key's rule to it, and takes one that is not empty for computed.
-/

namespace DStreamon.Buffers

theorem Buffer.append_fits {S : ℕ} {b : Buffer S} (h : b.getLength ≤ S)
    (ptr : List UInt8) (len : ℤ) (ty : BufferType) : (b.append ptr len ty).1.getLength ≤ S := by
  unfold append
  split_ifs with hout hfit
  · exact h
  · change (UInt16.ofNat _).toNat ≤ S
    rw [UInt16.toNat_ofNat']
    exact (Nat.mod_le _ _).trans (by omega)
  · exact h

theorem HashedBuffer.append_fits {S : ℕ} {b : HashedBuffer S} (h : b.getLength ≤ S)
    (ptr : List UInt8) (len : ℤ) (ty : BufferType) : (b.append ptr len ty).1.getLength ≤ S :=
  Buffer.append_fits h ptr len ty

end DStreamon.Buffers

namespace DStreamon.EventFactory

open Function (update)
open Buffers (Outcome Shl)

/-- `Map`, of buffers of `REGISTER_SIZE`, none of which says it holds more. -/
structure Registers where
  map : ℕ → Buffers.HashedBuffer 256
  fits : ∀ i, (map i).getLength ≤ 256

namespace Registers

/-- `getFlowkey`: the place of the buffer in `Map`; there are sixteen. -/
def getFlowkey (id : ℤ) : Option ℕ := if 0 ≤ id ∧ id < 16 then some id.toNat else none

def set (r : Registers) (i : ℕ) (b : Buffers.HashedBuffer 256) (hb : b.getLength ≤ 256) :
    Registers where
  map := update r.map i b
  fits j := by
    by_cases hj : j = i
    · rwa [hj, Function.update_self]
    · rw [Function.update_of_ne hj]
      exact r.fits j

/-- `operator<<` on a register. -/
def shl (r : Registers) (i : ℕ) (v : Shl) : Registers × Outcome :=
  (r.set i ((r.map i).append v.ptr v.len v.type).1
      (Buffers.HashedBuffer.append_fits (r.fits i) _ _ _),
    ((r.map i).append v.ptr v.len v.type).2)

/-- The bytes in a register. -/
def key (r : Registers) (id : ℤ) : List UInt8 := (r.map id.toNat).bytes

end Registers

/-- The loop over the rule, into the register at `i`; `std::out_of_range` is caught, and the next
field tried. -/
def insertFields (i : ℕ) : Registers → List ℤ → Option Registers
  | r, [] => some r
  | r, field :: rule => do
    let b ← Registers.getFlowkey field
    let out := r.shl i (.buffer (r.map b).bytes)
    if out.2 = .undefined then none else insertFields i out.1 rule

/-- `calculate_flowkey`; `none` where a register or rule is out of bounds. -/
def calculateFlowkey (k : Keys) (r : Registers) (flowkeyId : ℤ) : Option Registers :=
  if flowkeyId < k.builtinTokens then some r
  else do
    let i ← Registers.getFlowkey flowkeyId
    if (r.map i).getLength = 0 then
      let rule := k.lastTokenId - flowkeyId
      if 0 ≤ rule ∧ rule < 8 then insertFields i r (k.flowkeyRules rule.toNat) else none
    else some r

/-- A key that has a rule over plain registers. -/
structure Composite (k : Keys) (id : ℤ) (rule : List ℤ) : Prop where
  composite : k.builtinTokens ≤ id
  register : 0 ≤ id ∧ id < 16
  index : 0 ≤ k.lastTokenId - id ∧ k.lastTokenId - id < 8
  fields : k.flowkeyRules (k.lastTokenId - id).toNat = rule
  plain : ∀ field ∈ rule, 0 ≤ field ∧ field < k.builtinTokens

/-- The register of a composite key of a packet that is new. -/
def Registers.Fresh (r : Registers) (id : ℤ) : Prop := (r.map id.toNat).getLength = 0

end DStreamon.EventFactory
