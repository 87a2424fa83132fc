import DStreamon.CompositeKey
import DStreamon.Lib.BoundedJoin
import DStreamon.Proofs.Buffer

/-!
# What composite keys tell apart

The key is the registers of the rule joined up to the size of a register.  The lengths of the
registers are not in it, so it tells two packets apart where they are the same in both and nothing
is skipped, or where the keys are of different lengths.
-/

namespace DStreamon.Buffers

variable {S : ℕ}

theorem Buffer.length_bytes (b : Buffer S) : b.bytes.length = b.getLength := by
  rw [Buffer.bytes, List.length_map, List.length_range]

theorem HashedBuffer.append_eq {h : HashedBuffer S} {ptr : List UInt8} {len : ℤ} {ty : BufferType}
    {b : Buffer S} {out : Outcome} (hb : h.toBuffer.append ptr len ty = (b, out)) :
    h.append ptr len ty = ({ b with digest := Function.update h.digest 0 0 }, out) := by
  unfold HashedBuffer.append
  rw [hb]

/-- A buffer takes the bytes that fit, all of them, or none. -/
theorem HashedBuffer.append_bytes (hS : S < 2 ^ 16) (h : HashedBuffer S) {ptr : List UInt8}
    {len : ℤ} (ty : BufferType) (hlen : len = ptr.length)
    (hint : h.getLength + ptr.length < 2 ^ 31) :
    (h.append ptr len ty).2 ≠ .undefined ∧ (h.append ptr len ty).1.bytes =
      if h.bytes.length + ptr.length ≤ S then h.bytes ++ ptr else h.bytes := by
  rw [Buffer.length_bytes]
  by_cases hfit : h.getLength + ptr.length ≤ S
  · rw [HashedBuffer.append_eq (hlen ▸ append_done (by omega) hfit), if_pos hfit]
    have hcount : (UInt16.ofNat (h.getLength + ptr.length)).toNat = h.getLength + ptr.length :=
      UInt16.toNat_ofNat_of_lt' (by
        rw [UInt16.size]
        omega)
    refine ⟨Outcome.noConfusion, ?_⟩
    change (List.range (UInt16.ofNat (h.getLength + ptr.length)).toNat).map _ = _
    rw [hcount]
    exact bytes_memcpy h.toBuffer ptr
  · rw [HashedBuffer.append_eq (hlen ▸ append_refused (by omega) (by omega)), if_neg hfit]
    exact ⟨Outcome.noConfusion, rfl⟩

end DStreamon.Buffers

namespace DStreamon.EventFactory

open Function (update)
open BoundedJoin
open Buffers (Outcome Shl)

variable {k : Keys} {r r' s s' : Registers} {id : ℤ} {rule : List ℤ} {i : ℕ} {l l' : ℤ → ℕ}

namespace Registers

theorem length_key (r : Registers) (id : ℤ) : (r.key id).length = (r.map id.toNat).getLength :=
  Buffers.Buffer.length_bytes _

theorem key_le (r : Registers) (id : ℤ) : (r.key id).length ≤ 256 := by
  rw [length_key]
  exact r.fits _

theorem fresh_iff : r.Fresh id ↔ r.key id = [] := by
  rw [Fresh, ← length_key, List.length_eq_zero_iff]

theorem getFlowkey_of (h : 0 ≤ id ∧ id < 16) : getFlowkey id = some id.toNat := if_pos h

theorem shl_eq {v : Shl} {b : Buffers.HashedBuffer 256} {out : Outcome}
    (h : (r.map i).append v.ptr v.len v.type = (b, out)) :
    ∃ hb, r.shl i v = (r.set i b hb, out) := by
  have hb : b.getLength ≤ 256 := by
    have := Buffers.HashedBuffer.append_fits (r.fits i) v.ptr v.len v.type
    rwa [h] at this
  refine ⟨hb, ?_⟩
  unfold shl
  simp only [h]

theorem shl_key (r : Registers) (i : ℕ) {v : Shl} (hv : v.ptr.length ≤ 256) :
    (r.shl i v).2 ≠ .undefined ∧ ((r.shl i v).1.map i).bytes =
      (if (r.map i).bytes.length + v.ptr.length ≤ 256 then (r.map i).bytes ++ v.ptr
        else (r.map i).bytes) ∧
      ∀ j ≠ i, (r.shl i v).1.map j = r.map j := by
  have hfits := r.fits i
  have hint : v.ptr.length < 2 ^ 31 := by omega
  have hsum : (r.map i).getLength + v.ptr.length < 2 ^ 31 := by omega
  have hlen : v.len = v.ptr.length := Buffers.bmod_of_lt hint
  have happend := (r.map i).append_bytes (by omega) v.type hlen hsum
  obtain ⟨⟨b, out⟩, hres⟩ : ∃ res, (r.map i).append v.ptr v.len v.type = res := ⟨_, rfl⟩
  rw [hres] at happend
  obtain ⟨hb, hshl⟩ := shl_eq hres
  rw [hshl]
  refine ⟨happend.1, ?_, fun j hj => Function.update_of_ne hj ..⟩
  dsimp only [set]
  rw [Function.update_self]
  exact happend.2

end Registers

theorem insertFields_cons {field : ℤ} {out : Outcome} (hfield : 0 ≤ field ∧ field < 16)
    (hs : r.shl i (.buffer (r.key field)) = (s, out)) (hout : out ≠ .undefined) :
    insertFields i r (field :: rule) = insertFields i s rule := by
  rw [Registers.key] at hs
  rw [insertFields, Registers.getFlowkey_of hfield, Option.bind_eq_bind, Option.bind_some]
  simp only [hs]
  exact if_neg hout

/-- The loop joins the fields to what the register holds and changes no other. -/
theorem insertFields_ok : ∀ (rule : List ℤ) (r : Registers),
    (∀ field ∈ rule, (0 ≤ field ∧ field < 16) ∧ field.toNat ≠ i) →
    ∃ s, insertFields i r rule = some s ∧
      (s.map i).bytes = join 256 r.key (r.map i).bytes rule ∧ ∀ j ≠ i, s.map j = r.map j
  | [], r, _ => ⟨r, rfl, rfl, fun _ _ => rfl⟩
  | field :: rule, r, h => by
    obtain ⟨hfield, hne⟩ := h field List.mem_cons_self
    have hrule := fun f hf => h f (List.mem_cons_of_mem field hf)
    obtain ⟨⟨u, out⟩, hu⟩ : ∃ res, r.shl i (.buffer (r.key field)) = res := ⟨_, rfl⟩
    obtain ⟨hout, hkey, hsame⟩ := r.shl_key i (v := .buffer (r.key field)) (r.key_le field)
    rw [hu] at hout hkey hsame
    obtain ⟨s, hs, hjoin, hothers⟩ := insertFields_ok rule u hrule
    refine ⟨s, (insertFields_cons hfield hu hout).trans hs, ?_,
      fun j hj => (hothers j hj).trans (hsame j hj)⟩
    have hkeys : ∀ f ∈ rule, u.key f = r.key f :=
      fun f hf => congrArg (·.bytes) (hsame f.toNat (hrule f hf).2)
    rw [hjoin, hkey, join_congr rule _ hkeys, join, Shl.ptr]
    split_ifs <;> rfl

/-- The key of a packet is the fields of the rule joined, however often it is asked for. -/
theorem Composite.calculate (h : Composite k id rule) (hr : r.Fresh id) :
    ∃ s t, calculateFlowkey k r id = some s ∧ s.key id = join 256 r.key [] rule ∧
      calculateFlowkey k s id = some t ∧ t.key id = s.key id := by
  have hbuiltin : ¬id < k.builtinTokens := not_lt.2 h.composite
  have hplain : ∀ field ∈ rule, (0 ≤ field ∧ field < 16) ∧ field.toNat ≠ id.toNat := by
    intro field hfield
    have := h.plain field hfield
    have := h.composite
    have := h.register
    omega
  have hcompute : ∀ {u : Registers}, u.Fresh id →
      ∃ v, calculateFlowkey k u id = some v ∧ v.key id = join 256 u.key [] rule ∧
        ∀ field ∈ rule, v.key field = u.key field := by
    intro u hu
    obtain ⟨v, hv, hkey, hsame⟩ := insertFields_ok (i := id.toNat) rule u hplain
    refine ⟨v, ?_, ?_, fun field hfield =>
      congrArg (·.bytes) (hsame _ (hplain field hfield).2)⟩
    · unfold calculateFlowkey
      rw [if_neg hbuiltin, Registers.getFlowkey_of h.register]
      dsimp only [Option.bind_eq_bind, Option.bind_some]
      have hlength : (u.map id.toNat).getLength = 0 := hu
      rw [if_pos hlength, if_pos h.index, h.fields, hv]
    · have hempty : (u.map id.toNat).bytes = [] := Registers.fresh_iff.1 hu
      exact hkey.trans (by rw [hempty])
  obtain ⟨s, hs, hkey, hsame⟩ := hcompute hr
  by_cases hempty : s.Fresh id
  · obtain ⟨t, ht, hkey', -⟩ := hcompute hempty
    exact ⟨s, t, hs, hkey, ht, by rw [hkey', hkey, join_congr rule _ hsame]⟩
  · refine ⟨s, s, hs, hkey, ?_, rfl⟩
    unfold calculateFlowkey
    rw [if_neg hbuiltin, Registers.getFlowkey_of h.register]
    exact if_neg hempty

/-- Packets whose registers have these lengths have the same key iff they have the same
registers. -/
def Identifies (k : Keys) (id : ℤ) (rule : List ℤ) (l l' : ℤ → ℕ) : Prop :=
  ∀ r r' s s', r.Fresh id → r'.Fresh id →
    (∀ field ∈ rule, (r.key field).length = l field) →
    (∀ field ∈ rule, (r'.key field).length = l' field) →
    calculateFlowkey k r id = some s → calculateFlowkey k r' id = some s' →
    (s.key id = s'.key id ↔ ∀ field ∈ rule, r.key field = r'.key field)

/-- Registers that hold these bytes. -/
def Registers.of (x : ℤ → List UInt8) (hx : ∀ id, (x id).length ≤ 256) : Registers where
  map i := { type := .unknown
             count := UInt16.ofNat (x i).length
             data := fun n => (x i).getD n 0
             digest := fun _ => 0 }
  fits i := by
    change (UInt16.ofNat _).toNat ≤ 256
    rw [UInt16.toNat_ofNat']
    exact (Nat.mod_le _ _).trans (hx i)

theorem Registers.of_key {x : ℤ → List UInt8} (hx : ∀ id, (x id).length ≤ 256) (hid : 0 ≤ id) :
    (Registers.of x hx).key id = x id := by
  obtain ⟨i, rfl⟩ := Int.eq_ofNat_of_zero_le hid
  have hcount : (UInt16.ofNat (x i).length).toNat = (x i).length :=
    UInt16.toNat_ofNat_of_lt' (lt_of_le_of_lt (hx i) (by decide))
  change (List.range (UInt16.ofNat (x i).length).toNat).map (fun n => (x i).getD n 0) = x i
  rw [hcount]
  exact List.ext_getElem (by simp) fun n hn _ => by
    simp at hn
    simp [hn]

theorem Composite.identifies_iff_separates (h : Composite k id rule)
    (hl : ∀ field ∈ rule, l field ≤ 256) (hl' : ∀ field ∈ rule, l' field ≤ 256) :
    Identifies k id rule l l' ↔ Separates 256 UInt8 l l' rule := by
  have hkey : ∀ {r s : Registers}, r.Fresh id → calculateFlowkey k r id = some s →
      s.key id = join 256 r.key [] rule := by
    intro r s hr hs
    obtain ⟨s', t, hs', hkey, -⟩ := h.calculate hr
    rw [hs, Option.some.injEq] at hs'
    rw [hs', hkey]
  constructor
  · intro hid x y hx hy
    have hof : ∀ (z : ℤ → List UInt8) (m : ℤ → ℕ), (∀ i ∈ rule, m i ≤ 256) →
        (∀ i ∈ rule, (z i).length = m i) →
        ∃ u : Registers, u.Fresh id ∧ ∀ field ∈ rule, u.key field = z field := by
      intro z m hm hz
      have hfits : ∀ i, (if i ∈ rule then z i else []).length ≤ 256 := by
        intro i
        split_ifs with hi
        · exact (hz i hi).trans_le (hm i hi)
        · exact Nat.zero_le _
      refine ⟨.of _ hfits, ?_, fun field hfield => ?_⟩
      · rw [Registers.fresh_iff, Registers.of_key hfits h.register.1, if_neg fun hi => ?_]
        exact absurd (h.plain id hi).2 (not_lt.2 h.composite)
      · rw [Registers.of_key hfits (h.plain field hfield).1, if_pos hfield]
    obtain ⟨u, hu, hux⟩ := hof x l hl hx
    obtain ⟨v, hv, hvy⟩ := hof y l' hl' hy
    obtain ⟨s, -, hs, -⟩ := h.calculate hu
    obtain ⟨t, -, ht, -⟩ := h.calculate hv
    have := hid u v s t hu hv (fun i hi => by rw [hux i hi, hx i hi])
      (fun i hi => by rw [hvy i hi, hy i hi]) hs ht
    rw [hkey hu hs, hkey hv ht, join_congr rule _ hux, join_congr rule _ hvy] at this
    rw [this]
    refine forall₂_congr fun i hi => ?_
    rw [hux i hi, hvy i hi]
  · intro hsep r r' s s' hr hr' hlen hlen' hs hs'
    rw [hkey hr hs, hkey hr' hs']
    exact hsep r.key r'.key hlen hlen'

/-- A composite key can be computed, and computing it again changes nothing.  It tells the packets
with registers of given lengths apart iff each field is as long in both and kept, or the keys differ
in length; so it does where the lengths are the same in both and add up to a register's. -/
theorem composite_key_identifies (h : Composite k id rule) (hl : ∀ field ∈ rule, l field ≤ 256)
    (hl' : ∀ field ∈ rule, l' field ≤ 256) :
    (∀ r, r.Fresh id → ∃ s t, calculateFlowkey k r id = some s ∧
      calculateFlowkey k s id = some t ∧ t.key id = s.key id) ∧
    (Identifies k id rule l l' ↔
      (∀ field ∈ rule, l field = l' field ∧ field ∈ kept 256 l 0 rule) ∨
        ((kept 256 l 0 rule).map l).sum ≠ ((kept 256 l' 0 rule).map l').sum) ∧
    ((∀ field ∈ rule, l field = l' field) → (rule.map l).sum ≤ 256 →
      Identifies k id rule l l') := by
  have : Nontrivial UInt8 := ⟨0, 1, by decide⟩
  have hiff := (h.identifies_iff_separates hl hl').trans separates_iff
  refine ⟨fun r hr => ?_, hiff, fun hsame hsum => ?_⟩
  · obtain ⟨s, t, hs, -, ht, hkey⟩ := h.calculate hr
    exact ⟨s, t, hs, ht, hkey⟩
  · have hkept : kept 256 l 0 rule = rule := kept_eq_self rule 0 (by omega)
    exact hiff.2 (.inl fun field hfield => ⟨hsame field hfield, by rwa [hkept]⟩)

/-- A key of two registers, as it is configured. -/
theorem composite_two : ∃ k,
    configureKeys [("a", 0), ("b", 1), ("a-b", 2)] ["a-b"] = some k ∧ Composite k 2 [0, 1] :=
  ⟨_, rfl, by decide, by decide, by decide, by decide, by decide⟩

theorem composite_key_identifies_words : ∃ k,
    configureKeys [("a", 0), ("b", 1), ("a-b", 2)] ["a-b"] = some k ∧
      Identifies k 2 [0, 1] (fun _ => 4) (fun _ => 4) := by
  obtain ⟨k, hconf, hk⟩ := composite_two
  exact ⟨k, hconf, (composite_key_identifies hk (by decide) (by decide)).2.2 (fun _ _ => rfl)
    (by decide)⟩

/-- `a` and `bc`, or `ab` and `c`. -/
def splitAt (n : ℕ) (field : ℤ) : List UInt8 :=
  if field = 0 then [97, 98, 99].take n else if field = 1 then [97, 98, 99].drop n else []

theorem splitAt_le (n : ℕ) (field : ℤ) : (splitAt n field).length ≤ 256 := by
  unfold splitAt
  split_ifs <;> simp
  omega

/-- The key is the same wherever the bytes are split. -/
theorem not_identifies : ¬∀ (k : Keys) (id : ℤ) (rule : List ℤ) (r r' s s' : Registers),
    Composite k id rule → r.Fresh id → r'.Fresh id →
    calculateFlowkey k r id = some s → calculateFlowkey k r' id = some s' →
    (s.key id = s'.key id ↔ ∀ field ∈ rule, r.key field = r'.key field) := by
  intro h
  obtain ⟨k, -, hk⟩ := composite_two
  have hempty : ∀ n, (Registers.of (splitAt n) (splitAt_le n)).Fresh 2 := fun n => by
    rw [Registers.fresh_iff, Registers.of_key (splitAt_le n) (by decide)]
    rfl
  have hjoin : ∀ n, join 256 (Registers.of (splitAt n) (splitAt_le n)).key [] [0, 1] =
      join 256 (splitAt n) [] [0, 1] := fun n =>
    join_congr _ _ fun field hfield =>
      Registers.of_key (splitAt_le n) (hk.plain field hfield).1
  obtain ⟨s, -, hs, hkey, -⟩ := hk.calculate (hempty 1)
  obtain ⟨s', -, hs', hkey', -⟩ := hk.calculate (hempty 2)
  have hsame : s.key 2 = s'.key 2 := by
    rw [hkey, hkey', hjoin, hjoin]
    decide
  have hfield := (h k 2 [0, 1] _ _ s s' hk (hempty 1) (hempty 2) hs hs').1 hsame 0 (by decide)
  rw [Registers.of_key (splitAt_le 1) le_rfl, Registers.of_key (splitAt_le 2) le_rfl] at hfield
  revert hfield
  decide

end DStreamon.EventFactory
