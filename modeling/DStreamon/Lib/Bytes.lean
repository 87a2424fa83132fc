import Mathlib.Algebra.Group.Nat.Defs
import Mathlib.Data.List.Basic

/-!
# Checked reads of a memory

A memory is the list of its bytes.  A read past its end has no result.
-/

namespace Bytes

/-- Two bytes, the most significant one first. -/
def be16 (mem : List UInt8) (i : ℕ) : Option UInt16 := do
  let hi ← mem[i]?
  let lo ← mem[i + 1]?
  some (hi.toUInt16 <<< 8 ||| lo.toUInt16)

/-- Four bytes, the most significant one first. -/
def be32 (mem : List UInt8) (i : ℕ) : Option UInt32 := do
  let hi ← be16 mem i
  let lo ← be16 mem (i + 2)
  some (hi.toUInt32 <<< 16 ||| lo.toUInt32)

/-- Four bytes, the least significant one first. -/
def le32 (mem : List UInt8) (i : ℕ) : Option UInt32 := do
  let b₀ ← mem[i]?
  let b₁ ← mem[i + 1]?
  let b₂ ← mem[i + 2]?
  let b₃ ← mem[i + 3]?
  some (UInt32.ofNat (b₀.toNat + 2 ^ 8 * b₁.toNat + 2 ^ 16 * b₂.toNat + 2 ^ 24 * b₃.toNat))

/-- The `k` low bytes of a number, the least significant one first. -/
def le : ℕ → ℕ → List UInt8
  | 0, _ => []
  | k + 1, n => UInt8.ofNat (n % 256) :: le k (n / 256)

/-! ## C strings

Each takes the memory from its pointer on and counts from there.  There is no result where it runs
past the end. -/

/-- `strchr`: the next `c` before the terminating zero. -/
def strchr (c : UInt8) : List UInt8 → Option (Option ℕ)
  | [] => none
  | b :: bs =>
    if b = c then some (some 0)
    else if b = 0 then some none
    else (strchr c bs).map (Option.map (· + 1))

/-- Whether the string `s` starts here. -/
def startsWith : List UInt8 → List UInt8 → Option Bool
  | [], _ => some true
  | _ :: _, [] => none
  | c :: s, b :: bs => if b = c then startsWith s bs else some false

/-- `strstr`: the next `s` before the terminating zero. -/
def strstr (s : List UInt8) : List UInt8 → Option (Option ℕ)
  | [] => (startsWith s []).map fun yes => if yes then some 0 else none
  | b :: bs =>
    match startsWith s (b :: bs) with
    | none => none
    | some true => some (some 0)
    | some false => if b = 0 then some none else (strstr s bs).map (Option.map (· + 1))

/-- How many `c` there are up to something else. -/
def skip (c : UInt8) : List UInt8 → Option ℕ
  | [] => none
  | b :: bs => if b = c then (skip c bs).map (· + 1) else some 0

variable {m : List UInt8} {i : ℕ}

theorem getElem?_of_lt (h : i < m.length) : ∃ b, m[i]? = some b :=
  ⟨m[i], List.getElem?_eq_getElem h⟩

theorem lt_of_getElem? {b : UInt8} (h : m[i]? = some b) : i < m.length :=
  (List.getElem?_eq_some_iff.1 h).1

theorem drop_of_getElem? {b : UInt8} (h : m[i]? = some b) : m.drop i = b :: m.drop (i + 1) := by
  obtain ⟨hlt, rfl⟩ := List.getElem?_eq_some_iff.1 h
  exact List.drop_eq_getElem_cons hlt

theorem getElem?_of_drop {b : UInt8} {l : List UInt8} (h : m.drop i = b :: l) :
    m[i]? = some b ∧ m.drop (i + 1) = l := by
  constructor
  · rw [← Nat.add_zero i, ← List.getElem?_drop, h]
    rfl
  · rw [← List.drop_drop, h]
    rfl

theorem be16_of_lt (h : i + 2 ≤ m.length) : ∃ v, be16 m i = some v := by
  obtain ⟨hi, hhi⟩ := getElem?_of_lt (m := m) (i := i) (by omega)
  obtain ⟨lo, hlo⟩ := getElem?_of_lt (m := m) (i := i + 1) (by omega)
  exact ⟨hi.toUInt16 <<< 8 ||| lo.toUInt16, by simp [be16, hhi, hlo]⟩

theorem le_of_be16 {v : UInt16} (h : be16 m i = some v) : i + 2 ≤ m.length := by
  simp only [be16, Option.bind_eq_bind, Option.bind_eq_some_iff] at h
  obtain ⟨hi, -, lo, hlo, -⟩ := h
  exact lt_of_getElem? hlo

theorem be16_eq_none (h : m.length < i + 2) : be16 m i = none :=
  Option.eq_none_iff_forall_ne_some.2 fun _ hv => absurd (le_of_be16 hv) (Nat.not_le.2 h)

/-- The high byte of a word is the first. -/
theorem div_of_be16 {v : UInt16} (h : be16 m i = some v) :
    ∃ b, m[i]? = some b ∧ v.toNat / 2 ^ 8 = b.toNat := by
  simp only [be16, Option.bind_eq_bind, Option.bind_eq_some_iff, Option.some.injEq] at h
  obtain ⟨hi, hhi, lo, -, rfl⟩ := h
  refine ⟨hi, hhi, ?_⟩
  have hhi := hi.toNat_lt
  have hlo := lo.toNat_lt
  have hshift : (hi.toUInt16 <<< 8).toNat = hi.toNat <<< 8 := by
    rw [UInt16.toNat_shiftLeft, UInt8.toNat_toUInt16, Nat.shiftLeft_eq, Nat.shiftLeft_eq]
    exact Nat.mod_eq_of_lt (by change hi.toNat * 256 < _; omega)
  rw [UInt16.toNat_or, hshift, UInt8.toNat_toUInt16, ← Nat.shiftLeft_add_eq_or_of_lt hlo,
    Nat.shiftLeft_eq]
  omega

theorem be32_of_lt (h : i + 4 ≤ m.length) : ∃ v, be32 m i = some v := by
  obtain ⟨hi, hhi⟩ := be16_of_lt (m := m) (i := i) (by omega)
  obtain ⟨lo, hlo⟩ := be16_of_lt (m := m) (i := i + 2) (by omega)
  exact ⟨hi.toUInt32 <<< 16 ||| lo.toUInt32, by simp [be32, hhi, hlo]⟩

theorem be32_eq_none (h : m.length < i + 4) : be32 m i = none := by
  cases hhi : be16 m i with
  | none => simp [be32, hhi]
  | some hi => simp [be32, hhi, be16_eq_none (m := m) (i := i + 2) (by omega)]

@[simp] theorem length_le : ∀ (k n : ℕ), (le k n).length = k
  | 0, _ => rfl
  | k + 1, n => by rw [le, List.length_cons, length_le k]

theorem le32_eq_some {w : UInt32} (h : le32 m i = some w) : ∃ b₀ b₁ b₂ b₃ rest,
    m.drop i = b₀ :: b₁ :: b₂ :: b₃ :: rest ∧
      w.toNat = b₀.toNat + 2 ^ 8 * b₁.toNat + 2 ^ 16 * b₂.toNat + 2 ^ 24 * b₃.toNat := by
  simp only [le32, Option.bind_eq_bind, Option.bind_eq_some_iff, Option.some.injEq] at h
  obtain ⟨b₀, h₀, b₁, h₁, b₂, h₂, b₃, h₃, rfl⟩ := h
  refine ⟨b₀, b₁, b₂, b₃, m.drop (i + 4), ?_, ?_⟩
  · rw [drop_of_getElem? h₀, drop_of_getElem? h₁, drop_of_getElem? h₂, drop_of_getElem? h₃]
  · rw [UInt32.toNat_ofNat_of_lt']
    have := b₀.toNat_lt
    have := b₁.toNat_lt
    have := b₂.toNat_lt
    have := b₃.toNat_lt
    rw [UInt32.size]
    omega

theorem le32_of_drop {b₀ b₁ b₂ b₃ : UInt8} {rest : List UInt8}
    (h : m.drop i = b₀ :: b₁ :: b₂ :: b₃ :: rest) : le32 m i = some (UInt32.ofNat
      (b₀.toNat + 2 ^ 8 * b₁.toNat + 2 ^ 16 * b₂.toNat + 2 ^ 24 * b₃.toNat)) := by
  have hget : ∀ j, m[i + j]? = (b₀ :: b₁ :: b₂ :: b₃ :: rest)[j]? := fun j => by
    rw [← h, List.getElem?_drop]
  have h₀ : m[i]? = some b₀ := hget 0
  have h₁ : m[i + 1]? = some b₁ := hget 1
  have h₂ : m[i + 2]? = some b₂ := hget 2
  have h₃ : m[i + 3]? = some b₃ := hget 3
  simp only [le32, h₀, h₁, h₂, h₃, Option.bind_eq_bind, Option.bind_some]

theorem le32_of_lt (h : i + 4 ≤ m.length) : ∃ w, le32 m i = some w := by
  obtain ⟨b₀, h₀⟩ := getElem?_of_lt (m := m) (i := i) (by omega)
  obtain ⟨b₁, h₁⟩ := getElem?_of_lt (m := m) (i := i + 1) (by omega)
  obtain ⟨b₂, h₂⟩ := getElem?_of_lt (m := m) (i := i + 2) (by omega)
  obtain ⟨b₃, h₃⟩ := getElem?_of_lt (m := m) (i := i + 3) (by omega)
  simp only [le32, h₀, h₁, h₂, h₃, Option.bind_eq_bind, Option.bind_some]
  exact ⟨_, rfl⟩

theorem le32_eq_none (h : m.length < i + 4) : le32 m i = none := by
  refine Option.eq_none_iff_forall_ne_some.2 fun w hw => ?_
  obtain ⟨b₀, b₁, b₂, b₃, rest, hdrop, -⟩ := le32_eq_some hw
  have := congrArg List.length hdrop
  simp only [List.length_drop, List.length_cons] at this
  omega

/-- A number written in four bytes and read back. -/
theorem le32_le {n : ℕ} (hn : n < 2 ^ 32) (pre : List UInt8) {post : List UInt8}
    (hi : pre.length = i) :
    le32 (pre ++ (le 4 n ++ post)) i = some (UInt32.ofNat n) := by
  have hdrop : (pre ++ (le 4 n ++ post)).drop i = UInt8.ofNat (n % 256) ::
      UInt8.ofNat (n / 256 % 256) :: UInt8.ofNat (n / 256 / 256 % 256) ::
        UInt8.ofNat (n / 256 / 256 / 256 % 256) :: post := by
    rw [← hi, List.drop_left]
    rfl
  rw [le32_of_drop hdrop]
  simp only [UInt8.toNat_ofNat']
  congr 2
  omega

/-! ## What the searches find -/

section Search

variable {c : UInt8} {s l : List UInt8}

theorem strchr_found : ∀ {l : List UInt8} {i : ℕ}, strchr c l = some (some i) →
    ∃ a b, l = a ++ c :: b ∧ a.length = i ∧ c ∉ a ∧ 0 ∉ a
  | [], i, h => by cases h
  | d :: l, i, h => by
    rw [strchr] at h
    by_cases hc : d = c
    · rw [if_pos hc] at h
      cases h
      exact ⟨[], l, by rw [hc]; rfl, rfl, List.not_mem_nil, List.not_mem_nil⟩
    · rw [if_neg hc] at h
      by_cases hz : d = 0
      · rw [if_pos hz] at h
        cases h
      · rw [if_neg hz] at h
        obtain ⟨o, ho, hi⟩ := Option.map_eq_some_iff.1 h
        obtain ⟨j, rfl, rfl⟩ := Option.map_eq_some_iff.1 hi
        obtain ⟨a, b, rfl, rfl, hca, hza⟩ := strchr_found ho
        refine ⟨d :: a, b, rfl, rfl, ?_, ?_⟩
        · exact fun hmem => (List.mem_cons.1 hmem).elim (fun h => hc h.symm) hca
        · exact fun hmem => (List.mem_cons.1 hmem).elim (fun h => hz h.symm) hza

theorem strchr_append : ∀ {a b : List UInt8}, c ∉ a → 0 ∉ a →
    strchr c (a ++ c :: b) = some (some a.length)
  | [], b, _, _ => if_pos rfl
  | d :: a, b, hc, hz => by
    have hdc : d ≠ c := fun h => hc (by rw [h]; exact List.mem_cons_self)
    have hdz : d ≠ 0 := fun h => hz (by rw [h]; exact List.mem_cons_self)
    rw [List.cons_append, strchr, if_neg hdc, if_neg hdz,
      strchr_append (fun h => hc (List.mem_cons_of_mem _ h))
        (fun h => hz (List.mem_cons_of_mem _ h))]
    rfl

theorem startsWith_true : ∀ {s l : List UInt8}, startsWith s l = some true → s <+: l
  | [], l, _ => List.nil_prefix
  | _ :: _, [], h => by cases h
  | c :: s, b :: l, h => by
    rw [startsWith] at h
    by_cases hb : b = c
    · rw [if_pos hb] at h
      rw [hb]
      exact List.cons_prefix_cons.2 ⟨rfl, startsWith_true h⟩
    · rw [if_neg hb] at h
      cases h

theorem startsWith_of_length : ∀ {s l : List UInt8}, s.length ≤ l.length →
    startsWith s l = some (decide (s <+: l))
  | [], l, _ => by simp [startsWith]
  | _ :: _, [], h => absurd h (by simp)
  | c :: s, b :: l, h => by
    rw [startsWith]
    by_cases hb : b = c
    · rw [if_pos hb, startsWith_of_length (Nat.le_of_succ_le_succ h)]
      simp [List.cons_prefix_cons, hb]
    · rw [if_neg hb]
      simp [List.cons_prefix_cons, Ne.symm hb]

theorem startsWith_append (s b : List UInt8) : startsWith s (s ++ b) = some true := by
  rw [startsWith_of_length (by simp)]
  simp

/-- The first `s`. -/
theorem strstr_found : ∀ {l : List UInt8} {i : ℕ}, strstr s l = some (some i) →
    ∃ a b, l = a ++ (s ++ b) ∧ a.length = i ∧ 0 ∉ a ∧ ∀ j < i, ¬ s <+: l.drop j
  | [], i, h => by
    rw [strstr] at h
    obtain ⟨yes, hyes, hi⟩ := Option.map_eq_some_iff.1 h
    cases yes with
    | false => cases hi
    | true =>
      cases hi
      obtain ⟨b, hb⟩ := startsWith_true hyes
      exact ⟨[], b, hb.symm, rfl, List.not_mem_nil, fun j hj => absurd hj (Nat.not_lt_zero j)⟩
  | d :: l, i, h => by
    rw [strstr] at h
    cases hst : startsWith s (d :: l) with
    | none =>
      rw [hst] at h
      cases h
    | some yes =>
      rw [hst] at h
      cases yes with
      | true =>
        cases h
        obtain ⟨b, hb⟩ := startsWith_true hst
        exact ⟨[], b, hb.symm, rfl, List.not_mem_nil, fun j hj => absurd hj (Nat.not_lt_zero j)⟩
      | false =>
        simp only at h
        by_cases hz : d = 0
        · rw [if_pos hz] at h
          cases h
        · rw [if_neg hz] at h
          obtain ⟨o, ho, hi⟩ := Option.map_eq_some_iff.1 h
          obtain ⟨j, rfl, rfl⟩ := Option.map_eq_some_iff.1 hi
          obtain ⟨a, b, rfl, rfl, hza, hfirst⟩ := strstr_found ho
          refine ⟨d :: a, b, rfl, rfl, fun hmem => ?_, fun j hj => ?_⟩
          · exact (List.mem_cons.1 hmem).elim (fun h => hz h.symm) hza
          · cases j with
            | zero =>
              intro hpre
              rw [List.drop_zero] at hpre
              rw [startsWith_of_length hpre.length_le, decide_eq_true hpre] at hst
              cases hst
            | succ j => exact hfirst j (Nat.lt_of_succ_lt_succ hj)

theorem strstr_append : ∀ {a b : List UInt8}, 0 ∉ a →
    (∀ j < a.length, ¬ s <+: (a ++ (s ++ b)).drop j) →
    strstr s (a ++ (s ++ b)) = some (some a.length)
  | [], b, _, _ => by
    rw [List.nil_append]
    have hst := startsWith_append s b
    cases hl : s ++ b with
    | nil =>
      rw [hl] at hst
      rw [strstr, hst]
      rfl
    | cons d l =>
      rw [hl] at hst
      rw [strstr, hst]
      rfl
  | d :: a, b, hz, hfirst => by
    have hdz : d ≠ 0 := fun h => hz (by rw [h]; exact List.mem_cons_self)
    have hpre : ¬ s <+: d :: (a ++ (s ++ b)) := hfirst 0 (Nat.succ_pos _)
    have hst : startsWith s (d :: (a ++ (s ++ b))) = some false := by
      rw [startsWith_of_length (by simp; omega), decide_eq_false hpre]
    rw [List.cons_append, strstr, hst]
    simp only
    rw [if_neg hdz, strstr_append (fun h => hz (List.mem_cons_of_mem _ h))
      fun j hj => hfirst (j + 1) (Nat.succ_lt_succ hj)]
    rfl

theorem skip_found : ∀ {l : List UInt8} {i : ℕ}, skip c l = some i →
    ∃ d b, l = List.replicate i c ++ d :: b ∧ d ≠ c
  | [], i, h => by cases h
  | d :: l, i, h => by
    rw [skip] at h
    by_cases hc : d = c
    · rw [if_pos hc] at h
      obtain ⟨j, hj, rfl⟩ := Option.map_eq_some_iff.1 h
      obtain ⟨d', b, rfl, hd'⟩ := skip_found hj
      exact ⟨d', b, by rw [hc]; rfl, hd'⟩
    · rw [if_neg hc] at h
      cases h
      exact ⟨d, l, rfl, hc⟩

theorem skip_append {d : UInt8} {b : List UInt8} (hd : d ≠ c) :
    ∀ i, skip c (List.replicate i c ++ d :: b) = some i
  | 0 => if_neg hd
  | i + 1 => by
    rw [List.replicate_succ, List.cons_append, skip, if_pos rfl, skip_append hd i]
    rfl

/-! A terminating zero ends every search. -/

theorem strchr_total (c : UInt8) : ∀ {l : List UInt8}, 0 ∈ l → ∃ r, strchr c l = some r
  | b :: l, h => by
    rw [strchr]
    split_ifs with hc hz
    · exact ⟨_, rfl⟩
    · exact ⟨_, rfl⟩
    · obtain ⟨r, hr⟩ := strchr_total c ((List.mem_cons.1 h).resolve_left (Ne.symm hz))
      exact ⟨_, by rw [hr, Option.map_some]⟩

theorem startsWith_total : ∀ {s l : List UInt8}, 0 ∈ l → 0 ∉ s → ∃ yes, startsWith s l = some yes
  | [], _, _, _ => ⟨true, by rw [startsWith]⟩
  | c :: s, b :: l, hl, hs => by
    rw [startsWith]
    split_ifs with hb
    · have hz : 0 ≠ b := fun h => hs (by rw [h, hb]; exact List.mem_cons_self)
      exact startsWith_total ((List.mem_cons.1 hl).resolve_left hz)
        fun h => hs (List.mem_cons_of_mem c h)
    · exact ⟨_, rfl⟩

theorem strstr_total (hs : 0 ∉ s) : ∀ {l : List UInt8}, 0 ∈ l → ∃ r, strstr s l = some r
  | b :: l, h => by
    obtain ⟨yes, hyes⟩ := startsWith_total h hs
    rw [strstr, hyes]
    cases yes with
    | true => exact ⟨_, rfl⟩
    | false =>
      dsimp only
      split_ifs with hz
      · exact ⟨_, rfl⟩
      · obtain ⟨r, hr⟩ := strstr_total hs ((List.mem_cons.1 h).resolve_left (Ne.symm hz))
        exact ⟨_, by rw [hr, Option.map_some]⟩

theorem skip_total (hc : c ≠ 0) : ∀ {l : List UInt8}, 0 ∈ l → ∃ i, skip c l = some i
  | b :: l, h => by
    rw [skip]
    split_ifs with hb
    · have hz : 0 ≠ b := fun h => hc (hb ▸ h.symm)
      obtain ⟨i, hi⟩ := skip_total hc ((List.mem_cons.1 h).resolve_left hz)
      exact ⟨_, by rw [hi, Option.map_some]⟩
    · exact ⟨_, rfl⟩

end Search

end Bytes
