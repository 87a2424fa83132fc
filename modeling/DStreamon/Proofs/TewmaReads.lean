import DStreamon.Proofs.Tewma
import Mathlib.Order.Bounds.Basic

/-!
# Reading the sketch is pure

A `get` writes time stamps and decayed values into cells of other keys too.  Of two runs, one with
more reads, every cell of the second is that of the first decayed up to its own time stamp, and
what a call returns is decayed to its time in both.
-/

namespace DStreamon

open IReadBuffer MixedOp

variable {F K : Type} [Field F] [LinearOrder F] [IReadBuffer K]

namespace TewmaCounter

variable {a b a' b' s s' : TewmaCounter F} {key key' : K} {now args : UInt64} {hs : List ℕ}
  {timestamp : ℤ} {m : F}

/-- `b` is `a` with more reads, none of them later than `now`. -/
structure Ahead (now : UInt64) (a b : TewmaCounter F) : Prop extends Alike a b where
  beta_pos : 0 < a.beta
  beta_lt : a.beta < 1
  nonneg : ∀ x, 0 ≤ a.c x
  start : ∀ x, 0 ≤ a.t x
  ahead : ∀ x, a.t x ≤ b.t x
  past : ∀ x, b.t x ≤ timeT now
  c : ∀ x, b.c x = a.c x * a.beta ^ (b.t x - a.t x).toNat

/-! ## When a call fails -/

/-- The places are as many, or fail, by the splitter's length and pointer alone. -/
theorem places_length (shash : ℕ) : ∀ (n : ℕ) (sp sp' : HashSplitter), sp.length = sp'.length →
    sp.ptr = sp'.ptr →
    (places shash n sp).map List.length = (places shash n sp').map List.length
  | 0, _, _, _, _ => rfl
  | n + 1, sp, sp', hlength, hptr => by
    have ih := places_length shash n { sp with ptr := sp.ptr + shash }
      { sp' with ptr := sp'.ptr + shash } hlength (by simp only [hptr])
    rw [places, places, HashSplitter.next, HashSplitter.next, hlength, hptr]
    rw [hptr] at ih
    split_ifs
    · rfl
    · simp only [hlength] at ih
      dsimp only [Option.bind_eq_bind, Option.bind_some]
      cases hp : places shash n { sp with length := sp'.length, ptr := sp'.ptr + shash } <;>
        cases hp' : places shash n { sp' with ptr := sp'.ptr + shash } <;>
        simp_all

omit [Field F] [LinearOrder F] in
theorem cells_isSome_congr (hsize : (getHash key).size = (getHash key').size) :
    (s.cells key).isSome = (s.cells key').isSome := by
  have hlen := places_length s.shash s.nhash (.set (getHash key) 1)
    (.set (getHash key') 1) (by simp only [HashSplitter.set, hsize]) rfl
  unfold cells
  split_ifs
  · rfl
  · rcases hp : places s.shash s.nhash (.set (getHash key) 1) with _ | _ | ⟨h, hs⟩ <;>
      rcases hp' : places s.shash s.nhash (.set (getHash key') 1) with _ | _ | ⟨h', hs'⟩ <;>
      simp_all

theorem timeT_neg (h : ¬ args.toNat < 2 ^ 63) : timeT args < 0 := by
  have hlt := args.toNat_lt
  have hnat : args.toBitVec.toNat = args.toNat := rfl
  rw [timeT, Int64.toInt, UInt64.toBitVec_toInt64, BitVec.toInt_eq_toNat_cond, if_neg (by omega)]
  omega

/-- The loop over one cell at least fails where the time is before 0. -/
theorem decayLoop_eq_none {h : ℕ} (hstart : ∀ x, 0 ≤ s.t x) (hneg : timestamp < 0) :
    decayLoop timestamp (h :: hs) s m = none := by
  have := hstart h
  rw [decayLoop, decay]
  simp only [show timestamp - s.t h < 0 by omega, if_true]
  rfl

theorem answer_eq_none {o : TewmaOp F K} (hstart : ∀ x, 0 ≤ s.t x)
    (hno : s.cells o.key = none ∨ ¬ o.args.toNat < 2 ^ 63) : o.answer s = none := by
  have hloop : ∀ {r : ℕ × List ℕ}, s.cells o.key = some r →
      decayLoop (timeT o.args) (r.1 :: r.2) s (s.c r.1) = none := fun hc =>
    decayLoop_eq_none hstart (timeT_neg (hno.resolve_left (by simp [hc])))
  cases o with
  | add key quantity args =>
    change TewmaCounter.add s key quantity args = none
    rw [TewmaCounter.add]
    cases hc : s.cells key with
    | none => rfl
    | some r =>
      obtain ⟨h, hs⟩ := r
      have := hloop hc
      simp only [TewmaOp.args] at this
      simp only [Option.bind_eq_bind, Option.bind_some, this, Option.bind_none]
  | get key args =>
    change TewmaCounter.get s key args = none
    rw [TewmaCounter.get]
    cases hc : s.cells key with
    | none => rfl
    | some r => exact hloop hc

/-- What the loop over a key's cells returns is the least of them. -/
theorem decayLoop_least [IsStrictOrderedRing F] {h : ℕ} (hpos : 0 < s.beta) (hlt : s.beta < 1)
    (hnonneg : ∀ x, 0 ≤ s.c x) (hd : decayLoop timestamp (h :: hs) s (s.c h) = some (s', m)) :
    IsLeast (s'.c '' {x | x ∈ h :: hs}) m := by
  obtain ⟨hdec, hm, -, hle⟩ := decayLoop_ok hd
  have hh : h ∈ h :: hs := List.mem_cons_self
  refine ⟨?_, Set.forall_mem_image.2 hle⟩
  rcases hm with rfl | ⟨x, hx, rfl⟩
  · refine ⟨h, hh, le_antisymm ?_ (hle h hh)⟩
    rw [hdec.c, if_pos hh]
    exact mul_le_of_le_one_right (hnonneg h) (pow_le_one₀ hpos.le hlt.le)
  · exact ⟨x, hx, rfl⟩

/-! ## One call on both -/

variable [IsStrictOrderedRing F]

omit [LinearOrder F] [IsStrictOrderedRing F] in
/-- From one time stamp to the next and on is to the last. -/
theorem pow_decay (beta x : F) {t₀ t₁ t₂ : ℤ} (h₁ : t₀ ≤ t₁) (h₂ : t₁ ≤ t₂) :
    x * beta ^ (t₁ - t₀).toNat * beta ^ (t₂ - t₁).toNat = x * beta ^ (t₂ - t₀).toNat := by
  have hsum : (t₂ - t₀).toNat = (t₁ - t₀).toNat + (t₂ - t₁).toNat := by omega
  rw [hsum, pow_add, mul_assoc]

omit [IsStrictOrderedRing F] in
/-- A read of the second counter alone. -/
theorem Ahead.read (h : Ahead now a b) (hle : timeT now ≤ timeT args)
    (hd : Decayed (timeT args) hs b b') : Ahead args a b' := by
  have hbeta : b.beta = a.beta := h.beta
  refine ⟨h.toAlike.trans hd.toAlike, h.beta_pos, h.beta_lt, h.nonneg, h.start, fun x => ?_,
    fun x => ?_, fun x => ?_⟩
  · rw [hd.t]
    split_ifs with hx
    · exact (h.ahead x).trans (hd.past x hx)
    · exact h.ahead x
  · rw [hd.t]
    split_ifs
    · exact le_rfl
    · exact (h.past x).trans hle
  · rw [hd.c, hd.t, h.c, hbeta]
    split_ifs with hx
    · exact pow_decay _ _ (h.ahead x) (hd.past x hx)
    · rfl

omit [IsStrictOrderedRing F] in
/-- Cells brought up to date in both are the same. -/
theorem Ahead.same (h : Ahead now a b) (hda : Decayed timestamp hs a a')
    (hdb : Decayed timestamp hs b b') {x : ℕ} (hx : x ∈ hs) :
    b'.t x = a'.t x ∧ b'.c x = a'.c x := by
  have hbeta : b.beta = a.beta := h.beta
  rw [hda.t, hdb.t, hda.c, hdb.c, h.c, hbeta]
  simp only [hx, if_true, true_and]
  exact pow_decay _ _ (h.ahead x) (hdb.past x hx)

theorem Ahead.decayed (h : Ahead now a b) (hle : timeT now ≤ timeT args)
    (hda : Decayed (timeT args) hs a a') (hdb : Decayed (timeT args) hs b b') :
    Ahead args a' b' := by
  have hread := h.read hle hdb
  refine ⟨⟨hread.beta.trans hda.beta.symm, hread.logbeta.trans hda.logbeta.symm,
    hread.nhash.trans hda.nhash.symm, hread.shash.trans hda.shash.symm⟩,
    hda.beta ▸ h.beta_pos, hda.beta ▸ h.beta_lt, fun x => ?_, fun x => ?_, fun x => ?_,
    hread.past, fun x => ?_⟩
  · rw [hda.c]
    split_ifs
    · exact mul_nonneg (h.nonneg x) (pow_nonneg h.beta_pos.le _)
    · exact h.nonneg x
  · rw [hda.t]
    split_ifs with hx
    · exact (h.start x).trans (hda.past x hx)
    · exact h.start x
  · by_cases hx : x ∈ hs
    · exact (h.same hda hdb hx).1.ge
    · have := hread.ahead x
      rwa [hda.t, if_neg hx]
  · by_cases hx : x ∈ hs
    · obtain ⟨ht, hc⟩ := h.same hda hdb hx
      rw [ht, hc, sub_self, Int.toNat_zero, pow_zero, mul_one]
    · have := hread.c x
      rwa [hda.c, if_neg hx, hda.t, if_neg hx, hda.beta]

omit [IsStrictOrderedRing F] in
/-- Raised to the same value they still are. -/
theorem Ahead.raise (h : Ahead now a b) (hsame : ∀ x ∈ hs, b.t x = a.t x ∧ b.c x = a.c x) (v : F) :
    Ahead now { a with c := raise v hs a.c } { b with c := raise v hs b.c } := by
  refine ⟨⟨h.beta, h.logbeta, h.nhash, h.shash⟩, h.beta_pos, h.beta_lt, fun x => ?_, h.start,
    h.ahead, h.past, fun x => ?_⟩
  · simp only [raise_eq]
    split_ifs
    · exact (h.nonneg x).trans (le_max_left _ _)
    · exact h.nonneg x
  · simp only [raise_eq]
    split_ifs with hx
    · obtain ⟨ht, hc⟩ := hsame x hx
      rw [ht, hc, sub_self, Int.toNat_zero, pow_zero, mul_one]
    · exact h.c x

theorem Ahead.nonneg_right (h : Ahead now a b) (x : ℕ) : 0 ≤ b.c x := by
  rw [h.c]
  exact mul_nonneg (h.nonneg x) (pow_nonneg h.beta_pos.le _)

/-- The loop over a key's cells ends in both and returns the same. -/
theorem Ahead.loop (h : Ahead now a b) (hle : now ≤ args) (hargs : args.toNat < 2 ^ 63) (h₁ : ℕ)
    (hs : List ℕ) : ∃ a' b' m, decayLoop (timeT args) (h₁ :: hs) a (a.c h₁) = some (a', m) ∧
      decayLoop (timeT args) (h₁ :: hs) b (b.c h₁) = some (b', m) ∧
      Decayed (timeT args) (h₁ :: hs) a a' ∧ Decayed (timeT args) (h₁ :: hs) b b' := by
  have hpast : ∀ x, b.t x ≤ timeT args := fun x => (h.past x).trans (timeT_mono hle hargs)
  have hbeta : b.beta = a.beta := h.beta
  have hpast' : ∀ x ∈ h₁ :: hs, a.t x ≤ timeT args := fun x _ => (h.ahead x).trans (hpast x)
  obtain ⟨⟨a', m⟩, ha⟩ := decayLoop_isSome (a.c h₁) hpast'
  obtain ⟨⟨b', m'⟩, hb⟩ := decayLoop_isSome (b.c h₁) fun x (_ : x ∈ h₁ :: hs) => hpast x
  obtain ⟨hda, -⟩ := decayLoop_ok ha
  obtain ⟨hdb, -⟩ := decayLoop_ok hb
  have hleast := decayLoop_least h.beta_pos h.beta_lt h.nonneg ha
  have hleast' := decayLoop_least (hbeta ▸ h.beta_pos) (hbeta ▸ h.beta_lt) h.nonneg_right hb
  have hcells : b'.c '' {x | x ∈ h₁ :: hs} = a'.c '' {x | x ∈ h₁ :: hs} :=
    Set.image_congr fun x hx => (h.same hda hdb hx).2
  rw [hcells] at hleast'
  obtain rfl := hleast.unique hleast'
  exact ⟨a', b', m, ha, hb, hda, hdb⟩

theorem Ahead.get (h : Ahead now a b) (hle : now ≤ args) (hargs : args.toNat < 2 ^ 63) {h₁ : ℕ}
    (hcells : a.cells key = some (h₁, hs)) :
    ∃ a' b' v, a.get key args = some (a', v) ∧ b.get key args = some (b', v) ∧
      Ahead args a' b' := by
  obtain ⟨a', b', m, ha, hb, hda, hdb⟩ := h.loop hle hargs h₁ hs
  refine ⟨a', b', m, ?_, ?_, h.decayed (timeT_mono hle hargs) hda hdb⟩
  · rw [TewmaCounter.get, hcells]
    exact ha
  · rw [TewmaCounter.get, h.toAlike.cells, hcells]
    exact hb

/-- An `add` fails in both where the value is too large. -/
theorem Ahead.add (h : Ahead now a b) (hle : now ≤ args) (hargs : args.toNat < 2 ^ 63) {h₁ : ℕ}
    (hcells : a.cells key = some (h₁, hs)) (quantity : F) :
    a.add key quantity args = none ∧ b.add key quantity args = none ∨
      ∃ a' b' v, a.add key quantity args = some (a', v) ∧ b.add key quantity args = some (b', v) ∧
        Ahead args a' b' := by
  obtain ⟨a', b', m, ha, hb, hda, hdb⟩ := h.loop hle hargs h₁ hs
  have hahead := h.decayed (timeT_mono hle hargs) hda hdb
  have hvalue : m + quantity * b'.logbeta = m + quantity * a'.logbeta := by rw [hahead.logbeta]
  rw [TewmaCounter.add, TewmaCounter.add, h.toAlike.cells, hcells]
  simp only [Option.bind_eq_bind, Option.bind_some, ha, hb, hvalue]
  split_ifs
  · exact .inr ⟨_, _, _, rfl, rfl, hahead.raise (fun x hx => h.same hda hdb hx) _⟩
  · exact .inl ⟨rfl, rfl⟩

/-- A call fails in both, or returns the same in both. -/
theorem Ahead.call {o : TewmaOp F K} (h : Ahead now a b) (hle : now ≤ o.args) :
    o.answer a = none ∧ o.answer b = none ∨
      ∃ a' b' v, o.answer a = some (a', v) ∧ o.answer b = some (b', v) ∧ Ahead o.args a' b' := by
  have hstart : ∀ x, 0 ≤ b.t x := fun x => (h.start x).trans (h.ahead x)
  cases hcells : a.cells o.key with
  | none =>
    have hcells' : b.cells o.key = none := (h.toAlike.cells o.key).trans hcells
    exact .inl ⟨answer_eq_none h.start (.inl hcells), answer_eq_none hstart (.inl hcells')⟩
  | some r =>
    by_cases hargs : o.args.toNat < 2 ^ 63
    · cases o with
      | get key args => exact .inr (h.get hle hargs hcells)
      | add key quantity args => exact h.add hle hargs hcells quantity
    · exact .inl ⟨answer_eq_none h.start (.inr hargs), answer_eq_none hstart (.inr hargs)⟩

/-- An inserted read fails only where every later call does. -/
theorem Ahead.extra (h : Ahead now a b) (key : K) (hle : now ≤ args)
    (hsize : ∀ k k' : K, (getHash k).size = (getHash k').size) :
    (b.get key args = none ∧ ∀ o : TewmaOp F K, args ≤ o.args → o.answer a = none) ∨
      ∃ b' v, b.get key args = some (b', v) ∧ Ahead args a b' := by
  have hstart : ∀ x, 0 ≤ b.t x := fun x => (h.start x).trans (h.ahead x)
  cases hcells : a.cells key with
  | none =>
    have hcells' : b.cells key = none := (h.toAlike.cells key).trans hcells
    refine .inl ⟨answer_eq_none (o := .get key args) hstart (.inl hcells'), fun o _ => ?_⟩
    have hnone := cells_isSome_congr (s := a) (hsize key o.key)
    rw [hcells, Option.isSome_none, eq_comm, Option.isSome_eq_false_iff, Option.isNone_iff_eq_none]
      at hnone
    exact answer_eq_none h.start (.inl hnone)
  | some r =>
    obtain ⟨h₁, hs⟩ := r
    by_cases hargs : args.toNat < 2 ^ 63
    · obtain ⟨-, b', m, -, hb, -, hdb⟩ := h.loop hle hargs h₁ hs
      refine .inr ⟨b', m, ?_, h.read (timeT_mono hle hargs) hdb⟩
      rw [TewmaCounter.get, h.toAlike.cells, hcells]
      exact hb
    · refine .inl ⟨answer_eq_none (o := .get key args) hstart (.inr hargs), fun o ho => ?_⟩
      refine answer_eq_none h.start (.inr fun hlt => hargs ?_)
      exact (UInt64.le_iff_toNat_le.1 ho).trans_lt hlt

/-! ## Runs -/

omit [IsStrictOrderedRing F] in
/-- Where every call fails nothing is returned. -/
theorem answers_eq_nil {ops : List (MixedOp F K)} (hops : ∀ o ∈ ops, args ≤ o.args)
    (hfail : ∀ o : TewmaOp F K, args ≤ o.args → o.answer a = none) :
    MixedOp.answers a (calls ops) = [] := by
  unfold calls
  cases hcalls : ops.filterMap call? with
  | nil => rfl
  | cons o os =>
    have ho : o ∈ ops.filterMap call? := hcalls ▸ List.mem_cons_self
    obtain ⟨o', ho', hcall⟩ := List.mem_filterMap.1 ho
    cases o' with
    | extra key args => cases hcall
    | call o' =>
      cases hcall
      rw [List.map_cons, MixedOp.answers, hfail o (hops _ ho')]

theorem Ahead.answers (hsize : ∀ k k' : K, (getHash k).size = (getHash k').size) :
    ∀ (ops : List (MixedOp F K)) {now : UInt64} {a b : TewmaCounter F}, Ahead now a b →
      (now :: ops.map MixedOp.args).Pairwise (· ≤ ·) →
      MixedOp.answers b ops = MixedOp.answers a (calls ops)
  | [], _, _, _, _, _ => rfl
  | .call o :: ops, now, a, b, h, hsorted => by
    obtain ⟨hnow, hsorted⟩ := List.pairwise_cons.1 hsorted
    have hcalls : calls (.call o :: ops) = .call o :: calls ops := rfl
    rw [hcalls, MixedOp.answers, MixedOp.answers]
    rcases h.call (hnow o.args (by simp [MixedOp.args])) with ⟨ha, hb⟩ | ⟨a', b', v, ha, hb, h'⟩
    · rw [ha, hb]
    · rw [ha, hb]
      exact congrArg (v :: ·) (h'.answers hsize ops hsorted)
  | .extra key args :: ops, now, a, b, h, hsorted => by
    obtain ⟨hnow, hsorted⟩ := List.pairwise_cons.1 hsorted
    have hcalls : calls (.extra key args :: ops) = calls ops := rfl
    have hget : ICounter.get (F := F) b key args = b.get key args := rfl
    rw [hcalls, MixedOp.answers, hget]
    rcases h.extra key (hnow args (by simp [MixedOp.args])) hsize with
      ⟨hb, hfail⟩ | ⟨b', v, hb, h'⟩
    · rw [hb]
      refine (answers_eq_nil (fun o ho => ?_) hfail).symm
      exact (List.pairwise_cons.1 hsorted).1 _ (List.mem_map_of_mem ho)
    · rw [hb]
      exact h'.answers hsize ops hsorted

omit [IsStrictOrderedRing F] in
theorem ahead_new {log : F → F} {nhash shash : ℕ} {beta : F}
    (hnew : new log nhash shash beta = some s) : Ahead 0 s s := by
  unfold new at hnew
  split_ifs at hnew with h
  cases hnew
  exact ⟨⟨rfl, rfl, rfl, rfl⟩, h.2.2.1, h.2.2.2, fun _ => le_rfl, fun _ => le_rfl, fun _ => le_rfl,
    fun _ => le_rfl, fun _ => by simp⟩

/-- Reads inserted anywhere into a sequence of calls, the time stamps of which do not decrease,
change nothing that the calls return.  The digests are of one length, as all there are. -/
theorem reads_are_pure {log : F → F} {nhash shash : ℕ} {beta : F} (ops : List (MixedOp F K))
    (hsize : ∀ k k' : K, (getHash k).size = (getHash k').size)
    (hnew : new log nhash shash beta = some s)
    (hsorted : (ops.map MixedOp.args).Pairwise (· ≤ ·)) :
    MixedOp.answers s ops = MixedOp.answers s (calls ops) :=
  (ahead_new hnew).answers hsize ops
    (List.pairwise_cons.2 ⟨fun _ _ => UInt64.zero_le, hsorted⟩)

/-- Two keys in turn, each read before and after. -/
def readBetween : List (MixedOp ℚ HashedBuffer) :=
  [.extra ⟨[2]⟩ 9, .call (.add ⟨[1]⟩ 3 10), .extra ⟨[1]⟩ 11, .call (.add ⟨[2]⟩ 1 12),
    .extra ⟨[1]⟩ 12, .call (.get ⟨[1]⟩ 13)]

theorem reads_are_pure_readBetween : ∃ s, new logHalf 2 8 (1 / 2) = some s ∧
    MixedOp.answers s readBetween = MixedOp.answers s (calls readBetween) := by
  obtain ⟨s, hnew⟩ := Option.isSome_iff_exists.1
    (show (new logHalf 2 8 (1 / 2)).isSome by decide +kernel)
  have hsize : ∀ k : HashedBuffer, (getHash k).size = 7 := fun _ => rfl
  exact ⟨s, hnew, reads_are_pure readBetween (fun k k' => (hsize k).trans (hsize k').symm) hnew
    (by decide)⟩

end TewmaCounter

end DStreamon
