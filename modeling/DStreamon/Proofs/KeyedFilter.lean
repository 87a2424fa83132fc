import DStreamon.Proofs.SwapBF

/-!
# A filter remembers the keys its `KHASH` hashes the same way again

The digests of a key that is enough for one block are those of its insertion, and the bits set then
stay set until the filter is reset.
-/

namespace DStreamon

namespace KeyedFilter

open BLOOMFILTER (Grows Has)

variable {h : HASH} {nhash shash size : ℕ} {div : Bool} {f f' : KeyedFilter} {key : List UInt8}
  {H : ℕ → ℕ}

/-- The digests of a filter that the constructor made, after any calls. -/
def Made (h : HASH) (nhash shash : ℕ) (f : KeyedFilter) : Prop :=
  f.filter.nhash = nhash ∧ KHASH.Made h nhash shash f.khash

theorem made_new (hnew : new h size nhash div = some f) (hshash : f.filter.hashsize = shash) :
    0 < h.digestLength ∧ Made h nhash shash f := by
  unfold new at hnew
  simp only [Option.bind_eq_bind, Option.bind_eq_some_iff, Option.some.injEq] at hnew
  obtain ⟨filter, hfilter, khash, hkhash, rfl⟩ := hnew
  have hnhash : filter.nhash = nhash := by
    unfold BLOOMFILTER.new at hfilter
    simp only at hfilter
    split at hfilter
    · rw [← Option.some.inj hfilter]
    · cases hfilter
  exact ⟨KHASH.digestLength_pos hkhash, hnhash, hshash ▸ (KHASH.new_eq_some hkhash).2.1⟩

/-- A step keeps the filter but for its bits, which only `reset` clears. -/
theorem made_step (hdig : 0 < h.digestLength) (hf : Made h nhash shash f) {op : Op}
    (hstep : f.step h op = some f') :
    Made h nhash shash f' ∧ (op ≠ .reset → Grows f.filter f'.filter) := by
  obtain ⟨hnhash, hmade⟩ := hf
  rcases op with key | key | _
  · simp only [step, insert, Option.bind_eq_bind, Option.bind_eq_some_iff,
      Option.some.injEq] at hstep
    obtain ⟨khash, hc, filter, hins, rfl⟩ := hstep
    obtain ⟨hgrows, -⟩ := BLOOMFILTER.insert_some hins
    exact ⟨⟨hgrows.nhash.trans hnhash, hmade.compute hdig hc⟩, fun _ => hgrows⟩
  · simp only [step, isPresent, Option.bind_eq_bind, Option.map_eq_some_iff,
      Option.bind_eq_some_iff, Option.some.injEq] at hstep
    obtain ⟨_, ⟨khash, hc, present, -, rfl⟩, rfl⟩ := hstep
    exact ⟨⟨hnhash, hmade.compute hdig hc⟩, fun _ => ⟨rfl, rfl, rfl, rfl, fun _ => id⟩⟩
  · simp only [step, Option.some.injEq] at hstep
    obtain rfl := hstep
    exact ⟨⟨hnhash, hmade⟩, fun hne => absurd rfl hne⟩

theorem made_run (hdig : 0 < h.digestLength) : ∀ {ops : List Op} {f : KeyedFilter},
    Made h nhash shash f → run h f ops = some f' →
      Made h nhash shash f' ∧ (Op.reset ∉ ops → ∀ H, Has f.filter H → Has f'.filter H)
  | [], f, hf, hrun => by
    obtain rfl := Option.some.inj hrun
    exact ⟨hf, fun _ _ => id⟩
  | op :: ops, f, hf, hrun => by
    simp only [run, List.foldlM_cons, Option.bind_eq_bind, Option.bind_eq_some_iff] at hrun
    obtain ⟨f₁, hstep, hrun⟩ := hrun
    obtain ⟨hf₁, hgrows⟩ := made_step hdig hf hstep
    obtain ⟨hf', hhas⟩ := made_run hdig hf₁ hrun
    refine ⟨hf', fun hreset H hH => hhas (fun hmem => hreset (List.mem_cons_of_mem _ hmem)) H ?_⟩
    exact hH.mono (hgrows fun hop => hreset (hop ▸ List.mem_cons_self))

theorem Has.congr {g : BLOOMFILTER} {H H' : ℕ → ℕ} (hH : ∀ i < g.nhash, H' i = H i) (hg : Has g H) :
    Has g H' := by
  have hpos : ∀ i < g.nhash, g.pos H' i = g.pos H i := fun i hi => by
    unfold BLOOMFILTER.pos
    rw [hH i hi]
  exact ⟨fun i hi => hpos i hi ▸ hg.inside i hi, fun i hi => hpos i hi ▸ hg.marked i hi⟩

theorem remembers_of_enough {len : ℕ} (henough : KHASH.Enough h.digestLength nhash shash len) :
    Remembers h.digestLength nhash shash len := by
  rintro h' key size div f f' ops ops' hdig hlen hnew hshash hreset hrun
  obtain ⟨hpos, hf⟩ := made_new hnew hshash
  rw [← hdig, ← hlen] at henough
  unfold run at hrun
  simp only [List.foldlM_append, List.foldlM_cons, Option.bind_eq_bind,
    Option.bind_eq_some_iff] at hrun
  obtain ⟨f₁, hrun₁, f₂, hins, hrun₂⟩ := hrun
  obtain ⟨⟨hnhash₁, hmade₁⟩, -⟩ := made_run hpos hf hrun₁
  simp only [step, insert, Option.bind_eq_bind, Option.bind_eq_some_iff, Option.some.injEq] at hins
  obtain ⟨khash, hc, filter, hins, rfl⟩ := hins
  obtain ⟨hgrows, hhas⟩ := BLOOMFILTER.insert_some hins
  obtain ⟨⟨hnhash', hmade'⟩, hkeep⟩ :=
    made_run (f := ⟨filter, khash⟩) hpos ⟨hgrows.nhash.trans hnhash₁, hmade₁.compute hpos hc⟩ hrun₂
  obtain ⟨k₁, k₂, hk₁, hk₂, hres⟩ := hmade₁.same hpos hmade' henough
  obtain rfl := Option.some.inj (hc.symm.trans hk₁)
  have hpresent := (Has.congr (fun i hi => hres i (hnhash' ▸ hi)) (hkeep hreset _ hhas)).isPresent
  exact ⟨{ f' with khash := k₂ }, by simp [isPresent, hk₂, hpresent]⟩

/-- For the keys of a length, with any hash of this digest length. -/
theorem stateless_and_remembers_iff {norep : Bool} {len : ℕ} {k : KHASH}
    (hnew : KHASH.new h nhash shash norep = some k) :
    KHASH.Stateless h.digestLength nhash shash norep len ∧
      Remembers h.digestLength nhash shash len ↔ KHASH.Enough h.digestLength nhash shash len :=
  ⟨fun hstateless => KHASH.enough_of_stateless hnew hstateless.1, fun henough =>
    ⟨(KHASH.stateless_iff hnew).2 henough, remembers_of_enough henough⟩⟩

/-- 64 bits of a digest of 20 bytes, for keys of any length. -/
theorem stateless_and_remembers_four :
    KHASH.Stateless 20 4 16 false 100 ∧ Remembers 20 4 16 100 :=
  (stateless_and_remembers_iff (h := KHASH.lookBehind 20 (by decide)) rfl).2
    ⟨.inl (by decide), by decide⟩

/-- 200 bits, for keys of 21 bytes. -/
theorem not_stateless : ¬ ∀ (h : HASH) (nhash shash len : ℕ) (norep : Bool) (k : KHASH),
    KHASH.new h nhash shash norep = some k →
      KHASH.Stateless h.digestLength nhash shash norep len := by
  intro hall
  have hstateless := hall (KHASH.lookBehind 20 (by decide)) 10 20 21 false _ rfl
  have henough := KHASH.enough_of_stateless (h := KHASH.lookBehind 20 (by decide)) rfl hstateless
  exact absurd henough.1 (by decide)

end KeyedFilter

end DStreamon
