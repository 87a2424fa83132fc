import DStreamon.MetricBlock
import DStreamon.Lib.Chain
import DStreamon.Proofs.Threshold
import DStreamon.Proofs.Tewma

/-!
# Where the swap of a pair ends

`swap` follows the slaves of a pair, which calls leave as `_configure` set them.  So it ends exactly
where no metric it comes to is its own slave, by way of others or not.
-/

namespace DStreamon

open Function (update)
open StepRun (run run_keeps run_cons_some)
open Chain (follow)

variable {τ F S : Type} {T : Threshold τ}

namespace BloomPair

variable {w w' : DetInstances τ} {i j fuel : ℕ} {q : BloomPair τ} {x : ℕ × Op}

/-- The slave of the pair at a place. -/
def next (w : DetInstances τ) (i : ℕ) : Option ℕ := (w i).bind slavePlace

theorem next_update {p : BloomPair τ} (hp : w i = some p) (hs : q.slavePlace = p.slavePlace) :
    next (update w i (some q)) = next w := by
  funext j
  unfold next
  by_cases hji : j = i
  · rw [hji, Function.update_self, hp, Option.bind_some, Option.bind_some, hs]
  · rw [Function.update_of_ne hji]

/-- `swap` runs out of fuel while there are slaves to follow. -/
theorem swap_outOfFuel_iff : ∀ {fuel i : ℕ} {w : DetInstances τ},
    swap T fuel i w = .error .outOfFuel ↔ (follow (next w) fuel i).isSome
  | 0, i, w => by simp [swap, follow]
  | fuel + 1, i, w => by
    rw [swap, follow]
    cases hp : w i with
    | none => simp [next, hp]
    | some p =>
      have hkeep := next_update (q := p.exchange T) hp rfl
      have hnext : next w i = p.slavePlace := by rw [next, hp, Option.bind_some]
      rw [hnext]
      cases hs : p.slavePlace with
      | none => simp [hs]
      | some s =>
        have ih : swap T fuel s (update w i (some (p.exchange T))) = .error .outOfFuel ↔ _ :=
          swap_outOfFuel_iff
        rw [hkeep] at ih
        simp only [Option.bind_some, hs]
        rw [← ih]
        cases swap T fuel s (update w i (some (p.exchange T))) with
        | error e => simp [bind, Except.bind]
        | ok r => simp [bind, Except.bind]

theorem swap_ends_iff_next (hrange : ∀ i s, next w i = some s → s < maxMetricsNum) :
    (∃ fuel, swap T fuel i w ≠ .error .outOfFuel) ↔ Chain.Ends (next w) i := by
  have hs : ∀ x y, next w x = some y → y ∈ Finset.range maxMetricsNum :=
    fun x y h => Finset.mem_range.2 (hrange x y h)
  rw [← Chain.exists_follow_eq_none_iff hs]
  refine exists_congr fun fuel => ?_
  rw [Ne, swap_outOfFuel_iff, Option.not_isSome_iff_eq_none]

/-- Calls that make no pair with a slave leave the slaves as they are. -/
theorem call_next (hw : AllNested w) (hx : slave? x.2 = none) (h : call T w x = some w') :
    AllNested w' ∧ next w' = next w := by
  obtain ⟨⟨w₁, log, r⟩, hexec, rfl⟩ := Option.map_eq_some_iff.1 h
  have hexec := toOption_eq_some hexec
  refine ⟨hw.exec hexec, funext fun j => ?_⟩
  change (w₁ j).bind slavePlace = (w j).bind slavePlace
  cases hj : w j with
  | none =>
    cases hj' : w₁ j with
    | none => rfl
    | some p => exact (exec_slave hw hexec hj hj').trans hx
  | some p =>
    have hkept : Kept T fun _ q => Nested q ∧ q.slavePlace = p.slavePlace := {
      alike hq := hq.1.alike
      exchange hq := ⟨(kept_nested (T := T)).exchange (c := 0) hq.1, hq.2⟩
      mark hq hl hd := ⟨(kept_nested (T := T)).mark (c := 0) hq.1 hl hd, hq.2⟩ }
    obtain ⟨p', hp', -, hs⟩ := hkept.exec (c := 0) (fun k q hq => (hw k q hq).alike)
      (fun _ _ _ hq => ⟨nested_blank hq.1, hq.2⟩) hexec hj ⟨hw j p hj, rfl⟩
    rw [hp', Option.bind_some, Option.bind_some, hs]

theorem run_next {ops : List (ℕ × Op)} (hops : ∀ x ∈ ops, slave? x.2 = none) (hw : AllNested w)
    (h : run (call T) w ops = some w') : AllNested w' ∧ next w' = next w := by
  have hm : StepRun.Meets (call T) (fun _ x => slave? x.2 = none) w ops :=
    StepRun.meets_of_forall_mem (fun _ _ hx => hx) ops w hops
  have hstep : ∀ v x v', AllNested v ∧ next v = next w → slave? x.2 = none →
      call T v x = some v' → AllNested v' ∧ next v' = next w := fun v x v' hv hx hcall =>
    ⟨(call_next hv.1 hx hcall).1, (call_next hv.1 hx hcall).2.trans hv.2⟩
  exact run_keeps hstep ops ⟨hw, rfl⟩ hm h

end BloomPair

/-! ## What `_configure` makes of the slaves -/

namespace MetricBlock

open BloomPair (AllNested next)
open MetricParams (slaveOf)

variable {F : Type} [Field F] [LinearOrder F] {asDouble : String → F}
  {getInstance : String → ℕ → ℕ → F → Option S}
  {w w' : Metrics τ S} {b b' : MetricBlock F} {bs : List (MetricBlock F)} {n : MetricParams}
  {ns : List MetricParams} {i s : ℕ}

theorem placeOf_lt {id : ℤ} (h : placeOf id = some i) : i < maxMetricsNum := by
  unfold placeOf at h
  split_ifs at h
  cases h
  omega

/-- A block makes the pair of its metric, with the slave it names, if no block has made it yet. -/
structure Made (n : MetricParams) (w w' : DetInstances τ) : Prop where
  nested : AllNested w → AllNested w'
  old : ∀ i p, w i = some p → w' i = some p
  new : ∀ i, w i = none → if n.variationDetector.isSome ∧ n.place = some i then
    ∃ p, w' i = some p ∧ p.slavePlace = n.slave else w' i = none

/-- The first block to be configured makes the pair of its metric. -/
theorem made_create {det det' : DetInstances τ} {nhash shash : ℕ} {slave : Option ℕ}
    {r : List ℕ × Bool} (h : BloomPair.exec T 0 det (.create i nhash shash slave) = .ok (det', r))
    (j : ℕ) :
    match det j with
    | some p => det' j = some p
    | none => if j = i then ∃ p, det' j = some p ∧ p.slavePlace = slave else det' j = none := by
  simp only [BloomPair.exec] at h
  split at h
  · next p hp =>
    cases h
    cases hj : det j with
    | some q => rfl
    | none =>
      have hji : j ≠ i := fun e => by rw [e, hp] at hj; cases hj
      simp only [hji, if_false]
  · next hi =>
    obtain ⟨q, hq, h⟩ := bind_ok h
    obtain ⟨f, -, hq⟩ := bind_ok hq
    cases h
    cases hq
    by_cases hji : j = i
    · rw [hji, hi]
      simp [Function.update_self]
    · rw [Function.update_of_ne hji]
      cases hj : det j with
      | some q => rfl
      | none => simp [hji]

omit [Field F] [LinearOrder F] in
theorem configureDetector_made {d : VariationDetector}
    (h : configureDetector T w b d = .ok (w', b')) (hd : n.variationDetector = some d)
    (hb : b.place = n.place) : Made n w.det w'.det := by
  unfold configureDetector at h
  extract_lets b₁ at h
  have hb₁ : b₁.place = n.place := hb
  obtain ⟨slave, hslave, h⟩ := bind_ok h
  have hn : n.slave = slave := by
    unfold slavePlace at hslave
    rw [MetricParams.slave, hd, Option.bind_some]
    split_ifs at hslave ⊢
    · cases hslave
      rfl
    · cases hp : placeOf (asInt d.slaveId) with
      | none => simp [hp] at hslave
      | some s => simpa [hp] using hslave
  rw [hb₁] at h
  cases hi : n.place with
  | none =>
    rw [hi] at h
    cases h
  | some i =>
    simp only [hi] at h
    split_ifs at h
    split at h
    · cases h
    · next det r hexec =>
      obtain rfl := (Prod.mk.inj (Except.ok.inj h)).1
      refine ⟨fun hw => hw.exec hexec, fun j p hj => ?_, fun j hj => ?_⟩
      · have := made_create hexec j
        rw [hj] at this
        exact this
      · have := made_create hexec j
        rw [hj] at this
        simpa [hd, hi, hn, eq_comm] using this

omit [LinearOrder F] in
theorem made_refl (h : n.variationDetector = none) (det : DetInstances τ) : Made n det det := by
  refine ⟨id, fun _ _ hi => hi, fun i hi => ?_⟩
  rw [h, if_neg (by simp)]
  exact hi

theorem configureMonitor_det {m : VariationMonitor}
    (h : configureMonitor asDouble getInstance w b m = .ok (w', b')) : w'.det = w.det := by
  unfold configureMonitor at h
  extract_lets shash nhash timeWindow beta b₁ at h
  split_ifs at h
  split at h
  · cases h
  · split at h
    · obtain rfl := (Prod.mk.inj (Except.ok.inj h)).1
      rfl
    · obtain rfl := (Prod.mk.inj (Except.ok.inj h)).1
      rfl
    · cases h

theorem configure_made (h : configure T asDouble getInstance w n = .ok (w', b)) :
    Made n w.det w'.det := by
  obtain ⟨b₀, hb₀, h⟩ := bind_ok h
  have hplace : b₀.place = n.place := by
    rw [place, MetricParams.place]
    cases hid : n.metricId with
    | none =>
      rw [hid] at hb₀
      cases hb₀
      rfl
    | some val =>
      rw [hid, configureType] at hb₀
      split_ifs at hb₀
      cases hb₀
      rfl
  obtain ⟨⟨w₁, b₁⟩, hdet, h⟩ := bind_ok h
  have hmade : Made n w.det w₁.det := by
    cases hd : n.variationDetector with
    | none =>
      rw [hd] at hdet
      cases hdet
      exact made_refl hd _
    | some d =>
      rw [hd] at hdet
      exact configureDetector_made hdet hd hplace
  cases hm : n.variationMonitor with
  | none =>
    rw [hm] at h
    cases h
    exact hmade
  | some m =>
    rw [hm] at h
    rw [configureMonitor_det h]
    exact hmade

omit [Field F] [LinearOrder F] in
theorem slaveOf_cons : slaveOf (n :: ns) i =
    if n.variationDetector.isSome ∧ n.place = some i then n.slave else slaveOf ns i := by
  rw [slaveOf, List.find?_cons]
  split_ifs with h
  · simp [h]
  · simp [h, slaveOf]

/-- The slave of a pair made before stays; the others have those their first blocks name. -/
theorem configureAll_next : ∀ {ns : List MetricParams} {w w' : Metrics τ S}
    {bs : List (MetricBlock F)}, configureAll T asDouble getInstance w ns = .ok (w', bs) →
      (AllNested w.det → AllNested w'.det) ∧ ∀ i, next w'.det i =
        match w.det i with
        | some p => p.slavePlace
        | none => slaveOf ns i
  | [], w, w', bs, h => by
    cases h
    refine ⟨id, fun i => ?_⟩
    rw [next]
    cases w.det i <;> rfl
  | n :: ns, w, w', bs, h => by
    obtain ⟨⟨w₁, b⟩, hn, h⟩ := bind_ok h
    obtain ⟨⟨w₂, bs'⟩, hns, h⟩ := bind_ok h
    cases h
    have hmade := configure_made hn
    obtain ⟨hnested, hnext⟩ := configureAll_next hns
    refine ⟨fun hw => hnested (hmade.nested hw), fun i => ?_⟩
    rw [hnext i]
    cases hi : w.det i with
    | some p => rw [hmade.old i p hi]
    | none =>
      have hnew := hmade.new i hi
      rw [slaveOf_cons]
      split_ifs at hnew ⊢
      · obtain ⟨p, hp, hs⟩ := hnew
        rw [hp]
        exact hs
      · rw [hnew]

theorem slaveOf_lt (h : slaveOf ns i = some s) : s < maxMetricsNum := by
  obtain ⟨n, -, hn⟩ := Option.bind_eq_some_iff.1 h
  obtain ⟨d, -, hd⟩ := Option.bind_eq_some_iff.1 hn
  split_ifs at hd
  exact placeOf_lt hd

theorem next_configured (h : configureAll T asDouble getInstance .new ns = .ok (w, bs)) :
    AllNested w.det ∧ next w.det = slaveOf ns := by
  obtain ⟨hnested, hnext⟩ := configureAll_next h
  exact ⟨hnested BloomPair.allNested_noPairs, funext hnext⟩

open BloomPair (swap call due slave?)

/-- In every run after any configuration `_configure` accepts, the swap that a crossed threshold
starts ends exactly if no metric it comes to along the slaves comes back to itself. -/
theorem swap_ends_iff {ops : List (ℕ × BloomPair.Op)} {v : DetInstances τ}
    {x : ℕ × BloomPair.Op} {q : BloomPair τ}
    (hconf : configureAll T asDouble getInstance .new ns = .ok (w, bs))
    (hops : ∀ x ∈ ops, slave? x.2 = none) (hrun : run (call T) w.det ops = some v)
    (hdue : due T i v x = some q) :
    (∃ fuel, swap T fuel i (update v i (some q)) ≠ .error .outOfFuel) ↔
      Chain.Ends (slaveOf ns) i := by
  obtain ⟨hnested, hnext⟩ := next_configured hconf
  obtain ⟨hnested', hrun⟩ := BloomPair.run_next hops hnested hrun
  obtain ⟨p, hp, hmarked, -⟩ := BloomPair.due_cases hnested' hdue
  obtain ⟨-, learning, detecting, -, -, -, -, -, rfl⟩ := hmarked
  have hs : BloomPair.slavePlace { p with learning, detecting } = p.slavePlace := rfl
  have hnow : next (update v i (some { p with learning, detecting })) = slaveOf ns :=
    (BloomPair.next_update hp hs).trans (hrun.trans hnext)
  rw [← hnow]
  refine BloomPair.swap_ends_iff_next fun j s hs => ?_
  rw [hnow] at hs
  exact slaveOf_lt hs

/-- The parameters of a detector of two bits, with a counter of the packets. -/
def twoBits (id slaveId : String) : MetricParams where
  metricId := some id
  variationDetector := some ⟨"on", "1", "1", slaveId, ""⟩
  variationMonitor := some ⟨"on", "simple", "", "", "", "", ""⟩

/-- A master and its slave, the slave configured first. -/
def masterSlave : List MetricParams := [twoBits "0" "", twoBits "1" "0"]

/-- What `strtod` reads of an attribute not given. -/
def noDouble (_ : String) : ℚ := 0

theorem swap_ends_iff_masterSlave : ∃ w bs q,
    configureAll BloomPair.squared noDouble (Counter.getInstance logHalf) .new masterSlave =
      .ok (w, bs) ∧
    due BloomPair.squared 1 w.det (1, .setBits 1 fun _ => 0) = some q ∧
    ((∃ fuel, swap BloomPair.squared fuel 1 (update w.det 1 (some q)) ≠ .error .outOfFuel) ↔
      Chain.Ends (slaveOf masterSlave) 1) := by
  have h : ((configureAll BloomPair.squared noDouble (Counter.getInstance logHalf) .new
      masterSlave).toOption.bind fun r =>
      due BloomPair.squared 1 r.1.det (1, .setBits 1 fun _ => 0)).isSome := by decide +kernel
  obtain ⟨q, hq⟩ := Option.isSome_iff_exists.1 h
  obtain ⟨⟨w, bs⟩, hconf, hdue⟩ := Option.bind_eq_some_iff.1 hq
  have hconf := BloomPair.toOption_eq_some hconf
  have hrun : run (call BloomPair.squared) w.det [] = some w.det := rfl
  exact ⟨w, bs, q, hconf, hdue, swap_ends_iff hconf (by simp) hrun hdue⟩

/-- A metric that names itself for its slave. -/
def ownSlave : Metric where
  name := "m"
  source := ""
  vdStatus := "on"
  slave := "m"
  resetAfter := ""
  vmStatus := "on"
  vmType := "simple"
  window := ""
  insertValue := ""

/-- The first element swaps its detector, and the swap goes on for ever. -/
theorem swap_not_ends : ¬ ∀ (coreNum : ℕ) (metrics : List Metric) (blocks ns : List MetricParams)
    (w : Metrics (Option ℚ) (Counter ℚ)) (bs : List (MetricBlock ℚ))
    (ops : List (ℕ × BloomPair.Op)) (v : DetInstances (Option ℚ)) (i : ℕ)
    (x : ℕ × BloomPair.Op) (q : BloomPair (Option ℚ)),
    Metric.compile (.new []) coreNum metrics [] = .ok blocks →
    ns.map MetricParams.assignment = blocks.map MetricParams.assignment →
    configureAll BloomPair.squared noDouble (Counter.getInstance logHalf) .new ns = .ok (w, bs) →
    (∀ x ∈ ops, slave? x.2 = none) → run (call BloomPair.squared) w.det ops = some v →
    due BloomPair.squared i v x = some q →
    ∃ fuel, swap BloomPair.squared fuel i (update v i (some q)) ≠ .error .outOfFuel := by
  intro hall
  have hblocks : (Metric.compile (.new []) 1 [ownSlave] []).toOption.any fun blocks =>
      [twoBits "0" "0"].map MetricParams.assignment = blocks.map MetricParams.assignment := by
    decide +kernel
  obtain ⟨blocks, hcompile, hassign⟩ := (Option.any_eq_true _ _).1 hblocks
  have hswap : ((configureAll BloomPair.squared noDouble (Counter.getInstance logHalf) .new
      [twoBits "0" "0"]).toOption.bind fun r => (due BloomPair.squared 0 r.1.det
        (1, .setBits 0 fun _ => 0)).map fun q => (r.1, r.2, q)).any fun r =>
      r.2.2.slavePlace = some 0 := by decide +kernel
  obtain ⟨⟨w, bs, q⟩, hr, hslave⟩ := (Option.any_eq_true _ _).1 hswap
  obtain ⟨⟨w₁, bs₁⟩, hconf, hr⟩ := Option.bind_eq_some_iff.1 hr
  obtain ⟨q₁, hdue, hr⟩ := Option.map_eq_some_iff.1 hr
  obtain ⟨rfl, rfl, rfl⟩ : w₁ = w ∧ bs₁ = bs ∧ q₁ = q := by simpa using hr
  obtain ⟨fuel, hfuel⟩ := hall 1 [ownSlave] blocks [twoBits "0" "0"] w₁ bs₁ [] w₁.det 0
    (1, .setBits 0 fun _ => 0) q₁ (BloomPair.toOption_eq_some hcompile)
    (of_decide_eq_true hassign) (BloomPair.toOption_eq_some hconf) (by simp) rfl hdue
  refine hfuel (BloomPair.swap_outOfFuel_iff.2 ?_)
  have hself : follow (next (update w₁.det 0 (some q₁))) 1 0 = some 0 := by
    rw [Chain.follow_one, next, Function.update_self]
    exact of_decide_eq_true hslave
  have hround := Chain.follow_mul hself fuel
  rw [Nat.one_mul] at hround
  rw [hround]
  rfl

end MetricBlock

end DStreamon
