import DStreamon.Proofs.Reconfigure

/-!
# Where `Block.update` leaves a block

An update that names another pool adds the block to its old pool and takes it out of the new one.
Any other update leaves the pools alone, and a block that refuses its parameters is never rebuilt,
since `update_block` gives no negative number.
-/

namespace DStreamon

namespace Daemon

variable {lib : BlockLibrary} {d d' : Daemon} {b : Block} {i : Instance}
  {name params tpoolId : String}
  {tpool : Option String} {active : Bool}

/-- The executable's block for a block of the daemon. -/
def instanceOf (d : Daemon) (b : Block) : Option Instance :=
  (d.blockmon.compositions b.compId).bind fun c => c b.name

/-- The addresses of the blocks in a pool of the executable. -/
def tasks (d : Daemon) (pool : String) : List ℕ := (d.pools.manager pool).elim [] TaskPool.tasks

/-- The block is scheduled in exactly the pool the update names if it is active, and in none
otherwise, its object says so, and it runs with the new parameters, as a new instance where the old
one refused them. -/
def Updated (lib : BlockLibrary) (name : String) (active : Bool) (params tpoolId : String)
    (tpool : Option String) (d : Daemon) (r : Except PyError Unit × Daemon) : Prop :=
  r.1 = .ok () ∧ ∃ b i, r.2.blocks name = some b ∧ r.2.instanceOf b = some i ∧
    (∀ p, i.id ∈ r.2.tasks p ↔ active = true ∧ tpool = some p) ∧
    b.active = active ∧ (active = true → b.tpoolId = tpoolId ∧ b.tpool = tpool) ∧
    i.params = params ∧
    (lib.updateConfig i.type params = false → ∀ i', d.instanceOf b = some i' → i.id ≠ i'.id)

/-- The block is where the update says, and takes the parameters as it is. -/
def InPlace (lib : BlockLibrary) (name : String) (active : Bool) (params tpoolId : String)
    (tpool : Option String) (d : Daemon) : Prop :=
  ∃ b i, d.blocks name = some b ∧ d.instanceOf b = some i ∧
    (∀ p, i.id ∈ d.tasks p ↔ active = true ∧ tpool = some p) ∧
    (active = true → b.tpoolId = tpoolId ∧ b.tpool = tpool) ∧
    lib.loads params = true ∧ lib.hasParams params = true ∧ lib.updateConfig i.type params = true

end Daemon

/-! ## Pools -/

namespace ThreadPool

open Daemon

variable {d d' : Daemon} {b : Block} {pool : String}

theorem getBlock_some {s : Blockmon} {i : Instance} {compId name : String}
    (h : (s.compositions compId).bind (fun c => c name) = some i) :
    (Blockmon.getBlock compId name).run s = (.ok i, s) := by
  obtain ⟨c, hc, hi⟩ := Option.bind_eq_some_iff.1 h
  simp [Blockmon.getBlock, Blockmon.getComposition, Attempt.run_bind, hc, hi]

theorem getBlock_none {s : Blockmon} {compId name : String}
    (h : (s.compositions compId).bind (fun c => c name) = none) :
    ∃ e, (Blockmon.getBlock compId name).run s = (.error e, s) := by
  unfold Blockmon.getBlock Blockmon.getComposition
  rcases hc : s.compositions compId with _ | c
  · exact ⟨_, by simp [Attempt.run_bind, hc]; rfl⟩
  · rw [hc, Option.bind_some] at h
    exact ⟨_, by simp [Attempt.run_bind, hc, h]; rfl⟩

theorem ofBlockmon_getBlock_ok {i : Instance}
    (h : (ofBlockmon (Blockmon.getBlock b.compId b.name)).run d = (.ok i, d')) :
    d' = d ∧ d.instanceOf b = some i := by
  rw [ofBlockmon, Attempt.run_zoom] at h
  rcases hi : d.instanceOf b with _ | i'
  · obtain ⟨e, he⟩ := getBlock_none hi
    simp [he] at h
  · rw [getBlock_some hi] at h
    simp only [Prod.mk.injEq, Except.ok.injEq] at h
    exact ⟨h.2.symm, by rw [h.1]⟩

theorem setBlocks_ok {l : List (String × String)} {u : Unit}
    (h : (setBlocks pool l).run d = (.ok u, d')) : ∃ p, d' = { d with pools := p } := by
  unfold setBlocks ofPools at h
  obtain ⟨p, -, hp⟩ := Attempt.ok_of_zoom h
  exact ⟨p, hp⟩

theorem addBlock_ok (h : (addBlock pool b.compId b.name).run d = (.ok (), d')) :
    d'.blockmon = d.blockmon ∧ d'.blocks = d.blocks := by
  unfold addBlock at h
  rw [Attempt.run_get_bind] at h
  obtain ⟨_, d₁, hset, hrest⟩ := Attempt.ok_of_bind h
  obtain ⟨i, d₂, hget, hadd⟩ := Attempt.ok_of_bind hrest
  obtain ⟨hd, -⟩ := ofBlockmon_getBlock_ok hget
  obtain ⟨p₁, hset⟩ := setBlocks_ok hset
  obtain ⟨p₂, -, hadd⟩ := Attempt.ok_of_zoom hadd
  subst hadd hd hset
  exact ⟨rfl, rfl⟩

/-- The pool no longer has the block. -/
theorem removeFromPool_ok {m m' : PoolManager} {k : ℕ}
    (h : (PoolManager.removeFromPool pool k).run m = (.ok (), m')) :
    k ∉ (m' pool).elim [] TaskPool.tasks := by
  unfold PoolManager.removeFromPool at h
  rw [Attempt.run_get_bind] at h
  rcases hp : m pool with _ | p
  · simp [hp] at h
  · simp only [hp, Attempt.orThrow_some, pure_bind, Attempt.run_modify, Prod.mk.injEq] at h
    simp [← h.2]

theorem removeBlock_ok (h : (removeBlock pool b.compId b.name).run d = (.ok (), d')) :
    d'.blockmon = d.blockmon ∧ d'.blocks = d.blocks ∧
      ∃ i, d.instanceOf b = some i ∧ i.id ∉ d'.tasks pool := by
  unfold removeBlock at h
  rw [Attempt.run_get_bind] at h
  split at h
  · obtain ⟨_, d₁, hset, hrest⟩ := Attempt.ok_of_bind h
    obtain ⟨i, d₂, hget, hremove⟩ := Attempt.ok_of_bind hrest
    obtain ⟨hd, hi⟩ := ofBlockmon_getBlock_ok hget
    obtain ⟨p₁, hset⟩ := setBlocks_ok hset
    obtain ⟨p₂, hmanager, hremove⟩ := Attempt.ok_of_zoom hremove
    obtain ⟨m, hpool, hp₂⟩ := Attempt.ok_of_zoom hmanager
    subst hremove hp₂ hd hset
    exact ⟨rfl, rfl, i, hi, removeFromPool_ok hpool⟩
  · simp at h

end ThreadPool

/-! ## The update -/

namespace Daemon

variable {lib : BlockLibrary} {d d' : Daemon} {b : Block} {i : Instance}
  {name params tpoolId : String}
  {tpool : Option String} {active : Bool}

theorem tpoolOf_ok {pool : String} (h : (Block.tpoolOf tpool).run d = (.ok pool, d')) :
    tpool = some pool ∧ d' = d := by
  rcases tpool with _ | p
  · simp [Block.tpoolOf] at h
  · simp only [Block.tpoolOf, Attempt.orThrow_some, Attempt.run_pure, Prod.mk.injEq,
      Except.ok.injEq] at h
    exact ⟨by rw [h.1], h.2.symm⟩

/-- A block that is moved is not in its new pool. -/
theorem move_ok (h : (Block.move name b tpoolId tpool).run d = (.ok (), d')) :
    d'.blockmon = d.blockmon ∧ d'.blocks name = some { b with tpoolId, tpool } ∧
      ∃ p i, tpool = some p ∧ d.instanceOf b = some i ∧ i.id ∉ d'.tasks p := by
  unfold Block.move at h
  obtain ⟨old, d₁, hold, h⟩ := Attempt.ok_of_bind h
  obtain ⟨_, d₂, hadd, h⟩ := Attempt.ok_of_bind h
  obtain ⟨_, d₃, hassign, h⟩ := Attempt.ok_of_bind h
  obtain ⟨new, d₄, hnew, hremove⟩ := Attempt.ok_of_bind h
  obtain ⟨-, rfl⟩ := tpoolOf_ok hold
  obtain ⟨hmon, -⟩ := ThreadPool.addBlock_ok hadd
  obtain ⟨-, rfl⟩ := Prod.mk.inj hassign
  obtain ⟨rfl, rfl⟩ := tpoolOf_ok hnew
  obtain ⟨hmon', hblocks, i, hi, hgone⟩ := ThreadPool.removeBlock_ok hremove
  refine ⟨hmon'.trans hmon, ?_, new, i, rfl, ?_, hgone⟩
  · rw [hblocks]
    exact Function.update_self ..
  · rw [← hi]
    unfold instanceOf
    rw [← hmon]

/-- The rest of an update, which leaves the pools as they are. -/
def finish (lib : BlockLibrary) (name : String) : Attempt PyError Daemon Unit := do
  let b ← Block.self name
  let r ← ofBlockmon (Blockmon.updateBlock lib b.compId b.name b.active b.params)
  if r < 0 then
    b.remove
    b.restore lib

/-- A block is found, and its number is never negative. -/
theorem updateBlock_run {s : Blockmon} {compId nm : String} (active : Bool)
    (hi : (s.compositions compId).bind (fun c => c nm) = some i)
    (hloads : lib.loads params = true) (hparams : lib.hasParams params = true) :
    ∃ r s', (Blockmon.updateBlock lib compId nm active params).run s = (.ok r, s') ∧ 0 ≤ r ∧
      (s'.compositions compId).bind (fun c => c nm) = some { i with
        active
        params := if lib.updateConfig i.type params then params else i.params } := by
  obtain ⟨c, hc, hci⟩ := Option.bind_eq_some_iff.1 hi
  unfold Blockmon.updateBlock
  rw [if_neg (by simp [hloads]), if_neg (by simp [hparams]),
    Attempt.run_bind_of_ok (ThreadPool.getBlock_some hi)]
  unfold Blockmon.setBlock Blockmon.getComposition
  by_cases haccepts : lib.updateConfig i.type params = true
  · exact ⟨1, _, by simp [Attempt.run_bind, hc, haccepts]; rfl, by decide, by simp [haccepts]⟩
  · exact ⟨0, _, by simp [Attempt.run_bind, hc, haccepts]; rfl, by decide, by simp [haccepts]⟩

theorem finish_run (hb : d.blocks name = some b) (hi : d.instanceOf b = some i)
    (hloads : lib.loads b.params = true) (hparams : lib.hasParams b.params = true) :
    ∃ d', (finish lib name).run d = (.ok (), d') ∧ d'.blocks = d.blocks ∧ d'.pools = d.pools ∧
      d'.instanceOf b = some { i with
        active := b.active
        params := if lib.updateConfig i.type b.params then b.params else i.params } := by
  obtain ⟨r, s', hrun, hr, hi'⟩ := updateBlock_run b.active hi hloads hparams
  refine ⟨{ d with blockmon := s' }, ?_, rfl, rfl, hi'⟩
  unfold finish Block.self ofBlockmon
  simp [Attempt.run_bind, hb, hrun, Int.not_lt.2 hr]

theorem finish_ok (h : (finish lib name).run d = (.ok (), d')) (hb : d.blocks name = some b) :
    ∃ i, d.instanceOf b = some i ∧ lib.loads b.params = true ∧ lib.hasParams b.params = true := by
  unfold finish Block.self ofBlockmon Blockmon.updateBlock at h
  rcases hloads : lib.loads b.params with _ | _
  · simp [Attempt.run_bind, hb, hloads] at h
  rcases hparams : lib.hasParams b.params with _ | _
  · simp [Attempt.run_bind, hb, hloads, hparams] at h
  rcases hi : d.instanceOf b with _ | i
  · obtain ⟨e, he⟩ := ThreadPool.getBlock_none hi
    simp [Attempt.run_bind, hb, hloads, hparams, he] at h
  · exact ⟨i, rfl, rfl, rfl⟩

theorem self_run (hb : d.blocks name = some b) : (Block.self name).run d = (.ok b, d) := by
  simp [Block.self, hb]

/-- What the update leaves when it moves the block, if it comes to its end. -/
theorem update_move (hb : d.blocks name = some b) (hmove : active = true ∧ tpoolId ≠ b.tpoolId) :
    (Block.update lib name active params tpoolId tpool).run d =
      (Block.move name { b with params, active } tpoolId tpool >>= fun _ => finish lib name).run
        { d with blocks := Function.update d.blocks name (some { b with params, active }) } := by
  unfold Block.update
  rw [Attempt.run_bind_of_ok (self_run hb), Block.assign, Attempt.run_modify_bind, if_pos hmove]
  rfl

theorem update_stay (hb : d.blocks name = some b)
    (hmove : ¬ (active = true ∧ tpoolId ≠ b.tpoolId)) :
    (Block.update lib name active params tpoolId tpool).run d = (finish lib name).run
      { d with blocks := Function.update d.blocks name (some { b with params, active }) } := by
  unfold Block.update
  rw [Attempt.run_bind_of_ok (self_run hb), Block.assign, Attempt.run_modify_bind, if_neg hmove]
  rfl

theorem not_updated_of_move (hb : d.blocks name = some b)
    (hmove : active = true ∧ tpoolId ≠ b.tpoolId) :
    ¬ Updated lib name active params tpoolId tpool d
      ((Block.update lib name active params tpoolId tpool).run d) := by
  rcases hr : (Block.update lib name active params tpoolId tpool).run d with ⟨r, d'⟩
  rintro ⟨rfl, b', i', hb', hi', hscheduled, -⟩
  obtain ⟨_, d₁, hmoved, hfinish⟩ := Attempt.ok_of_bind ((update_move hb hmove).symm.trans hr)
  obtain ⟨hmon, hb₁, p, i, hp, hi, hgone⟩ := move_ok hmoved
  obtain ⟨_, -, hloads, hparams⟩ := finish_ok hfinish hb₁
  have hi₁ : d₁.instanceOf { b with params, active, tpoolId, tpool } = some i := by
    rw [← hi]
    unfold instanceOf
    rw [hmon]
  obtain ⟨d₂, hrun, hblocks, hpools, hi₂⟩ := finish_run hb₁ hi₁ hloads hparams
  obtain ⟨-, rfl⟩ := Prod.mk.inj (hfinish.symm.trans hrun)
  obtain rfl := Option.some.inj (hb'.symm.trans ((congrFun hblocks name).trans hb₁))
  obtain rfl := Option.some.inj (hi'.symm.trans hi₂)
  have hin := (hscheduled p).2 ⟨hmove.1, hp⟩
  simp only [tasks, hpools] at hin
  exact hgone hin

/-- Exactly where the update finds the block in place. -/
theorem updated_iff_inPlace (d : Daemon) (name : String) (active : Bool) (params tpoolId : String)
    (tpool : Option String) :
    Updated lib name active params tpoolId tpool d
      ((Block.update lib name active params tpoolId tpool).run d) ↔
    InPlace lib name active params tpoolId tpool d := by
  rcases hb : d.blocks name with _ | b
  · refine iff_of_false (fun h => ?_) fun ⟨b, i, hb', _⟩ => by simp [hb] at hb'
    have herror : ((Block.update lib name active params tpoolId tpool).run d).1 =
        .error (.keyError name) := by
      simp [Block.update, Block.self, Attempt.run_bind, hb]
    rw [h.1] at herror
    simp at herror
  by_cases hmove : active = true ∧ tpoolId ≠ b.tpoolId
  · refine iff_of_false (not_updated_of_move hb hmove) fun ⟨b', i, hb', _, _, hsame, _⟩ => ?_
    rw [hb] at hb'
    obtain rfl := Option.some.inj hb'
    exact hmove.2 (hsame hmove.1).1.symm
  rw [update_stay hb hmove]
  generalize hd₁ : ({ d with
    blocks := Function.update d.blocks name (some { b with params, active }) } : Daemon) = d₁
  have hb₁ : d₁.blocks name = some { b with params, active } := by simp [← hd₁]
  have hinst : d₁.instanceOf = d.instanceOf := by
    subst hd₁
    rfl
  have htasks : d₁.tasks = d.tasks := by
    subst hd₁
    rfl
  constructor
  · rintro ⟨hok, b', i', hb', hi', hscheduled, -, hsame, hnew, hrebuilt⟩
    obtain ⟨i, hi, hloads, hparams⟩ := finish_ok (Prod.ext hok rfl) hb₁
    obtain ⟨d₂, hrun, hblocks, hpools, hi₂⟩ := finish_run hb₁ hi hloads hparams
    rw [hrun] at hb' hi' hscheduled
    rw [hblocks, hb₁] at hb'
    obtain rfl := Option.some.inj hb'
    rw [hi₂] at hi'
    obtain rfl := Option.some.inj hi'
    rw [hinst] at hi
    refine ⟨b, i, hb, hi, fun p => ?_, hsame, hloads, hparams, ?_⟩
    · rw [← hscheduled p, ← htasks, tasks, tasks, hpools]
    · rw [← Bool.not_eq_false]
      exact fun hrefused => hrebuilt hrefused i hi rfl
  · rintro ⟨b', i, hb', hi, hscheduled, hsame, hloads, hparams, haccepts⟩
    rw [hb] at hb'
    obtain rfl := Option.some.inj hb'
    obtain ⟨d₂, hrun, hblocks, hpools, hi₂⟩ :=
      finish_run (i := i) hb₁ ((congrFun hinst _).trans hi) hloads hparams
    rw [hrun]
    refine ⟨rfl, _, _, hblocks ▸ hb₁, hi₂, fun p => ?_, rfl, hsame, if_pos haccepts,
      fun hrefused => ?_⟩
    · rw [← hscheduled p, ← htasks, tasks, tasks, hpools]
    · rw [haccepts] at hrefused
      cases hrefused

/-- A second pool beside the block's. -/
def twoPools : Description where
  threadpools := [pool, node [("id", "q"), ("num_threads", "1")]]
  blocks := activeBlock.blocks
  connections := []

theorem not_updated : ¬ ∀ (lib : BlockLibrary) (d : Daemon) (name : String) (active : Bool)
    (params tpoolId : String) (tpool : Option String),
    Updated lib name active params tpoolId tpool d
      ((Block.update lib name active params tpoolId tpool).run d) := by
  intro h
  have hok := (h anyLibrary ((install anyLibrary twoPools).run started).2 "b" true "<params/>" "q"
    (some "q")).1
  have herror : ((Block.update anyLibrary "b" true "<params/>" "q" (some "q")).run
      ((install anyLibrary twoPools).run started).2).1 = .error .valueError := rfl
  rw [hok] at herror
  simp at herror

end Daemon

end DStreamon
