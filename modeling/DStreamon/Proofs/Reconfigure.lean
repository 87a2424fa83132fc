import DStreamon.Daemon

/-!
# Reconfiguring from scratch

`reconfigure` creates the blocks of an `add` before its pools.  A passive block needs no pool, so
the order does not matter to it; an active block looks its pool up and fails.
-/

namespace DStreamon

namespace Daemon

open Attempt (forEach Frames frames_bind frames_orThrow frames_pure frames_get frames_modify
  frames_zoom frames_forEach)

variable {lib : BlockLibrary} {n : Node} {c : Description} {d d' : Daemon}

/-- `CompositionManager.__init__` has just run. -/
structure Empty (d : Daemon) : Prop where
  blocks : d.blocks = fun _ => none
  threadPools : d.pools.threadPools = fun _ => none
  composition : d.blockmon.compositions d.compId = some fun _ => none

def putPools (p : Pools) (d : Daemon) : Daemon := { d with pools := p }

/-! ## Passive blocks and connections have no part in the pools -/

theorem frames_attr (key : String) : Frames putPools (n.attr key) := frames_orThrow _ _

theorem frames_ofBlockmon {α : Type} (x : Attempt PyError Blockmon α) :
    Frames putPools (ofBlockmon x) :=
  frames_zoom x (fun _ _ => rfl) fun _ _ _ => rfl

theorem frames_self (name : String) : Frames putPools (Block.self name) :=
  frames_get (fun _ _ => rfl) fun _ => frames_orThrow _ _

theorem frames_assign (name : String) (b : Block) : Frames putPools (Block.assign name b) :=
  frames_modify fun _ _ => rfl

theorem frames_createBlock (lib : BlockLibrary) (h : n.schedActive = false) :
    Frames putPools (createBlock lib n) := by
  unfold createBlock Block.new
  simp only [h, Bool.false_eq_true, if_false, pure_bind]
  refine frames_bind (frames_attr _) fun name => frames_bind (frames_attr _) fun type =>
    frames_bind (frames_orThrow _ _) fun params => frames_bind ?_ fun b => frames_assign name b
  exact frames_get (fun _ _ => rfl) fun d =>
    frames_bind (frames_ofBlockmon _) fun _ => frames_pure _

theorem frames_addConnection (name mygate : String) (other : Block) (othergate : String)
    (isIn : Bool) : Frames putPools (Block.addConnection name mygate other othergate isIn) :=
  frames_bind (frames_self name) fun _ => frames_assign name _

theorem frames_createConnection : Frames putPools (createConnection n) := by
  refine frames_bind (frames_attr _) fun b₁ => frames_bind (frames_attr _) fun g₁ =>
    frames_bind (frames_attr _) fun b₂ => frames_bind (frames_attr _) fun g₂ => ?_
  exact frames_bind (frames_self b₁) fun src => frames_bind (frames_self b₂) fun dst =>
    frames_bind (frames_ofBlockmon _) fun _ =>
      frames_bind (frames_addConnection _ _ _ _ _) fun _ => frames_addConnection _ _ _ _ _

/-! ## Active blocks look up their pool -/

/-- Whatever else is wrong with the block. -/
theorem createBlock_active (lib : BlockLibrary) (h : n.schedActive = true)
    (hpools : d.pools.threadPools = fun _ => none) :
    ∃ e, (createBlock lib n).run d = (.error e, d) := by
  unfold createBlock Node.attr findPool
  simp only [h, if_true]
  rcases n.attributes "id" with _ | name
  · exact ⟨_, rfl⟩
  rcases n.attributes "type" with _ | type
  · exact ⟨_, rfl⟩
  rcases n.attributes "threadpool" with _ | tpoolId
  · exact ⟨_, rfl⟩
  rcases n.params.head? with _ | params
  · exact ⟨_, rfl⟩
  refine ⟨.keyError tpoolId, ?_⟩
  simp [Attempt.run_bind, hpools]

theorem passive_of_ok : ∀ {l : List Node} {d d' : Daemon}, d.pools.threadPools = (fun _ => none) →
    (forEach (createBlock lib) l).run d = (.ok (), d') → ∀ n ∈ l, n.schedActive = false
  | [], _, _, _, _ => nofun
  | n :: l, d, d', hpools, hok => by
    obtain ⟨_, t, hn, hl⟩ := Attempt.ok_of_bind hok
    have hpassive : n.schedActive = false := by
      rw [← Bool.not_eq_true]
      intro hactive
      obtain ⟨e, he⟩ := createBlock_active lib hactive hpools
      simp [he] at hn
    have ht : t.pools = d.pools := by
      have hpart : pools ((createBlock lib n).run d).2 = pools d :=
        (frames_createBlock lib hpassive).part_eq (fun _ => rfl) (fun _ _ => rfl) d
      rwa [hn] at hpart
    exact List.forall_mem_cons.2 ⟨hpassive, passive_of_ok (ht ▸ hpools) hl⟩

theorem forEach_createPool (l : List Node) :
    forEach (fun n => ofPools (Pools.createPool lib n)) l =
      ofPools (forEach (Pools.createPool lib) l) :=
  Attempt.ext fun d => by
    unfold ofPools
    refine Attempt.forEach_zoom ?_ ?_ ?_ _ l d <;> intros <;> rfl

/-- The pools of a description without active blocks can as well come last. -/
theorem install_iff (hpassive : ∀ n ∈ c.blocks, n.schedActive = false) :
    (install lib c).run d = (.ok (), d') ↔
      (reconfigure lib ⟨[], [c], []⟩).run d = (.ok (), d') := by
  have hframes : Frames putPools (forEach (createBlock lib) c.blocks >>= fun _ =>
      forEach createConnection c.connections) :=
    frames_bind (frames_forEach fun n hn => frames_createBlock lib (hpassive n hn)) fun _ =>
      frames_forEach fun _ _ => frames_createConnection
  unfold install reconfigure
  simp only [forEach_createPool, Attempt.forEach_cons, Attempt.forEach_nil, pure_bind, bind_assoc]
  have hsame : ∀ d, putPools (pools d) d = d := fun _ => rfl
  have hput : ∀ p d, pools (putPools p d) = p := fun _ _ => rfl
  have hswap := hframes.swap (s := d) (u := d') hsame hput
    (forEach (Pools.createPool lib) c.threadpools)
  simp only [bind_assoc] at hswap
  simp only [ofPools, bind_pure_unit]
  exact hswap

theorem reconfigure_iff_passive (hempty : Empty d)
    (hinstall : (install lib c).run d = (.ok (), d')) :
    (reconfigure lib ⟨[], [c], []⟩).run d = (.ok (), d') ↔
      ∀ n ∈ c.blocks, n.schedActive = false := by
  refine ⟨fun hok => ?_, fun hpassive => (install_iff hpassive).1 hinstall⟩
  unfold reconfigure at hok
  simp only [Attempt.forEach_cons, Attempt.forEach_nil, pure_bind, bind_assoc] at hok
  obtain ⟨_, _, hblocks, -⟩ := Attempt.ok_of_bind hok
  exact passive_of_ok hempty.threadPools hblocks

/-! ## Two small compositions -/

/-- Every type is there, takes any parameters and has gates `out` and `in`. -/
def anyLibrary : BlockLibrary where
  asInt _ := 1
  corenum _ := 0
  loads _ := true
  hasParams _ := true
  supported _ := true
  configure _ _ := none
  updateConfig _ _ := true
  inGates _ _ := ["in"]
  outGates _ _ := ["out"]

/-- A node with the attributes of an association list. -/
def node (attributes : List (String × String)) : Node where
  attributes key := attributes.lookup key
  params := ["<params/>"]
  cores := []

def started : Daemon where
  compId := "c"
  blocks _ := none
  pools := ⟨fun _ => none, fun _ => ⟨[], ""⟩, fun _ => none⟩
  blockmon := ⟨fun compId => if compId = "c" then some fun _ => none else none,
    ⟨fun _ => [], fun _ => [], fun _ => .new⟩, 0⟩

theorem empty_started : Empty started := ⟨rfl, rfl, rfl⟩

def pool : Node := node [("id", "p"), ("num_threads", "1")]

def passiveLoop : Description where
  threadpools := [pool]
  blocks := [node [("id", "b"), ("type", "t")]]
  connections := [node [("src_block", "b"), ("src_gate", "out"), ("dst_block", "b"),
    ("dst_gate", "in")]]

def activeBlock : Description where
  threadpools := [pool]
  blocks := [node [("id", "b"), ("type", "t"), ("sched_type", "active"), ("threadpool", "p")]]
  connections := []

theorem reconfigure_passiveLoop : ∃ d',
    (install anyLibrary passiveLoop).run started = (.ok (), d') ∧
    (reconfigure anyLibrary ⟨[], [passiveLoop], []⟩).run started = (.ok (), d') :=
  ⟨_, rfl, (reconfigure_iff_passive empty_started rfl).2 (by decide)⟩

theorem not_reconfigured : ¬ ∀ (lib : BlockLibrary) (c : Description) (d d' : Daemon), Empty d →
    (install lib c).run d = (.ok (), d') →
      (reconfigure lib ⟨[], [c], []⟩).run d = (.ok (), d') := by
  intro h
  have hok := h anyLibrary activeBlock started _ empty_started rfl
  have herror : ((reconfigure anyLibrary ⟨[], [activeBlock], []⟩).run started).1 =
      .error (.keyError "p") := rfl
  rw [hok] at herror
  simp at herror

end Daemon

end DStreamon
