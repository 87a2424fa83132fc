import DStreamon.Lib.Ends
import DStreamon.Lib.StepRun
import DStreamon.Proofs.UpdateBlock

/-!
# What the daemon records of connections

A block records its peers by gate, in one dictionary for its input gates and one for its output
gates.  What is removed is looked for in that of the input gates wherever the name has been one, and
one entry is removed there, whereas the executable disconnects two gates however often they are
connected.
-/

namespace DStreamon

open Function (update)
open Links (AtEnd Copied Matched Naming)

/-- Composition, block and gate. -/
abbrev Peer : Type := String × String × String

namespace Block

def gates (isIn : Bool) (b : Block) : String → Option (List Peer) :=
  if isIn then b.ingates else b.outgates

def setGates (isIn : Bool) (gate : String) (l : List Peer) (b : Block) : Block :=
  if isIn then { b with ingates := Function.update b.ingates gate (some l) }
  else { b with outgates := Function.update b.outgates gate (some l) }

variable {b : Block} {isIn isIn' : Bool} {gate : String} {l : List Peer}

theorem gates_setGates_self : (b.setGates isIn gate l).gates isIn =
    Function.update (b.gates isIn) gate (some l) := by
  cases isIn <;> rfl

theorem gates_setGates_of_ne (h : isIn' ≠ isIn) :
    (b.setGates isIn gate l).gates isIn' = b.gates isIn' := by
  cases isIn <;> cases isIn' <;> first | rfl | exact absurd rfl h

@[simp] theorem compId_setGates : (b.setGates isIn gate l).compId = b.compId := by
  cases isIn <;> rfl

@[simp] theorem name_setGates : (b.setGates isIn gate l).name = b.name := by
  cases isIn <;> rfl

end Block

namespace Daemon

/-- The block of a gate, if it is one of the manager's. -/
def blockOf (d : Daemon) (k : Peer) : Option Block :=
  if k.1 = d.compId then d.blocks k.2.1 else none

/-- The list that a block keeps for a gate, empty where it keeps none. -/
def peers (d : Daemon) (isIn : Bool) (k : Peer) : List Peer :=
  ((d.blockOf k).bind fun b => b.gates isIn k.2.2).getD []

def setBlock (name : String) (b : Block) (d : Daemon) : Daemon :=
  { d with blocks := update d.blocks name (some b) }

variable {d d' : Daemon} {b other : Block} {name mygate othergate : String} {isIn isIn' : Bool}
  {l : List Peer} {k : Peer}

theorem blockOf_self (hb : d.blocks name = some b) :
    d.blockOf (d.compId, name, mygate) = some b := by
  rw [blockOf, if_pos rfl, hb]

theorem blockOf_setBlock : (d.setBlock name b).blockOf k =
    if k.1 = d.compId ∧ k.2.1 = name then some b else d.blockOf k := by
  simp only [blockOf, setBlock, Function.update_apply]
  split_ifs <;> simp_all

theorem peers_self (hb : d.blocks name = some b) :
    d.peers isIn (d.compId, name, mygate) = (b.gates isIn mygate).getD [] := by
  rw [peers, blockOf_self hb, Option.bind_some]

theorem peers_setBlock_self (hb : d.blocks name = some b) :
    (d.setBlock name (b.setGates isIn mygate l)).peers isIn =
      update (d.peers isIn) (d.compId, name, mygate) l := by
  funext ⟨compId, name', gate⟩
  rw [peers, blockOf_setBlock]
  split_ifs with hblock
  · obtain ⟨rfl, rfl⟩ := hblock
    rw [Option.bind_some, Block.gates_setGates_self]
    by_cases hgate : gate = mygate
    · subst hgate
      rw [Function.update_self, Function.update_self, Option.getD_some]
    · rw [Function.update_of_ne hgate, Function.update_of_ne (by simpa using hgate), peers_self hb]
  · rw [Function.update_of_ne fun h => hblock ⟨congrArg Prod.fst h, congrArg (·.2.1) h⟩, peers]

theorem peers_setBlock_of_ne (hb : d.blocks name = some b) (h : isIn' ≠ isIn) :
    (d.setBlock name (b.setGates isIn mygate l)).peers isIn' = d.peers isIn' := by
  funext ⟨compId, name', gate⟩
  rw [peers, blockOf_setBlock]
  split_ifs with hblock
  · obtain ⟨rfl, rfl⟩ := hblock
    rw [Option.bind_some, Block.gates_setGates_of_ne h, peers_self hb]
  · rw [peers]

/-! ## The two methods -/

/-- How a block refers to a gate of another. -/
def entry (other : Block) (othergate : String) : Peer := (other.compId, other.name, othergate)

theorem addConnection_run (mygate : String) (other : Block) (othergate : String) (isIn : Bool)
    (hb : d.blocks name = some b) :
    (Block.addConnection name mygate other othergate isIn).run d = (.ok (), d.setBlock name
      (b.setGates isIn mygate (d.peers isIn (d.compId, name, mygate) ++
        [entry other othergate]))) := by
  rw [Block.addConnection, Attempt.run_bind_of_ok (self_run hb), peers_self hb]
  cases isIn <;> rfl

theorem removeConnection_run (other : Block) (othergate : String) (hb : d.blocks name = some b)
    (hin : (b.ingates mygate).isSome = isIn) (hl : b.gates isIn mygate = some l) :
    (Block.removeConnection name mygate other othergate).run d =
      if entry other othergate ∈ l then
        (.ok (), d.setBlock name (b.setGates isIn mygate (l.erase (entry other othergate))))
      else (.error .valueError, d) := by
  rw [Block.removeConnection, Attempt.run_bind_of_ok (self_run hb), entry]
  dsimp only
  rw [hin]
  by_cases hmem : (other.compId, other.name, othergate) ∈ l
  · cases isIn
    · rw [if_neg Bool.false_ne_true, show b.outgates mygate = some l from hl, Attempt.orThrow_some,
        pure_bind, if_pos hmem, if_pos hmem]
      rfl
    · rw [if_pos rfl, show b.ingates mygate = some l from hl, Attempt.orThrow_some, pure_bind,
        if_pos hmem, if_pos hmem]
      rfl
  · cases isIn
    · rw [if_neg Bool.false_ne_true, show b.outgates mygate = some l from hl, Attempt.orThrow_some,
        pure_bind, if_neg hmem, if_neg hmem]
      rfl
    · rw [if_pos rfl, show b.ingates mygate = some l from hl, Attempt.orThrow_some, pure_bind,
        if_neg hmem, if_neg hmem]
      rfl

/-! ## A connection that is added and removed again -/

/-- Both calls return, and every list is as it was. -/
def Restores (d : Daemon) (name mygate : String) (other : Block) (othergate : String)
    (isIn : Bool) : Prop :=
  ∃ d', (do
    Block.addConnection name mygate other othergate isIn
    Block.removeConnection name mygate other othergate).run d = (.ok (), d') ∧
    ∀ isIn', d'.peers isIn' = d.peers isIn'

/-- An output gate has not the name of one that was an input gate, and the new entry is behind
others of the same peer only. -/
def Undoable (d : Daemon) (b : Block) (name mygate : String) (other : Block) (othergate : String)
    (isIn : Bool) : Prop :=
  (isIn = true ∨ b.ingates mygate = none) ∧
    AtEnd (entry other othergate) (d.peers isIn (d.compId, name, mygate))

theorem blocks_setBlock_self : (d.setBlock name b).blocks name = some b := Function.update_self ..

/-- What was appended is found where the gates of the direction are looked for. -/
theorem restores_iff_of_same (hb : d.blocks name = some b)
    (hsame : isIn = true ∨ b.ingates mygate = none) :
    d.Restores name mygate other othergate isIn ↔
      AtEnd (entry other othergate) (d.peers isIn (d.compId, name, mygate)) := by
  let k : Peer := (d.compId, name, mygate)
  let l := d.peers isIn k ++ [entry other othergate]
  have hb' : (d.setBlock name (b.setGates isIn mygate l)).blocks name =
      some (b.setGates isIn mygate l) := blocks_setBlock_self
  have hl : (b.setGates isIn mygate l).gates isIn mygate = some l := by
    rw [Block.gates_setGates_self, Function.update_self]
  have hin : ((b.setGates isIn mygate l).ingates mygate).isSome = isIn := by
    cases isIn with
    | true => exact congrArg Option.isSome hl
    | false => exact congrArg Option.isSome (hsame.resolve_left Bool.false_ne_true)
  have hrun : (do
      Block.addConnection name mygate other othergate isIn
      Block.removeConnection name mygate other othergate).run d = (.ok (), (d.setBlock name
        (b.setGates isIn mygate l)).setBlock name ((b.setGates isIn mygate l).setGates isIn mygate
          (l.erase (entry other othergate)))) := by
    rw [Attempt.run_bind_of_ok (addConnection_run mygate other othergate isIn hb),
      removeConnection_run other othergate hb' hin hl,
      if_pos (List.mem_append_right _ List.mem_cons_self)]
  have hpeers : ((d.setBlock name (b.setGates isIn mygate l)).setBlock name
      ((b.setGates isIn mygate l).setGates isIn mygate (l.erase (entry other othergate)))).peers
        isIn = Links.remove (Links.add (d.peers isIn) k (entry other othergate)) k
          (entry other othergate) := by
    rw [peers_setBlock_self hb', peers_setBlock_self hb, Links.remove, Links.add,
      Function.update_self]
    rfl
  rw [← Links.remove_add_iff (k := k), ← hpeers]
  constructor
  · rintro ⟨d', hrun', hd'⟩
    rw [hrun] at hrun'
    cases hrun'
    exact hd' isIn
  · intro heq
    refine ⟨_, hrun, fun isIn' => ?_⟩
    by_cases hi : isIn' = isIn
    · rw [hi, heq]
    · rw [peers_setBlock_of_ne hb' hi, peers_setBlock_of_ne hb hi]

/-- The list with the new entry is not looked at. -/
theorem not_restores_of_ingate (hb : d.blocks name = some b) {m : List Peer}
    (hin : b.ingates mygate = some m) : ¬ d.Restores name mygate other othergate false := by
  let l := d.peers false (d.compId, name, mygate) ++ [entry other othergate]
  have hb' : (d.setBlock name (b.setGates false mygate l)).blocks name =
      some (b.setGates false mygate l) := blocks_setBlock_self
  have hin' : ((b.setGates false mygate l).ingates mygate).isSome = true :=
    congrArg Option.isSome hin
  have hkept : ∀ l', ((d.setBlock name (b.setGates false mygate l)).setBlock name
      ((b.setGates false mygate l).setGates true mygate l')).peers false
        (d.compId, name, mygate) = l := by
    intro l'
    rw [peers_setBlock_of_ne hb' Bool.false_ne_true, peers_setBlock_self hb, Function.update_self]
  rintro ⟨d', hrun, hd'⟩
  rw [Attempt.run_bind_of_ok (addConnection_run mygate other othergate false hb),
    removeConnection_run other othergate hb' hin' hin] at hrun
  split_ifs at hrun
  · cases hrun
    have hlen := congrArg List.length ((hkept _).symm.trans (congrFun (hd' false) _))
    rw [List.length_append] at hlen
    exact absurd hlen (by simp)
  · cases hrun

theorem restores_iff (hb : d.blocks name = some b) :
    d.Restores name mygate other othergate isIn ↔
      d.Undoable b name mygate other othergate isIn := by
  by_cases hsame : isIn = true ∨ b.ingates mygate = none
  · rw [restores_iff_of_same hb hsame, Undoable, and_iff_right hsame]
  · refine iff_of_false ?_ fun h => hsame h.1
    obtain ⟨hout, hin⟩ := not_or.1 hsame
    obtain ⟨m, hin⟩ := Option.ne_none_iff_exists'.1 hin
    rw [Bool.not_eq_true] at hout
    rw [hout]
    exact not_restores_of_ingate hb hin

/-! ## Connections of the executable -/

/-- The instance of a gate's block. -/
def holder (d : Daemon) (k : Peer) : Option Instance := (d.blockOf k).bind d.instanceOf

/-- The gate's address in the executable. -/
def address (d : Daemon) (k : Peer) : Option (ℕ × String) :=
  (d.holder k).map fun i => (i.id, k.2.2)

/-- The recorded peers of every gate are those the executable has, in the same order. -/
structure Recorded (d : Daemon) : Prop where
  outgates : Copied d.address d.address (d.peers false) d.blockmon.gates.outPeers
  ingates : Copied d.address d.address (d.peers true) d.blockmon.gates.inPeers

/-- The blocks of the manager are those of its composition, with an instance each, and what is
connected are gates that they have. -/
structure Installed (d : Daemon) : Prop where
  block : ∀ name b, d.blocks name = some b →
    b.compId = d.compId ∧ b.name = name ∧ ∃ i, d.instanceOf b = some i
  naming : Naming d.address
  matched : Matched d.blockmon.gates.outPeers d.blockmon.gates.inPeers
  outGate : ∀ k i, d.holder k = some i → d.blockmon.gates.outPeers (i.id, k.2.2) ≠ [] →
    k.2.2 ∈ i.outGates
  inGate : ∀ k i, d.holder k = some i → d.blockmon.gates.inPeers (i.id, k.2.2) ≠ [] →
    k.2.2 ∈ i.inGates

/-- The same blocks and instances. -/
structure Same (d d' : Daemon) : Prop where
  compId : d'.compId = d.compId
  compositions : d'.blockmon.compositions = d.blockmon.compositions
  blocks : ∀ name, (d'.blocks name).map (fun b => (b.compId, b.name)) =
    (d.blocks name).map fun b => (b.compId, b.name)

theorem Same.refl (d : Daemon) : Same d d := ⟨rfl, rfl, fun _ => rfl⟩

theorem Same.trans {d'' : Daemon} (h : Same d d') (h' : Same d' d'') : Same d d'' :=
  ⟨h'.compId.trans h.compId, h'.compositions.trans h.compositions,
    fun name => (h'.blocks name).trans (h.blocks name)⟩

theorem same_setBlock (hb : d.blocks name = some b) :
    Same d (d.setBlock name (b.setGates isIn mygate l)) := by
  refine ⟨rfl, rfl, fun name' => ?_⟩
  by_cases hname : name' = name
  · subst hname
    rw [blocks_setBlock_self, hb, Option.map_some, Option.map_some, Block.compId_setGates,
      Block.name_setGates]
  · dsimp only [setBlock]
    rw [Function.update_of_ne hname]

/-- By the composition and the name alone. -/
theorem holder_eq (d : Daemon) (k : Peer) : d.holder k =
    ((d.blockOf k).map fun b => (b.compId, b.name)).bind fun p =>
      (d.blockmon.compositions p.1).bind fun c => c p.2 := by
  rw [holder]
  cases d.blockOf k <;> rfl

theorem Same.holder (h : Same d d') : d'.holder = d.holder := by
  funext k
  have hblock : (d'.blockOf k).map (fun b => (b.compId, b.name)) =
      (d.blockOf k).map fun b => (b.compId, b.name) := by
    rw [blockOf, blockOf, h.compId]
    split_ifs
    · exact h.blocks k.2.1
    · rfl
  rw [holder_eq, holder_eq, hblock, h.compositions]

theorem Same.address (h : Same d d') : d'.address = d.address := by
  funext k
  rw [Daemon.address, Daemon.address, h.holder]

theorem Same.block (h : Same d d') {b' : Block} (hb' : d'.blocks name = some b') :
    ∃ b, d.blocks name = some b ∧ b'.compId = b.compId ∧ b'.name = b.name := by
  have hblock := h.blocks name
  rw [hb', Option.map_some] at hblock
  obtain ⟨b, hb, heq⟩ := Option.map_eq_some_iff.1 hblock.symm
  exact ⟨b, hb, (congrArg Prod.fst heq).symm, (congrArg Prod.snd heq).symm⟩

theorem Same.instanceOf (h : Same d d') {b' : Block} (hcomp : b'.compId = b.compId)
    (hname : b'.name = b.name) : d'.instanceOf b' = d.instanceOf b := by
  rw [Daemon.instanceOf, Daemon.instanceOf, h.compositions, hcomp, hname]

/-- With other connections between the same gates. -/
theorem Installed.same (hd : Installed d) (h : Same d d')
    (hmatched : Matched d'.blockmon.gates.outPeers d'.blockmon.gates.inPeers)
    (hout : ∀ k i, d.holder k = some i → d'.blockmon.gates.outPeers (i.id, k.2.2) ≠ [] →
      d.blockmon.gates.outPeers (i.id, k.2.2) ≠ [] ∨ k.2.2 ∈ i.outGates)
    (hin : ∀ k i, d.holder k = some i → d'.blockmon.gates.inPeers (i.id, k.2.2) ≠ [] →
      d.blockmon.gates.inPeers (i.id, k.2.2) ≠ [] ∨ k.2.2 ∈ i.inGates) : Installed d' where
  block name b' hb' := by
    obtain ⟨b, hb, hcomp, hname⟩ := h.block hb'
    obtain ⟨hbcomp, hbname, i, hi⟩ := hd.block name b hb
    exact ⟨by rw [hcomp, hbcomp, h.compId], hname.trans hbname, i,
      (h.instanceOf hcomp hname).trans hi⟩
  naming := by
    rw [h.address]
    exact hd.naming
  matched := hmatched
  outGate k i hk hne := by
    rw [h.holder] at hk
    exact (hout k i hk hne).elim (hd.outGate k i hk) id
  inGate k i hk hne := by
    rw [h.holder] at hk
    exact (hin k i hk hne).elim (hd.inGate k i hk) id

/-! ## What the executable does -/

section Backend

variable {s : Blockmon} {i j : Instance} {c₁ n₁ c₂ n₂ : String}

theorem ofGates_run {x : Attempt String (Gates (ℕ × String) (ℕ × String)) Unit}
    {g : Gates (ℕ × String) (ℕ × String)} (h : x.run s.gates = (.ok (), g)) :
    (Blockmon.ofGates x).run s = (.ok (), { s with gates := g }) := by
  rw [Blockmon.ofGates]
  dsimp only
  rw [h]
  rfl

theorem outDisconnect_run {g : Gates (ℕ × String) (ℕ × String)} {a a' : ℕ × String}
    (h : a' ∈ g.outPeers a) : (OutGate.disconnect a a').run g =
      (.ok (), { g with outPeers := Links.erase g.outPeers a a' }) := by
  rw [OutGate.disconnect, Gates.ofOut, Attempt.run_zoom, Links.unlink_of_mem h]

theorem inDisconnect_run {g : Gates (ℕ × String) (ℕ × String)} {a a' : ℕ × String}
    (h : a' ∈ g.inPeers a) : (InGate.disconnect a a').run g =
      (.ok (), { g with inPeers := Links.erase g.inPeers a a' }) := by
  rw [InGate.disconnect, Gates.ofIn, Attempt.run_zoom, Links.unlink_of_mem h]

/-- Both gates are there, or nothing happens. -/
theorem findGates_cases (g₁ g₂ : String) (hi : (s.compositions c₁).bind (fun c => c n₁) = some i)
    (hj : (s.compositions c₂).bind (fun c => c n₂) = some j)
    (f : ℕ × String → ℕ × String → Attempt PyError Blockmon Unit) :
    (g₁ ∈ i.outGates ∧ g₂ ∈ j.inGates ∧ (Blockmon.getOutputGate c₁ n₁ g₁ >>= fun src =>
      Blockmon.getInputGate c₂ n₂ g₂ >>= fun dst => f src dst).run s =
        (f (i.id, g₁) (j.id, g₂)).run s) ∨
    ¬ (g₁ ∈ i.outGates ∧ g₂ ∈ j.inGates) ∧ ∃ e, (Blockmon.getOutputGate c₁ n₁ g₁ >>= fun src =>
      Blockmon.getInputGate c₂ n₂ g₂ >>= fun dst => f src dst).run s = (.error e, s) := by
  rw [Blockmon.getOutputGate, bind_assoc,
    Attempt.run_bind_of_ok (ThreadPool.getBlock_some hi)]
  by_cases hout : g₁ ∈ i.outGates
  · rw [if_pos hout, pure_bind, Blockmon.getInputGate, bind_assoc,
      Attempt.run_bind_of_ok (ThreadPool.getBlock_some hj)]
    by_cases hin : g₂ ∈ j.inGates
    · rw [if_pos hin, pure_bind]
      exact .inl ⟨hout, hin, rfl⟩
    · rw [if_neg hin, Attempt.run_throw_bind]
      exact .inr ⟨fun h => hin h.2, _, rfl⟩
  · rw [if_neg hout, Attempt.run_throw_bind]
    exact .inr ⟨fun h => hout h.1, _, rfl⟩

/-- What the executable has connected, after a step that leaves its blocks. -/
structure Connected (s s' : Blockmon) (out : ℕ × String → List (ℕ × String))
    (inn : ℕ × String → List (ℕ × String)) : Prop where
  compositions : s'.compositions = s.compositions
  outPeers : s'.gates.outPeers = out
  inPeers : s'.gates.inPeers = inn

theorem createConnection_cases (g₁ g₂ : String)
    (hi : (s.compositions c₁).bind (fun c => c n₁) = some i)
    (hj : (s.compositions c₂).bind (fun c => c n₂) = some j) :
    (g₁ ∈ i.outGates ∧ g₂ ∈ j.inGates ∧
      ∃ s', (Blockmon.createConnection c₁ n₁ g₁ c₂ n₂ g₂).run s = (.ok (), s') ∧
        Connected s s' (Links.add s.gates.outPeers (i.id, g₁) (j.id, g₂))
          (Links.add s.gates.inPeers (j.id, g₂) (i.id, g₁))) ∨
    ∃ e, (Blockmon.createConnection c₁ n₁ g₁ c₂ n₂ g₂).run s = (.error e, s) := by
  obtain ⟨hout, hin, hrun⟩ | ⟨-, herror⟩ := findGates_cases g₁ g₂ hi hj
    fun src dst => Blockmon.ofGates (OutGate.connect src dst) >>= fun _ =>
      Blockmon.ofGates (InGate.connect dst src)
  · exact .inl ⟨hout, hin, _, hrun, rfl, rfl, rfl⟩
  · exact .inr herror

/-- As far as the two gates have been connected. -/
theorem deleteConnection_cases {g₁ g₂ : String}
    (hi : (s.compositions c₁).bind (fun c => c n₁) = some i)
    (hj : (s.compositions c₂).bind (fun c => c n₂) = some j)
    (hm : Matched s.gates.outPeers s.gates.inPeers)
    (hout : s.gates.outPeers (i.id, g₁) ≠ [] → g₁ ∈ i.outGates)
    (hin : s.gates.inPeers (j.id, g₂) ≠ [] → g₂ ∈ j.inGates) :
    ((j.id, g₂) ∈ s.gates.outPeers (i.id, g₁) ∧
      ∃ s', (Blockmon.deleteConnection c₁ n₁ g₁ c₂ n₂ g₂).run s = (.ok (), s') ∧
        Connected s s' (Links.erase s.gates.outPeers (i.id, g₁) (j.id, g₂))
          (Links.erase s.gates.inPeers (j.id, g₂) (i.id, g₁))) ∨
    (j.id, g₂) ∉ s.gates.outPeers (i.id, g₁) ∧
      ∃ e, (Blockmon.deleteConnection c₁ n₁ g₁ c₂ n₂ g₂).run s = (.error e, s) := by
  have hcases := findGates_cases g₁ g₂ hi hj fun src dst =>
    Blockmon.ofGates (OutGate.disconnect src dst) >>= fun _ =>
      Blockmon.ofGates (InGate.disconnect dst src)
  by_cases hmem : (j.id, g₂) ∈ s.gates.outPeers (i.id, g₁)
  · have hmem' := hm.mem_iff.1 hmem
    have hreal : g₁ ∈ i.outGates ∧ g₂ ∈ j.inGates :=
      ⟨hout (List.ne_nil_of_mem hmem), hin (List.ne_nil_of_mem hmem')⟩
    obtain ⟨-, -, hrun⟩ | ⟨hnot, -⟩ := hcases
    · rw [Attempt.run_bind_of_ok (ofGates_run (outDisconnect_run hmem))] at hrun
      exact .inl ⟨hmem, _, hrun.trans (ofGates_run (inDisconnect_run hmem')), rfl, rfl, rfl⟩
    · exact absurd hreal hnot
  · refine .inr ⟨hmem, ?_⟩
    obtain ⟨-, -, hrun⟩ | ⟨-, herror⟩ := hcases
    · refine ⟨.runtimeError notConnected, hrun.trans ?_⟩
      have hunlink := Links.unlink_of_not_mem (e := notConnected) hmem
      simp only [Attempt.run_bind, Blockmon.ofGates, OutGate.disconnect, Gates.ofOut,
        Attempt.run_zoom, hunlink]
      rfl
    · exact herror

end Backend

/-! ## The calls of the manager -/

variable {b₁ g₁ b₂ g₂ : String} {src dst : Block} {lib : BlockLibrary} {n : Node}

/-- The gate of one of the manager's blocks. -/
def gate (d : Daemon) (block gate : String) : Peer := (d.compId, block, gate)

/-- The name has been one of an input gate. -/
def Keyed (d : Daemon) (block gate : String) : Prop :=
  ∃ b, d.blocks block = some b ∧ b.ingates gate ≠ none

theorem Installed.entry (hd : Installed d) (hb : d.blocks name = some b) (gate : String) :
    entry b gate = d.gate name gate := by
  obtain ⟨hcomp, hname, -⟩ := hd.block name b hb
  rw [Daemon.entry, Daemon.gate, hcomp, hname]

theorem Installed.holder (hd : Installed d) (hb : d.blocks name = some b) (gate : String) :
    ∃ i, d.instanceOf b = some i ∧ d.holder (d.gate name gate) = some i := by
  obtain ⟨-, -, i, hi⟩ := hd.block name b hb
  exact ⟨i, hi, by rw [Daemon.holder, Daemon.gate, blockOf_self hb, Option.bind_some, hi]⟩

theorem addConnection_peers (mygate : String) (other : Block) (othergate : String) (isIn : Bool)
    (hb : d.blocks name = some b) : ∃ d',
    (Block.addConnection name mygate other othergate isIn).run d = (.ok (), d') ∧ Same d d' ∧
      d'.blockmon = d.blockmon ∧
      d'.peers isIn = Links.add (d.peers isIn) (d.gate name mygate) (entry other othergate) ∧
      ∀ isIn', isIn' ≠ isIn → d'.peers isIn' = d.peers isIn' :=
  ⟨_, addConnection_run mygate other othergate isIn hb, same_setBlock hb, rfl,
    peers_setBlock_self hb,
    fun _ h => peers_setBlock_of_ne hb h⟩

/-- An entry that is found. -/
theorem removeConnection_peers (isIn : Bool) (hb : d.blocks name = some b)
    (hkey : isIn = false → b.ingates mygate = none)
    (hmem : entry other othergate ∈ d.peers isIn (d.gate name mygate)) : ∃ d',
    (Block.removeConnection name mygate other othergate).run d = (.ok (), d') ∧ Same d d' ∧
      d'.blockmon = d.blockmon ∧
      d'.peers isIn = Links.remove (d.peers isIn) (d.gate name mygate) (entry other othergate) ∧
      ∀ isIn', isIn' ≠ isIn → d'.peers isIn' = d.peers isIn' := by
  have hpeers : d.peers isIn (d.gate name mygate) = (b.gates isIn mygate).getD [] := peers_self hb
  cases hl : b.gates isIn mygate with
  | none =>
    rw [hpeers, hl] at hmem
    cases hmem
  | some l =>
    rw [hpeers, hl, Option.getD_some] at hmem
    have hin : (b.ingates mygate).isSome = isIn := by
      cases isIn with
      | true => exact congrArg Option.isSome hl
      | false => exact congrArg Option.isSome (hkey rfl)
    have hrun := removeConnection_run other othergate hb hin hl
    rw [if_pos hmem] at hrun
    refine ⟨_, hrun, same_setBlock hb, rfl, ?_, fun _ h => peers_setBlock_of_ne hb h⟩
    rw [peers_setBlock_self hb, Links.remove, hpeers, hl, Option.getD_some, Daemon.gate]

/-- Where the name has been one of an input gate nothing is removed from the output gates. -/
theorem removeConnection_keyed (other : Block) (othergate : String)
    (hb : d.blocks name = some b) (hin : b.ingates mygate ≠ none) :
    ∃ r d', (Block.removeConnection name mygate other othergate).run d = (r, d') ∧ Same d d' ∧
      d'.blockmon = d.blockmon ∧ d'.peers false = d.peers false ∧
      ∀ block gate, d.Keyed block gate → d'.Keyed block gate := by
  obtain ⟨l, hl⟩ := Option.ne_none_iff_exists'.1 hin
  have hkey : (b.ingates mygate).isSome = true := congrArg Option.isSome hl
  have hrun := removeConnection_run other othergate hb hkey hl
  split_ifs at hrun
  · refine ⟨_, _, hrun, same_setBlock hb, rfl, peers_setBlock_of_ne hb Bool.false_ne_true, ?_⟩
    rintro block gate ⟨b', hb', hgate⟩
    by_cases hname : block = name
    · subst hname
      obtain rfl := Option.some.inj (hb.symm.trans hb')
      refine ⟨_, blocks_setBlock_self, ?_⟩
      change Function.update b.ingates mygate _ gate ≠ none
      by_cases hg : gate = mygate
      · rw [hg, Function.update_self]
        exact Option.some_ne_none _
      · rwa [Function.update_of_ne hg]
    · exact ⟨b', (Function.update_of_ne hname ..).trans hb', hgate⟩
  · exact ⟨_, _, hrun, .refl d, rfl, rfl, fun _ _ h => h⟩

theorem self_none (h : d.blocks name = none) :
    (Block.self name).run d = (.error (.keyError name), d) := by
  rw [Block.self, Attempt.run_get_bind, h]
  rfl

/-- Both blocks are there, or nothing happens. -/
theorem findBlocks_cases (b₁ b₂ : String) (f : Block → Block → Attempt PyError Daemon Unit) :
    (∃ src dst, d.blocks b₁ = some src ∧ d.blocks b₂ = some dst ∧
      (Block.self b₁ >>= fun src => Block.self b₂ >>= fun dst => f src dst).run d =
        (f src dst).run d) ∨
    (d.blocks b₁ = none ∨ d.blocks b₂ = none) ∧ ∃ e, (Block.self b₁ >>= fun src =>
      Block.self b₂ >>= fun dst => f src dst).run d = (.error e, d) := by
  cases h₁ : d.blocks b₁ with
  | none => exact .inr ⟨.inl rfl, _, Attempt.run_bind_of_error (self_none h₁)⟩
  | some src =>
    rw [Attempt.run_bind_of_ok (self_run h₁)]
    cases h₂ : d.blocks b₂ with
    | none => exact .inr ⟨.inr rfl, _, Attempt.run_bind_of_error (self_none h₂)⟩
    | some dst => exact .inl ⟨src, dst, rfl, rfl, Attempt.run_bind_of_ok (self_run h₂)⟩

theorem ofBlockmon_run {α : Type} {x : Attempt PyError Blockmon α} {r : Except PyError α}
    {s : Blockmon} (h : x.run d.blockmon = (r, s)) :
    (ofBlockmon x).run d = (r, { d with blockmon := s }) := by
  rw [ofBlockmon, Attempt.run_zoom, h]

theorem Same.exists_block (h : Same d d') (hb : d.blocks name = some b) :
    ∃ b', d'.blocks name = some b' := by
  have hblock := h.blocks name
  rw [hb, Option.map_some] at hblock
  obtain ⟨b', hb', -⟩ := Option.map_eq_some_iff.1 hblock
  exact ⟨b', hb'⟩

/-- The peers that are recorded, after a step that leaves the blocks. -/
structure Records (d d' : Daemon) (out inn : Peer → List Peer) : Prop where
  same : Same d d'
  blockmon : d'.blockmon = d.blockmon
  outgates : d'.peers false = out
  ingates : d'.peers true = inn

theorem addConnections_run (g₁ g₂ : String) (hsrc : d.blocks b₁ = some src)
    (hdst : d.blocks b₂ = some dst) :
    ∃ d', (Block.addConnection b₁ g₁ dst g₂ false >>= fun _ =>
      Block.addConnection b₂ g₂ src g₁ true).run d = (.ok (), d') ∧
      Records d d' (Links.add (d.peers false) (d.gate b₁ g₁) (entry dst g₂))
        (Links.add (d.peers true) (d.gate b₂ g₂) (entry src g₁)) := by
  obtain ⟨d₁, hrun₁, hsame₁, hmon₁, hout₁, hin₁⟩ := addConnection_peers g₁ dst g₂ false hsrc
  obtain ⟨b', hb'⟩ := hsame₁.exists_block hdst
  obtain ⟨d₂, hrun₂, hsame₂, hmon₂, hin₂, hout₂⟩ := addConnection_peers g₂ src g₁ true hb'
  refine ⟨d₂, (Attempt.run_bind_of_ok hrun₁).trans hrun₂, hsame₁.trans hsame₂, hmon₂.trans hmon₁,
    (hout₂ false Bool.false_ne_true).trans hout₁, ?_⟩
  rw [hin₂, hin₁ true Bool.false_ne_true.symm, Daemon.gate, Daemon.gate, hsame₁.compId]

/-- Both entries are found and removed. -/
theorem removeConnections_run (hsrc : d.blocks b₁ = some src) (hdst : d.blocks b₂ = some dst)
    (hkey : src.ingates g₁ = none) (hmem : entry dst g₂ ∈ d.peers false (d.gate b₁ g₁))
    (hmem' : entry src g₁ ∈ d.peers true (d.gate b₂ g₂)) :
    ∃ d', (Block.removeConnection b₁ g₁ dst g₂ >>= fun _ =>
      Block.removeConnection b₂ g₂ src g₁).run d = (.ok (), d') ∧
      Records d d' (Links.remove (d.peers false) (d.gate b₁ g₁) (entry dst g₂))
        (Links.remove (d.peers true) (d.gate b₂ g₂) (entry src g₁)) := by
  obtain ⟨d₁, hrun₁, hsame₁, hmon₁, hout₁, hin₁⟩ :=
    removeConnection_peers false hsrc (fun _ => hkey) hmem
  obtain ⟨b', hb'⟩ := hsame₁.exists_block hdst
  have hmem₁ : entry src g₁ ∈ d₁.peers true (d₁.gate b₂ g₂) := by
    rwa [hin₁ true Bool.false_ne_true.symm, Daemon.gate, hsame₁.compId]
  obtain ⟨d₂, hrun₂, hsame₂, hmon₂, hin₂, hout₂⟩ :=
    removeConnection_peers true hb' (fun h => nomatch h) hmem₁
  refine ⟨d₂, (Attempt.run_bind_of_ok hrun₁).trans hrun₂, hsame₁.trans hsame₂, hmon₂.trans hmon₁,
    (hout₂ false Bool.false_ne_true).trans hout₁, ?_⟩
  rw [hin₂, hin₁ true Bool.false_ne_true.symm, Daemon.gate, Daemon.gate, hsame₁.compId]

/-- Neither entry is looked for at the output gates. -/
theorem removeConnections_keyed (hsrc : d.blocks b₁ = some src) (hkey : src.ingates g₁ ≠ none)
    (hkey' : d.Keyed b₂ g₂) : ∃ r d', (Block.removeConnection b₁ g₁ dst g₂ >>= fun _ =>
      Block.removeConnection b₂ g₂ src g₁).run d = (r, d') ∧
      Records d d' (d.peers false) (d'.peers true) := by
  obtain ⟨r₁, d₁, hrun₁, hsame₁, hmon₁, hout₁, hkeyed₁⟩ :=
    removeConnection_keyed dst g₂ hsrc hkey
  rcases r₁ with e | _
  · exact ⟨_, d₁, Attempt.run_bind_of_error hrun₁, hsame₁, hmon₁, hout₁, rfl⟩
  · obtain ⟨b', hb', hgate⟩ := hkeyed₁ b₂ g₂ hkey'
    obtain ⟨r₂, d₂, hrun₂, hsame₂, hmon₂, hout₂, -⟩ :=
      removeConnection_keyed src g₁ hb' hgate
    exact ⟨r₂, d₂, (Attempt.run_bind_of_ok hrun₁).trans hrun₂, hsame₁.trans hsame₂,
      hmon₂.trans hmon₁, hout₂.trans hout₁, rfl⟩

/-- Gates of the manager's blocks, an output gate and an input gate. -/
structure Between (d : Daemon) (k₁ k₂ : Peer) (i j : Instance) : Prop where
  src : d.holder k₁ = some i
  dst : d.holder k₂ = some j
  outGate : k₁.2.2 ∈ i.outGates
  inGate : k₂.2.2 ∈ j.inGates

/-- After a call the blocks are the same, and these connections are recorded, and these made. -/
structure Leaves (d d' : Daemon) (recordedOut recordedIn : Peer → List Peer)
    (out inn : ℕ × String → List (ℕ × String)) : Prop where
  same : Same d d'
  outgates : d'.peers false = recordedOut
  ingates : d'.peers true = recordedIn
  outPeers : d'.blockmon.gates.outPeers = out
  inPeers : d'.blockmon.gates.inPeers = inn

theorem Records.leaves {s : Blockmon} {rout rin : Peer → List Peer}
    {out inn : ℕ × String → List (ℕ × String)} (hs : Connected d.blockmon s out inn)
    (h : Records { d with blockmon := s } d' rout rin) : Leaves d d' rout rin out inn := by
  refine ⟨⟨h.same.compId, ?_, h.same.blocks⟩, h.outgates, h.ingates, ?_, ?_⟩
  · rw [h.blockmon, hs.compositions]
  · rw [h.blockmon, hs.outPeers]
  · rw [h.blockmon, hs.inPeers]

/-- A connection is made and recorded at both its ends, or nothing happens. -/
theorem connectBlocks_cases (hd : Installed d) (b₁ g₁ b₂ g₂ : String) :
    (∃ e, (connectBlocks b₁ g₁ b₂ g₂).run d = (.error e, d)) ∨
    ∃ i j d', Between d (d.gate b₁ g₁) (d.gate b₂ g₂) i j ∧
      (connectBlocks b₁ g₁ b₂ g₂).run d = (.ok (), d') ∧
      Leaves d d' (Links.add (d.peers false) (d.gate b₁ g₁) (d.gate b₂ g₂))
        (Links.add (d.peers true) (d.gate b₂ g₂) (d.gate b₁ g₁))
        (Links.add d.blockmon.gates.outPeers (i.id, g₁) (j.id, g₂))
        (Links.add d.blockmon.gates.inPeers (j.id, g₂) (i.id, g₁)) := by
  obtain ⟨src, dst, hsrc, hdst, hrun⟩ | ⟨-, herror⟩ := findBlocks_cases b₁ b₂ fun src dst => do
    ofBlockmon (Blockmon.createConnection src.compId src.name g₁ dst.compId dst.name g₂)
    Block.addConnection b₁ g₁ dst g₂ false
    Block.addConnection b₂ g₂ src g₁ true
  swap
  · exact .inl herror
  obtain ⟨i, hi, hholder⟩ := hd.holder hsrc g₁
  obtain ⟨j, hj, hholder'⟩ := hd.holder hdst g₂
  obtain ⟨hout, hin, s', hcreate, hs'⟩ | ⟨e, hcreate⟩ := createConnection_cases g₁ g₂ hi hj
  swap
  · exact .inl ⟨e, hrun.trans (Attempt.run_bind_of_error (ofBlockmon_run hcreate))⟩
  have hsrc' : ({ d with blockmon := s' } : Daemon).blocks b₁ = some src := hsrc
  obtain ⟨d', hadd, hrecords⟩ := addConnections_run g₁ g₂ hsrc' hdst
  refine .inr ⟨i, j, d', ⟨hholder, hholder', hout, hin⟩, ?_, ?_⟩
  · exact hrun.trans ((Attempt.run_bind_of_ok (ofBlockmon_run hcreate)).trans hadd)
  · rw [hd.entry hsrc, hd.entry hdst] at hrecords
    exact hrecords.leaves hs'

theorem address_eq {i : Instance} (h : d.holder k = some i) : d.address k = some (i.id, k.2.2) := by
  rw [address, h, Option.map_some]

theorem block_of_holder {i : Instance} (h : d.holder (d.gate name mygate) = some i) :
    ∃ b, d.blocks name = some b := by
  obtain ⟨b, hb, -⟩ := Option.bind_eq_some_iff.1 h
  rw [blockOf, Daemon.gate, if_pos rfl] at hb
  exact ⟨b, hb⟩

/-- What is recorded are gates of blocks that there are. -/
theorem blocks_of_mem (hd : Installed d) (hr : Recorded d)
    (hmem : d.gate b₂ g₂ ∈ d.peers false (d.gate b₁ g₁)) :
    (∃ src, d.blocks b₁ = some src) ∧ ∃ dst, d.blocks b₂ = some dst := by
  cases hsrc : d.blocks b₁ with
  | none =>
    rw [peers, blockOf, Daemon.gate, if_pos rfl, hsrc] at hmem
    cases hmem
  | some src =>
    obtain ⟨i, -, hi⟩ := hd.holder hsrc g₁
    obtain ⟨a, -, ha⟩ := hr.outgates.named (address_eq hi) hmem
    obtain ⟨j, hj, -⟩ := Option.map_eq_some_iff.1 ha
    exact ⟨⟨src, rfl⟩, block_of_holder hj⟩

/-- What is recorded is disconnected in the executable, and nothing else. -/
theorem disconnectBlocks_cases (hd : Installed d) (hr : Recorded d) (b₁ g₁ b₂ g₂ : String) :
    (d.gate b₂ g₂ ∈ d.peers false (d.gate b₁ g₁) ∧ ∃ src dst i j s',
      d.blocks b₁ = some src ∧ d.blocks b₂ = some dst ∧
      d.holder (d.gate b₁ g₁) = some i ∧ d.holder (d.gate b₂ g₂) = some j ∧
      Connected d.blockmon s' (Links.erase d.blockmon.gates.outPeers (i.id, g₁) (j.id, g₂))
        (Links.erase d.blockmon.gates.inPeers (j.id, g₂) (i.id, g₁)) ∧
      (disconnectBlocks b₁ g₁ b₂ g₂).run d = (Block.removeConnection b₁ g₁ dst g₂ >>= fun _ =>
        Block.removeConnection b₂ g₂ src g₁).run { d with blockmon := s' }) ∨
    d.gate b₂ g₂ ∉ d.peers false (d.gate b₁ g₁) ∧
      ∃ e, (disconnectBlocks b₁ g₁ b₂ g₂).run d = (.error e, d) := by
  have hfind := findBlocks_cases (d := d) b₁ b₂ fun src dst => do
    ofBlockmon (Blockmon.deleteConnection src.compId src.name g₁ dst.compId dst.name g₂)
    Block.removeConnection b₁ g₁ dst g₂
    Block.removeConnection b₂ g₂ src g₁
  obtain ⟨src, dst, hsrc, hdst, hrun⟩ | ⟨hnone, herror⟩ := hfind
  swap
  · refine .inr ⟨fun hmem => ?_, herror⟩
    obtain ⟨⟨src, hsrc⟩, dst, hdst⟩ := blocks_of_mem hd hr hmem
    rw [hsrc, hdst] at hnone
    simp at hnone
  obtain ⟨i, hi, hholder⟩ := hd.holder hsrc g₁
  obtain ⟨j, hj, hholder'⟩ := hd.holder hdst g₂
  rw [hr.outgates.mem_iff hd.naming (address_eq hholder) (address_eq hholder')]
  obtain ⟨hmem, s', hdelete, hs'⟩ | ⟨hmem, e, hdelete⟩ := deleteConnection_cases hi hj hd.matched
    (hd.outGate _ i hholder) (hd.inGate _ j hholder')
  · exact .inl ⟨hmem, src, dst, i, j, s', hsrc, hdst, hholder, hholder', hs',
      hrun.trans (Attempt.run_bind_of_ok (ofBlockmon_run hdelete))⟩
  · exact .inr ⟨hmem, e, hrun.trans (Attempt.run_bind_of_error (ofBlockmon_run hdelete))⟩

/-! ## Any calls in any order -/

inductive Op where
  | connectBlocks (b₁ g₁ b₂ g₂ : String)
  | disconnectBlocks (b₁ g₁ b₂ g₂ : String)

def call : Op → Attempt PyError Daemon Unit
  | .connectBlocks b₁ g₁ b₂ g₂ => connectBlocks b₁ g₁ b₂ g₂
  | .disconnectBlocks b₁ g₁ b₂ g₂ => disconnectBlocks b₁ g₁ b₂ g₂

/-- The caller goes on after an exception. -/
def step (d : Daemon) (op : Op) : Option Daemon := some ((call op).run d).2

/-- A connection that is undone has been made once, and the name of its output gate has not been one
of an input gate. -/
def Separable (d : Daemon) : Op → Prop
  | .connectBlocks .. => True
  | .disconnectBlocks b₁ g₁ b₂ g₂ =>
    d.gate b₂ g₂ ∈ d.peers false (d.gate b₁ g₁) →
      ¬ d.Keyed b₁ g₁ ∧ (d.peers false (d.gate b₁ g₁)).count (d.gate b₂ g₂) = 1

theorem Installed.leaves_add (hd : Installed d) {i j : Instance} {k₁ k₂ : Peer}
    {rout rin : Peer → List Peer} (hb : Between d k₁ k₂ i j)
    (h : Leaves d d' rout rin (Links.add d.blockmon.gates.outPeers (i.id, k₁.2.2) (j.id, k₂.2.2))
      (Links.add d.blockmon.gates.inPeers (j.id, k₂.2.2) (i.id, k₁.2.2))) : Installed d' := by
  have hnaming : ∀ {k k' : Peer} {i i' : Instance}, d.holder k = some i → d.holder k' = some i' →
      (i.id, k.2.2) = (i'.id, k'.2.2) → k = k' := fun hk hk' heq =>
    hd.naming _ _ _ (address_eq hk) (heq ▸ address_eq hk')
  refine hd.same h.same ?_ (fun k i' hk hne => ?_) fun k i' hk hne => ?_
  · rw [h.outPeers, h.inPeers]
    exact hd.matched.add
  · by_cases ha : (i'.id, k.2.2) = (i.id, k₁.2.2)
    · obtain rfl := hnaming hk hb.src ha
      obtain rfl := Option.some.inj (hk.symm.trans hb.src)
      exact .inr hb.outGate
    · rw [h.outPeers, Links.add, Function.update_of_ne ha] at hne
      exact .inl hne
  · by_cases ha : (i'.id, k.2.2) = (j.id, k₂.2.2)
    · obtain rfl := hnaming hk hb.dst ha
      obtain rfl := Option.some.inj (hk.symm.trans hb.dst)
      exact .inr hb.inGate
    · rw [h.inPeers, Links.add, Function.update_of_ne ha] at hne
      exact .inl hne

theorem Installed.leaves_erase (hd : Installed d) {a a' : ℕ × String}
    {rout rin : Peer → List Peer}
    (h : Leaves d d' rout rin (Links.erase d.blockmon.gates.outPeers a a')
      (Links.erase d.blockmon.gates.inPeers a' a)) : Installed d' := by
  refine hd.same h.same ?_ (fun k i' hk hne => .inl ?_) fun k i' hk hne => .inl ?_
  · rw [h.outPeers, h.inPeers]
    exact hd.matched.erase
  · rw [h.outPeers] at hne
    obtain ⟨x, hx⟩ := List.exists_mem_of_ne_nil _ hne
    exact List.ne_nil_of_mem (Links.mem_erase.1 hx).1
  · rw [h.inPeers] at hne
    obtain ⟨x, hx⟩ := List.exists_mem_of_ne_nil _ hne
    exact List.ne_nil_of_mem (Links.mem_erase.1 hx).1

theorem Leaves.recorded_iff {rout rin : Peer → List Peer}
    {out inn : ℕ × String → List (ℕ × String)} (h : Leaves d d' rout rin out inn) :
    Recorded d' ↔ Copied d.address d.address rout out ∧ Copied d.address d.address rin inn := by
  constructor
  · rintro ⟨hout, hin⟩
    rw [h.same.address, h.outgates, h.outPeers] at hout
    rw [h.same.address, h.ingates, h.inPeers] at hin
    exact ⟨hout, hin⟩
  · rintro ⟨hout, hin⟩
    constructor
    · rwa [h.same.address, h.outgates, h.outPeers]
    · rwa [h.same.address, h.ingates, h.inPeers]

/-- The peer is recorded at the other end as often. -/
theorem Recorded.count_eq (hd : Installed d) (hr : Recorded d) {i j : Instance} {k₁ k₂ : Peer}
    (hk₁ : d.holder k₁ = some i) (hk₂ : d.holder k₂ = some j) :
    (d.peers true k₂).count k₁ = (d.peers false k₁).count k₂ := by
  rw [hr.ingates.count_eq hd.naming (address_eq hk₂) (address_eq hk₁),
    hr.outgates.count_eq hd.naming (address_eq hk₁) (address_eq hk₂), hd.matched]

theorem keyed_of_mem (hmem : k ∈ d.peers true (d.gate name mygate)) : d.Keyed name mygate := by
  rw [peers, blockOf, Daemon.gate, if_pos rfl] at hmem
  cases hb : d.blocks name with
  | none =>
    rw [hb] at hmem
    cases hmem
  | some b =>
    refine ⟨b, hb, fun hnone => ?_⟩
    have hgates : b.gates true mygate = none := hnone
    rw [hb, Option.bind_some, hgates] at hmem
    cases hmem

theorem recorded_connect (hd : Installed d) (hr : Recorded d) (b₁ g₁ b₂ g₂ : String) :
    Installed ((connectBlocks b₁ g₁ b₂ g₂).run d).2 ∧
      Recorded ((connectBlocks b₁ g₁ b₂ g₂).run d).2 := by
  obtain ⟨e, hrun⟩ | ⟨i, j, d', hb, hrun, h⟩ := connectBlocks_cases hd b₁ g₁ b₂ g₂ <;> rw [hrun]
  · exact ⟨hd, hr⟩
  · have hk₁ := address_eq hb.src
    have hk₂ := address_eq hb.dst
    exact ⟨hd.leaves_add hb h, h.recorded_iff.2
      ⟨hr.outgates.add hd.naming hk₁ hk₂, hr.ingates.add hd.naming hk₂ hk₁⟩⟩

theorem recorded_disconnect_iff (hd : Installed d) (hr : Recorded d) (b₁ g₁ b₂ g₂ : String) :
    Installed ((disconnectBlocks b₁ g₁ b₂ g₂).run d).2 ∧
      (Recorded ((disconnectBlocks b₁ g₁ b₂ g₂).run d).2 ↔
        Separable d (.disconnectBlocks b₁ g₁ b₂ g₂)) := by
  obtain ⟨hmem, src, dst, i, j, s', hsrc, hdst, hk₁, hk₂, hs', hrun⟩ | ⟨hmem, e, hrun⟩ :=
    disconnectBlocks_cases hd hr b₁ g₁ b₂ g₂
  swap
  · rw [hrun]
    exact ⟨hd, iff_of_true hr fun h => absurd h hmem⟩
  have hcount := hr.count_eq hd hk₁ hk₂
  have hmem' : d.gate b₁ g₁ ∈ d.peers true (d.gate b₂ g₂) := by
    rw [← List.count_pos_iff, hcount]
    exact List.count_pos_iff.2 hmem
  have ha₁ := address_eq hk₁
  have ha₂ := address_eq hk₂
  have hsrc' : ({ d with blockmon := s' } : Daemon).blocks b₁ = some src := hsrc
  have hdst' : ({ d with blockmon := s' } : Daemon).blocks b₂ = some dst := hdst
  rw [hrun, Separable, imp_iff_right hmem]
  by_cases hkey : src.ingates g₁ = none
  · have hnot : ¬ d.Keyed b₁ g₁ := by
      rintro ⟨b, hb, hne⟩
      obtain rfl := Option.some.inj (hsrc.symm.trans hb)
      exact hne hkey
    obtain ⟨d', hremove, hrecords⟩ := removeConnections_run hsrc' hdst' hkey
      (by rw [hd.entry hdst]; exact hmem) (by rw [hd.entry hsrc]; exact hmem')
    rw [hd.entry hsrc, hd.entry hdst] at hrecords
    have h := hrecords.leaves hs'
    rw [hremove, h.recorded_iff, and_iff_right hnot]
    refine ⟨hd.leaves_erase h, ?_⟩
    have hout := hr.outgates.remove_iff hd.naming hd.naming ha₁ ha₂ hmem
    have hin := hr.ingates.remove_iff hd.naming hd.naming ha₂ ha₁ hmem'
    rw [hcount] at hin
    exact ⟨fun hboth => hout.1 hboth.1, fun hone => ⟨hout.2 hone, hin.2 hone⟩⟩
  · have hkeyed : d.Keyed b₁ g₁ := ⟨src, hsrc, hkey⟩
    obtain ⟨r, d', hremove, hrecords⟩ := removeConnections_keyed hsrc' hkey (keyed_of_mem hmem')
    have h := hrecords.leaves hs'
    rw [hremove, h.recorded_iff]
    refine ⟨hd.leaves_erase h, iff_of_false (fun hboth => ?_) fun hsep => hsep.1 hkeyed⟩
    exact Copied.not_of_mem hd.naming ha₁ ha₂ hmem hboth.1

theorem recorded_call_iff (hd : Installed d) (hr : Recorded d) (op : Op) :
    Installed ((call op).run d).2 ∧ (Recorded ((call op).run d).2 ↔ Separable d op) := by
  cases op with
  | connectBlocks b₁ g₁ b₂ g₂ =>
    obtain ⟨hd', hr'⟩ := recorded_connect hd hr b₁ g₁ b₂ g₂
    exact ⟨hd', iff_of_true hr' trivial⟩
  | disconnectBlocks b₁ g₁ b₂ g₂ => exact recorded_disconnect_iff hd hr b₁ g₁ b₂ g₂

/-! ## A manager that has created its blocks -/

/-- The instance of a name in a composition. -/
def instanceAt (s : Blockmon) (compId name : String) : Option Instance :=
  (s.compositions compId).bind fun c => c name

/-- The instances of a composition have numbers of their own. -/
structure Numbered (s : Blockmon) (compId : String) : Prop where
  lt_next : ∀ name i, instanceAt s compId name = some i → i.id < s.next
  distinct : ∀ name name' i i', instanceAt s compId name = some i →
    instanceAt s compId name' = some i' → i.id = i'.id → name = name'

theorem Numbered.next {s : Blockmon} {compId : String} (h : Numbered s compId) :
    Numbered { s with next := s.next + 1 } compId :=
  ⟨fun name i hi => Nat.lt_succ_of_lt (h.lt_next name i hi), h.distinct⟩

/-- The blocks are the composition's, and nothing is connected. -/
structure Fresh (d : Daemon) : Prop where
  block : ∀ name b, d.blocks name = some b → b.compId = d.compId ∧ b.name = name ∧
    (∃ i, instanceAt d.blockmon d.compId name = some i) ∧ ∀ isIn gate, b.gates isIn gate = none
  numbered : Numbered d.blockmon d.compId
  unlinked : ∀ a, d.blockmon.gates.outPeers a = [] ∧ d.blockmon.gates.inPeers a = []

theorem Fresh.holder {i : Instance} (h : Fresh d) (hk : d.holder k = some i) :
    k.1 = d.compId ∧ instanceAt d.blockmon d.compId k.2.1 = some i := by
  obtain ⟨b, hb, hi⟩ := Option.bind_eq_some_iff.1 hk
  rw [blockOf] at hb
  split_ifs at hb with hcomp
  obtain ⟨hbcomp, hbname, -⟩ := h.block _ b hb
  refine ⟨hcomp, ?_⟩
  rwa [instanceOf, hbcomp, hbname] at hi

theorem Fresh.installed (h : Fresh d) : Installed d where
  block name b hb := by
    obtain ⟨hcomp, hname, ⟨i, hi⟩, -⟩ := h.block name b hb
    exact ⟨hcomp, hname, i, by rwa [instanceOf, hcomp, hname]⟩
  naming k k' a hk hk' := by
    obtain ⟨i, hi, rfl⟩ := Option.map_eq_some_iff.1 hk
    obtain ⟨i', hi', heq⟩ := Option.map_eq_some_iff.1 hk'
    obtain ⟨hcomp, hfind⟩ := h.holder hi
    obtain ⟨hcomp', hfind'⟩ := h.holder hi'
    obtain ⟨hid, hgate⟩ := Prod.mk.inj heq
    have hname := h.numbered.distinct _ _ _ _ hfind hfind' hid.symm
    exact Prod.ext (hcomp.trans hcomp'.symm) (Prod.ext hname hgate.symm)
  matched a a' := by
    rw [(h.unlinked a).1, (h.unlinked a').2]
    rfl
  outGate k i _ hne := absurd (h.unlinked _).1 hne
  inGate k i _ hne := absurd (h.unlinked _).2 hne

theorem Fresh.peers (h : Fresh d) (isIn : Bool) (k : Peer) : d.peers isIn k = [] := by
  rw [Daemon.peers, blockOf]
  split_ifs
  · cases hb : d.blocks k.2.1 with
    | none => rfl
    | some b => rw [Option.bind_some, (h.block _ b hb).2.2.2]; rfl
  · rfl

theorem Fresh.recorded (h : Fresh d) : Recorded d where
  outgates k a _ := by rw [h.peers, (h.unlinked a).1]; rfl
  ingates k a _ := by rw [h.peers, (h.unlinked a).2]; rfl

theorem Numbered.insert {s : Blockmon} {compId name : String} {c : String → Option Instance}
    (h : Numbered s compId) (hc : s.compositions compId = some c) {i : Instance}
    (hi : i.id = s.next) : Numbered { s with
      next := s.next + 1
      compositions := update s.compositions compId (some (update c name (some i))) } compId := by
  have hold : ∀ name' i', instanceAt { s with
      next := s.next + 1
      compositions := update s.compositions compId (some (update c name (some i))) } compId name' =
        some i' →
          (name' = name ∧ i' = i) ∨ (name' ≠ name ∧ instanceAt s compId name' = some i') := by
    intro name' i' hi'
    dsimp only [instanceAt] at hi'
    rw [Function.update_self, Option.bind_some] at hi'
    by_cases hname : name' = name
    · rw [hname, Function.update_self, Option.some.injEq] at hi'
      exact .inl ⟨hname, hi'.symm⟩
    · rw [Function.update_of_ne hname] at hi'
      exact .inr ⟨hname, by rw [instanceAt, hc, Option.bind_some, hi']⟩
  constructor
  · intro name' i' hi'
    obtain ⟨-, rfl⟩ | ⟨-, hi'⟩ := hold name' i' hi'
    · exact hi ▸ Nat.lt_succ_self _
    · exact Nat.lt_succ_of_lt (h.lt_next name' i' hi')
  · intro name₁ name₂ i₁ i₂ h₁ h₂ hid
    obtain ⟨rfl, rfl⟩ | ⟨-, hold₁⟩ := hold name₁ i₁ h₁ <;>
      obtain ⟨rfl, rfl⟩ | ⟨-, hold₂⟩ := hold name₂ i₂ h₂
    · rfl
    · exact absurd (h.lt_next _ _ hold₂) (by omega)
    · exact absurd (h.lt_next _ _ hold₁) (by omega)
    · exact h.distinct _ _ _ _ hold₁ hold₂ hid

/-- Whether or not it comes to its end. -/
theorem createBlock_numbered {s : Blockmon} {compId : String} (h : Numbered s compId)
    (lib : BlockLibrary) (name type : String) (active : Bool) (config : String) : ∃ r s',
      (Blockmon.createBlock lib compId name type active config).run s = (r, s') ∧
      Numbered s' compId ∧ s'.gates = s.gates ∧
      (∀ name', (instanceAt s compId name').isSome → (instanceAt s' compId name').isSome) ∧
      (r = .ok () → (instanceAt s' compId name).isSome) := by
  rw [Blockmon.createBlock, Blockmon.getComposition, bind_assoc, Attempt.run_get_bind]
  cases hc : s.compositions compId with
  | none => exact ⟨_, s, rfl, h, rfl, fun _ h => h, fun h => by cases h⟩
  | some c =>
    rw [Attempt.orThrow_some, pure_bind]
    split_ifs
    · rw [Attempt.run_get_bind, Attempt.run_modify_bind]
      cases lib.configure type config with
      | some what => exact ⟨_, _, rfl, h.next, rfl, fun _ h => h, fun h => by cases h⟩
      | none =>
        have hset : ∀ i,
            (Blockmon.setBlock compId name (some i)).run { s with next := s.next + 1 } =
            (.ok (), { s with
              next := s.next + 1
              compositions := update s.compositions compId (some (update c name (some i))) }) := by
          intro i
          rw [Blockmon.setBlock, Blockmon.getComposition, bind_assoc, Attempt.run_get_bind]
          dsimp only
          rw [hc, Attempt.orThrow_some, pure_bind]
          rfl
        refine ⟨_, _, hset _, h.insert hc rfl, rfl, fun name' hsome => ?_, fun _ => ?_⟩
        · rw [instanceAt, hc, Option.bind_some] at hsome
          dsimp only [instanceAt]
          rw [Function.update_self, Option.bind_some]
          by_cases hname : name' = name
          · rw [hname, Function.update_self, Option.isSome_some]
          · rwa [Function.update_of_ne hname]
        · dsimp only [instanceAt]
          rw [Function.update_self, Option.bind_some, Function.update_self, Option.isSome_some]
    · exact ⟨_, s, rfl, h, rfl, fun _ h => h, fun h => by cases h⟩
    · exact ⟨_, s, rfl, h, rfl, fun _ h => h, fun h => by cases h⟩
    · exact ⟨_, s, rfl, h, rfl, fun _ h => h, fun h => by cases h⟩

/-! ### The manager's part of it -/

theorem ends_ofPools {α : Type} (x : Attempt PyError Pools α) {I : Daemon → Prop}
    (hI : ∀ p, I { d with pools := p }) : (ofPools x).Ends d (fun _ => I) fun _ => I := by
  rcases hrun : x.run d.pools with ⟨e | a, p⟩
  · exact Attempt.ends_of_error (by rw [ofPools, Attempt.run_zoom, hrun]) (hI p)
  · exact Attempt.ends_of_ok (by rw [ofPools, Attempt.run_zoom, hrun]) (hI p)

theorem ends_orThrow {α : Type} (e : PyError) (a : Option α) {I : Daemon → Prop} (h : I d) :
    (Attempt.orThrow e a : Attempt PyError Daemon α).Ends d (fun _ => I) fun _ => I := by
  cases a with
  | none => exact Attempt.ends_throw h
  | some a => exact Attempt.ends_pure h

theorem ends_getBlock (compId name : String) {I : Daemon → Prop} (h : I d) :
    (ofBlockmon (Blockmon.getBlock compId name)).Ends d (fun _ => I) fun _ => I := by
  cases hi : instanceAt d.blockmon compId name with
  | none =>
    obtain ⟨e, hrun⟩ := ThreadPool.getBlock_none hi
    exact Attempt.ends_of_error (ofBlockmon_run hrun) h
  | some i => exact Attempt.ends_of_ok (ofBlockmon_run (ThreadPool.getBlock_some hi)) h

theorem ends_addBlock (pool compId name : String) {I : Daemon → Prop}
    (hI : ∀ d p, I d → I { d with pools := p }) (h : I d) :
    (ThreadPool.addBlock pool compId name).Ends d (fun _ => I) fun _ => I := by
  rw [ThreadPool.addBlock]
  refine Attempt.ends_get_bind ((ends_ofPools _ fun p => hI d p h).bind fun _ t ht => ?_)
  exact (ends_getBlock compId name ht).bind fun _ t ht => ends_ofPools _ fun p => hI t p ht

/-- Between the creation of the instance and the assignment of the object. -/
structure Created (compId name : String) (d : Daemon) : Prop where
  fresh : Fresh d
  compId_eq : d.compId = compId
  created : ∃ i, instanceAt d.blockmon compId name = some i

theorem Created.pools {compId : String} (h : Created compId name d) (p : Pools) :
    Created compId name { d with pools := p } :=
  ⟨⟨h.fresh.block, h.fresh.numbered, h.fresh.unlinked⟩, h.compId_eq, h.created⟩

theorem ends_new (h : Fresh d) (name blockType : String) (active : Bool) (params tpoolId : String)
    (tpool : Option String) : (Block.new lib name blockType active params tpoolId tpool).Ends d
      (fun b t => Created d.compId name t ∧ b.compId = d.compId ∧ b.name = name ∧
        ∀ isIn gate, b.gates isIn gate = none) fun _ t => Fresh t := by
  rw [Block.new]
  refine Attempt.ends_get_bind (Attempt.Ends.bind (Q := fun _ => Created d.compId name) ?_
    fun _ t ht => ?_)
  · obtain ⟨r, s', hrun, hnumbered, hgates, hmono, hok⟩ :=
      createBlock_numbered h.numbered lib name blockType active params
    have hfresh : Fresh { d with blockmon := s' } := by
      refine ⟨fun name' b hb => ?_, hnumbered, ?_⟩
      · obtain ⟨hcomp, hname, ⟨i, hi⟩, hnone⟩ := h.block name' b hb
        exact ⟨hcomp, hname, Option.isSome_iff_exists.1 (hmono name' (by rw [hi]; rfl)), hnone⟩
      · intro a
        dsimp only
        rw [hgates]
        exact h.unlinked a
    rcases r with e | u
    · exact Attempt.ends_of_error (ofBlockmon_run hrun) hfresh
    · exact Attempt.ends_of_ok (ofBlockmon_run hrun)
        ⟨hfresh, rfl, Option.isSome_iff_exists.1 (hok rfl)⟩
  · have hpure : ∀ t, Created d.compId name t → (pure ⟨name, blockType, active, tpoolId, tpool,
        d.compId, params, fun _ => none, fun _ => none⟩ : Attempt PyError Daemon Block).Ends t
          (fun b t => Created d.compId name t ∧ b.compId = d.compId ∧ b.name = name ∧
            ∀ isIn gate, b.gates isIn gate = none) fun _ t => Fresh t :=
      fun t ht => Attempt.ends_pure ⟨ht, rfl, rfl, fun isIn _ => by cases isIn <;> rfl⟩
    cases active with
    | false => exact hpure t ht
    | true =>
      dsimp only
      rw [if_pos rfl]
      have hpool := (ends_orThrow .attributeError tpool ht).imp (fun _ _ h => h)
        fun _ _ h => h.fresh
      refine hpool.bind fun pool t ht => ?_
      have hadd := (ends_addBlock pool d.compId name (fun _ p h => h.pools p) ht).imp
        (fun _ _ h => h) fun _ _ h => h.fresh
      exact hadd.bind fun _ t ht => hpure t ht

theorem Created.assign {compId : String} (h : Created compId name d) (hcomp : b.compId = compId)
    (hname : b.name = name) (hgates : ∀ isIn gate, b.gates isIn gate = none) :
    Fresh (d.setBlock name b) := by
  refine ⟨fun name' b' hb' => ?_, h.fresh.numbered, h.fresh.unlinked⟩
  by_cases hn : name' = name
  · subst hn
    obtain rfl := Option.some.inj (blocks_setBlock_self.symm.trans hb')
    exact ⟨hcomp.trans h.compId_eq.symm, hname, h.compId_eq ▸ h.created, hgates⟩
  · exact h.fresh.block name' b' ((Function.update_of_ne hn ..).symm.trans hb')

theorem ends_findPool (tpoolId : String) {I : Daemon → Prop} (h : I d) :
    (findPool tpoolId).Ends d (fun _ => I) fun _ => I :=
  Attempt.ends_get_bind (ends_orThrow _ _ h)

/-- Whatever the node is, and also where it throws. -/
theorem ends_createBlock (h : Fresh d) :
    (createBlock lib n).Ends d (fun _ => Fresh) fun _ => Fresh := by
  have hassign : ∀ name type params tpoolId tpool {t}, Fresh t →
      (Block.new lib name type n.schedActive params tpoolId tpool >>= Block.assign name).Ends t
        (fun _ => Fresh) fun _ => Fresh := fun name type params tpoolId tpool t ht =>
    (ends_new ht name type n.schedActive params tpoolId tpool).bind fun b u hu =>
      Attempt.ends_modify (hu.1.assign hu.2.1 hu.2.2.1 hu.2.2.2)
  rw [createBlock]
  refine (ends_orThrow _ _ h).bind fun name t ht => (ends_orThrow _ _ ht).bind fun type t ht => ?_
  dsimp only
  split_ifs
  · refine (ends_orThrow _ _ ht).bind fun tpoolId t ht => (ends_orThrow _ _ ht).bind
      fun params t ht => ?_
    rw [map_eq_pure_bind, bind_assoc]
    exact (ends_findPool tpoolId ht).bind fun pool t ht => by
      rw [pure_bind]
      exact hassign name type params tpoolId (some pool) ht
  · rw [pure_bind]
    refine (ends_orThrow _ _ ht).bind fun params t ht => ?_
    rw [pure_bind]
    exact hassign name type params "" none ht

theorem fresh_createBlocks (lib : BlockLibrary) (ns : List Node) (h : Fresh d) :
    Fresh ((Attempt.forEach (createBlock lib) ns).run d).2 := by
  have hends : (Attempt.forEach (createBlock lib) ns).Ends d (fun _ => Fresh) fun _ => Fresh :=
    Attempt.ends_forEach (fun _ _ _ ht => ends_createBlock ht) h
  rcases hrun : (Attempt.forEach (createBlock lib) ns).run d with ⟨e | _, t⟩
  · exact hends.of_error hrun
  · exact hends.of_ok hrun

/-! ## Undone and recorded -/

/-- From any blocks whose connections are recorded. -/
theorem always_recorded_iff (hd : Installed d) (hr : Recorded d) (ops : List Op) :
    StepRun.Always step Recorded d ops ↔ StepRun.Meets step Separable d ops := by
  have hbase : ∀ d op d', Installed d → Recorded d → step d op = some d' → Installed d' := by
    intro d op d' hd hr hstep
    cases hstep
    exact (recorded_call_iff hd hr op).1
  have hiff : ∀ d op d', Installed d → Recorded d → step d op = some d' →
      (Recorded d' ↔ Separable d op) := by
    intro d op d' hd hr hstep
    cases hstep
    exact (recorded_call_iff hd hr op).2
  exact StepRun.always_iff_of_base hbase hiff (fun _ _ _ _ h => nomatch h) ops hd hr

/-- A connection that is removed again, and calls of the manager in any order. -/
theorem undone_and_recorded_iff (d : Daemon) :
    (∀ (b : Block) (name mygate : String) (other : Block) (othergate : String) (isIn : Bool),
      d.blocks name = some b → (d.Restores name mygate other othergate isIn ↔
        d.Undoable b name mygate other othergate isIn)) ∧
    ∀ ops : List Op, Installed d → Recorded d →
      (StepRun.Always step Recorded d ops ↔ StepRun.Meets step Separable d ops) :=
  ⟨fun _ _ _ _ _ _ hb => restores_iff hb, fun ops hd hr => always_recorded_iff hd hr ops⟩

/-- Blocks `a` and `b`, each with an input gate and an output gate. -/
def twoBlocks : Daemon := ((Attempt.forEach (createBlock anyLibrary)
  [node [("id", "a"), ("type", "t")], node [("id", "b"), ("type", "t")]]).run started).2

theorem fresh_started : Fresh started where
  block _ _ h := nomatch h
  numbered := ⟨(fun _ _ h => nomatch h), fun _ _ _ _ h => nomatch h⟩
  unlinked _ := ⟨rfl, rfl⟩

theorem fresh_twoBlocks : Fresh twoBlocks := fresh_createBlocks anyLibrary _ fresh_started

def plainBlock (name : String) : Block :=
  ⟨name, "t", false, "", none, "c", "<params/>", fun _ => none, fun _ => none⟩

theorem undone_and_recorded_twoBlocks :
    twoBlocks.Restores "a" "out" (plainBlock "b") "in" false ∧
    StepRun.Always step Recorded twoBlocks
      [.connectBlocks "a" "out" "b" "in", .disconnectBlocks "a" "out" "b" "in"] := by
  obtain ⟨hundone, hrecorded⟩ := undone_and_recorded_iff twoBlocks
  refine ⟨(hundone (plainBlock "a") "a" "out" (plainBlock "b") "in" false rfl).2
    ⟨.inr rfl, (fun _ h => nomatch h)⟩, (hrecorded _ fresh_twoBlocks.installed
      fresh_twoBlocks.recorded).2 ⟨trivial, fun d hd => ⟨fun _ => ?_, fun _ _ => trivial⟩⟩⟩
  cases hd
  refine ⟨?_, by decide⟩
  rintro ⟨b, hb, hne⟩
  cases hb
  exact hne rfl

/-- The name of an output gate has been one of an input gate; two gates are connected twice. -/
theorem not_undone_and_recorded :
    (¬ ∀ (d : Daemon) (b : Block) (name mygate : String) (other : Block) (othergate : String)
      (isIn : Bool), d.blocks name = some b → d.Restores name mygate other othergate isIn) ∧
    ¬ ∀ (d : Daemon) (ops : List Op), Installed d → Recorded d →
      StepRun.Always step Recorded d ops := by
  constructor
  · intro h
    let b := (plainBlock "a").setGates true "g" []
    have hb : (twoBlocks.setBlock "a" b).blocks "a" = some b := blocks_setBlock_self
    have hrestores := h _ b "a" "g" (plainBlock "b") "in" false hb
    have hundoable := ((restores_iff hb).1 hrestores).1
    rcases hundoable with hin | hnone
    · cases hin
    · cases hnone
  · intro h
    have halways := h twoBlocks [.connectBlocks "a" "out" "b" "in",
      .connectBlocks "a" "out" "b" "in", .disconnectBlocks "a" "out" "b" "in"]
      fresh_twoBlocks.installed fresh_twoBlocks.recorded
    rw [always_recorded_iff fresh_twoBlocks.installed fresh_twoBlocks.recorded] at halways
    have hseparable := ((halways.2 _ rfl).2 _ rfl).1 (by decide)
    exact absurd hseparable.2 (by decide)

end Daemon

end DStreamon
