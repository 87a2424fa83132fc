import DStreamon.Blockmon

/-!
# The daemon's `CompositionManager`

Its blocks and thread pools are Python objects, each next to what it stands for in the executable.
A `ThreadPool` object goes by its name, since the executable refuses a second pool of the name.
-/

namespace DStreamon

open Attempt (get modify orThrow throw forEach zoom)
open Function (update)

/-- `tpool` names a `ThreadPool` object; `none` is Python's. -/
structure Block where
  name : String
  blockType : String
  active : Bool
  tpoolId : String
  tpool : Option String
  compId : String
  params : String
  ingates : String → Option (List (String × String × String))
  outgates : String → Option (List (String × String × String))

structure ThreadPool where
  blocks : List (String × String)
  nthreads : String

/-- `__thread_pools`, the `ThreadPool` objects, and the executable's pools. -/
structure Pools where
  threadPools : String → Option String
  objects : String → ThreadPool
  manager : PoolManager

structure Daemon where
  compId : String
  blocks : String → Option Block
  pools : Pools
  blockmon : Blockmon

/-- What `getElementsByTagName` finds in a composition. -/
structure Description where
  threadpools : List Node
  blocks : List Node
  connections : List Node

/-- The elements `delete`, `add` and `reconf` of an update. -/
structure Update where
  delete : List Description
  add : List Description
  reconf : List Description

def Node.attr {σ : Type} (n : Node) (key : String) : Attempt PyError σ String :=
  orThrow (.keyError key) (n.attributes key)

/-- Has `sched_type`, and it is `active`. -/
def Node.schedActive (n : Node) : Bool := n.attributes "sched_type" = some "active"

variable (lib : BlockLibrary)

namespace Pools

def ofManager {α : Type} (x : Attempt PyError PoolManager α) : Attempt PyError Pools α :=
  zoom manager (fun m s => { s with manager := m }) x

/-- `ThreadPool.__init__` -/
def newThreadPool (n : Node) : Attempt PyError Pools String := do
  let name ← n.attr "id"
  let nthreads ← n.attr "num_threads"
  ofManager (PoolManager.createPool lib n)
  modify fun s => { s with objects := update s.objects name ⟨[], nthreads⟩ }
  pure name

def createPool (n : Node) : Attempt PyError Pools Unit := do
  let pool ← newThreadPool lib n
  let id ← n.attr "id"
  modify fun s => { s with threadPools := update s.threadPools id (some pool) }

def deletePool (n : Node) : Attempt PyError Pools Unit := do
  let id ← n.attr "id"
  let s ← get
  let _ ← orThrow (.keyError id) (s.threadPools id)
  modify fun s => { s with threadPools := update s.threadPools id none }

end Pools

namespace Daemon

def ofPools {α : Type} (x : Attempt PyError Pools α) : Attempt PyError Daemon α :=
  zoom pools (fun p d => { d with pools := p }) x

def ofBlockmon {α : Type} (x : Attempt PyError Blockmon α) : Attempt PyError Daemon α :=
  zoom blockmon (fun b d => { d with blockmon := b }) x

end Daemon

open Daemon (ofPools ofBlockmon)

namespace ThreadPool

def setBlocks (pool : String) (blocks : List (String × String)) : Attempt PyError Daemon Unit :=
  ofPools (modify fun s =>
    { s with objects := update s.objects pool { s.objects pool with blocks } })

def addBlock (pool compId name : String) : Attempt PyError Daemon Unit := do
  let d ← get
  setBlocks pool ((d.pools.objects pool).blocks ++ [(compId, name)])
  let b ← ofBlockmon (Blockmon.getBlock compId name)
  ofPools (Pools.ofManager (PoolManager.addToPool pool b.id))

def removeBlock (pool compId name : String) : Attempt PyError Daemon Unit := do
  let d ← get
  if (compId, name) ∈ (d.pools.objects pool).blocks then
    setBlocks pool ((d.pools.objects pool).blocks.erase (compId, name))
    let b ← ofBlockmon (Blockmon.getBlock compId name)
    ofPools (Pools.ofManager (PoolManager.removeFromPool pool b.id))
  else throw .valueError

end ThreadPool

namespace Block

/-- The block under a name of `__blocks`. -/
def self (name : String) : Attempt PyError Daemon Block := do
  let d ← get
  orThrow (.keyError name) (d.blocks name)

def assign (name : String) (b : Block) : Attempt PyError Daemon Unit :=
  modify fun d => { d with blocks := update d.blocks name (some b) }

/-- A method of `None` cannot be called. -/
def tpoolOf : Option String → Attempt PyError Daemon String := orThrow .attributeError

/-- `Block.__init__`; the object is assigned by its caller. -/
def new (name blockType : String) (active : Bool) (params tpoolId : String)
    (tpool : Option String) :
    Attempt PyError Daemon Block := do
  let d ← get
  ofBlockmon (Blockmon.createBlock lib d.compId name blockType active params)
  if active then
    let pool ← tpoolOf tpool
    ThreadPool.addBlock pool d.compId name
  pure ⟨name, blockType, active, tpoolId, tpool, d.compId, params, fun _ => none, fun _ => none⟩

def remove (b : Block) : Attempt PyError Daemon Unit := do
  if b.active then
    let pool ← tpoolOf b.tpool
    ThreadPool.removeBlock pool b.compId b.name
  ofBlockmon (Blockmon.deleteBlock b.compId b.name)

def restore (b : Block) : Attempt PyError Daemon Unit := do
  ofBlockmon (Blockmon.createBlock lib b.compId b.name b.blockType b.active b.params)
  if b.active then
    let pool ← tpoolOf b.tpool
    ThreadPool.addBlock pool b.compId b.name

/-- The old pool gets the block, and the new one loses it. -/
def move (name : String) (b : Block) (tpoolId : String) (tpool : Option String) :
    Attempt PyError Daemon Unit := do
  let old ← tpoolOf b.tpool
  ThreadPool.addBlock old b.compId b.name
  assign name { b with tpoolId, tpool }
  let new ← tpoolOf tpool
  ThreadPool.removeBlock new b.compId b.name

def update (name : String) (active : Bool) (params tpoolId : String) (tpool : Option String) :
    Attempt PyError Daemon Unit := do
  let b ← self name
  assign name { b with params, active }
  if active ∧ tpoolId ≠ b.tpoolId then move name { b with params, active } tpoolId tpool
  let b ← self name
  let r ← ofBlockmon (Blockmon.updateBlock lib b.compId b.name b.active b.params)
  if r < 0 then
    remove b
    restore lib b

/-- `gates` is `ingates` or `outgates`. -/
def appendConnection (gates : String → Option (List (String × String × String))) (mygate : String)
    (other : Block) (othergate : String) : String → Option (List (String × String × String)) :=
  Function.update gates mygate
    (some ((gates mygate).getD [] ++ [(other.compId, other.name, othergate)]))

def addConnection (name mygate : String) (other : Block) (othergate : String) (isIn : Bool) :
    Attempt PyError Daemon Unit := do
  let b ← self name
  assign name (if isIn then { b with ingates := appendConnection b.ingates mygate other othergate }
    else { b with outgates := appendConnection b.outgates mygate other othergate })

/-- The direction is not looked at. -/
def removeConnection (name mygate : String) (other : Block) (othergate : String) :
    Attempt PyError Daemon Unit := do
  let b ← self name
  let isIn := (b.ingates mygate).isSome
  let l ← orThrow (.keyError mygate) (if isIn then b.ingates mygate else b.outgates mygate)
  let entry := (other.compId, other.name, othergate)
  if entry ∈ l then
    assign name (if isIn then
        { b with ingates := Function.update b.ingates mygate (some (l.erase entry)) }
      else { b with outgates := Function.update b.outgates mygate (some (l.erase entry)) })
  else throw .valueError

end Block

namespace Daemon

/-- The pool `__create_block` and `__update_block` look up for an active block. -/
def findPool (tpoolId : String) : Attempt PyError Daemon String := do
  let d ← get
  orThrow (.keyError tpoolId) (d.pools.threadPools tpoolId)

def createBlock (n : Node) : Attempt PyError Daemon Unit := do
  let name ← n.attr "id"
  let type ← n.attr "type"
  let tpoolId ← if n.schedActive then n.attr "threadpool" else pure ""
  let params ← orThrow .indexError n.params.head?
  let tpool ← if n.schedActive then some <$> findPool tpoolId else pure none
  let b ← Block.new lib name type n.schedActive params tpoolId tpool
  Block.assign name b

def deleteBlock (n : Node) : Attempt PyError Daemon Unit := do
  let name ← n.attr "id"
  let b ← Block.self name
  b.remove
  modify fun d => { d with blocks := update d.blocks name none }

def updateBlock (n : Node) : Attempt PyError Daemon Unit := do
  let name ← n.attr "id"
  let tpoolId ← if (n.attributes "sched_type").isSome then n.attr "threadpool" else pure ""
  let params ← orThrow .indexError n.params.head?
  let tpool ← if n.schedActive then some <$> findPool tpoolId else pure none
  Block.update lib name n.schedActive params tpoolId tpool

def connectBlocks (b₁ g₁ b₂ g₂ : String) : Attempt PyError Daemon Unit := do
  let src ← Block.self b₁
  let dst ← Block.self b₂
  ofBlockmon (Blockmon.createConnection src.compId src.name g₁ dst.compId dst.name g₂)
  Block.addConnection b₁ g₁ dst g₂ false
  Block.addConnection b₂ g₂ src g₁ true

def disconnectBlocks (b₁ g₁ b₂ g₂ : String) : Attempt PyError Daemon Unit := do
  let src ← Block.self b₁
  let dst ← Block.self b₂
  ofBlockmon (Blockmon.deleteConnection src.compId src.name g₁ dst.compId dst.name g₂)
  Block.removeConnection b₁ g₁ dst g₂
  Block.removeConnection b₂ g₂ src g₁

/-- What both kinds of connection node are read for. -/
def ofConnection (f : String → String → String → String → Attempt PyError Daemon Unit) (n : Node) :
    Attempt PyError Daemon Unit := do
  let bsource ← n.attr "src_block"
  let gsource ← n.attr "src_gate"
  let bdst ← n.attr "dst_block"
  let gdst ← n.attr "dst_gate"
  f bsource gsource bdst gdst

def createConnection (n : Node) : Attempt PyError Daemon Unit := ofConnection connectBlocks n

def deleteConnection (n : Node) : Attempt PyError Daemon Unit := ofConnection disconnectBlocks n

def install (c : Description) : Attempt PyError Daemon Unit := do
  forEach (fun n => ofPools (Pools.createPool lib n)) c.threadpools
  forEach (createBlock lib) c.blocks
  forEach createConnection c.connections

def reconfigure (u : Update) : Attempt PyError Daemon Unit := do
  forEach (fun c => do
    forEach deleteConnection c.connections
    forEach deleteBlock c.blocks
    forEach (fun n => ofPools (Pools.deletePool n)) c.threadpools) u.delete
  forEach (fun c => do
    forEach (createBlock lib) c.blocks
    forEach createConnection c.connections
    forEach (fun n => ofPools (Pools.createPool lib n)) c.threadpools) u.add
  forEach (fun c => forEach (updateBlock lib) c.blocks) u.reconf

end Daemon

end DStreamon
