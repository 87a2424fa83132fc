import DStreamon.Gates

/-!
# The blockmon executable, as the daemon sees it

`backend_glue.cpp` over the singletons `CompositionManager` and `PoolManager`.  A block is known to
its pool by its address, here the number of its instance, and to everyone else by its name.
-/

namespace DStreamon

open Attempt (get modify orThrow throw)
open Function (update)

/-- An element of a document: its attributes, its descendants `params` as text and the `number` of
its children `core`. -/
structure Node where
  attributes : String → Option String
  params : List String
  cores : List String

/-- The exceptions that get out of the daemon. -/
inductive PyError where
  | keyError (key : String)
  | indexError
  | valueError
  | attributeError
  | runtimeError (what : String)
deriving DecidableEq

/-- What pugixml reads, and what the registered block classes do. -/
structure BlockLibrary where
  asInt : String → ℤ
  /-- What `sscanf` leaves in `corenum`. -/
  corenum : String → ℕ
  loads : String → Bool
  hasParams : String → Bool
  supported : String → Bool
  /-- What `configure` throws for a type and its parameters. -/
  configure : String → String → Option String
  updateConfig : String → String → Bool
  inGates : String → String → List String
  outGates : String → String → List String

/-- A thread pool of the executable, with the addresses of its blocks. -/
structure TaskPool where
  threads : ℤ
  affinity : List ℕ
  tasks : List ℕ

structure Instance where
  id : ℕ
  type : String
  active : Bool
  params : String
  inGates : List String
  outGates : List String

/-- `m_config_map` with the blocks of each composition, and all gates there are. -/
structure Blockmon where
  compositions : String → Option (String → Option Instance)
  gates : Gates (ℕ × String) (ℕ × String)
  next : ℕ

/-- `m_map` of the pool manager. -/
abbrev PoolManager : Type := String → Option TaskPool

variable (lib : BlockLibrary)

namespace PoolManager

def createPool (n : Node) : Attempt PyError PoolManager Unit :=
  let name := (n.attributes "id").getD ""
  let nthreads := (n.attributes "num_threads").elim 0 lib.asInt
  let affinity := n.cores.map lib.corenum
  if name.length = 0 ∨ nthreads = 0 then
    throw (.runtimeError "could not parse thread pool paramters")
  else if 0xffffffff ∈ affinity then throw (.runtimeError "cannot parse core number")
  else do
    let m ← get
    if (m name).isSome then throw (.runtimeError (name ++ " : thread pool already exists"))
    else modify fun m => update m name (some ⟨nthreads, affinity, []⟩)

def addToPool (name : String) (b : ℕ) : Attempt PyError PoolManager Unit := do
  let m ← get
  let p ← orThrow (.runtimeError (name ++ " : thread pool does noe exist")) (m name)
  modify fun m => update m name (some { p with tasks := p.tasks ++ [b] })

def removeFromPool (name : String) (b : ℕ) : Attempt PyError PoolManager Unit := do
  let m ← get
  let p ← orThrow (.runtimeError (name ++ " : thread pool does noe exist")) (m name)
  modify fun m => update m name (some { p with tasks := p.tasks.filter (· ≠ b) })

end PoolManager

namespace Blockmon

def getComposition (compId : String) : Attempt PyError Blockmon (String → Option Instance) := do
  let s ← get
  orThrow (.runtimeError "CompositionManager:: composition not found") (s.compositions compId)

def getBlock (compId name : String) : Attempt PyError Blockmon Instance := do
  let c ← getComposition compId
  orThrow (.runtimeError "Composition:: requested non-existing block") (c name)

/-- A block's entry in the map of its composition. -/
def setBlock (compId name : String) (i : Option Instance) : Attempt PyError Blockmon Unit := do
  let c ← getComposition compId
  modify fun s => { s with compositions := update s.compositions compId (some (update c name i)) }

def createBlock (compId name type : String) (active : Bool) (config : String) :
    Attempt PyError Blockmon Unit := do
  let _ ← getComposition compId
  if ¬ lib.loads config then throw (.runtimeError "Composition::cannot parse config info")
  else if ¬ lib.hasParams config then
    throw (.runtimeError "Composition: cannot find params node")
  else if ¬ lib.supported type then
    throw (.runtimeError (type ++ ": block type not supported"))
  else
    let s ← get
    modify fun s => { s with next := s.next + 1 }
    match lib.configure type config with
    | some what => throw (.runtimeError what)
    | none => setBlock compId name (some ⟨s.next, type, active, config,
        lib.inGates type config, lib.outGates type config⟩)

def deleteBlock (compId name : String) : Attempt PyError Blockmon Unit := do
  let c ← getComposition compId
  let _ ← orThrow (.runtimeError "Composition:: trying to delete non-existing block") (c name)
  setBlock compId name none

/-- 1 where the block takes the new parameters, 0 where it refuses them. -/
def updateBlock (compId name : String) (active : Bool) (config : String) :
    Attempt PyError Blockmon ℤ :=
  if ¬ lib.loads config then throw (.runtimeError "update_config::cannot parse config info")
  else if ¬ lib.hasParams config then
    throw (.runtimeError "Configuration: cannot find params node")
  else do
    let b ← getBlock compId name
    setBlock compId name (some { b with active := active })
    if lib.updateConfig b.type config then
      setBlock compId name (some { b with active := active, params := config })
      pure 1
    else pure 0

def getOutputGate (compId name gate : String) : Attempt PyError Blockmon (ℕ × String) := do
  let b ← getBlock compId name
  if gate ∈ b.outGates then pure (b.id, gate)
  else throw (.runtimeError (gate ++ ": no such gate"))

def getInputGate (compId name gate : String) : Attempt PyError Blockmon (ℕ × String) := do
  let b ← getBlock compId name
  if gate ∈ b.inGates then pure (b.id, gate)
  else throw (.runtimeError (gate ++ ": no such gate"))

/-- A gate's action; what it throws becomes a Python exception. -/
def ofGates (x : Attempt String (Gates (ℕ × String) (ℕ × String)) Unit) :
    Attempt PyError Blockmon Unit where
  run s := (((x.run s.gates).1.mapError .runtimeError), { s with gates := (x.run s.gates).2 })

def createConnection (fromComp fromBlock fromGate toComp toBlock toGate : String) :
    Attempt PyError Blockmon Unit := do
  let src ← getOutputGate fromComp fromBlock fromGate
  let dst ← getInputGate toComp toBlock toGate
  ofGates (OutGate.connect src dst)
  ofGates (InGate.connect dst src)

def deleteConnection (fromComp fromBlock fromGate toComp toBlock toGate : String) :
    Attempt PyError Blockmon Unit := do
  let src ← getOutputGate fromComp fromBlock fromGate
  let dst ← getInputGate toComp toBlock toGate
  ofGates (OutGate.disconnect src dst)
  ofGates (InGate.disconnect dst src)

end Blockmon

end DStreamon
