import DStreamon.ICounter

/-!
# What the decaying counters should count

Each `add` of a key weighs `logbeta` times its quantity, less by a factor `beta` for every second
since.
-/

namespace DStreamon

variable {F K : Type} [Field F]

inductive TewmaOp (F K : Type) where
  | add (key : K) (quantity : F) (args : UInt64)
  | get (key : K) (args : UInt64)

namespace TewmaOp

def key : TewmaOp F K → K
  | add key _ _ | get key _ => key

def args : TewmaOp F K → UInt64
  | add _ _ args | get _ args => args

/-- A call on a counter. -/
def step {S : Type} [ICounter S F K] (s : S) : TewmaOp F K → Option S
  | add key quantity args => (ICounter.add s key quantity args).map Prod.fst
  | get key args => (ICounter.get (F := F) s key args).map Prod.fst

/-- A call, with what it returns. -/
def answer {S : Type} [ICounter S F K] (s : S) : TewmaOp F K → Option (S × F)
  | add key quantity args => ICounter.add s key quantity args
  | get key args => ICounter.get s key args

/-- What a call leaves of a key at a time. -/
def mass [DecidableEq K] (weight beta : F) (key : K) (time : ℤ) : TewmaOp F K → F
  | add key' quantity args =>
    if key' = key then quantity * weight * beta ^ (time - timeT args).toNat else 0
  | get _ _ => 0

/-- The sum over the calls of a sequence. -/
def sum [DecidableEq K] (weight beta : F) (key : K) (time : ℤ) (ops : List (TewmaOp F K)) : F :=
  (ops.map (mass weight beta key time)).sum

end TewmaOp

/-- A call of a sequence, or a `get` inserted into it. -/
inductive MixedOp (F K : Type) where
  | call (o : TewmaOp F K)
  | extra (key : K) (args : UInt64)

namespace MixedOp

def args : MixedOp F K → UInt64
  | call o => o.args
  | extra _ args => args

def call? : MixedOp F K → Option (TewmaOp F K)
  | call o => some o
  | extra _ _ => none

/-- What the calls of the sequence return, until a call fails. -/
def answers {S : Type} [ICounter S F K] (s : S) : List (MixedOp F K) → List F
  | [] => []
  | call o :: ops =>
    match o.answer s with
    | none => []
    | some (s, v) => v :: answers s ops
  | extra key args :: ops =>
    match ICounter.get (F := F) s key args with
    | none => []
    | some (s, _) => answers s ops

/-- The sequence without what was inserted. -/
def calls (ops : List (MixedOp F K)) : List (MixedOp F K) := (ops.filterMap call?).map call

end MixedOp

end DStreamon
