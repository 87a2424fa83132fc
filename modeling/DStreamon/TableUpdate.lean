import DStreamon.DLeft
import Mathlib.Algebra.Ring.Defs
import Mathlib.Logic.Function.Basic

/-!
# Table updates

The function that `Actions.parse` generates for an action `T(k) op v`.  Tables are reached through
`IDictionary`, and their objects through pointers.
-/

namespace DStreamon

namespace TableUpdate

/-- The objects of a table, at the pointers to them. -/
class Objects (D : Type) (V P : outParam Type) where
  load : D → P → V
  store : D → P → V → D

/-- `IDictionary<V>`, under keys of type `K`. -/
class Dictionary (D K : Type) {V P : outParam Type} [Objects D V P] where
  get : D → K → Option P
  add : D → K → V → D × Option P

open Objects (load store)
open Dictionary (get add)

instance {V : Type} : Objects (DLeft V) V Slot := ⟨DLeft.load, DLeft.store⟩

instance {K V : Type} [IReadBuffer K] [Inhabited V] : Dictionary (DLeft V) K :=
  ⟨DLeft.get, DLeft.add⟩

/-- `Map<K, V>`, under keys of `sizeof(K)` bytes, as it asserts; the pointer to an object is known
by its key. -/
structure MapTable (K V : Type) where
  dict : K → Option V

instance {K V : Type} [DecidableEq K] [Inhabited V] : Objects (MapTable K V) V K where
  load d p := (d.dict p).getD default
  store d p value := ⟨Function.update d.dict p (some value)⟩

instance {K V : Type} [DecidableEq K] [Inhabited V] : Dictionary (MapTable K V) K where
  get d key := if (d.dict key).isSome then some key else none
  add d key value := (⟨Function.update d.dict key (some value)⟩, some key)

/-! ## The generated function -/

inductive UpdateOp where
  | assign
  | plus
  | times
deriving DecidableEq

/-- The arithmetic of C++ between an object of type `V` and a value of type `W`: what `op` leaves
in the object, the conversion of an argument, `W()`, and the truth value. -/
structure Arith (V W : Type) where
  apply : UpdateOp → V → W → V
  convert : W → V
  init : W
  isTrue : W → Bool

/-- Whole numbers of one type. -/
def Arith.ofRing (R : Type) [CommRing R] [DecidableEq R] : Arith R R where
  apply
    | .assign, _, w => w
    | .plus, v, w => v + w
    | .times, v, w => v * w
  convert w := w
  init := 0
  isTrue w := w ≠ 0

/-- `val`: a number, or a pointer, whose truth value says whether it is not `NULL` and which is
followed later. -/
structure Val (D W : Type) where
  isTrue : Bool
  read : D → Option W

section

variable {D E K V W P Q : Type} [Objects D V P] [Dictionary D K] [Objects E W Q]
  [Dictionary E K]

/-- A numeric literal, or `Tags->Features[i]`. -/
def Val.number (A : Arith V W) (w : W) : Val D W := ⟨A.isTrue w, fun _ => some w⟩

/-- `TGET` on another table. -/
def Val.other (e : E) (key : K) : Val D W :=
  let p := get e key
  ⟨p.isSome, fun _ => p.map (load e)⟩

/-- `TGET` on the table that is updated. -/
def Val.own (d : D) (key : K) : Val D V :=
  let p := get d key
  ⟨p.isSome, fun d => p.map (load d)⟩

/-- The generated function; `none` where `NULL` is followed. -/
def update (A : Arith V W) (op : UpdateOp) (val : Val D W) (key : K) (d : D) : Option D :=
  let cur := get d key
  let r := if cur.isNone || !val.isTrue then add d key (A.convert A.init) else (d, cur)
  if val.isTrue then do
    let cur ← r.2
    let w ← val.read r.1
    some (store r.1 cur (A.apply op (load r.1 cur) w))
  else some r.1

/-- `T[k]`, as `get` answers. -/
def entry (d : D) (key : K) : Option V := (get d key).map (load d)

end

/-! ## What it is for -/

/-- The objects of a table that are in use. -/
class InUse (D P : Type) where
  inUse : D → P → Prop

/-- The keys that a table tells from another. -/
class Apart (D K : Type) where
  apart : K → K → Prop

instance {V : Type} : InUse (DLeft V) Slot := ⟨fun d p => p.1 < d.tableCount ∧ d.hashKey p ≠ 0⟩

/-- Fingerprints tell keys apart; zero is that of a free node. -/
instance {K V : Type} [IReadBuffer K] : Apart (DLeft V) K :=
  ⟨fun key k => fhash k ≠ fhash key ∧ fhash k ≠ 0⟩

instance {K V : Type} : InUse (MapTable K V) K := ⟨fun d p => (d.dict p).isSome⟩

instance {K V : Type} : Apart (MapTable K V) K := ⟨fun key k => k ≠ key⟩

section

variable {D K V W P : Type} [Objects D V P] [Dictionary D K] [InUse D P] [Apart D K]

/-- `p` is the object of the key and holds `v`; every other object in use is as it was, and every
other key finds what it found. -/
structure Wrote (d d' : D) (key : K) (p : P) (v : V) : Prop where
  get : get d' key = some p
  load : load d' p = v
  objects : ∀ q, InUse.inUse d q → q ≠ p → InUse.inUse d' q ∧ Objects.load d' q = Objects.load d q
  entries : ∀ k, Apart.apart D key k → entry d' k = entry d k

/-- `val` is made of a right-hand side that stands for `w`; an entry is there. -/
inductive Denotes (K : Type) [Dictionary D K] (d : D) : {W : Type} → Arith V W → Val D W → W → Prop
  | number {W : Type} (A : Arith V W) (w : W) : Denotes K d A (.number A w) w
  | other {W E Q : Type} [Objects E W Q] [Dictionary E K] (A : Arith V W) (e : E) (k : K) (q : Q)
      (h : get e k = some q) : Denotes K d A (.other e k) (Objects.load e q)
  | own (A : Arith V V) (k : K) (q : P) (h : get d k = some q) (huse : InUse.inUse d q) :
      Denotes K d A (.own d k) (Objects.load d q)

/-- What the key has, or the default value. -/
def base (A : Arith V W) (key : K) (d : D) : V := (entry d key).getD (A.convert A.init)

/-- The function returns, and has done `T[k] = T[k] op w` and nothing else. -/
def Meant (A : Arith V W) (op : UpdateOp) (w : W) (key : K) (d : D) (r : Option D) : Prop :=
  ∃ d' p, r = some d' ∧ Wrote d d' key p (A.apply op (base A key d) w)

/-- The table finds a place for the key. -/
def HasRoom (A : Arith V W) (key : K) (d : D) : Prop := (add d key (A.convert A.init)).2.isSome

instance (A : Arith V W) (key : K) (d : D) : Decidable (HasRoom A key d) :=
  inferInstanceAs (Decidable (_ = true))

end

/-- A table whose operations write what they are asked to. -/
class LawfulTable (D K : Type) {V P : outParam Type} [Objects D V P] [Dictionary D K] [InUse D P]
    [Apart D K] : Prop where
  add_some : ∀ {d d' : D} {k : K} {p : P} {v : V}, add d k v = (d', some p) → Wrote d d' k p v
  add_fresh : ∀ {d d' : D} {k : K} {p : P} {v : V}, get d k = none → add d k v = (d', some p) →
    ¬ InUse.inUse d p
  add_none : ∀ {d d' : D} {k : K} {v : V}, add d k v = (d', none) →
    get d k = none ∧ get d' k = none
  store_get : ∀ {d : D} {k : K} {p : P} (v : V), get d k = some p → Wrote d (store d p v) k p v

end TableUpdate

end DStreamon
