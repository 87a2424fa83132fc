import DStreamon.Buffer

/-!
# The cached digest

A digest whose flag is up is fresh exactly where its words are those of the bytes the buffer has
now.  `HashedBuffer` takes the flag down with every change of its own; a `bind`, and a `Reset` of
the base class, change the bytes and leave it up.
-/

namespace DStreamon

/-- The same words, as many as they have. -/
def Digest.Same (d d' : Digest) : Prop :=
  d.size = d'.size ∧ ∀ i < d.size, d.value i = d'.value i

namespace Buffers

open Function (update)

/-- `hashlittle2` cannot tell them apart. -/
def SameWords (data data' : List UInt8) : Prop :=
  ∀ i < digestSize, (bufferHash data).value i = (bufferHash data').value i

instance (data data' : List UInt8) : Decidable (SameWords data data') :=
  inferInstanceAs (Decidable (∀ i < digestSize, (bufferHash data).value i = _))

variable {data data' : List UInt8} {digest : ℕ → UInt32}

theorem digestOf_up (h : digest 0 = 1) : digestOf data digest = digest := by
  simp [digestOf, h]

theorem hashInto_apply (p q : ℕ) (digest : ℕ → UInt32) (i : ℕ) : hashInto data p q digest i =
    if i = q then (hashlittle2 data (digest p) (digest q)).2
    else if i = p then (hashlittle2 data (digest p) (digest q)).1 else digest i := by
  simp [hashInto, Function.update_apply]

theorem digestOf_down (h : digest 0 ≠ 1) {i : ℕ} (hi : i < digestSize) :
    digestOf data digest i = (bufferHash data).value i := by
  have hi7 : i = 0 ∨ i = 1 ∨ i = 2 ∨ i = 3 ∨ i = 4 ∨ i = 5 ∨ i = 6 := by
    unfold digestSize at hi
    omega
  rcases hi7 with rfl | rfl | rfl | rfl | rfl | rfl | rfl <;>
    simp [digestOf, h, hashInto_apply, digestReset, digestSize, bufferHash]

/-- What `GetHash` returns is fresh iff the words are, once the flag is up. -/
theorem digestOf_same_iff : (∀ i < digestSize, digestOf data digest i = (bufferHash data).value i) ↔
    (digest 0 = 1 → ∀ i < digestSize, digest i = (bufferHash data).value i) := by
  by_cases h : digest 0 = 1
  · simp [h, digestOf_up h]
  · exact iff_of_true (fun i hi => digestOf_down h hi) fun h' => absurd h' h

/-- The bytes changed and the flag left as it is. -/
theorem digest_silent_iff
    (hf : digest 0 = 1 → ∀ i < digestSize, digest i = (bufferHash data).value i) :
    (digest 0 = 1 → ∀ i < digestSize, digest i = (bufferHash data').value i) ↔
      (digest 0 = 1 → SameWords data data') := by
  refine forall_congr' fun h => forall_congr' fun i => forall_congr' fun hi => ?_
  rw [hf h i hi]

/-! ## `HashedBuffer` -/

namespace HashedBuffer

variable {S : ℕ} {h h' : HashedBuffer S} {w w' : Heap S}

/-- `GetHash` returns the digest of the bytes there are now. -/
def Fresh (h : HashedBuffer S) : Prop := h.getHash.2.Same (IReadBuffer.getHash h.key)

theorem fresh_iff : h.Fresh ↔
    (h.digest 0 = 1 → ∀ i < digestSize, h.digest i = (bufferHash h.bytes).value i) := by
  rw [← digestOf_same_iff]
  exact and_iff_right rfl

theorem fresh_of_down (hd : h.digest 0 = 0) : h.Fresh :=
  fresh_iff.2 fun h1 => absurd (hd.symm.trans h1) (by decide)

theorem new_fresh (data : ℕ → UInt8) (digest : ℕ → UInt32) :
    (new data digest : HashedBuffer S).Fresh :=
  fresh_of_down (by simp [new])

theorem append_fresh (h : HashedBuffer S) (ptr : List UInt8) (len : ℤ) (ty : BufferType) :
    (h.append ptr len ty).1.Fresh :=
  fresh_of_down (by simp [append])

theorem copy_fresh (data : ℕ → UInt8) (digest : ℕ → UInt32) (other : HashedBuffer S) :
    (copy data digest other).1.Fresh :=
  append_fresh _ _ _ _

theorem assign_fresh (h : HashedBuffer S) (other : Option (HashedBuffer S)) :
    (h.assign other).1.Fresh := by
  unfold assign
  exact append_fresh _ _ _ _

theorem reset_fresh (h : HashedBuffer S) : h.reset.Fresh := fresh_of_down (by simp [reset])

theorem getHash_fresh (hf : h.Fresh) : h.getHash.1.Fresh := by
  rw [fresh_iff]
  intro _ i hi
  exact hf.2 i hi

@[simp] theorem superReset_bytes (h : HashedBuffer S) : h.superReset.bytes = [] := rfl

theorem superReset_fresh_iff (hf : h.Fresh) :
    h.superReset.Fresh ↔ (h.digest 0 = 1 → SameWords h.bytes []) := by
  rw [fresh_iff, superReset_bytes]
  exact digest_silent_iff (fresh_iff.1 hf)

def AllFresh (w : Heap S) : Prop := ∀ i h, w i = some h → h.Fresh

/-- No `Reset` of a base class, unless the digest is not cached or is the empty buffer's. -/
def Quiet (w : Heap S) : Op → Prop
  | .superReset i => ∀ h, w i = some h → h.digest 0 = 1 → SameWords h.bytes []
  | _ => True

theorem AllFresh.update_iff (hw : AllFresh w) (i : ℕ) :
    AllFresh (update w i (some h)) ↔ h.Fresh := by
  constructor
  · exact fun hu => hu i h (by simp)
  · intro hh j h' hj
    by_cases hji : j = i
    · subst hji
      rw [Function.update_self, Option.some.injEq] at hj
      exact hj ▸ hh
    · rw [Function.update_of_ne hji] at hj
      exact hw j h' hj

theorem AllFresh.put (hw : AllFresh w) {i : ℕ} {r : HashedBuffer S × Outcome} (hr : r.1.Fresh)
    (hp : HashedBuffer.put w i r = some w') : AllFresh w' := by
  unfold HashedBuffer.put at hp
  split_ifs at hp
  obtain rfl := Option.some.inj hp
  exact (hw.update_iff i).2 hr

theorem step_fresh_iff {o : Op} (hw : AllFresh w) (hs : step w o = some w') :
    AllFresh w' ↔ Quiet w o := by
  cases o with
  | new i data digest =>
    obtain rfl := Option.some.inj hs
    exact iff_of_true ((hw.update_iff i).2 (new_fresh data digest)) trivial
  | copy i data digest j =>
    obtain ⟨other, -, hp⟩ := Option.bind_eq_some_iff.1 hs
    exact iff_of_true (hw.put (copy_fresh _ _ _) hp) trivial
  | append i ptr len ty =>
    obtain ⟨h, -, hp⟩ := Option.bind_eq_some_iff.1 hs
    exact iff_of_true (hw.put (append_fresh _ _ _ _) hp) trivial
  | shl i v =>
    obtain ⟨h, -, hp⟩ := Option.bind_eq_some_iff.1 hs
    exact iff_of_true (hw.put (append_fresh _ _ _ _) hp) trivial
  | reset i =>
    obtain ⟨h, -, rfl⟩ := Option.map_eq_some_iff.1 hs
    exact iff_of_true ((hw.update_iff i).2 h.reset_fresh) trivial
  | superReset i =>
    obtain ⟨h, hi, rfl⟩ := Option.map_eq_some_iff.1 hs
    rw [hw.update_iff i, superReset_fresh_iff (hw i h hi)]
    simp [Quiet, hi]
  | assign i j =>
    obtain ⟨h, -, hs⟩ := Option.bind_eq_some_iff.1 hs
    obtain ⟨other, -, hp⟩ := Option.bind_eq_some_iff.1 hs
    exact iff_of_true (hw.put (assign_fresh _ _) hp) trivial
  | getHash i =>
    obtain ⟨h, hi, rfl⟩ := Option.map_eq_some_iff.1 hs
    exact iff_of_true ((hw.update_iff i).2 (getHash_fresh (hw i h hi))) trivial

theorem quiet_of_none {o : Op} (hs : step w o = none) : Quiet w o := by
  cases o with
  | superReset i =>
    intro h hi
    simp [step, hi] at hs
  | _ => trivial

/-- The runs that keep every digest fresh. -/
theorem always_fresh_iff (ops : List Op) :
    StepRun.Always (step (S := S)) AllFresh (fun _ => none) ops ↔
      StepRun.Meets (step (S := S)) Quiet (fun _ => none) ops :=
  StepRun.always_iff (fun _ _ _ hw hs => step_fresh_iff hw hs) (fun _ _ _ hs => quiet_of_none hs)
    ops
    (by simp [AllFresh])

end HashedBuffer

/-! ## `HashedReadBuffer` -/

namespace HashedReadBuffer

variable {r : HashedReadBuffer}

def key (r : HashedReadBuffer) : DStreamon.HashedBuffer := ⟨r.bytes⟩

def Fresh (r : HashedReadBuffer) : Prop := r.getHash.2.Same (IReadBuffer.getHash r.key)

/-- No `bind` once the digest is cached, unless the new bytes have the same words. -/
def Quiet (r : HashedReadBuffer) : Op → Prop
  | .bind v => r.digest 0 = 1 → SameWords r.bytes (r.bind v).bytes
  | .getHash => True

instance : ∀ (r : HashedReadBuffer) (o : Op), Decidable (Quiet r o)
  | r, .bind v => inferInstanceAs (Decidable (r.digest 0 = 1 → SameWords r.bytes (r.bind v).bytes))
  | _, .getHash => .isTrue trivial

theorem fresh_iff : r.Fresh ↔
    (r.digest 0 = 1 → ∀ i < digestSize, r.digest i = (bufferHash r.bytes).value i) := by
  rw [← digestOf_same_iff]
  exact and_iff_right rfl

theorem new_fresh (digest : ℕ → UInt32) (v : Option Binding) : (new digest v).Fresh := by
  rw [fresh_iff]
  cases v <;> simp [new, digestReset, digestSize]

theorem step_fresh_iff {o : Op} {r' : HashedReadBuffer} (hr : r.Fresh) (hs : step r o = some r') :
    r'.Fresh ↔ Quiet r o := by
  cases o with
  | bind v =>
    obtain rfl := Option.some.inj hs
    rw [fresh_iff]
    exact digest_silent_iff (fresh_iff.1 hr)
  | getHash =>
    obtain rfl := Option.some.inj hs
    refine iff_of_true (fresh_iff.2 ?_) trivial
    intro _ i hi
    exact hr.2 i hi

theorem always_fresh_iff (digest : ℕ → UInt32) (v : Option Binding) (ops : List Op) :
    StepRun.Always step Fresh (new digest v) ops ↔ StepRun.Meets step Quiet (new digest v) ops :=
  StepRun.always_iff (fun _ _ _ hr hs => step_fresh_iff hr hs)
    (fun _ o _ hs => by cases o <;> cases hs) ops (new_fresh digest v)

end HashedReadBuffer

/-- `GetHash` returns the digest of the current bytes all along a run iff no call of it changes the
bytes under a cached digest. -/
theorem digests_fresh_iff (S : ℕ) (ops : List HashedBuffer.Op) (digest : ℕ → UInt32)
    (v : Option Binding) (rops : List HashedReadBuffer.Op) :
    (StepRun.Always (HashedBuffer.step (S := S)) HashedBuffer.AllFresh (fun _ => none) ops ↔
      StepRun.Meets (HashedBuffer.step (S := S)) HashedBuffer.Quiet (fun _ => none) ops) ∧
    (StepRun.Always HashedReadBuffer.step HashedReadBuffer.Fresh (.new digest v) rops ↔
      StepRun.Meets HashedReadBuffer.step HashedReadBuffer.Quiet (.new digest v) rops) :=
  ⟨HashedBuffer.always_fresh_iff ops, HashedReadBuffer.always_fresh_iff digest v rops⟩

/-- A buffer hashed on one byte and bound to another returns the digest of the first. -/
theorem bound_digest_stale : ∃ r, StepRun.run HashedReadBuffer.step
    (.new (fun _ => 0) (some (.integral [1]))) [.getHash, .bind (.integral [2])] = some r ∧
    ¬r.Fresh := by
  refine ⟨_, rfl, ?_⟩
  rw [HashedReadBuffer.fresh_iff]
  intro h
  exact absurd (h rfl 1 (by decide)) (by decide)

end Buffers

end DStreamon
