import DStreamon.Gates

/-!
# Links stay symmetric while no gate is linked twice to a peer it is torn from

`disconnect_all` calls `disconnect` once for each entry of its peers, but the first call for a peer
removes all the entries there.
-/

namespace DStreamon

open Attempt (forEach)
open Function (update)
open Links (Matched)

variable {I O : Type}

namespace Composition

variable {c : Composition I O} {e : String}

/-- A name is found or not; the composition stays as it is. -/
theorem lookup_cases {α : Type} (block e : String) (ids : BlockGates I O → Option α) :
    (∃ e', (findBlock block >>= fun b => Attempt.orThrow e (ids b)).run c = (.error e', c)) ∨
      ∃ a, (findBlock block >>= fun b => Attempt.orThrow e (ids b)).run c = (.ok a, c) := by
  unfold findBlock
  rcases hb : c.map block with _ | b
  · exact .inl ⟨_, by simp [Attempt.run_bind, hb]; rfl⟩
  · rcases hg : ids b with _ | a
    · exact .inl ⟨_, by simp [Attempt.run_bind, hb, hg]; rfl⟩
    · exact .inr ⟨a, by simp [Attempt.run_bind, hb, hg]⟩

/-- A link whose gates are not both found is not touched. -/
theorem link_cases (fromBlock fromGate toBlock toGate : String)
    (f : O → I → Attempt String (Composition I O) Unit) :
    (∃ e, (findOutputGate fromBlock fromGate >>= fun o =>
      findInputGate toBlock toGate >>= fun i => f o i).run c = (.error e, c)) ∨
    ∃ o i, (findOutputGate fromBlock fromGate >>= fun o =>
      findInputGate toBlock toGate >>= fun i => f o i).run c = (f o i).run c := by
  rcases lookup_cases (c := c) fromBlock (fromGate ++ ": no such gate")
      (·.outputIds fromGate) with
    ⟨e, ho⟩ | ⟨o, ho⟩
  · exact .inl ⟨e, Attempt.run_bind_of_error ho⟩
  · rcases lookup_cases (c := c) toBlock (toGate ++ ": no such gate")
        (·.inputIds toGate) with
      ⟨e, hi⟩ | ⟨i, hi⟩
    · exact .inl ⟨e, (Attempt.run_bind_of_ok ho).trans (Attempt.run_bind_of_error hi)⟩
    · exact .inr ⟨o, i, (Attempt.run_bind_of_ok ho).trans (Attempt.run_bind_of_ok hi)⟩

theorem ofGates_bind (x : Attempt String (Gates I O) Unit)
    (f : Unit → Attempt String (Gates I O) Unit) :
    (ofGates x >>= fun a => ofGates (f a)).run c = (ofGates (x >>= f)).run c := by
  rw [Attempt.run_bind, ofGates, Attempt.run_zoom, ofGates, Attempt.run_zoom, Attempt.run_bind]
  rcases x.run c.gates with ⟨e | _, g⟩ <;> rfl

end Composition

/-! ## What the gates do -/

section Gates

variable [DecidableEq I] [DecidableEq O] {g : Gates I O} {i : I} {o : O}

theorem forEach_inDisconnect (l : List I) :
    (forEach (fun i => InGate.disconnect i o) l).run g =
      (Gates.ofIn (forEach (Links.unlink notConnected · o) l)).run g := by
  unfold InGate.disconnect Gates.ofIn
  refine Attempt.forEach_zoom ?_ ?_ ?_ _ l g <;> intros <;> rfl

theorem forEach_outDisconnect (l : List O) :
    (forEach (fun o => OutGate.disconnect o i) l).run g =
      (Gates.ofOut (forEach (Links.unlink notConnected · i) l)).run g := by
  unfold OutGate.disconnect Gates.ofOut
  refine Attempt.forEach_zoom ?_ ?_ ?_ _ l g <;> intros <;> rfl

theorem inDisconnectAll_run (hm : Matched g.inPeers g.outPeers) (hnodup : (g.inPeers i).Nodup) :
    (InGate.disconnectAll i).run g = (.ok (), {
      inPeers := update g.inPeers i []
      outPeers := Links.eraseEach (g.inPeers i) i g.outPeers
      queue := update g.queue i ((g.queue i).reset queueLength) }) := by
  have hloop := Links.forEach_unlink (e := notConnected) hnodup fun o ho => hm.mem_iff.1 ho
  unfold InGate.disconnectAll
  rw [Attempt.run_get_bind, Attempt.run_bind, forEach_outDisconnect, Gates.ofOut, Attempt.run_zoom,
    hloop]
  rfl

theorem nodup_of_inDisconnectAll (hok : ((InGate.disconnectAll i).run g).1 = .ok ()) :
    (g.inPeers i).Nodup := by
  unfold InGate.disconnectAll at hok
  rw [Attempt.run_get_bind] at hok
  obtain ⟨_, g', hloop, -⟩ := Attempt.ok_of_bind (Prod.ext hok rfl)
  rw [forEach_outDisconnect] at hloop
  exact (Links.nodup_of_forEach_unlink (Prod.ext (congrArg Prod.fst hloop :) rfl)).1

theorem nodup_of_outDisconnectAll (hok : ((OutGate.disconnectAll o).run g).1 = .ok ()) :
    (g.outPeers o).Nodup := by
  unfold OutGate.disconnectAll at hok
  rw [Attempt.run_get_bind] at hok
  obtain ⟨_, g', hloop, -⟩ := Attempt.ok_of_bind (Prod.ext hok rfl)
  rw [forEach_inDisconnect] at hloop
  exact (Links.nodup_of_forEach_unlink (Prod.ext (congrArg Prod.fst hloop :) rfl)).1

theorem outDisconnectAll_run (hm : Matched g.inPeers g.outPeers) (hnodup : (g.outPeers o).Nodup) :
    (OutGate.disconnectAll o).run g = (.ok (), { g with
      inPeers := Links.eraseEach (g.outPeers o) o g.inPeers
      outPeers := update g.outPeers o [] }) := by
  have hloop := Links.forEach_unlink (e := notConnected) hnodup fun o ho => hm.mem_iff.2 ho
  unfold OutGate.disconnectAll
  rw [Attempt.run_get_bind, Attempt.run_bind, forEach_inDisconnect, Gates.ofIn, Attempt.run_zoom,
    hloop]
  rfl

theorem link_matched (hm : Matched g.inPeers g.outPeers) :
    Matched ((InGate.connect i o >>= fun _ => OutGate.connect o i).run g).2.inPeers
      ((InGate.connect i o >>= fun _ => OutGate.connect o i).run g).2.outPeers :=
  hm.add

/-- Both disconnects throw or none. -/
theorem unlink_matched (hm : Matched g.inPeers g.outPeers) :
    Matched ((InGate.disconnect i o >>= fun _ => OutGate.disconnect o i).run g).2.inPeers
      ((InGate.disconnect i o >>= fun _ => OutGate.disconnect o i).run g).2.outPeers := by
  rw [Attempt.run_bind, InGate.disconnect, Gates.ofIn, Attempt.run_zoom]
  by_cases hmem : o ∈ g.inPeers i
  · rw [Links.unlink_of_mem hmem]
    simp only [OutGate.disconnect, Gates.ofOut, Attempt.run_zoom,
      Links.unlink_of_mem (hm.mem_iff.1 hmem)]
    exact hm.erase
  · rw [Links.unlink_of_not_mem hmem]
    exact hm

end Gates

namespace Composition

open StepRun (Meets)

variable [DecidableEq I] [DecidableEq O] {c c' : Composition I O}

/-- What an operation does, the links being symmetric before it. -/
theorem symmetric_call_iff (hm : Matched c.gates.inPeers c.gates.outPeers) (op : Op I O) :
    Symmetric c op ↔ Single c op := by
  rcases op with ⟨fb, fg, tb, tg⟩ | ⟨fb, fg, tb, tg⟩ | i | o
  · refine iff_of_true ⟨?_, nofun⟩ trivial
    rcases link_cases (c := c) fb fg tb tg
      (fun o i => ofGates (InGate.connect i o) >>= fun _ => ofGates (OutGate.connect o i)) with
      ⟨e, h⟩ | ⟨o, i, h⟩
    · rw [call, createLink, h]
      exact hm
    · rw [call, createLink, h, ofGates_bind]
      exact link_matched hm
  · refine iff_of_true ⟨?_, nofun⟩ trivial
    rcases link_cases (c := c) fb fg tb tg
      (fun o i => ofGates (InGate.disconnect i o) >>=
        fun _ => ofGates (OutGate.disconnect o i)) with
      ⟨e, h⟩ | ⟨o, i, h⟩
    · rw [call, deleteLink, h]
      exact hm
    · rw [call, deleteLink, h, ofGates_bind]
      exact unlink_matched hm
  · refine ⟨fun h => nodup_of_inDisconnectAll (h.2 rfl), fun hnodup => ?_⟩
    have hrun := inDisconnectAll_run hm hnodup
    rw [Symmetric, call, ofGates, Attempt.run_zoom, hrun]
    exact ⟨hm.eraseEach, fun _ => rfl⟩
  · refine ⟨fun h => nodup_of_outDisconnectAll (h.2 rfl), fun hnodup => ?_⟩
    have hrun := outDisconnectAll_run hm hnodup
    rw [Symmetric, call, ofGates, Attempt.run_zoom, hrun]
    exact ⟨hm.symm.eraseEach.symm, fun _ => rfl⟩

/-- In a run of any operations on gates that are not linked at first. -/
theorem symmetric_iff_single (map : String → Option (BlockGates I O)) (ops : List (Op I O)) :
    Meets step Symmetric (unlinked map) ops ↔ Meets step Single (unlinked map) ops := by
  have hinv : ∀ (c : Composition I O) (op : Op I O) c', Matched c.gates.inPeers c.gates.outPeers →
      True → Single c op → step c op = some c' → Matched c'.gates.inPeers c'.gates.outPeers := by
    intro c op c' hm _ hsingle hc'
    obtain rfl := Option.some.inj hc'
    exact ((symmetric_call_iff hm op).2 hsingle).1
  exact StepRun.meets_iff hinv (fun c op hm _ => symmetric_call_iff hm op) ops
    (fun _ _ => trivial) (fun _ _ => rfl)

/-- A gate linked twice to a peer. -/
theorem not_symmetric : ¬ ∀ (map : String → Option (BlockGates Unit Unit))
    (ops : List (Op Unit Unit)),
    Meets step Symmetric (unlinked map) ops := by
  intro h
  let map : String → Option (BlockGates Unit Unit) :=
    fun _ => some ⟨fun _ => some (), fun _ => some ()⟩
  have hmeets := h map [.createLink "" "" "" "", .createLink "" "" "" "", .inDisconnectAll ()]
  have hthird := ((hmeets.2 _ rfl).2 _ rfl).1.2 rfl
  exact absurd (nodup_of_inDisconnectAll (i := ()) hthird) (by decide)

end Composition

end DStreamon
