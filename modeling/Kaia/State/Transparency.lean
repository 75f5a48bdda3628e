import Kaia.State.Copy
import Kaia.State.Mutators

/-! # What the caches of the state database do not show

The objects in memory, the journal and the flat snapshot are there for speed. Programs see the
world of accounts, in which taking a snapshot is keeping a copy.
-/

namespace Kaia

open Foundation

namespace StateDB

variable {s t : StateDB} {α : Type}

theorem Wf.run_eq (h : s.Wf) (p : DbProg α) :
    (handler.run p s).map (Prod.map id view) = World.handler.run p s.view := by
  have hsim := simulation.run p (⟨h, rfl⟩ : s.Shows s.view)
  cases hw : World.handler.run p s.view with
  | error e =>
    rw [hw] at hsim
    rw [show handler.run p s = _ from hsim]
    rfl
  | ok y =>
    rw [hw] at hsim
    obtain ⟨s', hs', ⟨-, hview⟩, -⟩ := hsim
    rw [hs']
    exact congrArg Except.ok (Prod.ext rfl hview)

/-- In every state that is reached, a program with snapshots and reverts in any nesting gives the
result that it gives in the world, and leaves the world that it leaves there. -/
theorem programs_run_as_in_world (h : Reached s) (p : DbProg α) :
    (handler.run p s).map (Prod.map id view) = World.handler.run p s.view :=
  h.wf.run_eq p

/-- A deposit that is taken back. -/
def revertedDeposit : DbProg ℤ :=
  .bracket (.call (.addBalance 7 5) .pure) (fun _ => false) fun _ => .call (.getBalance 7) .pure

theorem revertedDeposit_runs_as_in_world :
    (handler.run revertedDeposit (.new oneContract true)).map (Prod.map id view) =
      World.handler.run revertedDeposit (StateDB.new oneContract true).view :=
  programs_run_as_in_world (.new _ _) _

theorem Wf.answers_alike (hs : s.Wf) (ht : t.Wf) (hview : t.view = s.view) (p : DbProg α) :
    (handler.run p t).map Prod.fst = (handler.run p s).map Prod.fst := by
  have hfst : ∀ x : Except Crash (α × StateDB),
      x.map Prod.fst = (x.map (Prod.map id view)).map Prod.fst := by
    intro x
    cases x <;> rfl
  rw [hfst, hfst, ht.run_eq, hs.run_eq, hview]

theorem view_new (root : StateRoot) (snaps snaps' : Bool) :
    (StateDB.new root snaps').view = (StateDB.new root snaps).view := by
  cases snaps <;> cases snaps' <;> rfl

/-- A database on the same root shows the same after the same steps. -/
def Shadowed (root : StateRoot) (snaps : Bool) (es : List BlockStep) (s : StateDB) : Prop :=
  s.Wf ∧ ∃ t, Runs (blockStep false) (fun _ _ => True) (StateDB.new root snaps) es t ∧ t.Wf ∧
    t.view = s.view

variable {root : StateRoot} {snaps : Bool} {es : List BlockStep}

theorem blockStep_shadowed {e : BlockStep} {s' : StateDB} (hstep : s.blockStep false e = some s')
    (h : Shadowed root snaps es s) : Shadowed root snaps (es ++ [e]) s' := by
  obtain ⟨hs, t, hrun, ht, hview⟩ := h
  cases e with
  | step e =>
    obtain ⟨hs', -, t', hstep', ht', -, hview'⟩ := txStep_same hs ht hview hstep
    exact ⟨hs', t', hrun.snoc trivial hstep', ht', hview'⟩
  | finalise =>
    have hok := toOption_eq_some.mp hstep
    obtain ⟨t', hok'⟩ := ht.finalise_false_exists (hview ▸ hs.encodable_of_finalise hok)
    have hend := hs.finalise_false hok
    have hend' := ht.finalise_false hok'
    exact ⟨hend.wf, t', hrun.snoc trivial (toOption_eq_some.mpr hok'), hend'.wf,
      by rw [hend'.view, hend.view, hview]⟩

/-- The transactions of a block run with the flat snapshot of the root as they run without it, and
every program then gets the same answers. -/
theorem snapshot_reads_as_trie (snaps' : Bool)
    (hrun : Runs (blockStep false) (fun _ _ => True) (StateDB.new root snaps) es s) :
    ∃ t, Runs (blockStep false) (fun _ _ => True) (StateDB.new root snaps') es t ∧
      ∀ {α : Type} (p : DbProg α),
        (handler.run p t).map Prod.fst = (handler.run p s).map Prod.fst := by
  have hstart : Shadowed root snaps' [] (StateDB.new root snaps) :=
    ⟨.new _ _, _, .nil _, .new _ _, view_new root snaps snaps'⟩
  obtain ⟨hs, t, hrun', ht, hview⟩ := hrun.history hstart fun _ _ _ _ _ => blockStep_shadowed
  exact ⟨t, hrun', hs.answers_alike ht hview⟩

def deposit : List BlockStep := [.step (.run (.call (.addBalance 7 5) .pure))]

theorem deposit_reads_as_trie : ∃ s t,
    Runs (blockStep false) (fun _ _ => True) (StateDB.new oneContract true) deposit s ∧
    Runs (blockStep false) (fun _ _ => True) (StateDB.new oneContract false) deposit t ∧
    (handler.run revertedDeposit t).map Prod.fst =
      (handler.run revertedDeposit s).map Prod.fst := by
  have hrun : Runs (blockStep false) (fun _ _ => True) (StateDB.new oneContract true) deposit _ :=
    .single trivial rfl
  obtain ⟨t, hrun', hsame⟩ := snapshot_reads_as_trie false hrun
  exact ⟨_, t, hrun, hrun', hsame _⟩

end StateDB

end Kaia
