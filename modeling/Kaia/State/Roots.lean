import Kaia.Foundation.Runs
import Kaia.State.Finalise

/-! # The root of a block

`Finalise` may leave the storage roots of contracts for the end of the block. The two ways of ending
transactions are run side by side, and their roots compared with the one of `Commit`.
-/

namespace Kaia

open Foundation

namespace StateDB

/-- A program runs, a key is updated, or the transaction of the logs is named. -/
inductive TxStep
  | run (p : DbProg Unit)
  | updateKey (a : Address) (newKey : AccountKey)
  | setTxContext (thash bhash : Hash) (ti : ℕ)

/-- A step of a transaction, or its end. -/
inductive BlockStep
  | step (e : TxStep)
  | finalise

def txStep (s : StateDB) : TxStep → Option StateDB
  | .run p => ((handler.run p s).map (·.2)).toOption
  | .updateKey a newKey => some (s.updateKey a newKey).2
  | .setTxContext thash bhash ti => some (s.setTxContext thash bhash ti)

/-- The machine that applies transactions; the flag is the second one of `Finalise`. -/
def blockStep (setStorageRoot : Bool) (s : StateDB) : BlockStep → Option StateDB
  | .step e => s.txStep e
  | .finalise => (s.finalise true setStorageRoot).toOption

/-- The transactions of a block, one after the other, each ended by `Finalise`. -/
def blockSteps (txs : List (List TxStep)) : List BlockStep :=
  txs.flatMap fun tx => tx.map .step ++ [.finalise]

/-- Keys are only changed in marked accounts, created accounts are marked at the end, and no
contract is deleted whose storage root was left for later. -/
def Tidy (s : StateDB) : BlockStep → Prop
  | .step (.updateKey a newKey) => a ∈ s.journal.dirties ∨ (s.updateKey a newKey).1 ≠ none
  | .step _ => True
  | .finalise => ∀ a so, s.stateObjects.lookup a = some so →
      (so.created = true → a ∈ s.journal.dirties) ∧
      (a ∈ s.journal.dirties → a ∈ s.stateObjectsDirtyStorage →
        so.selfDestructed = false ∧ so.empty = false)

/-! ## Within a transaction -/

/-- What the steps of a transaction leave as it was. -/
structure Moves (s s' : StateDB) : Prop where
  wf : s'.Wf
  base : s.SameBase s'
  dirtied : ∀ a, s.view.Dirtied a → s'.view.Dirtied a
  settled : ∀ a, s.known a .settled → s'.known a .settled
  untouched : ∀ a, ¬ s'.view.Dirtied a → s'.view.objects a = s.view.objects a ∨
    ∃ o, s'.view.objects a = some o ∧ o.created = true

variable {s s' s'' t t' : StateDB} {a : Address}

theorem Moves.refl (h : s.Wf) : s.Moves s :=
  ⟨h, .refl s, fun _ hd => hd, fun _ hs => hs, fun _ _ => .inl rfl⟩

theorem Moves.trans (h : s.Moves s') (h' : s'.Moves s'') : s.Moves s'' where
  wf := h'.wf
  base := h.base.trans h'.base
  dirtied a hd := h'.dirtied a (h.dirtied a hd)
  settled a hs := h'.settled a (h.settled a hs)
  untouched a ha := by
    rcases h'.untouched a ha with heq | hcreated
    · rw [heq]
      exact h.untouched a fun hd => ha (h'.dirtied a hd)
    · exact .inr hcreated

theorem Recorded.moves (h : s.Recorded s') : s.Moves s' :=
  ⟨h.wf, h.base, fun _ hd => h.dirtied hd, h.settled, h.untouched⟩

theorem Wf.updateKey_moves (h : s.Wf) {newKey : AccountKey}
    (ha : s.view.Dirtied a ∨ (s.view.updateKey a newKey).1 ≠ none) :
    s.Moves (s.updateKey a newKey).2 := by
  obtain ⟨-, hre, hview⟩ := h.updateKey a newKey
  have hsame : ∀ b, (s.view.updateKey a newKey).2.Dirtied b ↔ s.view.Dirtied b := by
    intro b
    unfold World.updateKey
    cases s.view.find a with
    | none => exact Iff.rfl
    | some o =>
      simp only
      cases o.account.updateKey newKey with
      | error | ok => exact Iff.rfl
  refine ⟨hre.wf, hre.base, fun b hb => ?_, fun b => hre.known b _, fun b hb => .inl ?_⟩
  · rw [hview, hsame b]
    exact hb
  rw [hview, hsame b] at hb
  rw [hview]
  unfold World.updateKey at ha ⊢
  cases hf : s.view.find a with
  | none => rfl
  | some o =>
    rw [hf] at ha
    simp only at ha ⊢
    cases hk : o.account.updateKey newKey with
    | error e => rfl
    | ok acc =>
      rw [hk] at ha
      have hba : b ≠ a := by
        rintro rfl
        rcases ha with ha | ha
        · exact hb ha
        · exact ha rfl
      exact Function.update_of_ne hba _ _

theorem txStep_alike {e : TxStep} (hs : s.Wf) (ht : t.Wf) (hview : t.view = s.view)
    (hok : s.Tidy (.step e)) (hstep : s.txStep e = some s') :
    s.Moves s' ∧ ∃ t', t.txStep e = some t' ∧ t.Moves t' ∧ t'.view = s'.view := by
  cases e with
  | run p =>
    cases hrun : handler.run p s with
    | error e => simp [txStep, hrun, Except.map, Except.toOption] at hstep
    | ok x =>
      obtain rfl : x.2 = s' := by simpa [txStep, hrun, Except.map, Except.toOption] using hstep
      obtain ⟨hstep, t', hrun', hstep', hv⟩ := run_alike hs ht hview hrun
      exact ⟨hstep.moves, t', by simp [txStep, hrun', Except.map, Except.toOption], hstep'.moves, hv⟩
  | updateKey a newKey =>
    obtain rfl := Option.some_inj.mp hstep
    have hdirty : s.view.Dirtied a ∨ (s.view.updateKey a newKey).1 ≠ none := by
      rw [← hs.toCoherent.mem_dirties, ← (hs.updateKey a newKey).1]
      exact hok
    refine ⟨hs.updateKey_moves hdirty, _, rfl, ht.updateKey_moves (by rwa [hview]), ?_⟩
    rw [(hs.updateKey a newKey).2.2, (ht.updateKey a newKey).2.2, hview]
  | setTxContext thash bhash ti =>
    obtain rfl := Option.some_inj.mp hstep
    have hctx : ∀ {u : StateDB}, u.Wf → u.Moves (u.setTxContext thash bhash ti) := fun h =>
      ⟨h.withRecords _ h.accessFits, ⟨rfl, rfl, rfl, rfl⟩, fun _ hd => hd, fun _ hk => hk,
        fun _ _ => .inl rfl⟩
    refine ⟨hctx hs, _, rfl, hctx ht, ?_⟩
    show ({ t.view with thash := thash, bhash := bhash, txIndex := ti } : World) =
      { s.view with thash := thash, bhash := bhash, txIndex := ti }
    rw [hview]

/-! ## Between transactions -/

/-- Storage roots are left for later in the one database and set at once in the other. -/
structure Beside (s t : StateDB) : Prop where
  wf : s.Wf
  wf' : t.Wf
  view : t.view = s.view
  journal : s.journal = .newJournal
  journal' : t.journal = .newJournal
  dirty : ∀ a, a ∈ t.stateObjectsDirty ↔ a ∈ s.stateObjectsDirty
  settled : t.stateObjectsDirtyStorage = []
  trie : ∀ a ∉ s.stateObjectsDirtyStorage, t.trie a = s.trie a
  later : ∀ a ∈ s.stateObjectsDirtyStorage, a ∈ s.stateObjectsDirty ∧ s.known a .opened ∧
    ∀ o, s.view.objects a = some o → o.gone true = false
  written : ∀ a ∈ s.stateObjectsDirty, ∀ o, s.view.objects a = some o →
    if o.gone true then t.trie a = none
    else t.trie a = some o.entry ∧ o.storage = o.committed ∧ o.account.encodes = true
  clean : ∀ a ∉ s.stateObjectsDirty, ∀ o, s.view.objects a = some o → o.selfDestructed = false

theorem Beside.new (root : StateRoot) (snaps : Bool) :
    Beside (StateDB.new root snaps) (StateDB.new root snaps) := by
  have hwf : (StateDB.new root snaps).Wf := .new root snaps
  refine ⟨hwf, hwf, rfl, rfl, rfl, fun _ => Iff.rfl, rfl, fun _ _ => rfl, nofun, nofun, ?_⟩
  intro a _ o ho
  obtain ⟨so, hso, rfl⟩ := Option.map_eq_some_iff.mp ho
  obtain ⟨acc, -, rfl⟩ : ∃ acc, _ ∧ StateObject.newObject acc = so := by
    simpa [objectAt, StateDB.new] using hso
  rfl

variable {s₀ t₀ t₁ : StateDB} {o : Obj} {w : World} {de : Bool}

theorem lookup_of_created (ho : s.view.objects a = some o) (hc : o.created = true) :
    ∃ so, s.stateObjects.lookup a = some so ∧ so.view = o := by
  obtain ⟨so, hso, rfl⟩ := Option.map_eq_some_iff.mp ho
  cases hl : s.stateObjects.lookup a with
  | some so' => exact ⟨so, by simpa [objectAt, hl] using hso, rfl⟩
  | none =>
    obtain ⟨acc, -, rfl⟩ : ∃ acc, _ ∧ StateObject.newObject acc = so := by
      simpa [objectAt, hl] using hso
    cases hc

theorem Moves.same_of_not_dirtied (hm : s₀.Moves s) (htidy : s.Tidy .finalise)
    (ha : ¬ s.view.Dirtied a) : s.view.objects a = s₀.view.objects a := by
  rcases hm.untouched a ha with hsame | ⟨o, ho, hc⟩
  · exact hsame
  · obtain ⟨so, hlook, rfl⟩ := lookup_of_created ho hc
    exact absurd (hm.wf.toCoherent.mem_dirties.mp ((htidy a so hlook).1 hc)) ha

theorem Moves.opened_of_not_dirtied (hm : s₀.Moves s) (htidy : s.Tidy .finalise)
    (hk : s₀.known a .opened) (ha : ¬ s.view.Dirtied a) : s.known a .opened := by
  obtain ⟨o₀, hlook₀, ho₀⟩ := hk
  obtain ⟨so, hlook, hopen | hc⟩ := hm.settled a ⟨o₀, hlook₀, .inl ho₀⟩
  · exact ⟨so, hlook, hopen⟩
  · exact absurd (hm.wf.toCoherent.mem_dirties.mp ((htidy a so hlook).1 hc)) ha

theorem finalised_gone (o : Obj) (de : Bool) : (o.finalised de).gone de = o.gone de := by
  unfold Obj.finalised
  split <;> rfl

theorem finalise_objects_of_dirtied (ha : w.Dirtied a) (ho : (w.finalise de).objects a = some o) :
    ∃ o', w.objects a = some o' ∧ o'.finalised de = o := by
  simp only [World.finalise, if_pos ha] at ho
  exact Option.map_eq_some_iff.mp ho

theorem finalise_objects_of_not_dirtied (ha : ¬ w.Dirtied a) :
    (w.finalise de).objects a = w.objects a := if_neg ha

theorem Moves.kept_of_dirtied (hm : s₀.Moves s) (htidy : s.Tidy .finalise)
    (ha : s.view.Dirtied a) (hl : a ∈ s₀.stateObjectsDirtyStorage) :
    ∃ o, s.view.objects a = some o ∧ o.gone true = false := by
  have hl' : a ∈ s.stateObjectsDirtyStorage := by
    rw [hm.base.stateObjectsDirtyStorage]; exact hl
  have hlive := hm.wf.kept_live a (Finset.mem_union_right _ (List.mem_toFinset.mpr hl'))
  obtain ⟨so, hlook⟩ := Option.ne_none_iff_exists'.mp hlive
  obtain ⟨hsd, hempty⟩ := (htidy a so hlook).2 (hm.wf.toCoherent.mem_dirties.mpr ha) hl'
  exact ⟨so.view, view_objects_of_object hlook, by rw [so.view_gone, hsd, hempty]; rfl⟩

theorem Beside.later_end (hb : Beside s₀ t₀) (hm : s₀.Moves s) (htidy : s.Tidy .finalise)
    (hend : Ended true false s s') (ha : a ∈ s'.stateObjectsDirtyStorage) :
    a ∈ s'.stateObjectsDirty ∧ s'.known a .opened ∧
      ∀ o, s'.view.objects a = some o → o.gone true = false := by
  have hmarked : ∀ o, s.view.Dirtied a → s.view.objects a = some o → o.gone true = false →
      a ∈ s'.stateObjectsDirty ∧ s'.known a .opened ∧
        ∀ o, s'.view.objects a = some o → o.gone true = false := by
    intro o hd ho hg
    refine ⟨(hend.dirty a).mpr (.inr ⟨hd, by simp [ho]⟩), hend.opened_of_dirtied a o hd ho hg, ?_⟩
    intro o' ho'
    rw [hend.view] at ho'
    obtain ⟨o'', ho'', rfl⟩ := finalise_objects_of_dirtied hd ho'
    obtain rfl := Option.some_inj.mp (ho.symm.trans ho'')
    rw [finalised_gone, hg]
  rcases (hend.later a).mp ha with hl | ⟨-, hd, o, ho, hg, -⟩
  · rw [hm.base.stateObjectsDirtyStorage] at hl
    by_cases hd : s.view.Dirtied a
    · obtain ⟨o, ho, hg⟩ := hm.kept_of_dirtied htidy hd hl
      exact hmarked o hd ho hg
    · obtain ⟨hdirty, hopen, hgone⟩ := hb.later a hl
      refine ⟨(hend.dirty a).mpr (.inl (by rwa [hm.base.stateObjectsDirty])),
        hend.opened a (hm.opened_of_not_dirtied htidy hopen hd), fun o ho => hgone o ?_⟩
      rw [hend.view, finalise_objects_of_not_dirtied hd, hm.same_of_not_dirtied htidy hd] at ho
      exact ho
  · exact hmarked o hd ho hg

theorem Beside.trie_end (hend : Ended true true t t₁) (hroot : Rooted t₁ t')
    (hsettled : t.stateObjectsDirtyStorage = []) : t'.trie = t.view.writes true t.trie ∧
      t'.stateObjectsDirtyStorage = [] := by
  have hnil : ∀ a, a ∉ t₁.stateObjectsDirtyStorage := by
    intro a ha
    rw [hend.later_iff, hsettled] at ha
    cases ha
  exact ⟨funext fun a => (hroot.trie a (hnil a)).trans (hend.trie a (.inl rfl)), hroot.later⟩

section

variable (hb : Beside s₀ t₀) (hm : s₀.Moves s) (hm' : t₀.Moves t) (hview : t.view = s.view)
    (htidy : s.Tidy .finalise)

include hb hm hm' hview htidy

theorem Beside.written_end (hend : Ended true false s s')
    (henc : Encodable true s.view) (htrie : t'.trie = t.view.writes true t.trie)
    (ha : a ∈ s'.stateObjectsDirty) (ho : s'.view.objects a = some o) :
    if o.gone true then t'.trie a = none
    else t'.trie a = some o.entry ∧ o.storage = o.committed ∧ o.account.encodes = true := by
  rw [hend.view] at ho
  by_cases hd : s.view.Dirtied a
  · obtain ⟨o', ho', rfl⟩ := finalise_objects_of_dirtied hd ho
    have hw : t'.trie a = if o'.gone true then none else some (o'.finalised true).entry := by
      rw [htrie, World.writes, hview, ho']
      simp only [hd, if_true]
    rw [hw, finalised_gone]
    cases hg : o'.gone true with
    | true => simp
    | false =>
      have hacc := henc a o' hd ho' hg
      simp only [if_neg Bool.false_ne_true, true_and]
      unfold Obj.finalised
      rw [if_neg (by simp [hg])]
      exact ⟨rfl, hacc⟩
  · rw [finalise_objects_of_not_dirtied hd, hm.same_of_not_dirtied htidy hd] at ho
    have hdirty : a ∈ s₀.stateObjectsDirty := by
      rcases (hend.dirty a).mp ha with hl | ⟨hd', -⟩
      · rwa [hm.base.stateObjectsDirty] at hl
      · exact absurd hd' hd
    have hw : t'.trie a = t₀.trie a := by
      rw [htrie, World.writes, hview, hm.same_of_not_dirtied htidy hd, ho]
      simp only [hd, if_false]
      rw [hm'.base.trie]
    rw [hw]
    exact hb.written a hdirty o ho

theorem Beside.finalise
    (hok : s.finalise true false = .ok s') :
    ∃ t', t.finalise true true = .ok t' ∧ Beside s' t' := by
  have henc := hm.wf.encodable_of_finalise hok
  have hend := hm.wf.finalise_false hok
  have hsettled : t.stateObjectsDirtyStorage = [] :=
    hm'.base.stateObjectsDirtyStorage.trans hb.settled
  obtain ⟨t', hok'⟩ := hm'.wf.finalise_true_exists (hview ▸ henc) hsettled
  obtain ⟨t₁, hend', hroot⟩ := hm'.wf.finalise_true hok'
  obtain ⟨htrie, hnil⟩ := Beside.trie_end hend' hroot hsettled
  refine ⟨t', hok', hend.wf, hroot.wf, ?_, hend.journal, hroot.journal.trans hend'.journal,
    fun a => ?_, hnil, fun a ha => ?_,
    fun a => hb.later_end hm htidy hend, fun a ha o =>
    hb.written_end hm hm' hview htidy hend henc htrie ha, fun a ha o ho => ?_⟩
  · rw [hroot.view, hend'.view, hend.view, hview]
  · rw [hroot.dirty, hend'.dirty, hend.dirty, hview, hm'.base.stateObjectsDirty, hb.dirty,
      hm.base.stateObjectsDirty]
  · have hl : a ∉ s₀.stateObjectsDirtyStorage := fun hl =>
      ha ((hend.later a).mpr (.inl (by rwa [hm.base.stateObjectsDirtyStorage])))
    have hsame : t.trie a = s.trie a := by
      rw [hm'.base.trie, hm.base.trie, hb.trie a hl]
    rw [htrie, hend.trie a (.inr ha), hview]
    simp only [World.writes, hsame]
  · rw [hend.dirty] at ha
    have hnd : ¬ s.view.Dirtied a := by
      intro hd
      rw [hend.view] at ho
      obtain ⟨o', ho', -⟩ := finalise_objects_of_dirtied hd ho
      exact ha (.inr ⟨hd, by simp [ho']⟩)
    rw [hend.view, finalise_objects_of_not_dirtied hnd, hm.same_of_not_dirtied htidy hnd] at ho
    exact hb.clean a (fun h => ha (.inl (by rwa [hm.base.stateObjectsDirty]))) o ho

end

/-! ## The three roots -/

theorem not_dirtied_of_newJournal (hj : s.journal = .newJournal) : ¬ s.view.Dirtied a := by
  have hd : s.view.dirties a = 0 := by simp [view, hj, Journal.newJournal, JournalEntry.count]
  have hf : s.view.forced = 0 := by simp [view, hj, Journal.newJournal]
  unfold World.Dirtied
  omega

theorem writes_of_newJournal (hj : s.journal = .newJournal) (de : Bool) (root : StateRoot) :
    s.view.writes de root = root := by
  funext a
  unfold World.writes
  cases s.view.objects a with
  | none => rfl
  | some o => simp only [not_dirtied_of_newJournal hj, if_false]

theorem finalise_objects_of_newJournal (hj : s.journal = .newJournal) (de : Bool) :
    (s.view.finalise de).objects = s.view.objects :=
  funext fun _ => finalise_objects_of_not_dirtied (not_dirtied_of_newJournal hj)

theorem Beside.written_of_kept (hb : Beside s t) (hd : a ∈ s.stateObjectsDirty)
    (ho : s.view.objects a = some o) (hg : o.gone true = false) :
    t.trie a = some o.entry ∧ o.storage = o.committed ∧ o.account.encodes = true := by
  have hw := hb.written a hd o ho
  rwa [hg, if_neg Bool.false_ne_true] at hw

theorem Beside.intermediateRoot (hb : Beside s t) :
    ∃ s', s.intermediateRoot true = .ok (t.trie, s') ∧ s'.Wf ∧ s'.journal = .newJournal ∧
      s'.trie = t.trie ∧ s'.view.objects = s.view.objects ∧
      ∀ a, a ∈ s'.stateObjectsDirty ↔ a ∈ s.stateObjectsDirty := by
  have henc : Encodable true s.view := fun a o hd => absurd hd (not_dirtied_of_newJournal hb.journal)
  obtain ⟨s₁, hfold⟩ := hb.wf.finaliseLoop_exists true henc
  have hend := hb.wf.ended hfold
  have hobj := finalise_objects_of_newJournal hb.journal true
  obtain ⟨s', hs'⟩ := Wf.updateStorageRoots_exists (s := s₁.clearJournalAndRefund)
    fun a ha o ho => by
      obtain ⟨hdirty, hopen, hgone⟩ := hb.later a (hend.later_iff.mp ha)
      rw [hend.view, hobj] at ho
      exact ⟨(hb.written_of_kept hdirty ho (hgone o ho)).2.2, fun _ => hend.opened a hopen⟩
  have hroot := hend.wf.updateStorageRoots hend.journal hend.validRevisions hs'
  have hfin : s.finalise true true = .ok s' := bind_eq_ok.mpr ⟨s₁, hfold, hs'⟩
  have htrie : s'.trie = t.trie := by
    funext a
    by_cases ha : a ∈ s.stateObjectsDirtyStorage
    · obtain ⟨o, ho, hw⟩ := hroot.trie_later a (hend.later_iff.mpr ha)
      obtain ⟨hdirty, -, hgone⟩ := hb.later a ha
      rw [hend.view, hobj] at ho
      rw [hw, (hb.written_of_kept hdirty ho (hgone o ho)).1]
    · rw [hroot.trie a fun h => ha (hend.later_iff.mp h), hend.trie a (.inl rfl),
        writes_of_newJournal hb.journal, hb.trie a ha]
  refine ⟨s', bind_eq_ok.mpr ⟨s', hfin, by rw [htrie]; rfl⟩, hroot.wf,
    hroot.journal.trans hend.journal, htrie, by rw [hroot.view, hend.view, hobj], fun a => ?_⟩
  rw [hroot.dirty, hend.dirty]
  exact or_iff_left fun h => not_dirtied_of_newJournal hb.journal h.1

theorem Beside.self (hb : Beside s t) : Beside t t where
  wf := hb.wf'
  wf' := hb.wf'
  view := rfl
  journal := hb.journal'
  journal' := hb.journal'
  dirty _ := Iff.rfl
  settled := hb.settled
  trie _ _ := rfl
  later a ha := by
    rw [hb.settled] at ha
    exact absurd ha List.not_mem_nil
  written a ha o ho := hb.written a ((hb.dirty a).mp ha) o (hb.view ▸ ho)
  clean a ha o ho := hb.clean a (fun h => ha ((hb.dirty a).mpr h)) o (hb.view ▸ ho)

theorem Beside.commit (hb : Beside s t) (hwf : s'.Wf) (hj : s'.journal = .newJournal)
    (hobj : s'.view.objects = s.view.objects)
    (hdirty : ∀ a, a ∈ s'.stateObjectsDirty ↔ a ∈ s.stateObjectsDirty) (htrie : s'.trie = t.trie) :
    ∃ s'', s'.commit true = .ok (t.trie, s'') := by
  obtain ⟨root, s'', hok⟩ := hwf.commit_exists true fun a o hd ho hg => by
    have hd' := (hdirty a).mp (hd.resolve_right (not_dirtied_of_newJournal hj))
    rw [hobj] at ho
    exact (hb.written_of_kept hd' ho hg).2.2
  refine ⟨s'', hok.trans ?_⟩
  rw [hwf.commit_root hok]
  congr 2
  funext a
  rw [hobj, htrie]
  cases ho : s.view.objects a with
  | none => rfl
  | some o =>
    have hnd : ¬ s'.view.Dirtied a := not_dirtied_of_newJournal hj
    by_cases hd : a ∈ s.stateObjectsDirty
    · have hd' := (hdirty a).mpr hd
      simp only [commits, hd', true_or, decide_true, Bool.true_and]
      cases hg : o.gone true with
      | true =>
        have hw := hb.written a hd o ho
        rw [hg, if_pos rfl] at hw
        rw [if_pos (by simpa [Obj.gone] using hg), hw]
      | false =>
        have hw := hb.written_of_kept hd ho hg
        rw [if_neg (by simpa [Obj.gone] using hg), if_pos trivial, hw.1, Obj.entry, hw.2.1]
    · have hd' : ¬ (a ∈ s'.stateObjectsDirty ∨ s'.view.Dirtied a) := by
        rw [hdirty]
        tauto
      simp [commits, hd', hb.clean a hd o ho]

/-! ## Whole blocks -/

/-- The database that sets roots at once has come as far, from beside the other one. -/
def Abreast (root : StateRoot) (snaps : Bool) (es : List BlockStep) (s : StateDB) : Prop :=
  ∃ t s₀ t₀, Runs (blockStep true) (fun _ _ => True) (StateDB.new root snaps) es t ∧
    Beside s₀ t₀ ∧ s₀.Moves s ∧ t₀.Moves t ∧ t.view = s.view ∧
    ((∀ e, es.getLast? ≠ some (.step e)) → s₀ = s ∧ t₀ = t)

theorem Abreast.of_runs {root : StateRoot} {snaps : Bool} {es : List BlockStep}
    (hrun : Runs (blockStep false) Tidy (StateDB.new root snaps) es s) :
    Abreast root snaps es s := by
  refine hrun.history (P := Abreast root snaps) ?_ fun es s e s' hok hstep h => ?_
  · have hb := Beside.new root snaps
    exact ⟨_, _, _, .nil _, hb, .refl hb.wf, .refl hb.wf, rfl, fun _ => ⟨rfl, rfl⟩⟩
  · obtain ⟨t, s₀, t₀, hrun, hb, hm, hm', hview, -⟩ := h
    cases e with
    | step e =>
      obtain ⟨hmove, t', ht', hmove', hview'⟩ := txStep_alike hm.wf hm'.wf hview hok hstep
      exact ⟨t', s₀, t₀, hrun.snoc trivial ht', hb, hm.trans hmove, hm'.trans hmove', hview',
        fun h => absurd (by simp) (h e)⟩
    | finalise =>
      have hfin : s.finalise true false = .ok s' := toOption_eq_some.mp hstep
      obtain ⟨t', ht', hb'⟩ := hb.finalise hm hm' hview hok hfin
      exact ⟨t', s', t', hrun.snoc trivial (toOption_eq_some.mpr ht'), hb', .refl hb'.wf,
        .refl hb'.wf', hb'.view, fun _ => ⟨rfl, rfl⟩⟩

theorem getLast_blockSteps (txs : List (List TxStep)) (e : TxStep) :
    (blockSteps txs).getLast? ≠ some (.step e) := by
  rcases List.eq_nil_or_concat txs with rfl | ⟨txs, tx, rfl⟩
  · simp [blockSteps]
  · simp [blockSteps]

/-- After tidy transactions `IntermediateRoot` announces the root that `Commit` computes, and that
of a database which sets the storage roots at once. -/
theorem announced_root_eq_committed_root {root : StateRoot} {snaps : Bool}
    {txs : List (List TxStep)}
    (hrun : Runs (blockStep false) Tidy (StateDB.new root snaps) (blockSteps txs) s) :
    ∃ r s₁ s₂ t t₁, s.intermediateRoot true = .ok (r, s₁) ∧ s₁.commit true = .ok (r, s₂) ∧
      Runs (blockStep true) (fun _ _ => True) (StateDB.new root snaps) (blockSteps txs) t ∧
      t.intermediateRoot true = .ok (r, t₁) := by
  obtain ⟨t, s₀, t₀, hrun', hb, -, -, -, hend⟩ := Abreast.of_runs hrun
  obtain ⟨rfl, rfl⟩ := hend (getLast_blockSteps txs)
  obtain ⟨s₁, hroot, hwf, hj, htrie, hobj, hdirty⟩ := hb.intermediateRoot
  obtain ⟨s₂, hcommit⟩ := hb.commit hwf hj hobj hdirty htrie
  obtain ⟨t₁, hroot', -⟩ := hb.self.intermediateRoot
  exact ⟨t₀.trie, s₁, s₂, t₀, t₁, hroot, hcommit, hrun', hroot'⟩

def oneContract : StateRoot := fun a =>
  if a = 7 then some ⟨1, 0, .smartContract false .fail emptyStorage [0] 0⟩ else none

def storing : List TxStep := [.run (.call (.setState 7 0 1) fun _ => .pure ())]

def destructing : List TxStep := [.run (.call (.selfDestruct 7) fun _ => .pure ())]

theorem announced_root_storing : ∃ s r s₁ s₂ t t₁,
    Runs (blockStep false) Tidy (StateDB.new oneContract false) (blockSteps [storing]) s ∧
    s.intermediateRoot true = .ok (r, s₁) ∧ s₁.commit true = .ok (r, s₂) ∧
    Runs (blockStep true) (fun _ _ => True) (StateDB.new oneContract false)
      (blockSteps [storing]) t ∧ t.intermediateRoot true = .ok (r, t₁) := by
  obtain ⟨s₁, h₁, hs₁⟩ := Option.map_eq_some_iff.mp (show ((StateDB.new oneContract false).txStep
    (.run (.call (.setState 7 0 1) fun _ => .pure ()))).map (fun s =>
      (s.stateObjects.entries.map (·.2.created), s.stateObjectsDirtyStorage,
        ((s.finalise true false).toOption).isSome)) = some ([false], [], true) by decide +kernel)
  obtain ⟨hcreated, hlater, hfin⟩ := Prod.mk.inj (hs₁.trans rfl) |>.imp_right Prod.mk.inj
  obtain ⟨s, hs⟩ := Option.isSome_iff_exists.mp hfin
  have htidy : s₁.Tidy .finalise := by
    intro a so hlook
    have hmem : (⟨a, so⟩ : Sigma fun _ : Address => StateObject) ∈ s₁.stateObjects.entries :=
      AList.mem_lookup_iff.mp hlook
    have hc : so.created ∈ s₁.stateObjects.entries.map (·.2.created) :=
      List.mem_map.mpr ⟨_, hmem, rfl⟩
    rw [hcreated, List.mem_singleton] at hc
    exact ⟨fun h => by simp [hc] at h, fun _ h => by simp [hlater] at h⟩
  have hstored : Runs (blockStep false) Tidy (StateDB.new oneContract false) (storing.map .step) s₁ :=
    Runs.single trivial h₁
  have hrun : Runs (blockStep false) Tidy (StateDB.new oneContract false) (blockSteps [storing]) s :=
    hstored.snoc htidy (show blockStep false s₁ .finalise = some s from hs)
  obtain ⟨r, s₁, s₂, t, t₁, h⟩ := announced_root_eq_committed_root hrun
  exact ⟨s, r, s₁, s₂, t, t₁, hrun, h⟩

/-- A contract written before is deleted: `IntermediateRoot` puts it back, `Commit` takes it out. -/
theorem announced_root_ne_committed_root : ∃ s r s₁ r' s₂,
    Runs (blockStep false) (fun _ _ => True) (StateDB.new oneContract false)
      (blockSteps [storing, destructing]) s ∧
    s.intermediateRoot true = .ok (r, s₁) ∧ s₁.commit true = .ok (r', s₂) ∧
    (r 7).isSome = true ∧ r' 7 = none := by
  obtain ⟨s, hrun, hs⟩ := Runs.exists_of_exec (blockStep false) (StateDB.new oneContract false)
    (blockSteps [storing, destructing])
    (fun s => (s.intermediateRoot true).toOption.bind fun x =>
      (x.2.commit true).toOption.map fun y => ((x.1 7).isSome, (y.1 7).isSome))
    (some (true, false)) (by decide +kernel)
  obtain ⟨x, hx, hs⟩ := Option.bind_eq_some_iff.mp hs
  obtain ⟨y, hy, hs⟩ := Option.map_eq_some_iff.mp hs
  obtain ⟨hr, hr'⟩ := Prod.mk.inj hs
  exact ⟨s, x.1, x.2, y.1, y.2, hrun, toOption_eq_some.mp hx, toOption_eq_some.mp hy, hr,
    by simpa using hr'⟩

end StateDB

end Kaia
