import Kaia.State.Interface

/-! # The end of a transaction and of a block

Each round of the loops of `Finalise` and `Commit` acts on what the database keeps of its own
address, so the end of a transaction is told address by address.
-/

namespace Kaia

open Foundation List Function Option StateObject Account

/-- The object of an address, its entry in the trie, its mark, and whether it is left for later. -/
@[ext] structure Cell where
  object : Option StateObject
  entry : Option Account
  destructed : Bool
  dirty : Bool
  later : Bool

namespace Cell

def write (c : Cell) (so : StateObject) : Except Crash Cell :=
  if so.account.encodes then .ok { c with object := some so, entry := some so.account }
  else .error .encodeObject

def finalise (deleteEmptyObjects setStorageRoot snap : Bool) (c : Cell) : Except Crash Cell :=
  match c.object with
  | none => .ok c
  | some so =>
    if so.selfDestructed || (deleteEmptyObjects && so.empty) then
      .ok ⟨some { so with deleted := true, created := false }, none, snap || c.destructed, true,
        c.later⟩
    else if (so.settle setStorageRoot).account.encodes then
      .ok ⟨some { so.settle setStorageRoot with created := false },
        some (so.settle setStorageRoot).account, c.destructed, true,
        c.later || ((so.settle setStorageRoot).account.isProgramAccount && !setStorageRoot)⟩
    else .error .encodeObject

def setRoot (c : Cell) : Except Crash Cell :=
  match c.object with
  | none => .ok c
  | some so =>
    if so.account.isProgramAccount then
      match so.storageTrie with
      | none => .error (.goPanic .nilPointer)
      | some tr => c.write { so with account := so.account.setStorageRoot tr }
    else c.write so

def commit (deleteEmptyObjects : Bool) (c : Cell) : Except Crash Cell :=
  match c.object with
  | none => .ok c
  | some so =>
    if so.selfDestructed || (c.dirty && deleteEmptyObjects && so.empty) then
      .ok { c with object := some { so with deleted := true }, entry := none, dirty := false }
    else if c.dirty then
      { c with dirty := false }.write
        (if so.account.isProgramAccount then so.commitStorageTrie else so)
    else .ok { c with dirty := false }

end Cell

namespace StateDB

variable {s s' t t' : StateDB} {a : Address} {de ssr : Bool}

def cell (s : StateDB) (a : Address) : Cell :=
  ⟨s.stateObjects.lookup a, s.trie a, s.snapDestructs a, decide (a ∈ s.stateObjectsDirty),
    decide (a ∈ s.stateObjectsDirtyStorage)⟩

/-- The database without what it keeps of the addresses. -/
def rest (s : StateDB) : StateDB :=
  { s with
    trie := fun _ => none
    snapDestructs := fun _ => false
    stateObjects := ∅
    stateObjectsDirty := ∅
    stateObjectsDirtyStorage := [] }

theorem setDestructed_snapDestructs_self :
    (s.setDestructed a).snapDestructs a = (s.snap.isSome || s.snapDestructs a) := by
  unfold setDestructed
  cases s.snap.isSome <;> simp

variable {b : Address} {so : StateObject}

theorem setDestructed_snapDestructs_of_ne (hb : b ≠ a) :
    (s.setDestructed a).snapDestructs b = s.snapDestructs b := by
  unfold setDestructed
  cases s.snap.isSome <;> simp [hb]

theorem updateStateObject_of_encodes (h : so.account.encodes = true) :
    s.updateStateObject a so = .ok { s with trie := Function.update s.trie a (some so.account) } :=
  if_pos h

theorem updateStateObject_of_not_encodes (h : ¬ so.account.encodes = true) :
    s.updateStateObject a so = .error .encodeObject :=
  if_neg h

theorem cell_setStateObject_of_ne (hb : b ≠ a) (so : StateObject) :
    (s.setStateObject a so).cell b = s.cell b := by
  simp only [cell, lookup_setStateObject_of_ne hb]
  rfl

theorem updateStateObject_acts (hlook : s.stateObjects.lookup a = some so) :
    ActsAt cell rest s a ((s.cell a).write so) (s.updateStateObject a so) := by
  unfold Cell.write
  by_cases he : so.account.encodes = true
  · rw [if_pos he, updateStateObject_of_encodes he]
    refine ⟨_, rfl, ?_, fun b hb => ?_, rfl⟩
    · simp only [cell, hlook, update_self]
    · simp only [cell, update_of_ne hb]
  · rw [if_neg he, updateStateObject_of_not_encodes he]
    exact rfl

theorem setStateObject_updateStateObject_acts (so : StateObject) :
    ActsAt cell rest s a ((s.cell a).write so) ((s.setStateObject a so).updateStateObject a so) := by
  have h := updateStateObject_acts (s := s.setStateObject a so) lookup_setStateObject
  exact h.trans (fun b hb => cell_setStateObject_of_ne hb so) rfl

theorem finaliseDeleted_acts :
    ActsAt cell rest s a (.ok ⟨some { so with deleted := true, created := false }, none,
      s.snap.isSome || s.snapDestructs a, true, decide (a ∈ s.stateObjectsDirtyStorage)⟩)
      (.ok (s.finaliseDeleted a so) : Except Crash StateDB) := by
  refine ⟨_, rfl, Cell.ext ?_ ?_ ?_ ?_ rfl, fun b hb => Cell.ext ?_ ?_ ?_ ?_ rfl, rfl⟩
  · exact lookup_setStateObject
  · exact update_self a none s.trie
  · exact setDestructed_snapDestructs_self
  · exact decide_eq_true (Finset.mem_insert_self a _)
  · exact lookup_setStateObject_of_ne hb
  · exact update_of_ne hb none s.trie
  · exact setDestructed_snapDestructs_of_ne hb
  · show decide (b ∈ insert a s.stateObjectsDirty) = decide (b ∈ s.stateObjectsDirty)
    simp [hb]

theorem finaliseUpdated_acts (ssr : Bool) (s : StateDB) (a : Address) :
    ActsAt cell rest s a (if (so.settle ssr).account.encodes then
      .ok ⟨some { so.settle ssr with created := false }, some (so.settle ssr).account,
        s.snapDestructs a, true, decide (a ∈ s.stateObjectsDirtyStorage) ||
          ((so.settle ssr).account.isProgramAccount && !ssr)⟩
      else .error .encodeObject) (s.finaliseUpdated ssr a so) := by
  by_cases he : (so.settle ssr).account.encodes = true
  · simp only [he, if_true, finaliseUpdated, updateStateObject_of_encodes he]
    refine ⟨_, rfl, Cell.ext ?_ ?_ rfl ?_ ?_, fun b hb => Cell.ext ?_ ?_ rfl ?_ ?_, rfl⟩
    · exact lookup_setStateObject
    · exact update_self a _ s.trie
    · exact decide_eq_true (Finset.mem_insert_self a _)
    · cases hl : (so.settle ssr).account.isProgramAccount && !ssr <;> simp [cell]
    · exact lookup_setStateObject_of_ne hb
    · exact update_of_ne hb _ s.trie
    · exact decide_eq_decide.mpr (by simp [hb])
    · cases hl : (so.settle ssr).account.isProgramAccount && !ssr <;> simp [cell, hb]
  · simp only [he, finaliseUpdated, updateStateObject_of_not_encodes he]
    exact rfl

theorem finaliseStep_acts (de ssr : Bool) :
    Acts (finaliseStep de ssr) cell rest fun s => Cell.finalise de ssr s.snap.isSome := by
  intro s a
  simp only [Cell.finalise, finaliseStep, show (s.cell a).object = s.stateObjects.lookup a from rfl]
  cases hlook : s.stateObjects.lookup a with
  | none => exact ⟨s, rfl, rfl, fun _ _ => rfl, rfl⟩
  | some so =>
    by_cases hgone : (so.selfDestructed || (de && so.empty)) = true
    · simp only [hgone, if_true]
      exact finaliseDeleted_acts
    · simp only [hgone, if_neg Bool.false_ne_true]
      exact finaliseUpdated_acts ssr s a

theorem storageRootStep_acts : Acts storageRootStep cell rest fun _ => Cell.setRoot := by
  intro s a
  simp only [Cell.setRoot, storageRootStep, show (s.cell a).object = s.stateObjects.lookup a from rfl]
  cases hlook : s.stateObjects.lookup a with
  | none => exact ⟨s, rfl, rfl, fun _ _ => rfl, rfl⟩
  | some so =>
    by_cases hp : so.account.isProgramAccount = true
    · simp only [hp, if_true]
      cases htr : so.storageTrie with
      | none => exact rfl
      | some tr => exact setStateObject_updateStateObject_acts _
    · simp only [hp]
      exact updateStateObject_acts hlook

theorem commitStep_acts (de : Bool) : Acts (commitStep de) cell rest fun _ => Cell.commit de := by
  intro s a
  simp only [Cell.commit, commitStep, show (s.cell a).object = s.stateObjects.lookup a from rfl,
    show (s.cell a).dirty = decide (a ∈ s.stateObjectsDirty) from rfl]
  cases hlook : s.stateObjects.lookup a with
  | none => exact ⟨s, rfl, rfl, fun _ _ => rfl, rfl⟩
  | some so =>
    set s₁ : StateDB := { s with stateObjectsDirty := s.stateObjectsDirty.erase a } with hs₁
    have hself : s₁.cell a = ⟨some so, s.trie a, s.snapDestructs a, false,
        decide (a ∈ s.stateObjectsDirtyStorage)⟩ :=
      Cell.ext hlook rfl rfl (decide_eq_false (Finset.notMem_erase a _)) rfl
    have hothers : ∀ b, b ≠ a → s₁.cell b = s.cell b := fun b hb =>
      Cell.ext rfl rfl rfl (decide_eq_decide.mpr (by simp [hs₁, hb])) rfl
    by_cases hgone : (so.selfDestructed || (decide (a ∈ s.stateObjectsDirty) && de && so.empty)) = true
    · simp only [hgone, if_true]
      refine ⟨_, rfl, Cell.ext ?_ ?_ rfl ?_ rfl, fun b hb => ?_, rfl⟩
      · exact lookup_setStateObject
      · exact update_self a none s.trie
      · exact decide_eq_false (Finset.notMem_erase a _)
      · rw [cell_setStateObject_of_ne hb, ← hothers b hb]
        exact Cell.ext rfl (by exact update_of_ne hb none s₁.trie) rfl rfl rfl
    · simp only [hgone, if_neg Bool.false_ne_true]
      by_cases hd : decide (a ∈ s.stateObjectsDirty) = true
      · simp only [hd, if_true]
        have h := setStateObject_updateStateObject_acts (s := s₁) (a := a)
          (if so.account.isProgramAccount then so.commitStorageTrie else so)
        rw [hself] at h
        exact h.trans hothers rfl
      · simp only [hd, if_neg Bool.false_ne_true]
        exact ⟨s₁, rfl, hself, hothers, rfl⟩

end StateDB

/-! ## What becomes of an object -/

namespace StateObject

variable {snap : Option StateRoot} {d : Bool} {a : Address} {o : StateObject}

theorem settle_account (o : StateObject) :
    (o.settle true).account = o.account.setStorageRoot o.updateStorageTrie.trie := by
  unfold settle
  by_cases hp : o.updateStorageTrie.account.isProgramAccount = true
  · simp only [hp, Bool.and_self, if_true]
    rfl
  · simp only [hp, Bool.false_and, if_neg Bool.false_ne_true]
    exact (setStorageRoot_of_not_program _ _ hp).symm

theorem settle_account_false (o : StateObject) : (o.settle false).account = o.account := by
  simp only [settle, Bool.and_false, if_neg Bool.false_ne_true]
  rfl

theorem settle_rootless (o : StateObject) (ssr : Bool) :
    (o.settle ssr).account.rootless = o.account.rootless := by
  cases ssr with
  | false => rw [settle_account_false]
  | true => rw [settle_account]; exact setStorageRoot_setStorageRoot _ _ _

theorem settle_fields (o : StateObject) (ssr : Bool) :
    (o.settle ssr).storageTrie = o.updateStorageTrie.storageTrie ∧
      (o.settle ssr).originStorage = o.updateStorageTrie.originStorage ∧
      (o.settle ssr).dirtyStorage = o.updateStorageTrie.dirtyStorage ∧
      (o.settle ssr).selfDestructed = o.selfDestructed ∧ (o.settle ssr).deleted = o.deleted := by
  simp only [settle]
  split <;> exact ⟨rfl, rfl, rfl, rfl, rfl⟩

theorem settle_opened (o : StateObject) (ssr : Bool) : (o.settle ssr).storageTrie ≠ none := by
  rw [(o.settle_fields ssr).1]
  exact some_ne_none _

theorem settle_trie (o : StateObject) (ssr : Bool) :
    (o.settle ssr).trie = o.updateStorageTrie.trie := by
  simp only [trie, (o.settle_fields ssr).1]
  rfl

theorem Fits.settle (h : o.Fits snap d a) (ssr : Bool) : (o.settle ssr).Fits snap d a :=
  h.updateStorageTrie.congr (o.settle_trie ssr) (o.settle_fields ssr).2.1
    (o.settle_fields ssr).2.2.1 (o.settle_fields ssr).2.2.2.2

theorem Fits.view_settle (h : o.Fits snap d a) (ssr : Bool) (created : Bool) :
    ({ o.settle ssr with created := created } : StateObject).view =
      { o.view with committed := o.view.storage, created := created } := by
  obtain ⟨hst, -, hdirty, hsd, hdel⟩ := o.settle_fields ssr
  have htrie : ({ o.settle ssr with created := created } : StateObject).trie = o.view.storage :=
    (o.settle_trie ssr).trans h.trie_updateStorageTrie
  refine Obj.ext (o.settle_rootless ssr) htrie ?_ hsd hdel rfl
  funext key
  show ((o.settle ssr).dirtyStorage key).getD _ = _
  rw [hdirty, htrie]
  rfl

theorem settle_encodes (o : StateObject) (ssr : Bool) :
    (o.settle ssr).account.encodes = o.account.encodes := by
  rw [← rootless_encodes, o.settle_rootless ssr, rootless_encodes]

theorem settle_isProgramAccount (o : StateObject) (ssr : Bool) :
    (o.settle ssr).account.isProgramAccount = o.account.isProgramAccount := by
  rw [← rootless_isProgramAccount, o.settle_rootless ssr, rootless_isProgramAccount]

end StateObject

namespace Obj

def gone (deleteEmptyObjects : Bool) (o : Obj) : Bool :=
  o.selfDestructed || (deleteEmptyObjects && o.account.empty)

def finalised (deleteEmptyObjects : Bool) (o : Obj) : Obj :=
  if o.gone deleteEmptyObjects then { o with deleted := true, created := false }
  else { o with committed := o.storage, created := false }

/-- What `Commit` leaves of an object. -/
def atCommit (deleteEmptyObjects dirty : Bool) (o : Obj) : Obj :=
  if o.selfDestructed || (dirty && deleteEmptyObjects && o.account.empty) then
    { o with deleted := true }
  else if dirty && o.account.isProgramAccount then { o with committed := o.storage }
  else o

def entry (o : Obj) : Account := o.account.setStorageRoot o.committed

end Obj

theorem StateObject.view_gone (o : StateObject) (de : Bool) :
    o.view.gone de = (o.selfDestructed || (de && o.empty)) := by
  simp only [Obj.gone, view_account, rootless_empty]
  rfl

namespace World

instance (w : World) (a : Address) : Decidable (w.Dirtied a) :=
  inferInstanceAs (Decidable (_ ∨ _))

/-- What the end of a transaction leaves of the world. -/
def finalise (deleteEmptyObjects : Bool) (w : World) : World :=
  { w with
    objects := fun a => if w.Dirtied a then (w.objects a).map (·.finalised deleteEmptyObjects)
      else w.objects a
    dirties := fun _ => 0
    forced := 0
    refund := 0 }

/-- What the end of a transaction writes to the trie once the storage roots are set. -/
def writes (deleteEmptyObjects : Bool) (w : World) (root : StateRoot) : StateRoot := fun a =>
  match w.objects a with
  | some o =>
    if w.Dirtied a then
      if o.gone deleteEmptyObjects then none else some (o.finalised deleteEmptyObjects).entry
    else root a
  | none => root a

end World

namespace Cell

variable {c c' : Cell} {snap : Option StateRoot} {a : Address} {de ssr flat : Bool}

/-- The object fits, and an address without one is not marked in any way. -/
structure Good (snap : Option StateRoot) (a : Address) (c : Cell) : Prop where
  fits : ∀ so, c.object = some so → so.Fits snap c.destructed a
  unloaded : c.object = none → c.destructed = false ∧ c.dirty = false ∧ c.later = false

theorem finalise_eq_ok : c.finalise de ssr flat = .ok c' ↔
    match c.object with
    | none => c' = c
    | some so =>
      if so.view.gone de then
        c' = ⟨some { so with deleted := true, created := false }, none, flat || c.destructed, true,
          c.later⟩
      else so.account.encodes = true ∧
        c' = ⟨some { so.settle ssr with created := false }, some (so.settle ssr).account,
          c.destructed, true, c.later || (so.account.isProgramAccount && !ssr)⟩ := by
  unfold finalise
  cases c.object with
  | none => simp [eq_comm]
  | some so =>
    simp only [so.settle_encodes, so.settle_isProgramAccount, so.view_gone]
    split
    · simp [eq_comm]
    · by_cases he : so.account.encodes = true
      · simp [he, eq_comm]
      · simp [he]

theorem write_eq_ok {so : StateObject} :
    c.write so = .ok c' ↔
      so.account.encodes = true ∧ c' = { c with object := some so, entry := some so.account } := by
  unfold write
  by_cases he : so.account.encodes = true
  · rw [if_pos he]
    exact ⟨fun h => ⟨he, (Except.ok.inj h).symm⟩, fun h => by rw [h.2]⟩
  · rw [if_neg he]
    exact ⟨nofun, fun h => absurd h.1 he⟩

theorem setRoot_eq_ok : c.setRoot = .ok c' ↔
    match c.object with
    | none => c' = c
    | some so => so.account.encodes = true ∧
      (so.account.isProgramAccount = true → so.storageTrie ≠ none) ∧
      c' = { c with
        object := some { so with account := so.account.setStorageRoot so.trie }
        entry := some (so.account.setStorageRoot so.trie) } := by
  unfold setRoot
  cases c.object with
  | none => simp [eq_comm]
  | some so =>
    by_cases hp : so.account.isProgramAccount = true
    · cases htr : so.storageTrie with
      | none => simp [hp, htr]
      | some tr => simp [hp, htr, write_eq_ok, trie]
    · simp [hp, write_eq_ok, setStorageRoot_of_not_program _ _ hp]

def committed (so : StateObject) : StateObject :=
  if so.account.isProgramAccount then so.commitStorageTrie else so

theorem commit_eq_ok : c.commit de = .ok c' ↔
    match c.object with
    | none => c' = c
    | some so =>
      if so.selfDestructed || (c.dirty && de && so.empty) then
        c' = { c with object := some { so with deleted := true }, entry := none, dirty := false }
      else if c.dirty then so.account.encodes = true ∧ c' = { c with
        object := some (committed so)
        entry := some (committed so).account
        dirty := false }
      else c' = { c with dirty := false } := by
  unfold commit
  cases c.object with
  | none => simp [eq_comm]
  | some so =>
    have henc : (committed so).account.encodes = so.account.encodes := by
      unfold committed
      split
      · exact so.settle_encodes true
      · rfl
    dsimp only
    split
    · simp [eq_comm]
    · split
      · exact write_eq_ok.trans (by rw [← henc]; rfl)
      · simp [eq_comm]

end Cell

/-! ## What becomes of the database -/

namespace StateDB

variable {s s' : StateDB} {a : Address} {de ssr : Bool}

theorem eq_of_rest (h : s'.rest = s.rest) : s'.toRecords = s.toRecords ∧ s'.snap = s.snap ∧
    s'.journal = s.journal ∧ s'.validRevisions = s.validRevisions ∧
      s'.nextRevisionId = s.nextRevisionId := by
  have hrec : s'.rest.toRecords = s.rest.toRecords := by rw [h]
  have hsnap : s'.rest.snap = s.rest.snap := by rw [h]
  have hj : s'.rest.journal = s.rest.journal := by rw [h]
  have hr : s'.rest.validRevisions = s.rest.validRevisions := by rw [h]
  have hid : s'.rest.nextRevisionId = s.rest.nextRevisionId := by rw [h]
  exact ⟨hrec, hsnap, hj, hr, hid⟩

theorem Wf.good (h : s.Wf) (a : Address) : (s.cell a).Good s.snap a where
  fits so hso := h.objects a so hso
  unloaded hnone := by
    refine ⟨h.unloaded a hnone, decide_eq_false fun ha => ?_, decide_eq_false fun ha => ?_⟩
    · exact h.kept_live a (Finset.mem_union_left _ ha) hnone
    · exact h.kept_live a (Finset.mem_union_right _ (List.mem_toFinset.mpr ha)) hnone

theorem Wf.of_good (hgood : ∀ a, (s.cell a).Good s.snap a) (hj : s.journal = .newJournal)
    (hr : s.validRevisions = []) (hal : s.accessList.Wf) : s.Wf where
  objects a so hso := (hgood a).fits so hso
  unloaded a hnone := ((hgood a).unloaded hnone).1
  kept_live a ha hnone := by
    obtain ⟨-, hd, hl⟩ := (hgood a).unloaded hnone
    rcases Finset.mem_union.mp ha with ha | ha
    · exact of_decide_eq_false hd ha
    · exact of_decide_eq_false hl (List.mem_toFinset.mp ha)
  entries := by rw [hj]; trivial
  dirties a := by
    have hf : s.view.forced = 0 := by simp [view, hj, Journal.newJournal]
    rw [hj, hf]
    simp [Journal.newJournal, JournalEntry.count]
  dirties_live := by simp [hj, Journal.newJournal]
  accessFits := by rw [hj]; exact hal
  revisions_sorted := by rw [hr]; exact List.Pairwise.nil
  revisions_lt := by simp [hr]

theorem Wf.new (root : StateRoot) (snaps : Bool) : (StateDB.new root snaps).Wf :=
  .of_good (fun _ => ⟨nofun, fun _ => ⟨rfl, rfl, rfl⟩⟩) rfl rfl AccessList.newAccessList_wf

theorem Coherent.mem_dirties (h : s.Coherent) : a ∈ s.journal.dirties ↔ s.view.Dirtied a := by
  rw [← count_pos_iff, h.dirties a]
  show 0 < s.view.dirties a + _ ↔ _
  unfold World.Dirtied
  by_cases ha : a = ripemd
  · simp only [ha, if_true, true_and]
    omega
  · simp [ha]

theorem objectAt_eq : s.objectAt a = (s.cell a).object.or ((s.load a).map .newObject) := rfl

theorem view_objects_congr (hsnap : s'.snap = s.snap) (hcell : s'.cell a = s.cell a) :
    s'.view.objects a = s.view.objects a := by
  have hload : s'.load a = s.load a := by
    simp only [load, hsnap, show s'.trie a = s.trie a from congrArg Cell.entry hcell]
  rw [view_objects, view_objects, objectAt_eq, objectAt_eq, hcell, hload]

variable {so : StateObject} {c : Cell} {root : StateRoot} {o : Obj}

theorem view_objects_of_object (hobj : (s.cell a).object = some so) :
    s.view.objects a = some so.view := by
  rw [view_objects, objectAt_eq, hobj]
  rfl

/-- The end of a transaction, before any storage root that was left for later is set. -/
structure Ended (de ssr : Bool) (s s' : StateDB) : Prop where
  wf : s'.Wf
  view : s'.view = s.view.finalise de
  snap : s'.snap = s.snap
  journal : s'.journal = .newJournal
  validRevisions : s'.validRevisions = []
  nextRevisionId : s'.nextRevisionId = s.nextRevisionId
  dirty : ∀ a, a ∈ s'.stateObjectsDirty ↔
    a ∈ s.stateObjectsDirty ∨ (s.view.Dirtied a ∧ s.view.objects a ≠ none)
  later : ∀ a, a ∈ s'.stateObjectsDirtyStorage ↔ a ∈ s.stateObjectsDirtyStorage ∨
    (ssr = false ∧ s.view.Dirtied a ∧ ∃ o, s.view.objects a = some o ∧ o.gone de = false ∧
      o.account.isProgramAccount = true)
  trie : ∀ a, (ssr = true ∨ a ∉ s'.stateObjectsDirtyStorage) → s'.trie a = s.view.writes de s.trie a
  opened : ∀ a, s.known a .opened → s'.known a .opened
  opened_of_dirtied : ∀ a o, s.view.Dirtied a → s.view.objects a = some o → o.gone de = false →
    s'.known a .opened
  opened_before : ∀ a, s'.known a .opened → s.known a .opened ∨
    (s.view.Dirtied a ∧ ∃ o, s.view.objects a = some o ∧ o.gone de = false)

theorem Ended.later_iff (h : Ended de true s s') :
    a ∈ s'.stateObjectsDirtyStorage ↔ a ∈ s.stateObjectsDirtyStorage :=
  (h.later a).trans (or_iff_left fun hf => Bool.false_ne_true hf.1.symm)

/-- The cell of an address after the loop over the dirty addresses. -/
inductive EndCase (de ssr : Bool) (s : StateDB) (a : Address) (c : Cell) : Prop
  | same (hnone : s.view.Dirtied a → s.view.objects a = none) (hc : c = s.cell a)
  | gone (so : StateObject) (hd : s.view.Dirtied a) (hobj : (s.cell a).object = some so)
      (hg : so.view.gone de = true)
      (hc : c = ⟨some { so with deleted := true, created := false }, none,
        s.snap.isSome || s.snapDestructs a, true, decide (a ∈ s.stateObjectsDirtyStorage)⟩)
  | kept (so : StateObject) (hd : s.view.Dirtied a) (hobj : (s.cell a).object = some so)
      (hg : so.view.gone de = false) (henc : so.account.encodes = true)
      (hc : c = ⟨some { so.settle ssr with created := false }, some (so.settle ssr).account,
        s.snapDestructs a, true,
        decide (a ∈ s.stateObjectsDirtyStorage) || (so.account.isProgramAccount && !ssr)⟩)

theorem Coherent.endCase (h : s.Coherent)
    (hfold : s.journal.dirties.dedup.foldlM (finaliseStep de ssr) s = .ok s') (a : Address) :
    EndCase de ssr s a (s'.cell a) := by
  obtain ⟨-, hin, hout⟩ := (finaliseStep_acts de ssr).fold_ok (nodup_dedup _) hfold
  by_cases ha : a ∈ s.journal.dirties
  · have hd := h.mem_dirties.mp ha
    have hact := Cell.finalise_eq_ok.mp (hin a (mem_dedup.mpr ha))
    split at hact
    · next hnone =>
      refine .same (fun _ => ?_) hact
      rw [view_objects, objectAt_eq, hnone, h.dirties_live a ha hnone]
      rfl
    · next so hobj =>
      split at hact
      · next hg => exact .gone so hd hobj hg hact
      · next hg => exact .kept so hd hobj (Bool.eq_false_of_not_eq_true hg) hact.1 hact.2
  · exact .same (fun hd => absurd (h.mem_dirties.mpr hd) ha)
      (hout a fun hmem => ha (mem_dedup.mp hmem))

theorem EndCase.kept_of (hc : EndCase de ssr s a c) (hd : s.view.Dirtied a)
    (ho : s.view.objects a = some o) (hg : o.gone de = false) :
    ∃ so : StateObject, so.view = o ∧ so.account.encodes = true ∧
      c.object = some { so.settle ssr with created := false } := by
  cases hc with
  | same hnone hc => simp [hnone hd] at ho
  | gone so hd' hobj hg' hc =>
    obtain rfl := some_inj.mp ((view_objects_of_object hobj).symm.trans ho)
    simp [hg] at hg'
  | kept so hd' hobj hg' henc hc =>
    exact ⟨so, some_inj.mp ((view_objects_of_object hobj).symm.trans ho), henc,
      congrArg Cell.object hc⟩

theorem EndCase.good (h : s.Wf) (hc : EndCase de ssr s a c) : c.Good s.snap a := by
  cases hc with
  | same _ hc => rw [hc]; exact h.good a
  | gone so hd hobj hg hc =>
    subst hc
    refine ⟨fun so' hso' => ?_, nofun⟩
    obtain rfl := some_inj.mp hso'
    have hfit := (h.good a).fits so hobj
    exact ⟨hfit.origin, nofun, hfit.dirty⟩
  | kept so hd hobj hg henc hc =>
    subst hc
    refine ⟨fun so' hso' => ?_, nofun⟩
    obtain rfl := some_inj.mp hso'
    exact (((h.good a).fits so hobj).settle ssr).congr rfl rfl rfl rfl

theorem EndCase.objects (h : s.Wf) (hsnap : s'.snap = s.snap) (hc : EndCase de ssr s a (s'.cell a)) :
    s'.view.objects a = (s.view.finalise de).objects a := by
  simp only [World.finalise]
  cases hc with
  | same hnone hc =>
    rw [view_objects_congr hsnap hc]
    by_cases hd : s.view.Dirtied a
    · rw [if_pos hd, hnone hd, map_none]
    · rw [if_neg hd]
  | gone so hd hobj hg hc =>
    rw [if_pos hd, view_objects_of_object hobj, view_objects_of_object (congrArg Cell.object hc),
      map_some, Obj.finalised, if_pos hg]
    rfl
  | kept so hd hobj hg henc hc =>
    have hfit := (h.good a).fits so hobj
    rw [if_pos hd, view_objects_of_object hobj, view_objects_of_object (congrArg Cell.object hc),
      map_some, Obj.finalised, if_neg (by simp [hg]), hfit.view_settle]

theorem EndCase.trie (h : s.Wf) (hc : EndCase de ssr s a (s'.cell a))
    (hl : ssr = true ∨ a ∉ s'.stateObjectsDirtyStorage) :
    s'.trie a = s.view.writes de s.trie a := by
  unfold World.writes
  cases hc with
  | same hnone hc =>
    have htrie : s'.trie a = s.trie a := congrArg Cell.entry hc
    by_cases hd : s.view.Dirtied a
    · rw [hnone hd, htrie]
    · rw [htrie]
      cases s.view.objects a with
      | none => rfl
      | some o => simp [hd]
  | gone so hd hobj hg hc =>
    rw [view_objects_of_object hobj]
    simp only [hd, hg, if_true]
    exact congrArg Cell.entry hc
  | kept so hd hobj hg henc hc =>
    rw [view_objects_of_object hobj]
    simp only [hd, hg, if_true, if_neg Bool.false_ne_true]
    refine (congrArg Cell.entry hc).trans (congrArg some ?_)
    have hfit := (h.good a).fits so hobj
    have hentry : (so.view.finalised de).entry = so.account.setStorageRoot so.view.storage := by
      rw [Obj.finalised, if_neg (by simp [hg])]
      exact rootless_setStorageRoot _ _
    rw [hentry]
    cases ssr with
    | true => rw [so.settle_account, hfit.trie_updateStorageTrie]
    | false =>
      -- only the root of a contract is left for later
      have hp : ¬ so.account.isProgramAccount = true := by
        intro hp
        have hlater := congrArg Cell.later hc
        simp only [hp, Bool.not_false, Bool.and_self, Bool.or_true] at hlater
        exact (hl.resolve_left Bool.false_ne_true) (of_decide_eq_true hlater)
      rw [so.settle_account_false, setStorageRoot_of_not_program _ _ hp]

theorem Wf.ended (h : s.Wf)
    (hfold : s.journal.dirties.dedup.foldlM (finaliseStep de ssr) s = .ok s') :
    Ended de ssr s s'.clearJournalAndRefund := by
  have hcase := h.toCoherent.endCase hfold
  have hrest := ((finaliseStep_acts de ssr).fold_ok (nodup_dedup _) hfold).1
  obtain ⟨hrec, hsnap, -, -, hid⟩ := eq_of_rest hrest
  refine ⟨.of_good (fun a => ?_) rfl rfl ?_, ?_, hsnap, rfl, rfl, hid, fun a => ?_, fun a => ?_,
    fun a hl => (hcase a).trie h hl, fun a hk => ?_, fun a o hd ho hg => ?_, fun a hk => ?_⟩
  · show (s'.cell a).Good s'.snap a
    rw [hsnap]
    exact (hcase a).good h
  · show s'.accessList.Wf
    rw [hrec]
    exact h.accessList
  · have hobj : s'.clearJournalAndRefund.view.objects = (s.view.finalise de).objects :=
      funext fun a => (hcase a).objects h hsnap
    refine World.ext rfl ?_ ?_ ?_ ?_ ?_ ?_ ?_ ?_ hobj rfl rfl
    all_goals simp only [view, clearJournalAndRefund, World.finalise, hrec]
  · show a ∈ s'.stateObjectsDirty ↔ _
    have hmem : a ∈ s'.stateObjectsDirty ↔ (s'.cell a).dirty = true := decide_eq_true_iff.symm
    rw [hmem]
    cases hcase a with
    | same hnone hc =>
      rw [hc, show (s.cell a).dirty = decide (a ∈ s.stateObjectsDirty) from rfl, decide_eq_true_iff]
      exact ⟨.inl, fun h => h.resolve_right fun hd => hd.2 (hnone hd.1)⟩
    | gone so hd hobj hg hc =>
      rw [hc, view_objects_of_object hobj]
      exact ⟨fun _ => .inr ⟨hd, some_ne_none _⟩, fun _ => rfl⟩
    | kept so hd hobj hg henc hc =>
      rw [hc, view_objects_of_object hobj]
      exact ⟨fun _ => .inr ⟨hd, some_ne_none _⟩, fun _ => rfl⟩
  · show a ∈ s'.stateObjectsDirtyStorage ↔ _
    have hmem : a ∈ s'.stateObjectsDirtyStorage ↔ (s'.cell a).later = true := decide_eq_true_iff.symm
    rw [hmem]
    cases hcase a with
    | same hnone hc =>
      rw [hc, show (s.cell a).later = decide (a ∈ s.stateObjectsDirtyStorage) from rfl,
        decide_eq_true_iff]
      refine ⟨.inl, fun h => h.resolve_right ?_⟩
      rintro ⟨-, hd, o, ho, -⟩
      simp [hnone hd] at ho
    | gone so hd hobj hg hc =>
      rw [hc, decide_eq_true_iff]
      refine ⟨.inl, fun h => h.resolve_right ?_⟩
      rintro ⟨-, -, o, ho, hg', -⟩
      obtain rfl := some_inj.mp ((view_objects_of_object hobj).symm.trans ho)
      simp [hg] at hg'
    | kept so hd hobj hg henc hc =>
      rw [hc]
      simp only [Bool.or_eq_true, decide_eq_true_iff, Bool.and_eq_true, Bool.not_eq_true']
      refine or_congr Iff.rfl ⟨fun h => ⟨h.2, hd, so.view, view_objects_of_object hobj, hg,
        by simpa using h.1⟩, ?_⟩
      rintro ⟨hs, -, o, ho, -, hp⟩
      obtain rfl := some_inj.mp ((view_objects_of_object hobj).symm.trans ho)
      exact ⟨by simpa using hp, hs⟩
  · obtain ⟨o, hlook, ho⟩ := hk
    cases hcase a with
    | same hnone hc => exact ⟨o, (congrArg Cell.object hc).trans hlook, ho⟩
    | gone so hd hobj hg hc =>
      obtain rfl := some_inj.mp (hobj.symm.trans hlook)
      exact ⟨_, congrArg Cell.object hc, ho⟩
    | kept so hd hobj hg henc hc => exact ⟨_, congrArg Cell.object hc, so.settle_opened ssr⟩
  · obtain ⟨so, -, -, hc⟩ := (hcase a).kept_of hd ho hg
    exact ⟨_, hc, so.settle_opened ssr⟩
  · obtain ⟨o, hlook, ho⟩ := hk
    cases hcase a with
    | same hnone hc => exact .inl ⟨o, (congrArg Cell.object hc).symm.trans hlook, ho⟩
    | gone so hd hobj hg hc =>
      obtain rfl := some_inj.mp ((congrArg Cell.object hc).symm.trans hlook)
      exact .inl ⟨so, hobj, ho⟩
    | kept so hd hobj hg henc hc => exact .inr ⟨hd, so.view, view_objects_of_object hobj, hg⟩

/-- An account that is not deleted at the end of the transaction has an encoding. -/
def Encodable (de : Bool) (w : World) : Prop :=
  ∀ a o, w.Dirtied a → w.objects a = some o → o.gone de = false → o.account.encodes = true

theorem Wf.finaliseLoop_exists (h : s.Wf) (ssr : Bool) (hok : Encodable de s.view) :
    ∃ s', s.journal.dirties.dedup.foldlM (finaliseStep de ssr) s = .ok s' := by
  refine (finaliseStep_acts de ssr).fold_exists (nodup_dedup _) fun a ha => ?_
  have hd := h.toCoherent.mem_dirties.mp (mem_dedup.mp ha)
  simp only [Cell.finalise_eq_ok]
  split
  · exact ⟨_, rfl⟩
  · next so hobj =>
    split
    · exact ⟨_, rfl⟩
    · next hg =>
      have henc := hok a so.view hd (view_objects_of_object hobj) (Bool.eq_false_of_not_eq_true hg)
      exact ⟨_, by simpa using henc, rfl⟩

theorem Wf.encodable_of_finaliseLoop (h : s.Wf)
    (hfold : s.journal.dirties.dedup.foldlM (finaliseStep de ssr) s = .ok s') :
    Encodable de s.view := by
  intro a o hd ho hg
  obtain ⟨so, rfl, henc, -⟩ := (h.toCoherent.endCase hfold a).kept_of hd ho hg
  simpa using henc

/-! ## Storage roots that were left for later -/

/-- What setting the remaining storage roots makes of a database between transactions. -/
structure Rooted (s s' : StateDB) : Prop where
  wf : s'.Wf
  view : s'.view = s.view
  snap : s'.snap = s.snap
  journal : s'.journal = s.journal
  validRevisions : s'.validRevisions = s.validRevisions
  nextRevisionId : s'.nextRevisionId = s.nextRevisionId
  dirty : ∀ a, a ∈ s'.stateObjectsDirty ↔ a ∈ s.stateObjectsDirty
  later : s'.stateObjectsDirtyStorage = []
  trie_later : ∀ a ∈ s.stateObjectsDirtyStorage, ∃ o, s.view.objects a = some o ∧
    s'.trie a = some o.entry
  trie : ∀ a ∉ s.stateObjectsDirtyStorage, s'.trie a = s.trie a
  opened : ∀ a ∈ s.stateObjectsDirtyStorage, ∀ o, s.view.objects a = some o →
    o.account.encodes = true ∧ (o.account.isProgramAccount = true → s.known a .opened)

theorem setRoot_view (hopen : so.account.isProgramAccount = true → so.storageTrie ≠ none) :
    ({ so with account := so.account.setStorageRoot so.trie } : StateObject).trie = so.trie := by
  by_cases hp : so.account.isProgramAccount = true
  · obtain ⟨tr, htr⟩ := ne_none_iff_exists'.mp (hopen hp)
    simp only [StateObject.trie, htr, getD_some]
  · rw [setStorageRoot_of_not_program _ _ hp]

theorem rooted_cell (hgood : (s.cell a).Good s.snap a) (hact : (s.cell a).setRoot = .ok c) :
    c.Good s.snap a ∧ c.dirty = (s.cell a).dirty ∧
      (((s.cell a).object = none ∧ c = s.cell a) ∨
      ∃ so so', (s.cell a).object = some so ∧ c.object = some so' ∧ so'.view = so.view ∧
        c.entry = some so.view.entry) := by
  have hact := Cell.setRoot_eq_ok.mp hact
  split at hact
  · next hnone =>
    obtain rfl := hact
    exact ⟨hgood, rfl, .inl ⟨hnone, rfl⟩⟩
  · next so hobj =>
    obtain ⟨-, hopen, rfl⟩ := hact
    have htrie := setRoot_view hopen
    have hview : ({ so with account := so.account.setStorageRoot so.trie } : StateObject).view =
        so.view := by
      refine Obj.ext (setStorageRoot_setStorageRoot _ _ _) htrie ?_ rfl rfl rfl
      funext key
      simp only [StateObject.view, htrie]
    refine ⟨⟨fun so' hso' => ?_, by rintro ⟨⟩⟩, rfl, .inr ⟨so, _, hobj, rfl, hview, ?_⟩⟩
    · obtain rfl := some_inj.mp hso'
      exact (hgood.fits so hobj).congr htrie rfl rfl rfl
    · exact congrArg some (rootless_setStorageRoot _ _).symm

theorem Wf.updateStorageRoots (h : s.Wf) (hj : s.journal = .newJournal)
    (hr : s.validRevisions = []) (hok : s.updateStorageRoots = .ok s') : Rooted s s' := by
  obtain ⟨s₁, hfold, hs'⟩ := bind_eq_ok.mp hok
  obtain rfl := Except.ok.inj hs'
  obtain ⟨hrest, hin, hout⟩ := storageRootStep_acts.fold_ok (nodup_dedup _) hfold
  obtain ⟨hrec, hsnap, hj', hr', hid⟩ := eq_of_rest hrest
  have hin' : ∀ a ∈ s.stateObjectsDirtyStorage, (s.cell a).setRoot = .ok (s₁.cell a) :=
    fun a ha => hin a (mem_dedup.mpr ha)
  have hout' : ∀ a ∉ s.stateObjectsDirtyStorage, s₁.cell a = s.cell a :=
    fun a ha => hout a fun hmem => ha (mem_dedup.mp hmem)
  have hgood : ∀ a, (s₁.cell a).Good s.snap a := by
    intro a
    by_cases ha : a ∈ s.stateObjectsDirtyStorage
    · exact (rooted_cell (h.good a) (hin' a ha)).1
    · rw [hout' a ha]; exact h.good a
  have hobjects : s₁.view.objects = s.view.objects := by
    funext a
    by_cases ha : a ∈ s.stateObjectsDirtyStorage
    · rcases (rooted_cell (h.good a) (hin' a ha)).2.2 with ⟨-, hc⟩ | ⟨so, so', hso, hso', hv, -⟩
      · exact view_objects_congr hsnap hc
      · rw [view_objects_of_object hso, view_objects_of_object hso', hv]
    · exact view_objects_congr hsnap (hout' a ha)
  refine ⟨.of_good (fun a => ?_) (hj'.trans hj) (hr'.trans hr) ?_, ?_, hsnap, hj', hr', hid,
    fun a => ?_, rfl, fun a ha => ?_, fun a ha => ?_, fun a ha o ho => ?_⟩
  · refine ⟨fun so hso => ?_, fun hnone => ?_⟩
    · show so.Fits s₁.snap _ a
      rw [hsnap]
      exact (hgood a).fits so hso
    · obtain ⟨hd, hdirty, -⟩ := (hgood a).unloaded hnone
      exact ⟨hd, hdirty, rfl⟩
  · show s₁.accessList.Wf
    rw [hrec]
    exact h.accessList
  · show s₁.view = s.view
    refine World.ext ?_ ?_ ?_ ?_ ?_ ?_ ?_ ?_ ?_ hobjects ?_ ?_
    all_goals simp only [StateDB.view, hrec, hj']
  · have hdirty : (s₁.cell a).dirty = (s.cell a).dirty := by
      by_cases ha : a ∈ s.stateObjectsDirtyStorage
      · exact (rooted_cell (h.good a) (hin' a ha)).2.1
      · rw [hout' a ha]
    exact decide_eq_decide.mp hdirty
  · rcases (rooted_cell (h.good a) (hin' a ha)).2.2 with ⟨hnone, -⟩ | ⟨so, so', hso, -, -, hentry⟩
    · exact absurd hnone (h.kept_live a (Finset.mem_union_right _ (List.mem_toFinset.mpr ha)))
    · exact ⟨so.view, view_objects_of_object hso, hentry⟩
  · exact congrArg Cell.entry (hout' a ha)
  · have hact := Cell.setRoot_eq_ok.mp (hin' a ha)
    split at hact
    · next hnone =>
      exact absurd hnone (h.kept_live a (Finset.mem_union_right _ (List.mem_toFinset.mpr ha)))
    · next so hobj =>
      obtain rfl := some_inj.mp ((view_objects_of_object hobj).symm.trans ho)
      exact ⟨by simpa using hact.1, fun hp => ⟨so, hobj, hact.2.1 (by simpa using hp)⟩⟩

theorem Wf.updateStorageRoots_exists (hok : ∀ a ∈ s.stateObjectsDirtyStorage, ∀ o,
    s.view.objects a = some o → o.account.encodes = true ∧
      (o.account.isProgramAccount = true → s.known a .opened)) :
    ∃ s', s.updateStorageRoots = .ok s' := by
  obtain ⟨s₁, hfold⟩ := storageRootStep_acts.fold_exists (s := s)
    (nodup_dedup s.stateObjectsDirtyStorage) fun a ha => by
      simp only [Cell.setRoot_eq_ok]
      split
      · exact ⟨_, rfl⟩
      · next so hobj =>
        obtain ⟨henc, hopen⟩ := hok a (mem_dedup.mp ha) so.view (view_objects_of_object hobj)
        refine ⟨_, by simpa using henc, fun hp => ?_, rfl⟩
        obtain ⟨o, hlook, ho⟩ := hopen (by simpa using hp)
        obtain rfl := some_inj.mp (hobj.symm.trans hlook)
        exact ho
  exact ⟨_, bind_eq_ok.mpr ⟨s₁, hfold, rfl⟩⟩

/-! ## Finalise -/

theorem Wf.finalise_false (h : s.Wf) (hok : s.finalise de false = .ok s') : Ended de false s s' := by
  obtain ⟨s₁, hfold, hs'⟩ := bind_eq_ok.mp hok
  obtain rfl := Except.ok.inj hs'
  exact h.ended hfold

theorem Wf.finalise_true (h : s.Wf) (hok : s.finalise de true = .ok s') :
    ∃ s₁, Ended de true s s₁ ∧ Rooted s₁ s' := by
  obtain ⟨s₁, hfold, hs'⟩ := bind_eq_ok.mp hok
  have hend := h.ended hfold
  exact ⟨_, hend, hend.wf.updateStorageRoots hend.journal hend.validRevisions hs'⟩

theorem Wf.finalise (h : s.Wf) (hok : s.finalise de ssr = .ok s') : s'.Wf := by
  cases ssr with
  | false => exact (h.finalise_false hok).wf
  | true =>
    obtain ⟨s₁, -, hroot⟩ := h.finalise_true hok
    exact hroot.wf

theorem Wf.finalise_false_exists (h : s.Wf) (hok : Encodable de s.view) :
    ∃ s', s.finalise de false = .ok s' := by
  obtain ⟨s₁, hfold⟩ := h.finaliseLoop_exists false hok
  exact ⟨_, bind_eq_ok.mpr ⟨s₁, hfold, rfl⟩⟩

theorem Wf.finalise_true_exists (h : s.Wf) (hok : Encodable de s.view)
    (hnil : s.stateObjectsDirtyStorage = []) : ∃ s', s.finalise de true = .ok s' := by
  obtain ⟨s₁, hfold⟩ := h.finaliseLoop_exists true hok
  obtain ⟨s', hs'⟩ := Wf.updateStorageRoots_exists (s := s₁.clearJournalAndRefund) fun a ha => by
    rw [(h.ended hfold).later_iff, hnil] at ha
    cases ha
  exact ⟨s', bind_eq_ok.mpr ⟨s₁, hfold, hs'⟩⟩

theorem Wf.encodable_of_finalise (h : s.Wf) (hok : s.finalise de ssr = .ok s') :
    Encodable de s.view := by
  obtain ⟨s₁, hfold, -⟩ := bind_eq_ok.mp hok
  exact h.encodable_of_finaliseLoop hfold

theorem Wf.intermediateRoot_root (h : s.Wf) (hok : s.intermediateRoot de = .ok (root, s')) :
    root = fun a =>
      if a ∈ s.stateObjectsDirtyStorage then ((s.view.finalise de).objects a).map (·.entry)
      else s.view.writes de s.trie a := by
  obtain ⟨s₂, hfin, hs₂⟩ := bind_eq_ok.mp hok
  obtain ⟨rfl, -⟩ := Prod.mk.inj (Except.ok.inj hs₂)
  obtain ⟨s₁, hend, hroot⟩ := h.finalise_true hfin
  funext a
  by_cases ha : a ∈ s.stateObjectsDirtyStorage
  · obtain ⟨o, ho, hw⟩ := hroot.trie_later a (hend.later_iff.mpr ha)
    rw [if_pos ha, hw, ← hend.view, ho]
    rfl
  · rw [if_neg ha, hroot.trie a fun h => ha (hend.later_iff.mp h), hend.trie a (.inl rfl)]

/-! ## Commit -/

/-- What `Commit` leaves in the trie for an address. -/
def commits (de dirty : Bool) (object : Option Obj) (entry : Option Account) : Option Account :=
  match object with
  | none => entry
  | some o =>
    if o.selfDestructed || (dirty && de && o.account.empty) then none
    else if dirty then some (o.account.setStorageRoot o.storage)
    else entry

theorem committed_account {snap : Option StateRoot} {d : Bool} (hfit : so.Fits snap d a) :
    (Cell.committed so).account = so.view.account.setStorageRoot so.view.storage := by
  unfold Cell.committed
  rw [view_account, rootless_setStorageRoot]
  by_cases hp : so.account.isProgramAccount = true
  · rw [if_pos hp, commitStorageTrie, so.settle_account, hfit.trie_updateStorageTrie]
  · rw [if_neg hp, setStorageRoot_of_not_program _ _ hp]

theorem committed_view {snap : Option StateRoot} {d : Bool} (hfit : so.Fits snap d a) :
    (Cell.committed so).view =
      if so.view.account.isProgramAccount then { so.view with committed := so.view.storage }
      else so.view := by
  unfold Cell.committed
  rw [view_account, rootless_isProgramAccount]
  by_cases hp : so.account.isProgramAccount = true
  · rw [if_pos hp, if_pos hp]
    refine (hfit.view_settle true (so.settle true).created).trans ?_
    have hcreated : (so.settle true).created = so.created := by
      simp only [settle]
      split <;> rfl
    rw [hcreated]
    rfl
  · rw [if_neg hp, if_neg hp]

theorem committed_fits {snap : Option StateRoot} {d : Bool} (hfit : so.Fits snap d a) :
    (Cell.committed so).Fits none d a := by
  have hfit' : (Cell.committed so).Fits snap d a := by
    unfold Cell.committed
    split
    · exact hfit.settle true
    · exact hfit
  exact ⟨hfit'.origin, nofun, hfit'.dirty⟩

theorem commit_cell {c' : Cell} (hgood : c.Good s.snap a) (hact : c.commit de = .ok c')
    (hobj : c.object = some so) :
    c'.entry = commits de c.dirty (some so.view) c.entry ∧ c'.dirty = false ∧ c'.later = c.later ∧
      ∃ so', c'.object = some so' ∧ so'.Fits none c'.destructed a ∧
        so'.view = so.view.atCommit de c.dirty := by
  have hempty : so.view.account.empty = so.empty := rootless_empty _
  have hfit := hgood.fits so hobj
  simp only [commits, Obj.atCommit, view_selfDestructed, hempty]
  have hact := Cell.commit_eq_ok.mp hact
  simp only [hobj] at hact
  split at hact
  · next hg =>
    rw [hact, if_pos hg, if_pos hg]
    exact ⟨rfl, rfl, rfl, _, rfl, ⟨hfit.origin, nofun, hfit.dirty⟩, rfl⟩
  · next hg =>
    rw [if_neg hg, if_neg hg]
    split at hact
    · next hd =>
      rw [hact.2, if_pos hd, hd, Bool.true_and, ← committed_account hfit]
      exact ⟨rfl, rfl, rfl, _, rfl, committed_fits hfit, committed_view hfit⟩
    · next hd =>
      rw [hact, if_neg hd, Bool.eq_false_of_not_eq_true hd]
      exact ⟨rfl, rfl, rfl, so, rfl, ⟨hfit.origin, nofun, hfit.dirty⟩, rfl⟩

theorem mem_keys_of_object (hobj : s.stateObjects.lookup a = some so) : a ∈ s.stateObjects.keys :=
  AList.lookup_isSome.mp (by rw [hobj]; rfl)

/-- What `Commit` finds at an address: the marks of the journal count as well. -/
def marked (s : StateDB) (a : Address) : Cell :=
  { s.cell a with dirty := decide (a ∈ s.stateObjectsDirty ∨ s.view.Dirtied a) }

theorem Coherent.cell_marked (h : s.Coherent) (a : Address) : cell { s with
    stateObjectsDirty := s.stateObjectsDirty ∪ s.journal.dirties.toFinset } a = s.marked a := by
  refine Cell.ext rfl rfl rfl (decide_eq_decide.mpr ?_) rfl
  rw [Finset.mem_union, List.mem_toFinset, h.mem_dirties]

theorem Wf.marked_good (h : s.Wf) (hlook : s.stateObjects.lookup a = some so) :
    (s.marked a).Good s.snap a :=
  ⟨h.objects a, fun hnone => by
    rw [show (s.marked a).object = some so from hlook] at hnone
    cases hnone⟩

theorem Coherent.commit_cells (h : s.Coherent) (hok : s.commit de = .ok (root, s')) :
    root = s'.trie ∧ s'.toRecords = { s.toRecords with refund := 0 } ∧ s'.snap = none ∧
      s'.journal = .newJournal ∧ s'.validRevisions = [] ∧
      ∀ a, (s.marked a).commit de = .ok (s'.cell a) := by
  obtain ⟨s₁, hfold, hs'⟩ := bind_eq_ok.mp hok
  obtain ⟨rfl, rfl⟩ := Prod.mk.inj (Except.ok.inj hs')
  obtain ⟨hrest, hin, hout⟩ := (commitStep_acts de).fold_ok (AList.keys_nodup s.stateObjects) hfold
  simp only [h.cell_marked] at hin hout
  have hrec : s₁.toRecords = s.toRecords := (eq_of_rest hrest).1
  refine ⟨rfl, ?_, rfl, rfl, rfl, fun a => ?_⟩
  · rw [← hrec]
    rfl
  · by_cases ha : a ∈ s.stateObjects.keys
    · exact hin a ha
    · have hlook : (s.marked a).object = none := AList.lookup_eq_none.mpr ha
      show _ = Except.ok (s₁.cell a)
      rw [hout a ha, Cell.commit_eq_ok, hlook]

theorem Wf.commit_root (h : s.Wf) (hok : s.commit de = .ok (root, s')) :
    root = fun a => commits de (decide (a ∈ s.stateObjectsDirty ∨ s.view.Dirtied a))
      (s.view.objects a) (s.trie a) := by
  obtain ⟨rfl, -, -, -, -, hcells⟩ := h.toCoherent.commit_cells hok
  funext a
  cases hlook : s.stateObjects.lookup a with
  | some so =>
    rw [view_objects_of_object hlook]
    exact (commit_cell (h.marked_good hlook) (hcells a) hlook).1
  | none =>
    have hcell := Cell.commit_eq_ok.mp (hcells a)
    simp only [show (s.marked a).object = none from hlook] at hcell
    have htrie : s'.trie a = s.trie a := congrArg Cell.entry hcell
    have hnd : a ∉ s.stateObjectsDirty := fun ha =>
      h.kept_live a (Finset.mem_union_left _ ha) hlook
    rw [htrie, view_objects, objectAt_eq, show (s.cell a).object = none from hlook]
    cases hload : s.load a with
    | none => rfl
    | some acc =>
      have hnj : ¬ s.view.Dirtied a := fun hd => by
        have := h.dirties_live a (h.toCoherent.mem_dirties.mpr hd) hlook
        simp [hload] at this
      simp [commits, hnd, hnj, newObject]

/-- What `Commit` makes of a database whose marks are all of objects. -/
structure Committed (de : Bool) (s s' : StateDB) : Prop where
  wf : s'.Wf
  view : s'.view = { s.view with
    objects := fun a => (s.view.objects a).map
      (·.atCommit de (decide (a ∈ s.stateObjectsDirty ∨ s.view.Dirtied a)))
    dirties := fun _ => 0
    forced := 0
    refund := 0 }
  snap : s'.snap = none
  dirty : ∀ a, a ∉ s'.stateObjectsDirty
  later : ∀ a, a ∈ s'.stateObjectsDirtyStorage ↔ a ∈ s.stateObjectsDirtyStorage

section Committed

variable (h : s.Wf) (hlive : ∀ a ∈ s.journal.dirties, s.stateObjects.lookup a ≠ none)
  (hok : s.commit de = .ok (root, s'))
include h hlive hok

/-- An address without an object is not marked, and keeps what it has. -/
theorem Wf.commit_missing (hlook : s.stateObjects.lookup a = none) :
    decide (a ∈ s.stateObjectsDirty ∨ s.view.Dirtied a) = false ∧ s'.cell a = s.cell a := by
  obtain ⟨-, -, -, -, -, hcells⟩ := h.toCoherent.commit_cells hok
  have hnd : decide (a ∈ s.stateObjectsDirty ∨ s.view.Dirtied a) = false := by
    refine decide_eq_false ?_
    rintro (hd | hd)
    · exact h.kept_live a (Finset.mem_union_left _ hd) hlook
    · exact hlive a (h.toCoherent.mem_dirties.mpr hd) hlook
  have hcell := Cell.commit_eq_ok.mp (hcells a)
  simp only [show (s.marked a).object = none from hlook] at hcell
  refine ⟨hnd, hcell.trans (Cell.ext rfl rfl rfl ?_ rfl)⟩
  exact hnd.trans ((h.good a).unloaded hlook).2.1.symm

theorem Wf.commit_good (a : Address) : (s'.cell a).Good none a := by
  obtain ⟨-, -, -, -, -, hcells⟩ := h.toCoherent.commit_cells hok
  cases hlook : s.stateObjects.lookup a with
  | none =>
    rw [(h.commit_missing hlive hok hlook).2]
    exact ⟨fun so hso => absurd (hso.symm.trans hlook) (some_ne_none so), (h.good a).unloaded⟩
  | some so =>
    obtain ⟨-, -, -, so', hso', hfit, -⟩ := commit_cell (h.marked_good hlook) (hcells a) hlook
    exact ⟨fun o ho => some_inj.mp (hso'.symm.trans ho) ▸ hfit, fun hn =>
      absurd (hso'.symm.trans hn) (some_ne_none so')⟩

theorem Wf.commit_marks (a : Address) :
    (s'.cell a).dirty = false ∧ (s'.cell a).later = (s.cell a).later := by
  obtain ⟨-, -, -, -, -, hcells⟩ := h.toCoherent.commit_cells hok
  cases hlook : s.stateObjects.lookup a with
  | none =>
    rw [(h.commit_missing hlive hok hlook).2]
    exact ⟨((h.good a).unloaded hlook).2.1, rfl⟩
  | some so =>
    obtain ⟨-, hdirty, hlater, -⟩ := commit_cell (h.marked_good hlook) (hcells a) hlook
    exact ⟨hdirty, hlater⟩

theorem Wf.commit_objects (hload : ∀ a ∉ s.stateObjectsDirty, s.load a = s.trie a) (a : Address) :
    s'.view.objects a = (s.view.objects a).map
      (·.atCommit de (decide (a ∈ s.stateObjectsDirty ∨ s.view.Dirtied a))) := by
  obtain ⟨-, -, hsnap, -, -, hcells⟩ := h.toCoherent.commit_cells hok
  cases hlook : s.stateObjects.lookup a with
  | some so =>
    obtain ⟨-, -, -, so', hso', -, hview⟩ := commit_cell (h.marked_good hlook) (hcells a) hlook
    rw [view_objects_of_object hso', hview, view_objects_of_object hlook]
    rfl
  | none =>
    obtain ⟨hnd, hcell⟩ := h.commit_missing hlive hok hlook
    have hload' : s'.load a = s.load a := by
      rw [hload a fun ha => of_decide_eq_false hnd (.inl ha), load, hsnap]
      exact congrArg Cell.entry hcell
    rw [view_objects, view_objects, objectAt_eq, objectAt_eq, hcell, hload', hnd,
      show (s.cell a).object = none from hlook]
    cases s.load a with
    | none => rfl
    | some acc => simp [Obj.atCommit, newObject]

theorem Wf.committed (hload : ∀ a ∉ s.stateObjectsDirty, s.load a = s.trie a) :
    Committed de s s' := by
  obtain ⟨-, hrec, hsnap, hj, hrev, -⟩ := h.toCoherent.commit_cells hok
  refine ⟨.of_good (fun a => ?_) hj hrev ?_, ?_, hsnap, fun a ha => ?_, fun a => ?_⟩
  · rw [hsnap]
    exact h.commit_good hlive hok a
  · show s'.accessList.Wf
    rw [hrec]
    exact h.accessList
  · have hobjects := funext (h.commit_objects hlive hok hload)
    refine World.ext ?_ ?_ ?_ ?_ ?_ ?_ ?_ ?_ ?_ hobjects ?_ ?_
    all_goals simp only [view, hrec, hj]
    all_goals rfl
  · exact of_decide_eq_false (h.commit_marks hlive hok a).1 ha
  · exact decide_eq_decide.mp (h.commit_marks hlive hok a).2

end Committed

theorem Wf.live_of_marked (h : s.Wf) (hd : a ∈ s.stateObjectsDirty ∨ s.view.Dirtied a)
    (ho : s.view.objects a = some o) : ∃ so, s.stateObjects.lookup a = some so ∧ so.view = o := by
  cases hlook : s.stateObjects.lookup a with
  | some so =>
    exact ⟨so, rfl, some_inj.mp ((view_objects_of_object hlook).symm.trans ho)⟩
  | none =>
    rcases hd with hd | hd
    · exact absurd hlook (h.kept_live a (Finset.mem_union_left _ hd))
    · have hload := h.dirties_live a (h.toCoherent.mem_dirties.mpr hd) hlook
      simp [view_objects, objectAt, hlook, hload] at ho

theorem Wf.encodes_of_commit (h : s.Wf) (hok : s.commit de = .ok (root, s'))
    (hd : a ∈ s.stateObjectsDirty ∨ s.view.Dirtied a) (ho : s.view.objects a = some o)
    (hg : o.gone de = false) : o.account.encodes = true := by
  obtain ⟨-, -, -, -, -, hcells⟩ := h.toCoherent.commit_cells hok
  obtain ⟨so, hlook, rfl⟩ := h.live_of_marked hd ho
  have hg' : (so.selfDestructed || (de && so.empty)) = false := (so.view_gone de).symm.trans hg
  have hact := Cell.commit_eq_ok.mp (hcells a)
  simp only [show (s.marked a).object = some so from hlook,
    show (s.marked a).dirty = true from decide_eq_true hd, Bool.true_and, hg',
    if_neg Bool.false_ne_true, if_true] at hact
  simpa using hact.1

theorem Wf.commit_exists (h : s.Wf) (de : Bool)
    (hok : ∀ a o, (a ∈ s.stateObjectsDirty ∨ s.view.Dirtied a) → s.view.objects a = some o →
      o.gone de = false → o.account.encodes = true) :
    ∃ root s', s.commit de = .ok (root, s') := by
  obtain ⟨s₁, hfold⟩ := (commitStep_acts de).fold_exists (s := { s with
      stateObjectsDirty := s.stateObjectsDirty ∪ s.journal.dirties.toFinset })
    (AList.keys_nodup s.stateObjects) fun a _ => by
      simp only [h.toCoherent.cell_marked, Cell.commit_eq_ok]
      split
      · exact ⟨_, rfl⟩
      · next so hobj =>
        split
        · exact ⟨_, rfl⟩
        · next hg =>
          split
          · next hd =>
            rw [hd, Bool.true_and, ← so.view_gone] at hg
            have henc := hok a so.view (of_decide_eq_true hd) (view_objects_of_object hobj)
              (Bool.eq_false_of_not_eq_true hg)
            exact ⟨_, by simpa using henc, rfl⟩
          · exact ⟨_, rfl⟩
  exact ⟨_, _, bind_eq_ok.mpr ⟨s₁, hfold, rfl⟩⟩

theorem Wf.commit_same {t : StateDB} (h : s.Wf) (ht : t.Wf) (hview : t.view = s.view)
    (htrie : t.trie = s.trie) (hdirty : ∀ a, a ∈ t.stateObjectsDirty ↔ a ∈ s.stateObjectsDirty)
    (hok : s.commit de = .ok (root, s')) : ∃ t', t.commit de = .ok (root, t') := by
  obtain ⟨root', t', ht'⟩ := ht.commit_exists de fun a o hd ho hg =>
    h.encodes_of_commit hok (by rwa [hdirty, hview] at hd) (hview ▸ ho) hg
  refine ⟨t', ht'.trans ?_⟩
  rw [ht.commit_root ht', h.commit_root hok]
  simp only [hdirty, hview, htrie]

end StateDB

end Kaia
