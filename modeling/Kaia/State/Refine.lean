import Kaia.State.World

/-! # The database shows a world

The view of a database forgets the caches. Under the invariant every operation on the database is
the operation of the same name on the world, and the entries it records undo it.
-/

namespace Kaia

namespace JournalEntry

variable {Ω Ω' : Type}

/-- The same entry for another kind of objects. -/
def map (f : Ω → Ω') : JournalEntry Ω → JournalEntry Ω'
  | .createObjectChange a => .createObjectChange a
  | .resetObjectChange a prev prevdestruct => .resetObjectChange a (f prev) prevdestruct
  | .selfDestructChange a prev prevbalance => .selfDestructChange a prev prevbalance
  | .balanceChange a prev => .balanceChange a prev
  | .nonceChange a prev => .nonceChange a prev
  | .storageChange a key prevalue => .storageChange a key prevalue
  | .codeChange a prevcode => .codeChange a prevcode
  | .refundChange prev => .refundChange prev
  | .addLogChange txhash => .addLogChange txhash
  | .addPreimageChange hash => .addPreimageChange hash
  | .touchChange a => .touchChange a
  | .accessListAddAccountChange a => .accessListAddAccountChange a
  | .accessListAddSlotChange a slot => .accessListAddSlotChange a slot
  | .transientStorageChange a key prevalue => .transientStorageChange a key prevalue

def count (es : List (JournalEntry Ω)) (a : Address) : ℕ := es.countP (·.dirtied == some a)

theorem count_cons (e : JournalEntry Ω) (es : List (JournalEntry Ω)) (a : Address) :
    count (e :: es) a = count es a + if e.dirtied = some a then 1 else 0 := by
  simp [count, List.countP_cons]

end JournalEntry

namespace StateObject

variable (o : StateObject)

def view : Obj :=
  ⟨o.account.rootless, o.trie, fun key => (o.dirtyStorage key).getD (o.trie key),
    o.selfDestructed, o.deleted, o.created⟩

/-- What may be known of an object. -/
inductive Query
  | slot (key : Hash)
  | opened
  | settled

/-- A slot is cached or zero, and the storage trie is open. Only a created object is without an
open trie once it has been written. -/
def Known : Query → Prop
  | .slot key => o.originStorage key = none → o.trie key = 0
  | .opened => o.storageTrie ≠ none
  | .settled => o.storageTrie ≠ none ∨ o.created = true

/-- Cached slots agree with the storage trie, and others would be read as it has them. The slots
of a deleted object are not read any more. -/
structure Fits (snap : Option StateRoot) (destructed : Bool) (a : Address) (o : StateObject) :
    Prop where
  origin : ∀ key v, o.originStorage key = some v → v = o.trie key
  flat : o.deleted = false → ∀ flat, snap = some flat → ∀ key, o.originStorage key = none →
    o.trie key = if destructed then 0 else StateDB.flatStorage flat a key
  dirty : ∀ key, o.dirtyStorage key ≠ none → o.Known (.slot key)

@[simp] theorem view_account : o.view.account = o.account.rootless := rfl
@[simp] theorem view_deleted : o.view.deleted = o.deleted := rfl
@[simp] theorem view_created : o.view.created = o.created := rfl
@[simp] theorem view_selfDestructed : o.view.selfDestructed = o.selfDestructed := rfl

@[simp] theorem trie_setCode (c : Bytes) : (o.setCode c).trie = o.trie := by
  simp [trie, setCode]

@[simp] theorem view_setCode (c : Bytes) : (o.setCode c).view = o.view.setCode c := by
  have hacc : (o.setCode c).account.rootless = o.account.rootless.setCode c :=
    o.account.setCode_setStorageRoot _ c
  simp only [view, trie_setCode, hacc]
  rfl

variable (key value : Hash)

@[simp] theorem trie_setState : (o.setState key value).trie = o.trie := rfl

@[simp] theorem view_setState : (o.setState key value).view = o.view.setState key value := by
  have hstorage : (fun k => ((o.setState key value).dirtyStorage k).getD (o.trie k)) =
      Function.update (fun k => (o.dirtyStorage k).getD (o.trie k)) key value := by
    funext k
    by_cases hk : k = key
    · simp [setState, hk]
    · simp [setState, hk]
  simp only [view, trie_setState, hstorage]
  rfl

@[simp] theorem trie_setOrigin : (o.setOrigin key value).trie = o.trie := rfl

theorem known_setOrigin (key value : Hash) : (o.setOrigin key value).Known (.slot key) := by
  simp [Known, setOrigin]

theorem Known.setOrigin {o : StateObject} {key value : Hash} {q : Query} (h : o.Known q) :
    (o.setOrigin key value).Known q := by
  cases q with
  | opened | settled => exact h
  | slot k =>
    by_cases hk : k = key
    · subst hk; exact known_setOrigin o k value
    · intro hnone
      exact h (by simpa [StateObject.setOrigin, hk] using hnone)

theorem Known.setCode {o : StateObject} {c : Bytes} {q : Query} (h : o.Known q) :
    (o.setCode c).Known q := by
  cases q with
  | opened | settled => exact h
  | slot k =>
    intro hnone
    rw [trie_setCode]
    exact h hnone

theorem Known.getStorageTrie {o : StateObject} {q : Query} (h : o.Known q) :
    o.getStorageTrie.2.Known q := by
  cases q with
  | opened => exact Option.some_ne_none _
  | settled => exact .inl (Option.some_ne_none _)
  | slot k => exact h

namespace Fits

variable {snap : Option StateRoot} {d : Bool} {a : Address} {o o' : StateObject}

theorem congr (h : Fits snap d a o) (htrie : o'.trie = o.trie)
    (horigin : o'.originStorage = o.originStorage) (hdirty : o'.dirtyStorage = o.dirtyStorage)
    (hdeleted : o'.deleted = o.deleted) : Fits snap d a o' where
  origin := by rw [htrie, horigin]; exact h.origin
  flat := by rw [htrie, horigin, hdeleted]; exact h.flat
  dirty := by simp only [Known]; rw [htrie, horigin, hdirty]; exact h.dirty

theorem setOrigin (h : Fits snap d a o) (key : Hash) : Fits snap d a (o.setOrigin key (o.trie key)) where
  origin k v hv := by
    by_cases hk : k = key
    · subst hk
      rw [trie_setOrigin]
      simpa [StateObject.setOrigin, eq_comm] using hv
    · exact h.origin k v (by simpa [StateObject.setOrigin, hk] using hv)
  flat hdel flat hflat k hk := by
    by_cases hkey : k = key
    · subst hkey
      simp [StateObject.setOrigin] at hk
    · exact h.flat hdel flat hflat k (by simpa [StateObject.setOrigin, hkey] using hk)
  dirty k hd hk := by
    by_cases hkey : k = key
    · subst hkey
      simp [StateObject.setOrigin] at hk
    · exact h.dirty k hd (by simpa [StateObject.setOrigin, hkey] using hk)

theorem setState (h : Fits snap d a o) {key : Hash} (hread : o.Known (.slot key))
    (value : Hash) :
    Fits snap d a (o.setState key value) where
  origin := h.origin
  flat := h.flat
  dirty k hd hk := by
    by_cases hkey : k = key
    · subst hkey
      exact hread hk
    · exact h.dirty k (by simpa [StateObject.setState, hkey] using hd) hk

theorem of_newObject {acc : Account} (hflat : ∀ flat, snap = some flat →
    ∀ key, acc.storageRoot key = if d then 0 else StateDB.flatStorage flat a key) :
    Fits snap d a (newObject acc) where
  origin := by simp [newObject]
  flat _ flat hsnap key _ := hflat flat hsnap key
  dirty := by simp [newObject]

theorem changedSlot_getD (h : Fits snap d a o) (key : Hash) :
    (o.changedSlot key).getD (o.trie key) = o.view.storage key := by
  cases hd : o.dirtyStorage key with
  | none => simp only [changedSlot, view, hd, Option.getD_none]
  | some v =>
    have horigin : (o.originStorage key).getD 0 = o.trie key := by
      cases ho : o.originStorage key with
      | some u => exact h.origin key u ho
      | none => exact (h.dirty key (by simp [hd]) ho).symm
    simp only [changedSlot, view, hd, horigin, Option.getD_some]
    by_cases hv : v = o.trie key
    · rw [if_pos hv, Option.getD_none, hv]
    · rw [if_neg hv, Option.getD_some]

theorem trie_updateStorageTrie (h : Fits snap d a o) : o.updateStorageTrie.trie = o.view.storage :=
  funext h.changedSlot_getD

theorem updateStorageTrie (h : Fits snap d a o) : Fits snap d a o.updateStorageTrie where
  origin key v hv := by
    show v = (o.changedSlot key).getD (o.trie key)
    cases hc : o.changedSlot key with
    | some u => simpa [StateObject.updateStorageTrie, hc, eq_comm] using hv
    | none => exact h.origin key v (by simpa [StateObject.updateStorageTrie, hc] using hv)
  flat hdel flat hflat key hkey := by
    show (o.changedSlot key).getD (o.trie key) = _
    obtain ⟨hc, ho⟩ : o.changedSlot key = none ∧ o.originStorage key = none := by
      simpa [StateObject.updateStorageTrie] using hkey
    rw [hc]
    exact h.flat hdel flat hflat key ho
  dirty _ hd := absurd rfl hd

end Fits

end StateObject

namespace StateDB

open JournalEntry Function
open StateObject (Query)

variable (s : StateDB)

def objectAt (a : Address) : Option StateObject :=
  (s.stateObjects.lookup a).or ((s.load a).map .newObject)

def view : World where
  toRecords := s.toRecords
  objects a := (s.objectAt a).map (·.view)
  dirties := count s.journal.entries
  forced := s.journal.dirties.count ripemd - count s.journal.entries ripemd

/-- The replaced objects fit the marks of their time, newest entry first. A created object was in
no trie, and a slot is only written once its original value is known. -/
def EntriesFit (snap : Option StateRoot) (load : Address → Option Account)
    (kept : Finset Address) :
    (Address → Bool) → (Address → Query → Prop) → List (JournalEntry StateObject) → Prop
  | _, _, [] => True
  | d, known, .resetObjectChange a prev prevdestruct :: es =>
    (snap.isSome → d a = true) ∧
    prev.Fits snap (if snap.isSome then prevdestruct else d a) a ∧
    EntriesFit snap load kept (if snap.isSome then Function.update d a prevdestruct else d)
      (Function.update known a prev.Known) es
  | d, known, .createObjectChange a :: es =>
    load a = none ∧ d a = false ∧ a ∉ kept ∧
    EntriesFit snap load kept d (Function.update known a fun _ => False) es
  | d, known, .storageChange a key _ :: es =>
    known a (.slot key) ∧ EntriesFit snap load kept d known es
  | d, known, _ :: es => EntriesFit snap load kept d known es

/-- What is known of the object of an address. -/
def known (a : Address) (q : Query) : Prop :=
  ∃ o, s.stateObjects.lookup a = some o ∧ o.Known q

/-- A replaced object comes back with what was known of it; of a created one nothing is left. -/
def knownAfter : (Address → Query → Prop) → List (JournalEntry StateObject) →
    Address → Query → Prop
  | known, [] => known
  | known, .resetObjectChange a prev _ :: es => knownAfter (Function.update known a prev.Known) es
  | known, .createObjectChange a :: es => knownAfter (Function.update known a fun _ => False) es
  | known, _ :: es => knownAfter known es

def AccessFits : AccessList → List (JournalEntry StateObject) → Prop
  | al, [] => al.Wf
  | al, e :: es => al.Wf ∧ ∃ al', al.undo e = some al' ∧ AccessFits al' es

def kept : Finset Address :=
  s.stateObjectsDirty ∪ s.stateObjectsDirtyStorage.toFinset

/-- The caches and the journal agree with what the database shows. -/
structure Coherent (s : StateDB) : Prop where
  objects : ∀ a o, s.stateObjects.lookup a = some o → o.Fits s.snap (s.snapDestructs a) a
  unloaded : ∀ a, s.stateObjects.lookup a = none → s.snapDestructs a = false
  kept_live : ∀ a ∈ s.kept, s.stateObjects.lookup a ≠ none
  entries : EntriesFit s.snap s.load s.kept s.snapDestructs s.known s.journal.entries
  dirties : ∀ a, s.journal.dirties.count a =
    count s.journal.entries a + if a = ripemd then s.view.forced else 0
  dirties_live : ∀ a ∈ s.journal.dirties, s.stateObjects.lookup a = none → s.load a = none

/-- The invariant of the database. -/
structure Wf (s : StateDB) : Prop extends Coherent s where
  accessFits : AccessFits s.accessList s.journal.entries
  revisions_sorted : s.validRevisions.Pairwise fun r r' =>
    r.id < r'.id ∧ r.journalIndex ≤ r'.journalIndex
  revisions_lt : ∀ r ∈ s.validRevisions,
    r.id < s.nextRevisionId ∧ r.journalIndex ≤ s.journal.entries.length

variable {es : List (JournalEntry StateObject)} {w w' : World} {e : JournalEntry StateObject}
  {s' : StateDB} {P Q : Address → Query → Prop} {al : AccessList} {q : Query}

theorem AccessFits.wf (h : AccessFits al es) : al.Wf := by
  cases es with
  | nil => exact h
  | cons e es => exact h.1

theorem undo_map {Ω Ω' : Type} (f : Ω → Ω') (al : AccessList) (e : JournalEntry Ω) :
    al.undo (e.map f) = al.undo e := by
  cases e <;> rfl

theorem AccessFits.cons (h : AccessFits w.accessList es) (hal : w'.accessList.Wf)
    (hundo : w'.undo (e.map StateObject.view) = some w) : AccessFits w'.accessList (e :: es) :=
  ⟨hal, _, by rw [← undo_map]; exact World.undo_accessList hundo, h⟩

theorem AccessFits.tail (h : AccessFits w'.accessList (e :: es))
    (hundo : w'.undo (e.map StateObject.view) = some w) : AccessFits w.accessList es := by
  obtain ⟨-, al, hal, hes⟩ := h
  rw [← undo_map StateObject.view, World.undo_accessList hundo] at hal
  obtain rfl := Option.some_inj.mp hal
  exact hes

theorem Wf.accessList {s : StateDB} (h : s.Wf) : s.accessList.Wf := h.accessFits.wf

/-- The parts that a transaction only changes at its end. -/
structure SameBase (s s' : StateDB) : Prop where
  trie : s'.trie = s.trie
  snap : s'.snap = s.snap
  stateObjectsDirty : s'.stateObjectsDirty = s.stateObjectsDirty
  stateObjectsDirtyStorage : s'.stateObjectsDirtyStorage = s.stateObjectsDirtyStorage

theorem SameBase.kept {s : StateDB} (h : s.SameBase s') : s'.kept = s.kept := by
  unfold StateDB.kept
  rw [h.stateObjectsDirty, h.stateObjectsDirtyStorage]

theorem SameBase.refl : s.SameBase s := ⟨rfl, rfl, rfl, rfl⟩

theorem SameBase.symm {s : StateDB} (h : s.SameBase s') : s'.SameBase s :=
  ⟨h.trie.symm, h.snap.symm, h.stateObjectsDirty.symm, h.stateObjectsDirtyStorage.symm⟩

theorem SameBase.trans {s s'' : StateDB} (h : s.SameBase s') (h' : s'.SameBase s'') :
    s.SameBase s'' :=
  ⟨h'.trie.trans h.trie, h'.snap.trans h.snap, h'.stateObjectsDirty.trans h.stateObjectsDirty,
    h'.stateObjectsDirtyStorage.trans h.stateObjectsDirtyStorage⟩

/-- Reached by changes that the journal records, within one transaction. -/
structure Recorded (s s' : StateDB) : Prop where
  wf : s'.Wf
  undo : ∃ es, s'.journal.entries = es ++ s.journal.entries ∧
    s.view.Undoes s'.view (es.map (map StateObject.view)) ∧
    ∀ a q, s.known a q → knownAfter s'.known es a q
  forced : s.view.forced ≤ s'.view.forced
  base : s.SameBase s'
  settled : ∀ a, s.known a .settled → s'.known a .settled
  untouched : ∀ a, ¬ s'.view.Dirtied a → s'.view.objects a = s.view.objects a ∨
    ∃ o, s'.view.objects a = some o ∧ o.created = true

/-- Recorded changes between two snapshots. -/
structure Step (s s' : StateDB) : Prop extends Recorded s s' where
  validRevisions : s'.validRevisions = s.validRevisions
  nextRevisionId : s'.nextRevisionId = s.nextRevisionId

theorem knownAfter_append (known : Address → Query → Prop)
    (es fs : List (JournalEntry StateObject)) :
    knownAfter known (es ++ fs) = knownAfter (knownAfter known es) fs := by
  induction es generalizing known with
  | nil => rfl
  | cons e es ih =>
    cases e with
    | _ => exact ih _

theorem update_mono (h : ∀ a q, P a q → Q a q) (b : Address) (R : Query → Prop) (a : Address)
    (q : Query) (hq : update P b R a q) : update Q b R a q := by
  by_cases hab : a = b
  · subst hab; simpa using hq
  · simpa [hab] using h a q (by simpa [hab] using hq)

theorem knownAfter_mono (h : ∀ a q, P a q → Q a q) (es : List (JournalEntry StateObject)) :
    ∀ a q, knownAfter P es a q → knownAfter Q es a q := by
  induction es generalizing P Q with
  | nil => exact h
  | cons e es ih =>
    cases e with
    | resetObjectChange b prev d => exact ih (update_mono h b _)
    | createObjectChange b => exact ih (update_mono h b _)
    | _ => exact ih h

variable {s s'' : StateDB}

theorem Recorded.refl (h : s.Wf) : s.Recorded s :=
  ⟨h, ⟨[], rfl, .refl _, fun _ _ hq => hq⟩, le_rfl, .refl s, fun _ hs => hs, fun _ _ => .inl rfl⟩

theorem Recorded.dirtied (h : s.Recorded s') {a : Address} (ha : s.view.Dirtied a) :
    s'.view.Dirtied a := by
  obtain ⟨es, hes, -⟩ := h.undo
  rcases ha with ha | ⟨rfl, hf⟩
  · refine .inl (lt_of_lt_of_le ha ?_)
    show count s.journal.entries a ≤ count s'.journal.entries a
    rw [hes, count, count, List.countP_append]
    exact Nat.le_add_left _ _
  · exact .inr ⟨rfl, lt_of_lt_of_le hf h.forced⟩

theorem Recorded.trans (h : s.Recorded s') (h' : s'.Recorded s'') : s.Recorded s'' where
  wf := h'.wf
  undo := by
    obtain ⟨es, hes, hundo, hknown⟩ := h.undo
    obtain ⟨fs, hfs, hundo', hknown'⟩ := h'.undo
    refine ⟨fs ++ es, by rw [hfs, hes, List.append_assoc], ?_, fun a q hq => ?_⟩
    · rw [List.map_append]
      exact hundo.trans hundo'
    · rw [knownAfter_append]
      exact knownAfter_mono hknown' es a q (hknown a q hq)
  forced := h.forced.trans h'.forced
  base := h.base.trans h'.base
  settled a hs := h'.settled a (h.settled a hs)
  untouched a ha := by
    rcases h'.untouched a ha with heq | hcreated
    · rw [heq]
      exact h.untouched a fun hd => ha (h'.dirtied hd)
    · exact .inr hcreated

theorem Step.refl (h : s.Wf) : s.Step s := ⟨.refl h, rfl, rfl⟩

theorem Step.trans (h : s.Step s') (h' : s'.Step s'') : s.Step s'' :=
  ⟨h.toRecorded.trans h'.toRecorded, h'.validRevisions.trans h.validRevisions,
    h'.nextRevisionId.trans h.nextRevisionId⟩

/-! ## Objects and entries -/

variable {a b : Address} {o o' : StateObject}

theorem objectAt_of_lookup (h : s.stateObjects.lookup a = some o) : s.objectAt a = some o := by
  simp [objectAt, h]

theorem view_objects (a : Address) : s.view.objects a = (s.objectAt a).map (·.view) := rfl

@[simp] theorem lookup_setStateObject :
    (s.setStateObject a o).stateObjects.lookup a = some o := AList.lookup_insert _

theorem lookup_setStateObject_of_ne (h : b ≠ a) :
    (s.setStateObject a o).stateObjects.lookup b = s.stateObjects.lookup b :=
  AList.lookup_insert_ne h

theorem lookup_of_set_eq_some (h : (s.setStateObject a o).stateObjects.lookup b = some o') :
    b = a ∧ o = o' ∨ b ≠ a ∧ s.stateObjects.lookup b = some o' := by
  by_cases hba : b = a
  · subst hba
    exact .inl ⟨rfl, by simpa using h⟩
  · exact .inr ⟨hba, (lookup_setStateObject_of_ne hba).symm.trans h⟩

theorem lookup_of_set_eq_none (h : (s.setStateObject a o).stateObjects.lookup b = none) :
    b ≠ a ∧ s.stateObjects.lookup b = none := by
  have hba : b ≠ a := by rintro rfl; simp at h
  exact ⟨hba, (lookup_setStateObject_of_ne hba).symm.trans h⟩

theorem view_setStateObject : (s.setStateObject a o).view = s.view.setObject a o.view := by
  have hobj : (s.setStateObject a o).view.objects =
      update s.view.objects a (some o.view) := by
    funext b
    by_cases hb : b = a
    · subst hb
      simp [view_objects, objectAt]
    · rw [update_of_ne hb, view_objects, view_objects, objectAt, objectAt,
        lookup_setStateObject_of_ne hb]
      rfl
  exact World.ext rfl rfl rfl rfl rfl rfl rfl rfl rfl hobj rfl rfl

@[simp] theorem append_entries : (s.append e).journal.entries = e :: s.journal.entries := rfl

theorem count_dirties_append (e : JournalEntry StateObject) (a : Address) :
    (s.append e).journal.dirties.count a =
      s.journal.dirties.count a + if e.dirtied = some a then 1 else 0 := by
  cases he : e.dirtied <;> simp [append, Journal.append, he, List.count_cons]

theorem forced_append : (s.append e).view.forced = s.view.forced := by
  show (s.append e).journal.dirties.count ripemd - count (e :: s.journal.entries) ripemd = _
  rw [count_dirties_append, count_cons, Nat.add_sub_add_right]
  rfl

theorem view_append_of_dirtied (he : e.dirtied = some a) : (s.append e).view = s.view.bump a := by
  have hd : (s.append e).view.dirties = (s.view.bump a).dirties := by
    funext b
    show count (e :: s.journal.entries) b =
      update (count s.journal.entries) a (count s.journal.entries a + 1) b
    rw [count_cons, he]
    by_cases hb : b = a
    · simp [hb]
    · simp [hb, Ne.symm hb]
  exact World.ext rfl rfl rfl rfl rfl rfl rfl rfl rfl rfl hd forced_append

theorem view_append_of_none (he : e.dirtied = none) : (s.append e).view = s.view := by
  have hd : (s.append e).view.dirties = s.view.dirties :=
    funext fun b => (count_cons e _ b).trans (by simp [he, view])
  exact World.ext rfl rfl rfl rfl rfl rfl rfl rfl rfl rfl hd forced_append

def Sound (s : StateDB) : JournalEntry StateObject → Prop
  | .createObjectChange _ => False
  | .resetObjectChange _ _ _ => False
  | .storageChange a key _ => s.known a (.slot key)
  | _ => True

theorem EntriesFit.mono {snap : Option StateRoot} {load : Address → Option Account}
    {kept : Finset Address} {d : Address → Bool} {known known' : Address → Query → Prop}
    (h : EntriesFit snap load kept d known es) (hle : ∀ a key, known a key → known' a key) :
    EntriesFit snap load kept d known' es := by
  induction es generalizing d known known' with
  | nil => trivial
  | cons e es ih =>
    cases e with
    | resetObjectChange a prev prevdestruct =>
      obtain ⟨hd, hfit, hes⟩ := h
      exact ⟨hd, hfit, ih hes (update_mono hle a _)⟩
    | createObjectChange a =>
      obtain ⟨hload, hd, hmem, hes⟩ := h
      exact ⟨hload, hd, hmem, ih hes (update_mono hle a _)⟩
    | storageChange a key prevalue => exact ⟨hle a (.slot key) h.1, ih h.2 hle⟩
    | _ => exact @ih _ known _ h hle

theorem dirties_append (h : ∀ a, s.journal.dirties.count a =
    count s.journal.entries a + if a = ripemd then s.view.forced else 0)
    (e : JournalEntry StateObject) (a : Address) : (s.append e).journal.dirties.count a =
      count (s.append e).journal.entries a +
        if a = ripemd then (s.append e).view.forced else 0 := by
  rw [count_dirties_append, append_entries, count_cons, forced_append, h a]
  exact Nat.add_right_comm _ _ _

theorem dirties_live_append (h : ∀ a ∈ s.journal.dirties, s.stateObjects.lookup a = none →
    s.load a = none)
    (hlive : ∀ a, e.dirtied = some a → s.stateObjects.lookup a = none → s.load a = none)
    (a : Address) (ha : a ∈ (s.append e).journal.dirties) (hnone : s.stateObjects.lookup a = none) :
    s.load a = none := by
  cases he : e.dirtied with
  | none => exact h a (by simpa [append, Journal.append, he] using ha) hnone
  | some b =>
    rcases (by simpa [append, Journal.append, he] using ha : a = b ∨ a ∈ s.journal.dirties) with
      rfl | ha
    · exact hlive a he hnone
    · exact h a ha hnone

theorem Coherent.append (h : s.Coherent) (he : s.Sound e)
    (hlive : ∀ a, e.dirtied = some a → s.stateObjects.lookup a = none → s.load a = none) :
    (s.append e).Coherent where
  objects := h.objects
  unloaded := h.unloaded
  kept_live := h.kept_live
  entries := by
    cases e with
    | createObjectChange | resetObjectChange => exact he.elim
    | storageChange => exact ⟨he, h.entries⟩
    | _ => exact h.entries
  dirties := dirties_append h.dirties e
  dirties_live := dirties_live_append h.dirties_live hlive

theorem known_setStateObject : (s.setStateObject a o).known a q ↔ o.Known q := by
  simp [known]

theorem known_setStateObject_of_ne (h : b ≠ a) :
    (s.setStateObject a o).known b q ↔ s.known b q := by
  simp [known, lookup_setStateObject_of_ne h]

theorem known_of_lookup (hlook : s.stateObjects.lookup a = some o) : s.known a q ↔ o.Known q := by
  simp [known, hlook]

theorem known_mono (hknown : ∀ q, s.known a q → o.Known q) (b : Address) (q : Query)
    (hq : s.known b q) : (s.setStateObject a o).known b q := by
  by_cases hba : b = a
  · subst hba
    exact known_setStateObject.mpr (hknown q hq)
  · exact (known_setStateObject_of_ne hba).mpr hq

theorem Coherent.setStateObject (h : s.Coherent)
    (hfit : o.Fits s.snap (s.snapDestructs a) a)
    (hknown : ∀ q, s.known a q → o.Known q) :
    (s.setStateObject a o).Coherent where
  objects b o' hb := by
    rcases lookup_of_set_eq_some hb with ⟨rfl, rfl⟩ | ⟨-, hb⟩
    · exact hfit
    · exact h.objects b o' hb
  unloaded b hb := h.unloaded b (lookup_of_set_eq_none hb).2
  kept_live b hb hnone := h.kept_live b hb (lookup_of_set_eq_none hnone).2
  entries := h.entries.mono (known_mono hknown)
  dirties := by
    exact h.dirties
  dirties_live b hb hnone := h.dirties_live b hb (lookup_of_set_eq_none hnone).2

theorem Coherent.newObject (h : s.Coherent) {acc : Account}
    (hlookup : s.stateObjects.lookup a = none) (hload : s.load a = some acc) :
    (StateObject.newObject acc).Fits s.snap (s.snapDestructs a) a := by
  refine .of_newObject fun flat hflat key => ?_
  have hacc : flat a = some acc := by simpa [load, hflat] using hload
  simp [h.unloaded a hlookup, flatStorage, hacc]

/-! ## Reading -/

theorem Wf.sameView (h : s.Wf) (hcoh : s'.Coherent) (hview : s'.view = s.view)
    (hjournal : s'.journal = s.journal) (hbase : s.SameBase s')
    (hrev : s'.validRevisions = s.validRevisions)
    (hid : s'.nextRevisionId = s.nextRevisionId) (hknown : ∀ a q, s.known a q → s'.known a q) :
    s.Step s' := by
  have hal : s'.accessList = s.accessList := congrArg (fun w : World => w.accessList) hview
  refine ⟨⟨⟨hcoh, by rw [hal, hjournal]; exact h.accessFits, ?_, ?_⟩,
    ⟨[], by rw [hjournal]; rfl, ?_, hknown⟩,
    ?_, hbase, fun a => hknown a _, fun a _ => .inl (by rw [hview])⟩, hrev, hid⟩
  · rw [hrev]
    exact h.revisions_sorted
  · rw [hrev, hid, hjournal]
    exact h.revisions_lt
  · rw [hview]
    exact .refl _
  · rw [hview]

theorem view_setStateObject_same (ho : (s.objectAt a).map (·.view) = some o.view) :
    (s.setStateObject a o).view = s.view := by
  rw [view_setStateObject, World.setObject_self ho]

theorem Wf.cache (h : s.Wf) (hlook : s.stateObjects.lookup a = some o') (ho : o.view = o'.view)
    (hfit : o.Fits s.snap (s.snapDestructs a) a) (hknown : ∀ q, o'.Known q → o.Known q) :
    s.Step (s.setStateObject a o) ∧ (s.setStateObject a o).view = s.view := by
  have hview : (s.setStateObject a o).view = s.view :=
    view_setStateObject_same (by rw [objectAt_of_lookup hlook, Option.map_some, ho])
  have hmono : ∀ q, s.known a q → o.Known q := fun q hq => hknown q ((known_of_lookup hlook).mp hq)
  have hcoh : (s.setStateObject a o).Coherent := h.toCoherent.setStateObject hfit hmono
  exact ⟨h.sameView hcoh hview rfl ⟨rfl, rfl, rfl, rfl⟩ rfl rfl (known_mono hmono), hview⟩

/-- The database after an object was loaded: nothing shows, and the object is live. -/
structure Loaded (s : StateDB) (a : Address) (s' : StateDB) : Prop where
  coherent : s'.Coherent
  view : s'.view = s.view
  journal : s'.journal = s.journal
  base : s.SameBase s'
  validRevisions : s'.validRevisions = s.validRevisions
  nextRevisionId : s'.nextRevisionId = s.nextRevisionId
  snapDestructs : s'.snapDestructs = s.snapDestructs
  known : ∀ b q, s.known b q → s'.known b q
  lookup : s'.stateObjects.lookup a = s.objectAt a
  objectAt : s'.objectAt a = s.objectAt a

theorem Loaded.step (h : s.Wf) (hl : Loaded s a s') : s.Step s' :=
  h.sameView hl.coherent hl.view hl.journal hl.base hl.validRevisions hl.nextRevisionId hl.known

theorem Coherent.getDeletedStateObject (h : s.Coherent) (a : Address) :
    ∃ s', s.getDeletedStateObject a = (s.objectAt a, s') ∧ Loaded s a s' := by
  unfold StateDB.getDeletedStateObject
  cases hl : s.stateObjects.lookup a with
  | some o =>
    have ho := objectAt_of_lookup hl
    exact ⟨s, by rw [ho], h, rfl, rfl, .refl s, rfl, rfl, rfl, fun _ _ hq => hq,
      by rw [ho, hl], rfl⟩
  | none =>
    cases hload : s.load a with
    | none =>
      have ho : s.objectAt a = none := by simp [objectAt, hl, hload]
      exact ⟨s, by rw [ho], h, rfl, rfl, .refl s, rfl, rfl, rfl, fun _ _ hq => hq,
      by rw [ho, hl], rfl⟩
    | some acc =>
      have ho : s.objectAt a = some (.newObject acc) := by simp [objectAt, hl, hload]
      have hunknown : ∀ q, s.known a q → (StateObject.newObject acc).Known q := by
        rintro q ⟨o, ho', -⟩
        simp [hl] at ho'
      refine ⟨_, by rw [ho], h.setStateObject (h.newObject hl hload) hunknown,
        view_setStateObject_same (by rw [ho]; rfl), rfl, ⟨rfl, rfl, rfl, rfl⟩, rfl, rfl, rfl,
        known_mono hunknown, ?_, ?_⟩
      · rw [lookup_setStateObject, ho]
      · rw [objectAt_of_lookup lookup_setStateObject, ho]

theorem find_view : s.view.find a = ((s.objectAt a).filter fun o => !o.deleted).map (·.view) := by
  rw [World.find, view_objects]
  cases s.objectAt a with
  | none => rfl
  | some o => cases hd : o.deleted <;> simp [Option.filter, hd]

theorem Coherent.getStateObject (h : s.Coherent) (a : Address) :
    ∃ obj s', s.getStateObject a = (obj, s') ∧ Loaded s a s' ∧
      obj.map (·.view) = s.view.find a ∧
      ∀ o, obj = some o → s'.stateObjects.lookup a = some o ∧ o.deleted = false := by
  obtain ⟨s', hget, hl⟩ := h.getDeletedStateObject a
  unfold StateDB.getStateObject
  rw [hget, find_view]
  cases ho : s.objectAt a with
  | none => exact ⟨none, s', rfl, hl, rfl, fun _ h => by simp at h⟩
  | some o =>
    cases hd : o.deleted with
    | true => exact ⟨none, s', by simp [hd], hl, by simp [Option.filter, hd], fun _ h => by simp at h⟩
    | false =>
      refine ⟨some o, s', by simp [hd], hl, by simp [Option.filter, hd], ?_⟩
      rintro _ ⟨⟩
      exact ⟨by rw [hl.lookup, ho], hd⟩

theorem Wf.getStateObject (h : s.Wf) (a : Address) :
    ∃ obj s', s.getStateObject a = (obj, s') ∧ s.Step s' ∧ s'.view = s.view ∧
      obj.map (·.view) = s.view.find a ∧
      ∀ o, obj = some o → s'.stateObjects.lookup a = some o ∧ o.deleted = false := by
  obtain ⟨obj, s', hget, hl, hfind, hlive⟩ := h.toCoherent.getStateObject a
  exact ⟨obj, s', hget, hl.step h, hl.view, hfind, hlive⟩

theorem Wf.readObject (h : s.Wf) {α : Type} (a : Address) (default : α) (f : StateObject → α)
    (g : Obj → α) (hfg : ∀ o, g o.view = f o) :
    ∃ s', s.readObject a default f = (s.view.read a default g, s') ∧ s.Step s' ∧
      s'.view = s.view := by
  obtain ⟨obj, s', hget, hstep, hview, hfind, -⟩ := h.getStateObject a
  unfold StateDB.readObject World.read
  rw [hget, ← hfind]
  cases obj with
  | none => exact ⟨s', rfl, hstep, hview⟩
  | some o => exact ⟨s', by simp [hfg], hstep, hview⟩

/-- The value is that of the storage trie, and afterwards the slot is cached or zero. -/
theorem objectCommittedState_spec (hfit : o.Fits s.snap (s.snapDestructs a) a)
    (hdel : o.deleted = false) (key : Hash) :
    ∃ o', s.objectCommittedState a o key = (o.trie key, o') ∧ o'.view = o.view ∧
      o'.Fits s.snap (s.snapDestructs a) a ∧ o'.Known (.slot key) ∧ ∀ q, o.Known q → o'.Known q := by
  cases horigin : o.originStorage key with
  | some v =>
    refine ⟨o, ?_, rfl, hfit, fun h => by simp [horigin] at h, fun _ h => h⟩
    simp [objectCommittedState, horigin, hfit.origin key v horigin]
  | none =>
    cases hsnap : s.snap with
    | some flat =>
      have hflat := hfit.flat hdel flat hsnap key horigin
      rw [hsnap] at hfit
      cases hd : s.snapDestructs a with
      | true =>
        rw [hd] at hflat hfit
        refine ⟨o, ?_, rfl, hfit, fun _ => hflat, fun _ h => h⟩
        simp [objectCommittedState, horigin, hsnap, hd, hflat]
      | false =>
        rw [hd] at hfit
        refine ⟨o.setOrigin key (o.trie key), ?_, rfl, hfit.setOrigin key,
          StateObject.known_setOrigin _ _ _, fun q => StateObject.Known.setOrigin⟩
        simp [objectCommittedState, horigin, hsnap, hd, hflat]
    | none =>
      have hopen : o.getStorageTrie.2.Fits none (s.snapDestructs a) a :=
        (hsnap ▸ hfit).congr rfl rfl rfl rfl
      refine ⟨o.getStorageTrie.2.setOrigin key (o.trie key), ?_, rfl, hopen.setOrigin key,
        StateObject.known_setOrigin _ _ _,
        fun q hq => hq.getStorageTrie.setOrigin⟩
      simp [objectCommittedState, horigin, hsnap, StateObject.getStorageTrie]

theorem objectState_spec (hfit : o.Fits s.snap (s.snapDestructs a) a)
    (hdel : o.deleted = false) (key : Hash) :
    ∃ o', s.objectState a o key = (o.view.storage key, o') ∧ o'.view = o.view ∧
      o'.Fits s.snap (s.snapDestructs a) a ∧ o'.Known (.slot key) ∧ ∀ q, o.Known q → o'.Known q := by
  unfold objectState
  cases hd : o.dirtyStorage key with
  | some v =>
    exact ⟨o, by simp [StateObject.view, hd], rfl, hfit, hfit.dirty key (by simp [hd]), fun _ h => h⟩
  | none =>
    obtain ⟨o', heq, hrest⟩ := objectCommittedState_spec hfit hdel key
    exact ⟨o', by rw [heq]; simp [StateObject.view, hd], hrest⟩

theorem Wf.readSlot (h : s.Wf) (a : Address) (key : Hash)
    {read : StateDB → Address → StateObject → Hash → Hash × StateObject} {g : Obj → Hash}
    (hread : ∀ s o, o.Fits s.snap (s.snapDestructs a) a → o.deleted = false → ∃ o', read s a o key = (g o.view, o') ∧
      o'.view = o.view ∧ o'.Fits s.snap (s.snapDestructs a) a ∧ ∀ q, o.Known q → o'.Known q) :
    ∃ s', s.readSlot a key read = (s.view.read a 0 g, s') ∧ s.Step s' ∧ s'.view = s.view := by
  obtain ⟨obj, s', hget, hstep, hview, hfind, hlive⟩ := h.getStateObject a
  unfold StateDB.readSlot World.read
  rw [hget, ← hfind]
  cases obj with
  | none => exact ⟨s', rfl, hstep, hview⟩
  | some o =>
    obtain ⟨hlook, hdel⟩ := hlive o rfl
    have hfit := hstep.wf.objects a o hlook
    obtain ⟨o', heq, hov, hfit', hknown⟩ := hread s' o hfit hdel
    obtain ⟨hstep', hview'⟩ := hstep.wf.cache hlook hov hfit' hknown
    exact ⟨_, by simp [heq], hstep.trans hstep', hview'.trans hview⟩

theorem Wf.getState (h : s.Wf) (a : Address) (key : Hash) :
    ∃ s', s.getState a key = (s.view.read a 0 (·.storage key), s') ∧ s.Step s' ∧ s'.view = s.view :=
  h.readSlot a key fun s o hfit hdel => by
    obtain ⟨o', heq, hview, hfit', -, hknown⟩ := objectState_spec (s := s) hfit hdel key
    exact ⟨o', heq, hview, hfit', hknown⟩

theorem Wf.getCommittedState (h : s.Wf) (a : Address) (key : Hash) :
    ∃ s', s.getCommittedState a key = (s.view.read a 0 (·.committed key), s') ∧ s.Step s' ∧
      s'.view = s.view :=
  h.readSlot a key fun s o hfit hdel => by
    obtain ⟨o', heq, hview, hfit', -, hknown⟩ := objectCommittedState_spec (s := s) hfit hdel key
    exact ⟨o', heq, hview, hfit', hknown⟩

/-! ## Changing accounts -/

theorem knownAfter_of_sound (he : s.Sound e) (h : ∀ a q, P a q → Q a q) (a : Address) (q : Query)
    (hq : P a q) : knownAfter Q [e] a q := by
  cases e with
  | createObjectChange | resetObjectChange => exact he.elim
  | _ => exact h a q hq

theorem Wf.record (h : s.Wf) (hcoh : s'.Coherent) (hbase : s.SameBase s')
    (hentries : s'.journal.entries = e :: s.journal.entries) (hal : s'.accessList.Wf)
    (hforced : s'.view.forced = s.view.forced)
    (hundo : s'.view.undo (e.map StateObject.view) = some s.view)
    (hknown : ∀ a q, s.known a q → knownAfter s'.known [e] a q)
    (hsettled : ∀ a, s.known a .settled → s'.known a .settled)
    (huntouched : ∀ a, ¬ s'.view.Dirtied a → s'.view.objects a = s.view.objects a ∨
      ∃ o, s'.view.objects a = some o ∧ o.created = true)
    (hrev : s'.validRevisions = s.validRevisions) (hid : s'.nextRevisionId = s.nextRevisionId) :
    s.Step s' := by
  refine ⟨⟨⟨hcoh, ?_, hrev ▸ h.revisions_sorted, ?_⟩, ⟨[e], hentries, .of_undo ?_, hknown⟩,
    hforced.ge, hbase, hsettled, huntouched⟩, hrev, hid⟩
  · rw [hentries]
    exact @AccessFits.cons _ s.view s'.view e h.accessFits hal hundo
  · rw [hrev, hid, hentries]
    exact fun r hr => (h.revisions_lt r hr).imp_right fun hle => hle.trans (Nat.le_succ _)
  · rw [hundo, hforced, World.withForced_self]

theorem Wf.append (h : s.Wf) (he : s.Sound e)
    (hlive : ∀ a, e.dirtied = some a → s.stateObjects.lookup a = none → s.load a = none)
    (hundo : (s.append e).view.undo (e.map StateObject.view) = some s.view) :
    s.Step (s.append e) := by
  exact h.record (h.toCoherent.append he hlive) ⟨rfl, rfl, rfl, rfl⟩ rfl h.accessList forced_append hundo
    (knownAfter_of_sound he fun _ _ hq => hq) (fun _ hs => hs) (fun _ _ => .inl rfl) rfl rfl

theorem view_change (he : e.dirtied = some a) : (s.change a e o).view = s.view.change a o.view := by
  rw [change, view_setStateObject, view_append_of_dirtied he]
  rfl

theorem Wf.change (h : s.Wf) (hlook : s.stateObjects.lookup a = some o) (he : s.Sound e)
    (hdirty : e.dirtied = some a)
    (hfit : o'.Fits s.snap (s.snapDestructs a) a) (hknown : ∀ q, s.known a q → o'.Known q)
    (hundo : (s.view.change a o'.view).undo (e.map StateObject.view) = some s.view) :
    s.Step (s.change a e o') := by
  have hview := view_change (s := s) (o := o') hdirty
  have hforced : (s.change a e o').view.forced = s.view.forced := by rw [hview]; rfl
  have hlive : ∀ b, e.dirtied = some b → s.stateObjects.lookup b = none → s.load b = none := by
    intro b hb hnone
    obtain rfl : a = b := Option.some_inj.mp (hdirty.symm.trans hb)
    simp [hlook] at hnone
  exact h.record ((h.toCoherent.append he hlive).setStateObject hfit hknown) ⟨rfl, rfl, rfl, rfl⟩ rfl
    h.accessList hforced (hview ▸ hundo) (knownAfter_of_sound he (known_mono hknown))
    (fun b => known_mono hknown b _) (hview ▸ s.view.change_untouched a o'.view) rfl rfl

theorem Wf.createObjectChange (h : s.Wf) (hlook : s.stateObjects.lookup a = none)
    (hload : s.load a = none) (hfit : o.Fits s.snap (s.snapDestructs a) a) :
    s.Step (s.change a (.createObjectChange a) o) := by
  have hview : (s.change a (.createObjectChange a) o).view = s.view.change a o.view :=
    view_change rfl
  have hnone : s.view.objects a = none := by simp [view_objects, objectAt, hlook, hload]
  have hunknown : ∀ {q}, ¬ s.known a q := by simp [known, hlook]
  have happend : (s.append (.createObjectChange a)).Coherent := by
    refine ⟨h.objects, h.unloaded, h.kept_live, ⟨hload, h.unloaded a hlook, fun hmem => ?_,
      h.entries.mono fun b key hb => ?_⟩, dirties_append h.dirties _,
      dirties_live_append h.dirties_live ?_⟩
    · exact h.kept_live a hmem hlook
    · by_cases hba : b = a
      · subst hba
        exact absurd hb hunknown
      · rw [update_of_ne hba]
        exact hb
    · rintro _ ⟨⟩ -
      exact hload
  have hforced : (s.change a (.createObjectChange a) o).view.forced = s.view.forced := by
    rw [hview]; rfl
  refine h.record (happend.setStateObject hfit fun _ hkey => absurd hkey hunknown)
    ⟨rfl, rfl, rfl, rfl⟩ rfl h.accessList hforced ?_ ?_
    (fun b => known_mono (fun _ hkey => absurd hkey hunknown) b _)
    (hview ▸ s.view.change_untouched a o.view) rfl rfl
  · rw [hview]
    show some (((s.view.setObject a o.view).removeObject a).bump a |>.unbump a) = some s.view
    rw [World.unbump_bump, World.removeObject_setObject hnone]
  · intro b q hq
    have hba : b ≠ a := by rintro rfl; exact hunknown hq
    simp only [knownAfter, update_of_ne hba]
    exact (known_setStateObject_of_ne hba).mpr hq

theorem setDestructed_snapDestructs (b : Address) : (s.setDestructed a).snapDestructs b =
    if s.snap.isSome ∧ b = a then true else s.snapDestructs b := by
  by_cases hsnap : s.snap.isSome <;> by_cases hb : b = a <;> simp [setDestructed, hsnap, hb]

theorem update_setDestructed : (if s.snap.isSome then
      update (s.setDestructed a).snapDestructs a (s.snap.isSome && s.snapDestructs a)
      else (s.setDestructed a).snapDestructs) = s.snapDestructs := by
  by_cases hsnap : s.snap.isSome <;> simp [setDestructed, hsnap]

variable {prev : StateObject} {acc : Account}

theorem Coherent.resetObjectChange (h : s.Coherent) (hlook : s.stateObjects.lookup a = some prev)
    (hfit : o.Fits s.snap ((s.setDestructed a).snapDestructs a) a) :
    ((s.setDestructed a).change a
      (.resetObjectChange a prev (s.snap.isSome && s.snapDestructs a)) o).Coherent where
  objects b o' hb := by
    rcases lookup_of_set_eq_some hb with ⟨rfl, rfl⟩ | ⟨hba, hb⟩
    · exact hfit
    · show o'.Fits s.snap ((s.setDestructed a).snapDestructs b) b
      rw [setDestructed_snapDestructs, if_neg (by simp [hba])]
      exact h.objects b o' hb
  unloaded b hb := by
    obtain ⟨hba, hb⟩ := lookup_of_set_eq_none hb
    show (s.setDestructed a).snapDestructs b = false
    rw [setDestructed_snapDestructs, if_neg (by simp [hba])]
    exact h.unloaded b hb
  kept_live b hb hnone := h.kept_live b hb (lookup_of_set_eq_none hnone).2
  entries := by
    refine ⟨fun hsnap => ?_, ?_, ?_⟩
    · show (s.setDestructed a).snapDestructs a = true
      rw [setDestructed_snapDestructs, if_pos ⟨hsnap, rfl⟩]
    · -- the object that is replaced fits the mark that was there
      show prev.Fits s.snap (if s.snap.isSome then (s.snap.isSome && s.snapDestructs a)
        else (s.setDestructed a).snapDestructs a) a
      have hprev := h.objects a prev hlook
      by_cases hsnap : s.snap.isSome
      · simpa [hsnap] using hprev
      · simpa [hsnap, setDestructed] using hprev
    · show EntriesFit s.snap s.load s.kept (if s.snap.isSome then
        update (s.setDestructed a).snapDestructs a (s.snap.isSome && s.snapDestructs a)
        else (s.setDestructed a).snapDestructs) _ s.journal.entries
      rw [update_setDestructed]
      refine h.entries.mono fun b key hb => ?_
      by_cases hba : b = a
      · subst hba
        simpa using (known_of_lookup hlook).mp hb
      · rw [update_of_ne hba]
        exact (known_setStateObject_of_ne hba).mpr hb
  dirties b := by
    have hb := dirties_append h.dirties
      (.resetObjectChange a prev (s.snap.isSome && s.snapDestructs a)) b
    exact hb
  dirties_live b hb hnone := h.dirties_live b hb (lookup_of_set_eq_none hnone).2

theorem Wf.resetObjectChange (h : s.Wf) (hlook : s.stateObjects.lookup a = some prev)
    (hcreated : o.created = true) (hfit : o.Fits s.snap ((s.setDestructed a).snapDestructs a) a) :
    let s' := (s.setDestructed a).change a
      (.resetObjectChange a prev (s.snap.isSome && s.snapDestructs a)) o
    s.Step s' ∧ s'.view = s.view.setObject a o.view := by
  intro s'
  have hview : s'.view = s.view.setObject a o.view := by
    simp only [s']
    rw [StateDB.change, view_setStateObject, view_append_of_none rfl]
    rfl
  have hforced : s'.view.forced = s.view.forced := by rw [hview]; rfl
  have hobj : s.view.objects a = some prev.view := by
    simp [view_objects, objectAt_of_lookup hlook]
  refine ⟨h.record (h.toCoherent.resetObjectChange hlook hfit) ⟨rfl, rfl, rfl, rfl⟩ rfl h.accessList
    hforced ?_ ?_ ?_ ?_ rfl rfl, hview⟩
  · rw [hview]
    show some ((s.view.setObject a o.view).setObject a prev.view) = some s.view
    rw [World.setObject_setObject, World.setObject_self hobj]
  · intro b q hq
    by_cases hba : b = a
    · subst hba
      simpa [knownAfter] using (known_of_lookup hlook).mp hq
    · simp only [knownAfter, update_of_ne hba]
      exact (known_setStateObject_of_ne hba).mpr hq
  · intro b hs
    by_cases hba : b = a
    · subst hba
      exact known_setStateObject.mpr (.inr hcreated)
    · exact (known_setStateObject_of_ne hba).mpr hs
  · intro b _
    rw [hview, World.setObject_objects]
    by_cases hba : b = a
    · subst hba
      exact .inr ⟨o.view, by simp, hcreated⟩
    · exact .inl (update_of_ne hba _ _)

@[simp] theorem setStateObject_setStateObject :
    (s.setStateObject a o).setStateObject a o' = s.setStateObject a o' := by
  simp [setStateObject, AList.insert_insert]

theorem change_setStateObject : (s.change a e o).setStateObject a o' = s.change a e o' :=
  setStateObject_setStateObject

theorem view_newCreated (hroot : acc.storageRoot = emptyStorage) :
    (StateObject.newCreated acc).view = .fresh acc := by
  have htrie : (StateObject.newCreated acc).trie = emptyStorage := hroot
  have hacc : (StateObject.newCreated acc).account.rootless = acc.setNonce 0 :=
    Account.setStorageRoot_self _ _ hroot
  simp only [StateObject.view, htrie, hacc]
  rfl

section

variable (h : s.Wf) (hroot : acc.storageRoot = emptyStorage)

include h hroot

theorem Wf.createObjectWithAccount (a : Address)
    :
    ∃ prev s', s.createObjectWithAccount a acc = (.newCreated acc, prev, s') ∧
      prev.map (·.view) = s.view.find a ∧
      s'.setStateObject a (.newCreated acc) = s' ∧
      ∀ b, s.Step (s'.setStateObject a (.newCreated (acc.setBalance b))) ∧
        (s'.setStateObject a (.newCreated (acc.setBalance b))).view =
          s.view.create a (acc.setBalance b) := by
  obtain ⟨s₁, hget, hl⟩ := h.toCoherent.getDeletedStateObject a
  have hstep := hl.step h
  have hview := hl.view
  have hobj := hl.objectAt
  have hlook := hl.lookup
  unfold StateDB.createObjectWithAccount World.create
  rw [hget, view_objects, find_view]
  have hfresh : ∀ b, (StateObject.newCreated (acc.setBalance b)).view = .fresh (acc.setBalance b) :=
    fun b => view_newCreated hroot
  cases ho : s.objectAt a with
  | none =>
    rw [ho] at hlook
    have hload : s₁.load a = none := by simpa [objectAt, hlook] using hobj.trans ho
    refine ⟨none, _, rfl, rfl, change_setStateObject, fun b => ?_⟩
    rw [change_setStateObject, ← hfresh b, ← hview]
    refine ⟨hstep.trans (hstep.wf.createObjectChange hlook hload ?_), view_change rfl⟩
    -- the account is not in the snapshot, so its slots would be read as zero
    refine (StateObject.Fits.of_newObject fun flat hflat key => ?_).congr rfl rfl rfl rfl
      (o := .newObject ((acc.setBalance b).setNonce 0))
    have hacc : flat a = none := by simpa [load, hflat] using hload
    simp [hstep.wf.unloaded a hlook, flatStorage, hacc, hroot, emptyStorage]
  | some prev =>
    rw [ho] at hlook
    refine ⟨_, _, rfl, ?_, change_setStateObject, fun b => ?_⟩
    · cases hd : prev.deleted <;> simp [Option.filter, hd]
    · rw [change_setStateObject, ← hfresh b, ← hview]
      obtain ⟨hstep', hview'⟩ := hstep.wf.resetObjectChange (a := a)
        (o := .newCreated (acc.setBalance b)) hlook rfl (by
          refine (StateObject.Fits.of_newObject fun flat hflat key => ?_).congr rfl rfl rfl rfl
            (o := .newObject ((acc.setBalance b).setNonce 0))
          have hd : (s₁.setDestructed a).snapDestructs a = true := by
            simp [setDestructed_snapDestructs, hflat]
          simp [hd, hroot, emptyStorage])
      exact ⟨hstep.trans hstep', hview'⟩

theorem Wf.createAccountWith (a : Address) :
    s.Step (s.createAccountWith a acc) ∧
      (s.createAccountWith a acc).view = s.view.createAccountWith a acc := by
  obtain ⟨prev, s', heq, hprev, hself, hall⟩ := h.createObjectWithAccount hroot a
  unfold StateDB.createAccountWith World.createAccountWith
  rw [heq, ← hprev]
  cases prev with
  | none =>
    have := hall acc.balance
    rwa [Account.setBalance_self, hself] at this
  | some p => exact hall p.account.balance

theorem Wf.getOrNew (a : Address) :
    ∃ o s', (match s.getStateObject a with
      | (some o, s) => (o, s)
      | (none, s) =>
        let (o, _, s) := s.createObjectWithAccount a acc
        (o, s)) = (o, s') ∧ s.Step s' ∧ (o.view, s'.view) = s.view.getOrNew a acc ∧
      s'.stateObjects.lookup a = some o ∧ o.deleted = false := by
  obtain ⟨obj, s₁, hget, hstep, hview, hfind, hlive⟩ := h.getStateObject a
  unfold World.getOrNew
  rw [hget, ← hfind]
  cases obj with
  | some o => exact ⟨o, s₁, rfl, hstep, by rw [← hview]; rfl, hlive o rfl⟩
  | none =>
    obtain ⟨prev, s', heq, -, hself, hall⟩ := hstep.wf.createObjectWithAccount hroot a
    have hcreate := hall acc.balance
    rw [Account.setBalance_self, hself] at hcreate
    refine ⟨.newCreated acc, s', by simp [heq], hstep.trans hcreate.1, ?_, ?_, rfl⟩
    · rw [hcreate.2, hview, view_newCreated hroot]
      rfl
    · rw [← hself, lookup_setStateObject]

end

theorem Wf.getOrNewStateObject (h : s.Wf) (a : Address) :
    ∃ o s', s.getOrNewStateObject a = (o, s') ∧ s.Step s' ∧
      (o.view, s'.view) = s.view.getOrNew a World.eoa ∧
      s'.stateObjects.lookup a = some o ∧ o.deleted = false :=
  h.getOrNew rfl a

theorem Wf.getOrNewSmartContract (h : s.Wf) (a : Address) :
    ∃ o s', s.getOrNewSmartContract a = (o, s') ∧ s.Step s' ∧
      (o.view, s'.view) = s.view.getOrNew a World.contract ∧
      s'.stateObjects.lookup a = some o ∧ o.deleted = false :=
  h.getOrNew rfl a

theorem find_of_lookup (hlook : s.stateObjects.lookup a = some o) (hdel : o.deleted = false) :
    s.view.find a = some o.view := by
  rw [find_view, objectAt_of_lookup hlook]
  simp [Option.filter, hdel]

theorem Wf.changeLive (h : s.Wf) (o' : StateObject) (hlook : s.stateObjects.lookup a = some o)
    (hdel : o.deleted = false) (he : s.Sound e) (hdirty : e.dirtied = some a)
    (hdel' : o'.deleted = false) (hfit : o'.Fits s.snap (s.snapDestructs a) a)
    (hknown : ∀ key, o.Known key → o'.Known key)
    (f : Obj → Obj) (hundo : ∀ w : World, w.undo (e.map StateObject.view) = w.restore a f)
    (hf : f o'.view = o.view) :
    s.Step (s.change a e o') ∧ (s.change a e o').view = s.view.change a o'.view := by
  refine ⟨h.change hlook he hdirty hfit (fun key hkey => hknown key ((known_of_lookup hlook).mp hkey)) ?_,
    view_change hdirty⟩
  rw [hundo]
  exact World.restore_change (find_of_lookup hlook hdel) hdel' hf

section

variable (h : s.Wf) (hlook : s.stateObjects.lookup a = some o)

include h hlook

theorem Wf.objectSetBalance
    (hdel : o.deleted = false) (b : ℤ) :
    s.Step (s.objectSetBalance a o b) ∧
      (s.objectSetBalance a o b).view = s.view.change a (o.view.setBalance b) :=
  h.changeLive (o.setBalance b) hlook hdel trivial rfl hdel
    ((h.objects a o hlook).congr rfl rfl rfl rfl) (fun _ hkey => hkey) _ (fun _ => rfl) rfl

theorem Wf.objectSetNonce
    (hdel : o.deleted = false) (n : ℕ) :
    s.Step (s.change a (.nonceChange a o.account.nonce) (o.setNonce n)) ∧
      (s.change a (.nonceChange a o.account.nonce) (o.setNonce n)).view =
        s.view.change a (o.view.setNonce n) :=
  h.changeLive (o.setNonce n) hlook hdel trivial rfl hdel
    ((h.objects a o hlook).congr rfl rfl rfl rfl) (fun _ hkey => hkey) _ (fun _ => rfl) rfl

theorem Wf.touch :
    s.Step (s.touch a) ∧ (s.touch a).view = s.view.touch a := by
  have hview : (s.append (.touchChange a)).view = s.view.bump a := view_append_of_dirtied rfl
  have hstep : s.Step (s.append (.touchChange a)) := by
    refine h.append trivial ?_ ?_
    · rintro _ ⟨⟩ hnone
      simp [hlook] at hnone
    · rw [hview]
      exact congrArg some World.unbump_bump
  unfold StateDB.touch World.touch
  by_cases ha : a = ripemd
  · subst ha
    simp only [if_true]
    -- the extra mark is counted apart
    set s₁ := s.append (.touchChange ripemd) with hs₁
    have hle : count s₁.journal.entries ripemd ≤ s₁.journal.dirties.count ripemd := by
      rw [hstep.wf.dirties ripemd]; omega
    have hforced : ({ s₁ with journal := s₁.journal.dirty ripemd } : StateDB).view.forced =
        s₁.view.forced + 1 := by
      show (ripemd :: s₁.journal.dirties).count ripemd - count s₁.journal.entries ripemd = _
      rw [List.count_cons_self]
      exact Nat.sub_add_comm hle
    have hview' : ({ s₁ with journal := s₁.journal.dirty ripemd } : StateDB).view =
        s₁.view.withForced (s₁.view.forced + 1) :=
      World.ext rfl rfl rfl rfl rfl rfl rfl rfl rfl rfl rfl hforced
    obtain ⟨es, hes, hundo, hknown⟩ := hstep.undo
    refine ⟨⟨⟨⟨⟨hstep.wf.objects, hstep.wf.unloaded, hstep.wf.kept_live, hstep.wf.entries, ?_, ?_⟩,
      hstep.wf.accessFits, hstep.wf.revisions_sorted, hstep.wf.revisions_lt⟩,
      ⟨es, hes, ?_, hknown⟩, ?_,
      ⟨rfl, rfl, rfl, rfl⟩, fun _ hs => hs, fun _ _ => .inl rfl⟩, rfl, rfl⟩, ?_⟩
    · intro b
      have hb := hstep.wf.dirties b
      show (ripemd :: s₁.journal.dirties).count b = count s₁.journal.entries b + _
      rw [hforced, List.count_cons, hb]
      by_cases hbr : b = ripemd
      · subst hbr; simp; omega
      · simp [hbr, Ne.symm hbr]
    · intro b hb hnone
      rcases List.mem_cons.mp hb with rfl | hb
      · exact absurd (hlook.symm.trans hnone) (by simp)
      · exact hstep.wf.dirties_live b hb hnone
    · unfold World.Undoes at hundo ⊢
      rw [hview', World.undoAll_withForced, hundo]
      rfl
    · rw [hforced]
      exact hstep.forced.trans (Nat.le_succ _)
    · rw [hview', hview]
  · simp only [ha, if_false]
    exact ⟨hstep, hview⟩

end

/-! ## The mutators -/

/-- The database does what the world does, and its journal undoes it. -/
def Simulates (s s' : StateDB) (w : World) : Prop := s.Step s' ∧ s'.view = w

section

variable (h : s.Wf)

include h

omit h in
theorem Step.simulates (hstep : s.Step s') (h : s'.Simulates s'' w) : s.Simulates s'' w :=
  ⟨hstep.trans h.1, h.2⟩

theorem Wf.addBalance (a : Address) (amount : ℤ) :
    s.Simulates (s.addBalance a amount) (s.view.addBalance a amount) := by
  obtain ⟨o, s', heq, hstep, hnew, hlook, hdel⟩ := h.getOrNewStateObject a
  unfold StateDB.addBalance World.addBalance
  rw [heq, ← hnew]
  by_cases hz : amount = 0
  · by_cases hempty : o.account.empty
    · simp only [hz, StateObject.empty, StateObject.view_account, Account.rootless_empty, hempty,
        if_true]
      exact hstep.simulates (hstep.wf.touch hlook)
    · simp only [hz, StateObject.empty, StateObject.view_account, Account.rootless_empty, hempty,
        if_true]
      exact ⟨hstep, rfl⟩
  · simp only [hz, if_false]
    exact hstep.simulates (hstep.wf.objectSetBalance hlook hdel (o.account.balance + amount))

theorem Wf.subBalance (a : Address) (amount : ℤ) :
    s.Simulates (s.subBalance a amount) (s.view.subBalance a amount) := by
  obtain ⟨o, s', heq, hstep, hnew, hlook, hdel⟩ := h.getOrNewStateObject a
  unfold StateDB.subBalance World.subBalance
  rw [heq, ← hnew]
  by_cases hz : amount = 0
  · simp only [hz, if_true]
    exact ⟨hstep, rfl⟩
  · simp only [hz, if_false]
    exact hstep.simulates (hstep.wf.objectSetBalance hlook hdel (o.account.balance - amount))

theorem Wf.setBalance (a : Address) (amount : ℤ) :
    s.Simulates (s.setBalance a amount) (s.view.setBalance a amount) := by
  obtain ⟨o, s', heq, hstep, hnew, hlook, hdel⟩ := h.getOrNewStateObject a
  unfold StateDB.setBalance World.setBalance
  rw [heq, ← hnew]
  exact hstep.simulates (hstep.wf.objectSetBalance hlook hdel amount)

theorem Wf.incNonce (a : Address) : s.Simulates (s.incNonce a) (s.view.incNonce a) := by
  obtain ⟨o, s', heq, hstep, hnew, hlook, hdel⟩ := h.getOrNewStateObject a
  unfold StateDB.incNonce World.incNonce
  rw [heq, ← hnew]
  exact hstep.simulates (hstep.wf.objectSetNonce hlook hdel (uint64 (o.account.nonce + 1)))

theorem Wf.setNonce (a : Address) (nonce : ℕ) :
    s.Simulates (s.setNonce a nonce) (s.view.setNonce a nonce) := by
  obtain ⟨o, s', heq, hstep, hnew, hlook, hdel⟩ := h.getOrNewStateObject a
  unfold StateDB.setNonce World.setNonce
  rw [heq, ← hnew]
  exact hstep.simulates (hstep.wf.objectSetNonce hlook hdel nonce)

theorem Wf.setCode (a : Address) (code : Bytes) :
    (s.setCode a code).1 = (s.view.setCode a code).1 ∧
      s.Simulates (s.setCode a code).2 (s.view.setCode a code).2 := by
  obtain ⟨o, s', heq, hstep, hnew, hlook, hdel⟩ := h.getOrNewSmartContract a
  obtain ⟨hstep', hview⟩ := hstep.wf.changeLive (o.setCode code)
    (e := .codeChange a o.account.code) hlook hdel trivial rfl hdel
    ((hstep.wf.objects a o hlook).congr (by simp) rfl rfl rfl)
    (fun _ hq => hq.setCode) _ (fun _ => rfl)
    (by rw [StateObject.view_setCode, ← o.account.rootless_code]; exact o.view.setCode_setCode_self _)
  unfold StateDB.setCode World.setCode
  rw [heq, ← hnew]
  rw [StateObject.view_setCode] at hview
  exact ⟨o.account.rootless_isProgramAccount.symm, hstep.trans hstep', hview⟩

theorem Wf.setState (a : Address) (key value : Hash) :
    s.Simulates (s.setState a key value) (s.view.setState a key value) := by
  obtain ⟨o, s', heq, hstep, hnew, hlook, hdel⟩ := h.getOrNewSmartContract a
  have hfit := hstep.wf.objects a o hlook
  obtain ⟨o', hread, hov, hfit', hkey, hknown⟩ := objectState_spec (s := s') hfit hdel key
  have hdel' : o'.deleted = false := by
    rw [← StateObject.view_deleted, hov, StateObject.view_deleted, hdel]
  -- reading the slot leaves a live object that shows the same
  obtain ⟨hcache, hcview⟩ := hstep.wf.cache hlook hov hfit' hknown
  unfold StateDB.setState World.setState
  rw [heq, ← hnew]
  simp only [hread]
  by_cases hv : o.view.storage key = value
  · simp only [hv, if_true]
    exact ⟨hstep.trans hcache, hcview⟩
  · simp only [hv, if_false]
    have hundo : (o'.setState key value).view.setState key (o.view.storage key) = o.view := by
      rw [StateObject.view_setState, hov, Obj.setState_setState_self]
    obtain ⟨hstep', hview⟩ := hcache.wf.changeLive (o'.setState key value)
      (e := .storageChange a key (o.view.storage key)) lookup_setStateObject hdel'
      (known_setStateObject.mpr hkey) rfl hdel' (hfit'.setState hkey value) (fun _ h => h) _
      (fun _ => rfl) (hundo.trans hov.symm)
    rw [StateObject.view_setState, hov, hcview] at hview
    exact ⟨hstep.trans (hcache.trans hstep'), hview⟩

theorem Wf.objectSelfDestruct {a : Address} (hlook : s.stateObjects.lookup a = some o)
    (hdel : o.deleted = false) :
    s.Simulates (s.change a (.selfDestructChange a o.selfDestructed o.account.balance)
      { o.setBalance 0 with selfDestructed := true }) (s.view.change a o.view.selfDestruct) := by
  refine ⟨h.change hlook trivial rfl ((h.objects a o hlook).congr rfl rfl rfl rfl)
    (fun key hkey => (known_of_lookup hlook).mp hkey) ?_, view_change rfl⟩
  have hfind := find_of_lookup hlook hdel
  have hfind' : (s.view.change a o.view.selfDestruct).find a = some o.view.selfDestruct :=
    World.find_change hdel
  show (s.view.change a o.view.selfDestruct).undo
    (.selfDestructChange a o.selfDestructed o.account.balance) = some s.view
  simp only [World.undo, hfind']
  show some (((s.view.setObject a o.view.selfDestruct).setObject a o.view).bump a |>.unbump a) = _
  rw [World.unbump_bump, World.setObject_setObject, World.setObject_self (World.objects_of_find hfind)]

theorem Wf.selfDestruct (a : Address) : s.Simulates (s.selfDestruct a) (s.view.selfDestruct a) := by
  obtain ⟨obj, s', hget, hstep, hview, hfind, hlive⟩ := h.getStateObject a
  unfold StateDB.selfDestruct World.selfDestruct
  rw [hget, ← hfind]
  cases obj with
  | none => exact ⟨hstep, hview⟩
  | some o =>
    obtain ⟨hlook, hdel⟩ := hlive o rfl
    rw [← hview]
    exact hstep.simulates (hstep.wf.objectSelfDestruct hlook hdel)

theorem Wf.selfDestruct6780 (a : Address) :
    s.Simulates (s.selfDestruct6780 a) (s.view.selfDestruct6780 a) := by
  obtain ⟨obj, s', hget, hstep, hview, hfind, hlive⟩ := h.getStateObject a
  unfold StateDB.selfDestruct6780 World.selfDestruct6780
  rw [hget, ← hfind]
  cases obj with
  | none => exact ⟨hstep, hview⟩
  | some o =>
    by_cases hc : o.created
    · obtain ⟨hstep', hview'⟩ := hstep.wf.selfDestruct a
      simp only [hc, if_true, Option.map_some, StateObject.view_created]
      refine ⟨hstep.trans hstep', ?_⟩
      rw [hview', hview, World.selfDestruct, ← hfind]
      rfl
    · simp only [hc, Option.map_some, StateObject.view_created]
      exact ⟨hstep, hview⟩

theorem Wf.records {r : Records} (he : s.Sound e) (hdirty : e.dirtied = none)
    (hal : r.accessList.Wf)
    (hundo : ({ s.view with toRecords := r } : World).undo (e.map StateObject.view) = some s.view) :
    s.Simulates { s.append e with toRecords := r } { s.view with toRecords := r } := by
  have hview : ({ s.append e with toRecords := r } : StateDB).view = { s.view with toRecords := r } := by
    have := view_append_of_none (s := s) hdirty
    exact congrArg (fun w : World => { w with toRecords := r }) this
  have hcoh := h.toCoherent.append he (by simp [hdirty])
  exact ⟨h.record ⟨hcoh.objects, hcoh.unloaded, hcoh.kept_live, hcoh.entries, hcoh.dirties,
    hcoh.dirties_live⟩ ⟨rfl, rfl, rfl, rfl⟩ rfl hal (by rw [hview]) (hview ▸ hundo)
    (knownAfter_of_sound he fun _ _ hq => hq) (fun _ hs => hs) (fun _ _ => .inl rfl) rfl rfl, hview⟩

theorem Wf.addLog (log : Log) : s.Simulates (s.addLog log) (s.view.addLog log) :=
  h.records trivial rfl h.accessList (World.undo_addLog s.view log)

theorem Wf.addPreimage (hash : Hash) (preimage : Bytes) :
    s.Simulates (s.addPreimage hash preimage) (s.view.addPreimage hash preimage) := by
  cases hp : s.preimages hash with
  | some p =>
    have hw : s.view.addPreimage hash preimage = s.view := by
      simp [World.addPreimage, show s.view.preimages hash = some p from hp]
    simp only [StateDB.addPreimage, hp, hw]
    exact ⟨.refl h, rfl⟩
  | none =>
    have hundo := World.undo_addPreimage (w := s.view) hp preimage
    simp only [World.addPreimage, show s.view.preimages hash = none from hp] at hundo ⊢
    simp only [StateDB.addPreimage, hp]
    exact h.records trivial rfl h.accessList hundo

theorem Wf.addRefund (gas : ℕ) : s.Simulates (s.addRefund gas) (s.view.addRefund gas) :=
  h.records trivial rfl h.accessList rfl

theorem Wf.subRefund {gas : ℕ} (hgas : gas ≤ s.refund) :
    ∃ s' w, s.subRefund gas = .ok s' ∧ s.view.subRefund gas = .ok w ∧ s.Simulates s' w := by
  refine ⟨_, _, if_neg (Nat.not_lt.mpr hgas), if_neg (Nat.not_lt.mpr hgas), ?_⟩
  exact h.records trivial rfl h.accessList rfl

theorem Wf.setTransientState (a : Address) (key value : Hash) :
    s.Simulates (s.setTransientState a key value) (s.view.setTransientState a key value) := by
  unfold StateDB.setTransientState
  by_cases hv : s.getTransientState a key = value
  · simp only [hv, if_true]
    refine ⟨.refl h, ?_⟩
    rw [← hv]
    simp [World.setTransientState, view, getTransientState]
  · simp only [hv, if_false]
    exact h.records trivial rfl h.accessList (s.view.undo_setTransientState a key value)

theorem Wf.addAddressToAccessList (a : Address) :
    s.Simulates (s.addAddressToAccessList a) (s.view.addAddressToAccessList a) := by
  cases ha : s.accessList.addresses a with
  | some i =>
    have hal := AccessList.addAddress_of_some ha
    have hw : s.view.addAddressToAccessList a = s.view := by
      simp [World.addAddressToAccessList, show s.view.accessList.addAddress a = _ from hal]
      rfl
    rw [hw, StateDB.addAddressToAccessList, hal]
    exact ⟨.refl h, rfl⟩
  | none =>
    have hal := AccessList.addAddress_of_none ha
    have hwf := h.accessList.addAddress a
    have hdel := AccessList.deleteAddress_addAddress ha
    rw [World.addAddressToAccessList, show s.view.accessList.addAddress a = _ from hal]
    rw [hal] at hwf hdel
    rw [StateDB.addAddressToAccessList, hal]
    refine h.records trivial rfl hwf (.trans ?_
      (congrArg (fun al => some { s.view with accessList := al }) hdel))
    rfl

theorem Wf.slotChange {a : Address} {slot : Hash} (hal : al.Wf)
    (hdel : al.deleteSlot a slot = .ok s.accessList) :
    s.Simulates { s.append (.accessListAddSlotChange a slot) with accessList := al }
      { s.view with accessList := al } := by
  refine h.records trivial rfl hal ?_
  simp only [World.undo, map, hdel]
  rfl

theorem Wf.addSlotToAccessList (a : Address) (slot : Hash) :
    ∃ s' w, s.addSlotToAccessList a slot = .ok s' ∧ s.view.addSlotToAccessList a slot = .ok w ∧
      s.Simulates s' w := by
  obtain ⟨al, addrMod, slotMod, heq, hadd⟩ := h.accessList.addSlot_eq_ok a slot
  have hwf := hadd.wf h.accessList
  have hdb : s.addSlotToAccessList a slot = .ok
      { (if slotMod then (if addrMod then s.append (.accessListAddAccountChange a) else s).append
          (.accessListAddSlotChange a slot)
        else if addrMod then s.append (.accessListAddAccountChange a) else s) with
        accessList := al } := by
    simp only [StateDB.addSlotToAccessList, heq]
    rfl
  have hw : s.view.addSlotToAccessList a slot = .ok { s.view with accessList := al } := by
    simp only [World.addSlotToAccessList, show s.view.accessList.addSlot a slot = _ from heq]
    rfl
  refine ⟨_, _, hdb, hw, ?_⟩
  cases slotMod with
  | false =>
    cases hadd
    exact ⟨.refl h, rfl⟩
  | true =>
    have hdel := hadd.deleteSlot_eq_ok
    cases addrMod with
    | false => exact h.slotChange hwf hdel
    | true =>
      -- the address is listed first, by an entry of its own
      have hnone : s.accessList.addresses a = none := by
        cases hadd with
        | opened ha => simpa using ha
      have hal := AccessList.addAddress_of_none hnone
      obtain ⟨hstep, hview⟩ := h.addAddressToAccessList a
      have hs : s.addAddressToAccessList a = { s.append (.accessListAddAccountChange a) with
          accessList := (s.accessList.addAddress a).1 } := by
        simp [StateDB.addAddressToAccessList, hal]
      rw [hs] at hstep hview
      obtain ⟨hstep', hview'⟩ := hstep.wf.slotChange hwf hdel
      refine ⟨hstep.trans hstep', hview'.trans ?_⟩
      rfl

end

/-- The one change that no entry records: nothing but the key shows another value. -/
structure Rekeyed (s s' : StateDB) : Prop where
  wf : s'.Wf
  journal : s'.journal = s.journal
  base : s.SameBase s'
  validRevisions : s'.validRevisions = s.validRevisions
  nextRevisionId : s'.nextRevisionId = s.nextRevisionId
  known : ∀ a q, s.known a q → s'.known a q

theorem Wf.updateKey (h : s.Wf) (a : Address) (newKey : AccountKey) :
    (s.updateKey a newKey).1 = (s.view.updateKey a newKey).1 ∧
      Rekeyed s (s.updateKey a newKey).2 ∧
      (s.updateKey a newKey).2.view = (s.view.updateKey a newKey).2 := by
  obtain ⟨obj, s₁, hget, hl, hfind, hlive⟩ := h.toCoherent.getStateObject a
  have hwf := (hl.step h).wf
  simp only [StateDB.updateKey, World.updateKey, hget, ← hfind]
  cases obj with
  | none =>
    exact ⟨rfl, ⟨hwf, hl.journal, hl.base, hl.validRevisions, hl.nextRevisionId, hl.known⟩, hl.view⟩
  | some o =>
    obtain ⟨hlook, -⟩ := hlive o rfl
    simp only [Option.map_some, StateObject.view_account]
    cases hk : o.account.updateKey newKey with
    | error e =>
      simp only [Account.rootless, Account.updateKey_setStorageRoot_error hk]
      exact ⟨trivial, ⟨hwf, hl.journal, hl.base, hl.validRevisions, hl.nextRevisionId, hl.known⟩,
        hl.view⟩
    | ok acc =>
      obtain ⟨hroot, hrootless⟩ := Account.updateKey_eq_ok hk
      simp only [Account.rootless, hrootless]
      have htrie : ({ o with account := acc } : StateObject).trie = o.trie := by
        simp only [StateObject.trie, hroot]
      have hknown : ∀ q, s₁.known a q → ({ o with account := acc } : StateObject).Known q := by
        intro q hq
        have hq' := (known_of_lookup hlook).mp hq
        cases q with
        | slot key => intro hnone; rw [htrie]; exact hq' hnone
        | opened | settled => exact hq'
      have hcoh : (s₁.setStateObject a { o with account := acc }).Coherent :=
        hwf.toCoherent.setStateObject ((hwf.objects a o hlook).congr htrie rfl rfl rfl) hknown
      refine ⟨trivial, ⟨⟨hcoh, hwf.accessFits, hwf.revisions_sorted, hwf.revisions_lt⟩, hl.journal,
        hl.base.trans ⟨rfl, rfl, rfl, rfl⟩, hl.validRevisions, hl.nextRevisionId,
        fun b q hq => known_mono hknown b q (hl.known b q hq)⟩, ?_⟩
      rw [view_setStateObject, hl.view]
      congr 1
      refine Obj.ext rfl htrie ?_ rfl rfl rfl
      funext key
      simp only [StateObject.view, htrie]

end StateDB

end Kaia
