import Kaia.Foundation.Folds
import Kaia.State.Refine

/-! # Reverting

Taking the newest entry of the journal back undoes it in the world. A revert to a
snapshot therefore gives back the world that the database showed when the snapshot was
taken, up to the touches of the ripemd address.
-/

namespace Kaia

namespace StateDB

open JournalEntry Option
open StateObject (Query)

variable {s s' : StateDB} {a b : Address} {o : StateObject} {e : JournalEntry StateObject}
  {es : List (JournalEntry StateObject)} {w : World}

/-! ## One entry -/

theorem count_dirties_dropEntry (b : Address) : (s.dropEntry e es).journal.dirties.count b =
    s.journal.dirties.count b - if e.dirtied = some b then 1 else 0 := by
  cases he : e.dirtied <;> simp [dropEntry, he, List.count_erase]

theorem forced_dropEntry (hes : s.journal.entries = e :: es) :
    (s.dropEntry e es).view.forced = s.view.forced := by
  show (s.dropEntry e es).journal.dirties.count ripemd - count es ripemd =
    s.journal.dirties.count ripemd - count s.journal.entries ripemd
  rw [count_dirties_dropEntry, hes, count_cons]
  omega

theorem view_dropEntry_of_dirtied (hes : s.journal.entries = e :: es) (he : e.dirtied = some a) :
    (s.dropEntry e es).view = s.view.unbump a := by
  have hd : (s.dropEntry e es).view.dirties = (s.view.unbump a).dirties := by
    funext b
    show count es b = Function.update (count s.journal.entries) a (count s.journal.entries a - 1) b
    by_cases hb : b = a
    · simp [hes, count_cons, he, hb]
    · simp [hes, count_cons, he, hb, Ne.symm hb]
  exact World.ext rfl rfl rfl rfl rfl rfl rfl rfl rfl rfl hd (forced_dropEntry hes)

theorem view_dropEntry_of_none (hes : s.journal.entries = e :: es) (he : e.dirtied = none) :
    (s.dropEntry e es).view = s.view := by
  have hd : (s.dropEntry e es).view.dirties = s.view.dirties := by
    funext b
    show count es b = count s.journal.entries b
    simp [hes, count_cons, he]
  exact World.ext rfl rfl rfl rfl rfl rfl rfl rfl rfl rfl hd (forced_dropEntry hes)

/-- What is left to show of a database whose newest entry has been taken back. -/
structure Unwound (s : StateDB) (e : JournalEntry StateObject)
    (es : List (JournalEntry StateObject)) (s' : StateDB) : Prop where
  journal : s'.journal = s.journal
  base : s.SameBase s'
  validRevisions : s'.validRevisions = s.validRevisions
  nextRevisionId : s'.nextRevisionId = s.nextRevisionId
  objects : ∀ a o, s'.stateObjects.lookup a = some o → o.Fits s'.snap (s'.snapDestructs a) a
  unloaded : ∀ a, s'.stateObjects.lookup a = none → s'.snapDestructs a = false
  kept_live : ∀ a ∈ s'.kept, s'.stateObjects.lookup a ≠ none
  dirties_live : ∀ a ∈ s'.journal.dirties, s'.stateObjects.lookup a = none → s'.load a = none
  entries : EntriesFit s'.snap s'.load s'.kept s'.snapDestructs s'.known es
  known : ∀ a q, knownAfter s.known [e] a q → s'.known a q

theorem Unwound.of_coherent (hcoh : s'.Coherent) (hj : s'.journal = s.journal)
    (hbase : s.SameBase s') (hrev : s'.validRevisions = s.validRevisions)
    (hid : s'.nextRevisionId = s.nextRevisionId)
    (hes : EntriesFit s'.snap s'.load s'.kept s'.snapDestructs s'.known es)
    (hknown : ∀ a q, knownAfter s.known [e] a q → s'.known a q) : Unwound s e es s' :=
  ⟨hj, hbase, hrev, hid, hcoh.objects, hcoh.unloaded, hcoh.kept_live, hcoh.dirties_live, hes, hknown⟩

theorem Unwound.dropEntry_coherent (h : s.Coherent) (hes : s.journal.entries = e :: es)
    (hu : Unwound s e es s') : (s'.dropEntry e es).Coherent where
  objects := hu.objects
  unloaded := hu.unloaded
  kept_live := hu.kept_live
  entries := hu.entries
  dirties b := by
    have hf : s'.view.forced = s.view.forced := by simp only [view, hu.journal]
    have hb := h.dirties b
    rw [hes, count_cons] at hb
    rw [forced_dropEntry (hu.journal ▸ hes), hf, count_dirties_dropEntry, hu.journal, hb]
    show _ = count es b + _
    omega
  dirties_live b hb := by
    refine hu.dirties_live b ?_
    cases he : e.dirtied with
    | none => simpa [dropEntry, he] using hb
    | some a => exact List.mem_of_mem_erase (by simpa [dropEntry, he] using hb)

/-- The entry leaves the loaded objects in place when it is taken back. -/
def InPlace : JournalEntry StateObject → Prop
  | .createObjectChange _ | .resetObjectChange .. => False
  | _ => True

theorem Coherent.entries_tail (h : s.Coherent) (hes : s.journal.entries = e :: es)
    (hplace : InPlace e) : EntriesFit s.snap s.load s.kept s.snapDestructs s.known es := by
  have hfit := h.entries
  rw [hes] at hfit
  cases e with
  | createObjectChange | resetObjectChange => cases hplace
  | storageChange => exact hfit.2
  | _ => exact hfit

theorem known_of_after {P : Address → Query → Prop} {q : Query} (hplace : InPlace e)
    (h : knownAfter P [e] a q) : P a q := by
  cases e with
  | createObjectChange | resetObjectChange => cases hplace
  | _ => exact h

/-- Taking the entry back shows the world, or fails if there is none. -/
def Reverts (s : StateDB) (e : JournalEntry StateObject) (es : List (JournalEntry StateObject)) :
    Option World → Except Crash StateDB → Prop
  | some w, r => ∃ s', r = .ok s' ∧ Unwound s e es s' ∧ (s'.dropEntry e es).view = w
  | none, r => ∃ err, r = .error err

theorem Coherent.restoreObject (h : s.Coherent) (hes : s.journal.entries = e :: es)
    (hplace : InPlace e) {f : StateObject → StateObject} {g : Obj → Obj}
    (hfg : ∀ o, (f o).view = g o.view)
    (hfit : ∀ o s', Loaded s a s' → s'.stateObjects.lookup a = some o →
      o.Fits s.snap (s.snapDestructs a) a →
      (f o).Fits s.snap (s.snapDestructs a) a ∧ ∀ q, o.Known q → (f o).Known q)
    (he : e.dirtied = some a) : Reverts s e es (s.view.restore a g) (s.restoreObject a f) := by
  obtain ⟨obj, s₁, hget, hl, hfind, hlive⟩ := h.getStateObject a
  rw [World.restore, ← hfind, StateDB.restoreObject, hget]
  cases obj with
  | none => exact ⟨_, rfl⟩
  | some o =>
    have hlook := (hlive o rfl).1
    have ho := hl.coherent.objects a o hlook
    rw [hl.base.snap, hl.snapDestructs] at ho
    obtain ⟨hfo, hknown⟩ := hfit o s₁ hl hlook ho
    have hmono : ∀ q, s₁.known a q → (f o).Known q :=
      fun q hq => hknown q ((known_of_lookup hlook).mp hq)
    have hcoh : (s₁.setStateObject a (f o)).Coherent :=
      hl.coherent.setStateObject (by rw [hl.base.snap, hl.snapDestructs]; exact hfo) hmono
    have hes₁ : (s₁.setStateObject a (f o)).journal.entries = e :: es := by
      rw [← hes, ← hl.journal]; rfl
    have hsame : s.SameBase (s₁.setStateObject a (f o)) := hl.base.trans ⟨rfl, rfl, rfl, rfl⟩
    refine ⟨_, rfl, .of_coherent hcoh hl.journal hsame
      hl.validRevisions hl.nextRevisionId (hcoh.entries_tail hes₁ hplace) ?_, ?_⟩
    · intro b q hq
      exact known_mono hmono b q (hl.known b q (known_of_after hplace hq))
    rw [view_dropEntry_of_dirtied hes₁ he, view_setStateObject, hl.view, hfg]

theorem Coherent.revertCreate (h : s.Coherent)
    (hes : s.journal.entries = .createObjectChange a :: es) :
    Reverts s (.createObjectChange a) es (s.view.undo (.createObjectChange a))
      (s.revertEntry (.createObjectChange a)) := by
  have hfit := h.entries
  rw [hes] at hfit
  obtain ⟨hload, hd, hmem, hrest⟩ := hfit
  have hlook : (s.stateObjects.erase a).lookup a = none := AList.lookup_erase a _
  have hne : ∀ b, b ≠ a → (s.stateObjects.erase a).lookup b = s.stateObjects.lookup b :=
    fun b hb => AList.lookup_erase_ne hb
  have hdirty : s.stateObjectsDirty.erase a = s.stateObjectsDirty :=
    Finset.erase_eq_of_notMem fun ha => hmem (Finset.mem_union_left _ ha)
  have hbase : s.SameBase { s with
      stateObjects := s.stateObjects.erase a
      stateObjectsDirty := s.stateObjectsDirty.erase a } := ⟨rfl, rfl, hdirty, rfl⟩
  refine ⟨_, rfl, ⟨rfl, hbase, rfl, rfl, ?_, ?_, ?_, ?_, ?_, ?_⟩, ?_⟩
  · intro b o hb
    have hba : b ≠ a := by rintro rfl; simp [hlook] at hb
    exact h.objects b o ((hne b hba) ▸ hb)
  · intro b hb
    by_cases hba : b = a
    · exact hba ▸ hd
    · exact h.unloaded b ((hne b hba) ▸ hb)
  · intro b hb
    rw [hbase.kept] at hb
    have hba : b ≠ a := by rintro rfl; exact hmem hb
    rw [hne b hba]
    exact h.kept_live b hb
  · intro b hb hnone
    by_cases hba : b = a
    · exact hba ▸ hload
    · exact h.dirties_live b hb ((hne b hba) ▸ hnone)
  · rw [hbase.kept]
    refine hrest.mono fun b key hb => ?_
    have hba : b ≠ a := by rintro rfl; simp at hb
    obtain ⟨o, ho, hk⟩ : s.known b key := by simpa [hba] using hb
    exact ⟨o, (hne b hba).trans ho, hk⟩
  · intro b q hq
    have hba : b ≠ a := by rintro rfl; simp [knownAfter] at hq
    obtain ⟨o, ho, hk⟩ : s.known b q := by simpa [knownAfter, hba] using hq
    exact ⟨o, (hne b hba).trans ho, hk⟩
  · have hobj : (s.view.removeObject a).objects = fun b =>
        (((s.stateObjects.erase a).lookup b).or ((s.load b).map .newObject)).map (·.view) := by
      funext b
      by_cases hba : b = a
      · subst hba
        simp [World.removeObject, hlook, hload]
      · simp [World.removeObject, hba, hne b hba, view_objects, objectAt]
    refine (view_dropEntry_of_dirtied (by exact hes) rfl).trans ?_
    congr 1
    exact World.ext rfl rfl rfl rfl rfl rfl rfl rfl rfl hobj.symm rfl rfl

def marks (s : StateDB) (a : Address) (d : Bool) : Address → Bool :=
  if s.snap.isSome then Function.update s.snapDestructs a d else s.snapDestructs

theorem marks_of_ne (hb : b ≠ a) (d : Bool) : s.marks a d b = s.snapDestructs b := by
  unfold marks
  cases s.snap.isSome <;> simp [hb]

variable {prev : StateObject} {d : Bool} {new : List (JournalEntry StateObject)}
  {rs rs' : List Revision} {r : Revision}

theorem revertEntry_reset (hda : s.snap.isSome → s.snapDestructs a = true) :
    s.revertEntry (.resetObjectChange a prev d) =
      .ok { s.setStateObject a prev with snapDestructs := s.marks a d } := by
  simp only [revertEntry, marks]
  cases hsnap : s.snap.isSome
  · simp [setStateObject, hsnap]
  · cases d
    · simp [setStateObject, hsnap]
    · have hself : Function.update s.snapDestructs a true = s.snapDestructs :=
        Function.update_eq_self_iff.mpr (hda hsnap).symm
      simp [hself, setStateObject]

theorem Coherent.revertReset (h : s.Coherent)
    (hes : s.journal.entries = .resetObjectChange a prev d :: es) :
    Reverts s (.resetObjectChange a prev d) es (s.view.undo (.resetObjectChange a prev.view d))
      (s.revertEntry (.resetObjectChange a prev d)) := by
  have hfit := h.entries
  rw [hes] at hfit
  obtain ⟨hda, hprev, hrest⟩ := hfit
  have hknown : ∀ b q, Function.update s.known a prev.Known b q →
      (s.setStateObject a prev).known b q := by
    intro b q hq
    by_cases hba : b = a
    · subst hba
      exact known_setStateObject.mpr (by simpa using hq)
    · exact (known_setStateObject_of_ne hba).mpr (by simpa [hba] using hq)
  refine ⟨_, revertEntry_reset hda, ⟨rfl, ⟨rfl, rfl, rfl, rfl⟩, rfl, rfl, ?_, ?_, ?_, ?_, ?_, ?_⟩, ?_⟩
  · intro b o hb
    rcases lookup_of_set_eq_some hb with ⟨rfl, rfl⟩ | ⟨hba, hb⟩
    · show prev.Fits s.snap (s.marks b d b) b
      unfold marks
      cases hsnap : s.snap.isSome <;> simpa [hsnap] using hprev
    · show o.Fits s.snap (s.marks a d b) b
      rw [marks_of_ne hba]
      exact h.objects b o hb
  · intro b hb
    obtain ⟨hba, hb⟩ := lookup_of_set_eq_none hb
    exact (marks_of_ne hba d).trans (h.unloaded b hb)
  · exact fun b hb hnone => h.kept_live b hb (lookup_of_set_eq_none hnone).2
  · exact fun b hb hnone => h.dirties_live b hb (lookup_of_set_eq_none hnone).2
  · exact hrest.mono hknown
  · exact hknown
  · exact (view_dropEntry_of_none (by exact hes) rfl).trans (view_setStateObject (s := s))

theorem Coherent.revertRecords (h : s.Coherent) (hes : s.journal.entries = e :: es)
    (hplace : InPlace e) (he : e.dirtied = none) (r : Records) :
    Unwound s e es { s with toRecords := r } ∧
      (({ s with toRecords := r } : StateDB).dropEntry e es).view = { s.view with toRecords := r } := by
  refine ⟨⟨rfl, ⟨rfl, rfl, rfl, rfl⟩, rfl, rfl, h.objects, h.unloaded, h.kept_live,
    h.dirties_live, h.entries_tail hes hplace, fun _ _ => known_of_after hplace⟩, ?_⟩
  exact view_dropEntry_of_none (s := { s with toRecords := r }) hes he

theorem Coherent.revertEntry (h : s.Coherent) (hes : s.journal.entries = e :: es) :
    Reverts s e es (s.view.undo (e.map StateObject.view)) (s.revertEntry e) := by
  cases e with
  | createObjectChange a => exact h.revertCreate hes
  | resetObjectChange a prev d => exact h.revertReset hes
  | balanceChange a prev =>
    exact h.restoreObject hes trivial (g := (·.setBalance prev)) (fun _ => rfl)
      (fun o _ _ _ ho => ⟨ho.congr rfl rfl rfl rfl, fun _ h => h⟩) rfl
  | nonceChange a prev =>
    exact h.restoreObject hes trivial (g := (·.setNonce prev)) (fun _ => rfl)
      (fun o _ _ _ ho => ⟨ho.congr rfl rfl rfl rfl, fun _ h => h⟩) rfl
  | codeChange a prevcode =>
    exact h.restoreObject hes trivial (g := (·.setCode prevcode)) (fun o => o.view_setCode prevcode)
      (fun o _ _ _ ho => ⟨ho.congr (by simp) rfl rfl rfl, fun _ hq => hq.setCode⟩) rfl
  | storageChange a key prevalue =>
    refine h.restoreObject hes trivial (g := (·.setState key prevalue))
      (fun o => o.view_setState key prevalue) (fun o s' hl hlook ho => ⟨?_, fun _ h => h⟩) rfl
    -- the slot was known when it was written
    have hknown := hl.coherent.entries
    rw [hl.journal, hes] at hknown
    exact ho.setState ((known_of_lookup hlook).mp hknown.1) _
  | selfDestructChange a prev prevbalance =>
    have hrestore := h.restoreObject hes trivial (a := a)
      (f := fun o => { o.setBalance prevbalance with selfDestructed := prev })
      (g := fun o => { o.setBalance prevbalance with selfDestructed := prev }) (fun _ => rfl)
      (fun o _ _ _ ho => ⟨ho.congr rfl rfl rfl rfl, fun q hq => by cases q <;> exact hq⟩) rfl
    obtain ⟨obj, s₁, hget, hl, hfind, -⟩ := h.getStateObject a
    simp only [World.undo, map, ← hfind, StateDB.revertEntry, hget]
    rw [World.restore, ← hfind, StateDB.restoreObject, hget] at hrestore
    cases obj with
    | none =>
      have hes₁ : s₁.journal.entries = _ :: es := hl.journal ▸ hes
      refine ⟨s₁, rfl, .of_coherent hl.coherent hl.journal hl.base hl.validRevisions hl.nextRevisionId
        (hl.coherent.entries_tail hes₁ trivial)
        fun b q hq => hl.known b q (known_of_after (by exact trivial) hq), ?_⟩
      rw [view_dropEntry_of_dirtied hes₁ rfl, hl.view]
    | some o => exact hrestore
  | touchChange a =>
    exact ⟨s, rfl, .of_coherent h rfl (.refl s) rfl rfl (h.entries_tail hes trivial)
      fun _ _ => known_of_after trivial, view_dropEntry_of_dirtied hes rfl⟩
  | accessListAddSlotChange a slot =>
    simp only [World.undo, map, show s.view.accessList = s.accessList from rfl,
      StateDB.revertEntry]
    cases s.accessList.deleteSlot a slot with
    | error err => exact ⟨_, rfl⟩
    | ok al =>
      obtain ⟨hu, hv⟩ := h.revertRecords hes trivial rfl { s.toRecords with accessList := al }
      exact ⟨_, rfl, hu, hv⟩
  | _ =>
    obtain ⟨hu, hv⟩ := h.revertRecords hes trivial rfl _
    exact ⟨_, rfl, hu, hv⟩

/-! ## Many entries -/

theorem Coherent.journalRevert (h : s.Coherent) (hes : s.journal.entries = new ++ es) :
    match s.view.undoAll (new.map (map StateObject.view)) with
    | none => ∃ err, journalRevert new.length s = .error err
    | some w => ∃ s', journalRevert new.length s = .ok s' ∧ s'.Coherent ∧ s'.view = w ∧
      s'.journal.entries = es ∧ s.SameBase s' ∧ s'.validRevisions = s.validRevisions ∧
      s'.nextRevisionId = s.nextRevisionId ∧
      ∀ a q, knownAfter s.known new a q → s'.known a q := by
  induction new generalizing s with
  | nil => exact ⟨s, rfl, h, rfl, hes, .refl s, rfl, rfl, fun _ _ hq => hq⟩
  | cons e new ih =>
    have hentry := h.revertEntry hes
    simp only [World.undoAll, List.map_cons, List.foldlM_cons, List.length_cons,
      StateDB.journalRevert, hes, List.cons_append]
    cases hw : s.view.undo (e.map StateObject.view) with
    | none =>
      obtain ⟨err, herr⟩ := hw ▸ hentry
      exact ⟨err, by rw [herr]; rfl⟩
    | some w₁ =>
      obtain ⟨s₁, hrev, hu, hv⟩ := hw ▸ hentry
      have hrest := ih (hu.dropEntry_coherent h hes) rfl
      rw [hv, World.undoAll] at hrest
      simp only [Option.bind_eq_bind, Option.bind_some]
      split at hrest
      · obtain ⟨err, herr⟩ := hrest
        exact ⟨err, by rw [hrev]; exact herr⟩
      · obtain ⟨s', heq, hcoh, hview, hent, hbase, hrev', hid, hknown⟩ := hrest
        have hdrop : s₁.SameBase (s₁.dropEntry e (new ++ es)) := ⟨rfl, rfl, rfl, rfl⟩
        refine ⟨s', by rw [hrev]; exact heq, hcoh, hview, hent, (hu.base.trans hdrop).trans hbase,
          hrev'.trans hu.validRevisions, hid.trans hu.nextRevisionId, fun a q hq => ?_⟩
        rw [← List.singleton_append, knownAfter_append] at hq
        exact hknown a q (knownAfter_mono hu.known new a q hq)

/-! ## Snapshots -/

theorem Wf.snapshot (h : s.Wf) : s.snapshot.2.Wf where
  objects := h.objects
  unloaded := h.unloaded
  kept_live := h.kept_live
  entries := h.entries
  dirties := h.dirties
  dirties_live := h.dirties_live
  accessFits := h.accessFits
  revisions_sorted := by
    refine List.pairwise_append.mpr ⟨h.revisions_sorted, List.pairwise_singleton _ _, ?_⟩
    intro r hr r' hr'
    obtain rfl : r' = ⟨s.nextRevisionId, s.journal.length⟩ := by simpa using hr'
    exact h.revisions_lt r hr
  revisions_lt := by
    intro r hr
    rcases List.mem_append.mp hr with hr | hr
    · exact ⟨(h.revisions_lt r hr).1.trans (Nat.lt_succ_self _), (h.revisions_lt r hr).2⟩
    · obtain rfl : r = ⟨s.nextRevisionId, s.journal.length⟩ := by simpa using hr
      exact ⟨Nat.lt_succ_self _, le_rfl⟩

theorem Wf.findIdx (h : s.Wf) (hrs : s.validRevisions = rs ++ r :: rs') :
    s.validRevisions.findIdx (r.id ≤ ·.id) = rs.length := by
  have hsorted := h.revisions_sorted
  rw [hrs, List.pairwise_append] at hsorted
  rw [hrs, List.findIdx_append]
  have hnone : rs.findIdx (r.id ≤ ·.id) = rs.length := by
    refine List.findIdx_eq_length.mpr fun r' hr' => ?_
    have := (hsorted.2.2 r' hr' r List.mem_cons_self).1
    simpa using this
  rw [hnone, if_neg (lt_irrefl _)]
  simp [List.findIdx_cons]

theorem AccessFits.undoAll {w' : World} (h : AccessFits w.accessList (new ++ es))
    (hw : w.undoAll (new.map (map StateObject.view)) = some w') : AccessFits w'.accessList es := by
  induction new generalizing w with
  | nil =>
    obtain rfl := some_inj.mp hw
    exact h
  | cons e new ih =>
    obtain ⟨w₁, hw₁, hrest⟩ : ∃ w₁, w.undo (e.map StateObject.view) = some w₁ ∧
        w₁.undoAll (new.map (map StateObject.view)) = some w' := by
      simpa [World.undoAll, bind_eq_some_iff] using hw
    exact ih (h.tail hw₁) hrest

theorem Wf.revertToRevision (h : s.Wf) (hrs : s.validRevisions = rs ++ r :: rs')
    (hes : s.journal.entries = new ++ es) (hidx : r.journalIndex = es.length)
    (hw : s.view.undoAll (new.map (map StateObject.view)) = some w) :
    ∃ s', s.revertToSnapshot r.id = .ok s' ∧ s'.Wf ∧ s'.view = w ∧ s'.journal.entries = es ∧
      s.SameBase s' ∧ s'.validRevisions = rs ∧ s'.nextRevisionId = s.nextRevisionId ∧
      ∀ a q, knownAfter s.known new a q → s'.known a q := by
  have hall := h.toCoherent.journalRevert hes
  rw [hw] at hall
  obtain ⟨s₁, heq, hcoh, hview, hent, hbase, hrev, hid, hknown⟩ := hall
  have hsorted := h.revisions_sorted
  rw [hrs, List.pairwise_append] at hsorted
  refine ⟨{ s₁ with validRevisions := rs }, ?_, ⟨⟨hcoh.objects, hcoh.unloaded, hcoh.kept_live,
    hcoh.entries, hcoh.dirties, hcoh.dirties_live⟩, ?_, hsorted.1, fun r' hr' => ⟨?_, ?_⟩⟩, hview,
    hent, ⟨hbase.trie, hbase.snap, hbase.stateObjectsDirty, hbase.stateObjectsDirtyStorage⟩, rfl,
    hid, hknown⟩
  · have hn : s.journal.length - r.journalIndex = new.length := by
      simp [Journal.length, hes, hidx]
    have hget : s.validRevisions[rs.length]? = some r := by simp [hrs]
    have htake : s₁.validRevisions.take rs.length = rs := by simp [hrev, hrs]
    simp only [revertToSnapshot, h.findIdx hrs, hget, hn, heq, ne_eq, not_true, if_false]
    show Except.ok { s₁ with validRevisions := s₁.validRevisions.take rs.length } = _
    rw [htake]
  · show AccessFits s₁.view.accessList s₁.journal.entries
    rw [hview, hent]
    exact AccessFits.undoAll (w := s.view) (hes ▸ h.accessFits) hw
  · show r'.id < s₁.nextRevisionId
    rw [hid]
    exact (h.revisions_lt r' (by simp [hrs, hr'])).1
  · show r'.journalIndex ≤ s₁.journal.entries.length
    rw [hent, ← hidx]
    exact (hsorted.2.2 r' hr' r List.mem_cons_self).2

theorem revertToSnapshot_eq_ok {revid : ℕ} (hok : s.revertToSnapshot revid = .ok s') :
    ∃ r ∈ s.validRevisions, r.id = revid ∧
      ∃ s₁, StateDB.journalRevert (s.journal.length - r.journalIndex) s = .ok s₁ := by
  unfold StateDB.revertToSnapshot at hok
  cases hget : s.validRevisions[s.validRevisions.findIdx (revid ≤ ·.id)]? with
  | none => simp [hget] at hok
  | some r =>
    by_cases hid : r.id = revid
    · simp only [hget, hid, ne_eq, not_true, if_false] at hok
      obtain ⟨s₁, hrev, -⟩ := Foundation.bind_eq_ok.mp hok
      exact ⟨r, List.mem_of_getElem? hget, hid, s₁, hrev⟩
    · simp [hget, hid] at hok

theorem Wf.revertToSnapshot (h : s.Wf) {revid : ℕ} (hok : s.revertToSnapshot revid = .ok s') :
    s'.Wf := by
  obtain ⟨rev, hmem, rfl, s₁, hrev⟩ := revertToSnapshot_eq_ok hok
  have hle := (h.revisions_lt rev hmem).2
  generalize hn : s.journal.length - rev.journalIndex = n at hrev
  have hsplit := (List.take_append_drop n s.journal.entries).symm
  have hidx : rev.journalIndex = (s.journal.entries.drop n).length := by
    rw [List.length_drop, ← hn, Journal.length]
    omega
  have hall := h.toCoherent.journalRevert hsplit
  rw [List.length_take_of_le (by rw [← hn]; exact Nat.sub_le _ _), hrev] at hall
  split at hall
  · obtain ⟨err, herr⟩ := hall
    cases herr
  · next w hw =>
    obtain ⟨rs, rs', hrs⟩ := List.append_of_mem hmem
    obtain ⟨s₂, heq, hwf, -⟩ := h.revertToRevision hrs hsplit hidx hw
    obtain rfl : s' = s₂ := Except.ok.inj (hok.symm.trans heq)
    exact hwf

/-- Recorded changes that may have left snapshots behind. -/
structure Extends (s s' : StateDB) : Prop extends Recorded s s' where
  revisions : s.validRevisions <+: s'.validRevisions
  nextRevisionId : s.nextRevisionId ≤ s'.nextRevisionId

theorem Step.extends (h : s.Step s') : s.Extends s' :=
  ⟨h.toRecorded, by rw [h.validRevisions], h.nextRevisionId.ge⟩

theorem Extends.refl (h : s.Wf) : s.Extends s := (Step.refl h).extends

theorem Extends.trans {s'' : StateDB} (h : s.Extends s') (h' : s'.Extends s'') : s.Extends s'' :=
  ⟨h.toRecorded.trans h'.toRecorded, h.revisions.trans h'.revisions,
    h.nextRevisionId.trans h'.nextRevisionId⟩

theorem Extends.of_snapshot (hext : s.snapshot.2.Extends s') : s.Extends s' where
  wf := hext.wf
  undo := hext.undo
  forced := hext.forced
  base := ⟨hext.base.trie, hext.base.snap, hext.base.stateObjectsDirty,
    hext.base.stateObjectsDirtyStorage⟩
  settled := hext.settled
  untouched := hext.untouched
  revisions := (List.prefix_append _ _).trans hext.revisions
  nextRevisionId := (Nat.le_succ _).trans hext.nextRevisionId

/-- A revert gives back what the database showed, and the revisions that were valid. -/
theorem Extends.revertToSnapshot (hext : s.snapshot.2.Extends s') :
    ∃ s'', s'.revertToSnapshot s.snapshot.1 = .ok s'' ∧ s.Extends s'' ∧
      s''.validRevisions = s.validRevisions ∧
      (∀ a q, s.known a q → s''.known a q) ∧
      s''.view = s.view.withForced s'.view.forced := by
  obtain ⟨new, hes, hundo, hknown⟩ := hext.undo
  obtain ⟨rs', hrs⟩ := hext.revisions
  have hrs' : s'.validRevisions =
      s.validRevisions ++ ⟨s.nextRevisionId, s.journal.length⟩ :: rs' := by
    rw [← hrs]
    simp [StateDB.snapshot]
  obtain ⟨s'', heq, hwf, hview, hent, hbase, hrev, hid, hknown'⟩ :=
    hext.wf.revertToRevision hrs' hes rfl hundo
  have hview' : s''.view = s.view.withForced s'.view.forced := hview
  have hback : ∀ a q, s.known a q → s''.known a q := fun a q hq => hknown' a q (hknown a q hq)
  refine ⟨s'', heq, ⟨⟨hwf, ⟨[], hent, ?_, hback⟩, ?_,
    hext.of_snapshot.base.trans hbase, fun a => hback a _, fun a _ => .inl (by rw [hview']; rfl)⟩, by rw [hrev], ?_⟩, hrev, hback,
    hview'⟩
  · show some s''.view = some (s.view.withForced s''.view.forced)
    rw [hview', World.withForced_forced]
  · rw [hview']
    exact hext.forced
  · rw [hid]
    exact (Nat.le_succ _).trans hext.nextRevisionId

end StateDB

end Kaia
