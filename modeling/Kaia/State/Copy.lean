import Kaia.State.Roots

/-! # Copies of a state database

A copy takes over the marked objects, but neither the journal nor the contracts whose storage roots
are left for later. Taken between transactions, with all changes marked, it behaves as the original
as long as no contract has to be remembered.
-/

namespace Kaia

open Foundation

def StateObject.deepCopy (o : StateObject) : StateObject := { o with created := false }

namespace StateDB

variable (s : StateDB)

/-- An object that `Copy` takes over: marked in the journal or in an earlier transaction. -/
def isCopied (a : Address) : Bool :=
  a ∈ s.journal.dirties ∨ a ∈ s.stateObjectsDirty

/-- What a copy consists of. -/
def copied : StateDB :=
  { s with
    thash := 0
    bhash := 0
    txIndex := 0
    stateObjects := ((s.stateObjects.entries.filter (s.isCopied ·.1)).map
      fun e => ⟨e.1, e.2.deepCopy⟩).toAList
    stateObjectsDirty := s.stateObjectsDirty ∪
      s.journal.dirties.toFinset.filter fun a => (s.stateObjects.lookup a).isSome
    stateObjectsDirtyStorage := []
    journal := .newJournal
    validRevisions := []
    nextRevisionId := 0 }

def copy : Except Crash StateDB :=
  if s.stateObjectsDirty ⊆ s.stateObjects.keys.toFinset then .ok s.copied
  else .error (.goPanic .nilPointer)

def remembers (deleteEmptyObjects : Bool) : Bool :=
  s.journal.dirties.any fun a => (s.stateObjects.lookup a).any fun so =>
    !(so.selfDestructed || (deleteEmptyObjects && so.empty)) && so.account.isProgramAccount

/-- `Finalise` of an original or of a copy. A copy has no map to remember contracts in. -/
def finaliseOf (isCopy : Bool) (s : StateDB) (deleteEmptyObjects setStorageRoot : Bool) :
    Except Crash StateDB :=
  if isCopy && !setStorageRoot && s.remembers deleteEmptyObjects then .error (.goPanic .nilPointer)
  else s.finalise deleteEmptyObjects setStorageRoot

/-- What may be done with a database and its copy. -/
inductive Deed
  | step (e : TxStep)
  | finalise (setStorageRoot : Bool)
  | intermediateRoot
  | commit

def deedStep (isCopy : Bool) : List StateRoot × StateDB → Deed → Option (List StateRoot × StateDB)
  | (roots, s), .step e => (s.txStep e).map (roots, ·)
  | (roots, s), .finalise setStorageRoot =>
    (s.finaliseOf isCopy true setStorageRoot).toOption.map (roots, ·)
  | (roots, s), .intermediateRoot =>
    (s.finaliseOf isCopy true true).toOption.map fun s => (s.trie :: roots, s)
  | (roots, s), .commit => (s.commit true).toOption.map fun (root, s) => (root :: roots, s)

/-- The journal that is committed marks only objects. -/
def Live (x : List StateRoot × StateDB) : Deed → Prop
  | .commit => (x.2.journal.dirties.all fun a => (x.2.stateObjects.lookup a).isSome) = true
  | _ => True

/-- `Live`, and no contract has to be remembered. -/
def Forgetful (x : List StateRoot × StateDB) : Deed → Prop
  | .finalise false => x.2.remembers true = false
  | e => Live x e

instance (x : List StateRoot × StateDB) : (e : Deed) → Decidable (Forgetful x e)
  | .finalise false => inferInstanceAs (Decidable (x.2.remembers true = false))
  | .commit => inferInstanceAs (Decidable (List.all _ _ = true))
  | .finalise true | .step _ | .intermediateRoot => .isTrue trivial

/-- Between transactions, no storage root left for later, and all changed objects marked. -/
structure Copyable (s : StateDB) : Prop where
  closed : s.journal = .newJournal
  settled : s.stateObjectsDirtyStorage = []
  marked : ∀ a ∈ s.stateObjectsDirty, ∀ o, s.stateObjects.lookup a = some o → o.created = false
  unmarked : ∀ a ∉ s.stateObjectsDirty, s.snapDestructs a = false ∧
    s.view.objects a = (s.load a).map fun acc => (StateObject.newObject acc).view

variable {s s' t t' c : StateDB} {a : Address}

/-! ## Every reached database keeps the invariant -/

variable {e : TxStep} {ssr : Bool} {root : StateRoot} {roots : List StateRoot} {es : List Deed}

theorem txStep_same (hs : s.Wf) (ht : t.Wf) (hview : t.view = s.view) (hstep : s.txStep e = some s') :
    s'.Wf ∧ s.SameBase s' ∧ ∃ t', t.txStep e = some t' ∧ t'.Wf ∧ t.SameBase t' ∧
      t'.view = s'.view := by
  cases e with
  | updateKey a newKey =>
    obtain rfl := Option.some_inj.mp hstep
    obtain ⟨-, hre, hv⟩ := hs.updateKey a newKey
    obtain ⟨-, hre', hv'⟩ := ht.updateKey a newKey
    exact ⟨hre.wf, hre.base, _, rfl, hre'.wf, hre'.base, by rw [hv, hv', hview]⟩
  | run p =>
    obtain ⟨hm, t', ht', hm', hv⟩ := txStep_alike (e := .run p) hs ht hview trivial hstep
    exact ⟨hm.wf, hm.base, t', ht', hm'.wf, hm'.base, hv⟩
  | setTxContext thash bhash ti =>
    obtain ⟨hm, t', ht', hm', hv⟩ :=
      txStep_alike (e := .setTxContext thash bhash ti) hs ht hview trivial hstep
    exact ⟨hm.wf, hm.base, t', ht', hm'.wf, hm'.base, hv⟩

/-- The flat snapshot has what the trie has, unless an object is marked. -/
def Flat (s : StateDB) : Prop :=
  ∀ flat, s.snap = some flat → (∀ a ∈ s.stateObjectsDirtyStorage, a ∈ s.stateObjectsDirty) ∧
    ∀ a ∉ s.stateObjectsDirty, s.trie a = flat a

theorem Flat.load (h : s.Flat) (ha : a ∉ s.stateObjectsDirty) : s.load a = s.trie a := by
  unfold StateDB.load
  split
  · next flat hsnap => exact ((h flat hsnap).2 a ha).symm
  · rfl

theorem Flat.of_base (h : s.Flat) (hb : s.SameBase s') : s'.Flat := by
  unfold Flat
  rw [hb.snap, hb.trie, hb.stateObjectsDirty, hb.stateObjectsDirtyStorage]
  exact h

theorem Flat.ended (h : s.Flat) (hend : Ended true ssr s s') : s'.Flat := by
  intro flat hsnap
  obtain ⟨hlater, htrie⟩ := h flat (hend.snap ▸ hsnap)
  have hlater' : ∀ a ∈ s'.stateObjectsDirtyStorage, a ∈ s'.stateObjectsDirty := by
    intro a ha
    refine (hend.dirty a).mpr (((hend.later a).mp ha).imp (hlater a) ?_)
    rintro ⟨-, hd, o, ho, -⟩
    exact ⟨hd, by simp [ho]⟩
  refine ⟨hlater', fun a ha => ?_⟩
  obtain ⟨hd, hclean⟩ := not_or.mp (mt (hend.dirty a).mpr ha)
  rw [hend.trie a (.inr fun hl => ha (hlater' a hl)), ← htrie a hd]
  unfold World.writes
  split
  · next o ho => exact if_neg fun hd => hclean ⟨hd, by simp [ho]⟩
  · rfl

theorem Flat.rooted (h : s.Flat) (hroot : Rooted s s') : s'.Flat := by
  intro flat hsnap
  obtain ⟨hlater, htrie⟩ := h flat (hroot.snap ▸ hsnap)
  refine ⟨by simp [hroot.later], fun a ha => ?_⟩
  have hd := mt (hroot.dirty a).mpr ha
  rw [hroot.trie a fun hl => hd (hlater a hl), htrie a hd]

theorem Flat.finalise (h : s.Flat) (hwf : s.Wf) (hok : s.finalise true ssr = .ok s') : s'.Flat := by
  cases ssr with
  | false => exact h.ended (hwf.finalise_false hok)
  | true =>
    obtain ⟨s₁, hend, hroot⟩ := hwf.finalise_true hok
    exact (h.ended hend).rooted hroot

theorem Flat.of_committed (h : Committed true s s') : s'.Flat := by
  intro flat hsnap
  rw [h.snap] at hsnap
  cases hsnap

theorem of_runs {snaps : Bool}
    (h : Runs (deedStep false) Live ([], StateDB.new root snaps) es (roots, s)) :
    s.Wf ∧ s.Flat := by
  refine h.invariant (P := fun x => x.2.Wf ∧ x.2.Flat) ⟨.new root snaps, ?_⟩ ?_
  · intro flat hsnap
    cases snaps with
    | false => cases hsnap
    | true =>
      cases hsnap
      exact ⟨nofun, fun _ _ => rfl⟩
  rintro ⟨roots, s⟩ e ⟨roots', s'⟩ hok hstep ⟨hwf, hflat⟩
  cases e with
  | step e =>
    obtain ⟨s₁, h₁, heq⟩ := Option.map_eq_some_iff.mp hstep
    cases heq
    obtain ⟨hwf', hb, -⟩ := txStep_same hwf hwf rfl h₁
    exact ⟨hwf', hflat.of_base hb⟩
  | finalise | intermediateRoot =>
    obtain ⟨s₁, h₁, heq⟩ := Option.map_eq_some_iff.mp hstep
    cases heq
    have h₁ := toOption_eq_some.mp h₁
    exact ⟨hwf.finalise h₁, hflat.finalise hwf h₁⟩
  | commit =>
    obtain ⟨⟨root, s₁⟩, h₁, heq⟩ := Option.map_eq_some_iff.mp hstep
    cases heq
    have hc := hwf.committed (fun a ha => Option.isSome_iff_ne_none.mp (List.all_eq_true.mp hok a ha))
      (toOption_eq_some.mp h₁) fun a => hflat.load
    exact ⟨hc.wf, .of_committed hc⟩

/-! ## Side by side -/

/-- Two databases that show the same and would write the same. -/
structure Alike (s t : StateDB) : Prop where
  wf : s.Wf
  wf' : t.Wf
  flat : s.Flat
  flat' : t.Flat
  view : t.view = s.view
  trie : t.trie = s.trie
  dirty : ∀ a, a ∈ t.stateObjectsDirty ↔ a ∈ s.stateObjectsDirty
  settled : s.stateObjectsDirtyStorage = []
  settled' : t.stateObjectsDirtyStorage = []

theorem Alike.step (h : Alike s t) (hstep : s.txStep e = some s') :
    ∃ t', t.txStep e = some t' ∧ Alike s' t' := by
  obtain ⟨hwf, hb, t', ht', hwf', hb', hview⟩ := txStep_same h.wf h.wf' h.view hstep
  refine ⟨t', ht', hwf, hwf', h.flat.of_base hb, h.flat'.of_base hb', hview, ?_, ?_, ?_, ?_⟩
  · rw [hb'.trie, hb.trie, h.trie]
  · rw [hb'.stateObjectsDirty, hb.stateObjectsDirty]
    exact h.dirty
  · rw [hb.stateObjectsDirtyStorage, h.settled]
  · rw [hb'.stateObjectsDirtyStorage, h.settled']

theorem Wf.remembers_iff (h : s.Wf) {de : Bool} : s.remembers de = true ↔ ∃ a, s.view.Dirtied a ∧
    ∃ o, s.view.objects a = some o ∧ o.gone de = false ∧ o.account.isProgramAccount = true := by
  unfold remembers
  simp only [List.any_eq_true, Option.any_eq_true, Bool.and_eq_true, Bool.not_eq_true']
  constructor
  · rintro ⟨a, ha, so, hlook, hgone, hp⟩
    exact ⟨a, h.toCoherent.mem_dirties.mp ha, so.view, view_objects_of_object hlook,
      (so.view_gone de).trans hgone, by simpa using hp⟩
  · rintro ⟨a, ha, o, ho, hgone, hp⟩
    obtain ⟨so, hlook, rfl⟩ := h.live_of_marked (.inr ha) ho
    exact ⟨a, h.toCoherent.mem_dirties.mpr ha, so, hlook, (so.view_gone de).symm.trans hgone,
      by simpa using hp⟩

/-- What `Finalise` does when nothing is left for later. -/
structure Settles (s s' : StateDB) : Prop where
  wf : s'.Wf
  view : s'.view = s.view.finalise true
  trie : s'.trie = s.view.writes true s.trie
  dirty : ∀ a, a ∈ s'.stateObjectsDirty ↔
    a ∈ s.stateObjectsDirty ∨ (s.view.Dirtied a ∧ s.view.objects a ≠ none)
  settled : s'.stateObjectsDirtyStorage = []

theorem Wf.settles (h : s.Wf) (hset : s.stateObjectsDirtyStorage = [])
    (hrem : ssr = false → s.remembers true = false) (hok : s.finalise true ssr = .ok s') :
    Settles s s' := by
  cases ssr with
  | false =>
    have hend := h.finalise_false hok
    have hnil : s'.stateObjectsDirtyStorage = [] := by
      rw [List.eq_nil_iff_forall_not_mem]
      intro a ha
      rcases (hend.later a).mp ha with ha | ⟨-, hd, ho⟩
      · rw [hset] at ha
        cases ha
      · exact Bool.eq_false_iff.mp (hrem rfl) (h.remembers_iff.mpr ⟨a, hd, ho⟩)
    exact ⟨hend.wf, hend.view, funext fun a => hend.trie a (.inr (by rw [hnil]; exact nofun)),
      hend.dirty, hnil⟩
  | true =>
    obtain ⟨s₁, hend, hroot⟩ := h.finalise_true hok
    obtain ⟨htrie, hnil⟩ := Beside.trie_end hend hroot hset
    refine ⟨hroot.wf, hroot.view.trans hend.view, htrie, fun a => ?_, hnil⟩
    rw [hroot.dirty, hend.dirty]

theorem Alike.finalise (h : Alike s t) (ssr : Bool)
    (hrem : ssr = false → s.remembers true = false) (hok : s.finalise true ssr = .ok s') :
    ∃ t', t.finaliseOf true true ssr = .ok t' ∧ Alike s' t' := by
  have henc : Encodable true t.view := h.view ▸ h.wf.encodable_of_finalise hok
  have hrem' : ssr = false → t.remembers true = false := by
    intro hssr
    rw [Bool.eq_false_iff, Ne, h.wf'.remembers_iff, h.view, ← h.wf.remembers_iff, hrem hssr]
    exact Bool.false_ne_true
  obtain ⟨t', ht'⟩ : ∃ t', t.finalise true ssr = .ok t' := by
    cases ssr with
    | false => exact h.wf'.finalise_false_exists henc
    | true => exact h.wf'.finalise_true_exists henc h.settled'
  have hs := h.wf.settles h.settled hrem hok
  have ht := h.wf'.settles h.settled' hrem' ht'
  refine ⟨t', ?_, hs.wf, ht.wf, h.flat.finalise h.wf hok, h.flat'.finalise h.wf' ht', ?_, ?_,
    fun a => ?_, hs.settled, ht.settled⟩
  · rw [finaliseOf, if_neg, ht']
    cases ssr with
    | false => simp [hrem' rfl]
    | true => simp
  · rw [hs.view, ht.view, h.view]
  · rw [hs.trie, ht.trie, h.view, h.trie]
  · rw [hs.dirty, ht.dirty, h.view, h.dirty]

theorem Wf.lookup_of_dirties (h : s.Wf) (ha : a ∈ s.journal.dirties) :
    s.stateObjects.lookup a ≠ none ↔ s.view.objects a ≠ none := by
  cases hlook : s.stateObjects.lookup a with
  | none => simp [view_objects, objectAt, hlook, h.dirties_live a ha hlook]
  | some so => simp [view_objects_of_object hlook]

theorem Alike.commit (h : Alike s t) (hok : s.commit true = .ok (root, s'))
    (hlive : ∀ a ∈ s.journal.dirties, s.stateObjects.lookup a ≠ none) :
    ∃ t', t.commit true = .ok (root, t') ∧ Alike s' t' := by
  obtain ⟨t', ht'⟩ := h.wf.commit_same h.wf' h.view h.trie h.dirty hok
  have hlive' : ∀ a ∈ t.journal.dirties, t.stateObjects.lookup a ≠ none := by
    intro a ha
    have ha' : a ∈ s.journal.dirties := by
      rwa [h.wf.toCoherent.mem_dirties, ← h.view, ← h.wf'.toCoherent.mem_dirties]
    rw [h.wf'.lookup_of_dirties ha, h.view, ← h.wf.lookup_of_dirties ha']
    exact hlive a ha'
  have hs := h.wf.committed hlive hok fun a => h.flat.load
  have ht := h.wf'.committed hlive' ht' fun a => h.flat'.load
  refine ⟨t', ht', hs.wf, ht.wf, .of_committed hs, .of_committed ht, ?_, ?_, fun a => ?_, ?_, ?_⟩
  · simp only [hs.view, ht.view, h.view, h.dirty]
  · rw [← (h.wf.toCoherent.commit_cells hok).1, ← (h.wf'.toCoherent.commit_cells ht').1]
  · exact iff_of_false (ht.dirty a) (hs.dirty a)
  · simp [List.eq_nil_iff_forall_not_mem, hs.later, h.settled]
  · simp [List.eq_nil_iff_forall_not_mem, ht.later, h.settled']

theorem Alike.runs (h : Alike s t) (hrun : Runs (deedStep false) Forgetful ([], s) es (roots, s')) :
    ∃ t', Runs (deedStep true) (fun _ _ => True) ([], t) es (roots, t') ∧ Alike s' t' := by
  refine hrun.history (P := fun es x => ∃ t', Runs (deedStep true) (fun _ _ => True) ([], t) es
    (x.1, t') ∧ Alike x.2 t') ⟨t, .nil _, h⟩ ?_
  rintro es ⟨roots, s⟩ e ⟨roots', s'⟩ hok hstep ⟨t, hrun, h⟩
  cases e with
  | step e =>
    obtain ⟨s₁, h₁, heq⟩ := Option.map_eq_some_iff.mp hstep
    cases heq
    obtain ⟨t', ht', ha⟩ := h.step h₁
    exact ⟨t', hrun.snoc trivial (by simp [deedStep, ht']), ha⟩
  | finalise ssr =>
    obtain ⟨s₁, h₁, heq⟩ := Option.map_eq_some_iff.mp hstep
    cases heq
    obtain ⟨t', ht', ha⟩ := h.finalise ssr (by rintro rfl; exact hok) (toOption_eq_some.mp h₁)
    exact ⟨t', hrun.snoc trivial (by simp [deedStep, ht', Except.toOption]), ha⟩
  | intermediateRoot =>
    obtain ⟨s₁, h₁, heq⟩ := Option.map_eq_some_iff.mp hstep
    cases heq
    obtain ⟨t', ht', ha⟩ := h.finalise true (by rintro ⟨⟩) (toOption_eq_some.mp h₁)
    refine ⟨t', hrun.snoc trivial ?_, ha⟩
    simp [deedStep, ht', Except.toOption, ha.trie]
  | commit =>
    obtain ⟨⟨root, s₁⟩, h₁, heq⟩ := Option.map_eq_some_iff.mp hstep
    cases heq
    obtain ⟨t', ht', ha⟩ := h.commit (toOption_eq_some.mp h₁) fun a ha =>
      Option.isSome_iff_ne_none.mp (List.all_eq_true.mp hok a ha)
    exact ⟨t', hrun.snoc trivial (by simp [deedStep, ht', Except.toOption]), ha⟩

theorem Alike.read {α : Type} (h : Alike s t) (p : DbProg α) :
    (handler.run p t).map Prod.fst = (handler.run p s).map Prod.fst := by
  have hsim := simulation.run p (⟨h.wf, rfl⟩ : s.Shows s.view)
  have hsim' := simulation.run p (⟨h.wf', h.view⟩ : t.Shows s.view)
  cases hw : World.handler.run p s.view with
  | error e =>
    rw [hw] at hsim hsim'
    rw [show handler.run p s = _ from hsim, show handler.run p t = _ from hsim']
  | ok y =>
    rw [hw] at hsim hsim'
    obtain ⟨s₁, heq, -⟩ := hsim
    obtain ⟨t', heq', -⟩ := hsim'
    rw [heq, heq']
    rfl

/-! ## The copy -/

theorem dlookup_filter_map (p : Address → Bool) (f : StateObject → StateObject)
    (l : List (Sigma fun _ : Address => StateObject)) (a : Address) :
    ((l.filter (p ·.1)).map fun e => (⟨e.1, f e.2⟩ : Sigma fun _ : Address => StateObject)).dlookup a
      = if p a then (l.dlookup a).map f else none := by
  induction l with
  | nil => simp
  | cons e l ih =>
    obtain ⟨b, o⟩ := e
    by_cases hb : b = a
    · subst hb
      cases hp : p b <;> simp [hp, ih]
    · rw [List.dlookup_cons_ne l ⟨b, o⟩ (Ne.symm hb), ← ih]
      cases hp : p b
      · rw [List.filter_cons_of_neg (by simp [hp])]
      · rw [List.filter_cons_of_pos (by exact hp), List.map_cons,
          List.dlookup_cons_ne _ _ (Ne.symm hb)]

section Copyable

variable (h : Copyable s) (hwf : s.Wf)

include h hwf

theorem Copyable.live (ha : a ∈ s.stateObjectsDirty) :
    ∃ o, s.stateObjects.lookup a = some o ∧ o.deepCopy = o := by
  obtain ⟨o, ho⟩ := Option.ne_none_iff_exists'.mp (hwf.kept_live a (Finset.mem_union_left _ ha))
  exact ⟨o, ho, by rw [StateObject.deepCopy, ← h.marked a ha o ho]⟩

theorem Copyable.lookup_copied (a : Address) : s.copied.stateObjects.lookup a =
    if a ∈ s.stateObjectsDirty then s.stateObjects.lookup a else none := by
  unfold copied
  rw [AList.lookup_to_alist, dlookup_filter_map]
  simp only [isCopied, h.closed, Journal.newJournal, List.not_mem_nil, false_or, decide_eq_true_eq]
  split
  · next ha =>
    obtain ⟨o, ho, hcopy⟩ := h.live hwf ha
    exact (congrArg (Option.map _) ho).trans ((congrArg some hcopy).trans ho.symm)
  · rfl

omit hwf in
theorem Copyable.dirty_copied (a : Address) :
    a ∈ s.copied.stateObjectsDirty ↔ a ∈ s.stateObjectsDirty := by
  simp [copied, h.closed, Journal.newJournal]

theorem Copyable.wf_copied : s.copied.Wf := by
  refine .of_good (fun a => ⟨fun so hso => ?_, fun hnone => ?_⟩) rfl rfl hwf.accessList
  · have hso' := (h.lookup_copied hwf a).symm.trans hso
    split at hso'
    · exact hwf.objects a so hso'
    · cases hso'
  · have hnone' := (h.lookup_copied hwf a).symm.trans hnone
    have ha : a ∉ s.stateObjectsDirty := by
      intro ha
      rw [if_pos ha] at hnone'
      exact hwf.kept_live a (Finset.mem_union_left _ ha) hnone'
    exact ⟨(h.unmarked a ha).1, decide_eq_false fun hd => ha ((h.dirty_copied a).mp hd),
      by simp [cell, copied]⟩

theorem Copyable.view_copied :
    s.copied.view = { s.view with thash := 0, bhash := 0, txIndex := 0 } := by
  have hobjects : s.copied.view.objects = s.view.objects := by
    funext a
    rw [view_objects, objectAt, h.lookup_copied hwf a]
    split
    · next ha =>
      obtain ⟨o, ho, -⟩ := h.live hwf ha
      rw [ho]
      exact (view_objects_of_object ho).symm
    · next ha =>
      rw [Option.none_or, Option.map_map]
      exact (h.unmarked a ha).2.symm
  refine World.ext rfl rfl rfl rfl rfl rfl rfl rfl rfl hobjects ?_ ?_
  · simp only [view, h.closed]
    rfl
  · simp only [view, h.closed]
    rfl

theorem Copyable.alike (hflat : s.Flat) (thash bhash : Hash) (ti : ℕ) :
    Alike (s.setTxContext thash bhash ti) (s.copied.setTxContext thash bhash ti) := by
  have hcopied := h.wf_copied hwf
  have hcontext : ∀ u : StateDB, (u.setTxContext thash bhash ti).view =
    { u.view with thash := thash, bhash := bhash, txIndex := ti } := fun _ => rfl
  constructor
  · exact (txStep_same (e := .setTxContext thash bhash ti) hwf hwf rfl rfl).1
  · exact (txStep_same (e := .setTxContext thash bhash ti) hcopied hcopied rfl rfl).1
  · exact hflat
  · exact fun flat hsnap => ⟨by rintro a ⟨⟩, fun a ha =>
      (hflat flat hsnap).2 a fun hd => ha ((h.dirty_copied a).mpr hd)⟩
  · rw [hcontext, hcontext, h.view_copied hwf]
  · rfl
  · exact h.dirty_copied
  · exact h.settled
  · rfl

end Copyable

/-- A copy between transactions does whatever the original does while no contract is remembered:
the same roots, and the same answers to every program. -/
theorem copy_behaves_alike {root : StateRoot} {snaps : Bool} {roots : List StateRoot}
    {es : List Deed}
    (hreach : Runs (deedStep false) Live ([], StateDB.new root snaps) es (roots, s))
    (hcopy : Copyable s) :
    ∃ c, s.copy = .ok c ∧ ∀ thash bhash ti es' roots' s',
      Runs (deedStep false) Forgetful ([], s.setTxContext thash bhash ti) es' (roots', s') →
      ∃ t', Runs (deedStep true) (fun _ _ => True) ([], c.setTxContext thash bhash ti) es'
          (roots', t') ∧
        (∀ (α : Type) (p : DbProg α),
          (handler.run p t').map Prod.fst = (handler.run p s').map Prod.fst) ∧
        ∀ r s'', s'.commit true = .ok (r, s'') → ∃ t'', t'.commit true = .ok (r, t'') := by
  obtain ⟨hwf, hflat⟩ := of_runs hreach
  refine ⟨s.copied, if_pos fun a ha => ?_, fun thash bhash ti es' roots' s' hrun => ?_⟩
  · obtain ⟨o, ho, -⟩ := hcopy.live hwf ha
    exact List.mem_toFinset.mpr (mem_keys_of_object ho)
  · obtain ⟨t', hrun', halike⟩ := (hcopy.alike hwf hflat thash bhash ti).runs hrun
    exact ⟨t', hrun', fun α p => halike.read p, fun r s'' hok =>
      halike.wf.commit_same halike.wf' halike.view halike.trie halike.dirty hok⟩

/-- Between transactions, with every object marked. -/
def allMarked (s : StateDB) : Bool :=
  s.journal.entries.isEmpty && s.journal.dirties.isEmpty && s.stateObjectsDirtyStorage.isEmpty &&
    s.stateObjects.entries.all fun e => decide (e.1 ∈ s.stateObjectsDirty) && !e.2.created

theorem Wf.copyable (h : s.Wf) (hs : s.allMarked = true) : Copyable s := by
  simp only [allMarked, Bool.and_eq_true, List.isEmpty_iff, List.all_eq_true, decide_eq_true_eq,
    Bool.not_eq_true'] at hs
  obtain ⟨⟨⟨hentries, hdirties⟩, hlater⟩, hall⟩ := hs
  refine ⟨?_, hlater, fun a _ o ho => ?_, fun a ha => ?_⟩
  · cases hj : s.journal with
    | mk entries dirties =>
      rw [hj] at hentries hdirties
      rw [show entries = [] from hentries, show dirties = [] from hdirties]
      rfl
  · exact (hall ⟨a, o⟩ (AList.mem_lookup_iff.mp ho)).2
  · have hlook : s.stateObjects.lookup a = none := by
      by_contra hne
      obtain ⟨o, ho⟩ := Option.ne_none_iff_exists'.mp hne
      exact ha (hall ⟨a, o⟩ (AList.mem_lookup_iff.mp ho)).1
    refine ⟨h.unloaded a hlook, ?_⟩
    simp [view_objects, objectAt, hlook, Function.comp_def]

def storeDeed : Deed := .step (.run (.call (.setState 7 0 1) fun _ => .pure ()))

def creditDeed : Deed := .step (.run (.call (.addBalance 9 5) fun _ => .pure ()))

/-- Transactions before the copy; after it one more in the same block, and another block. -/
theorem copy_between_blocks_behaves_alike : ∃ roots s c roots' s' t',
    Runs (deedStep false) Live ([], StateDB.new oneContract true)
      [creditDeed, .finalise false, storeDeed, .intermediateRoot] (roots, s) ∧
    s.copy = .ok c ∧
    Runs (deedStep false) Forgetful ([], s.setTxContext 1 1 0)
      [creditDeed, .finalise false, storeDeed, .commit, creditDeed, .commit] (roots', s') ∧
    Runs (deedStep true) (fun _ _ => True) ([], c.setTxContext 1 1 0)
      [creditDeed, .finalise false, storeDeed, .commit, creditDeed, .commit] (roots', t') ∧
    roots'.map (fun r => (r 9).map (·.balance)) = [some 15, some 10] ∧
    ∀ (α : Type) (p : DbProg α),
      (handler.run p t').map Prod.fst = (handler.run p s').map Prod.fst := by
  obtain ⟨⟨roots, s⟩, hs, hmap⟩ := Option.bind_eq_some_iff.mp (show ((exec (deedStep false)
    ([], StateDB.new oneContract true)
      [creditDeed, .finalise false, storeDeed, .intermediateRoot]).bind fun x =>
    (exec (guarded (deedStep false) Forgetful) ([], x.2.setTxContext 1 1 0)
      [creditDeed, .finalise false, storeDeed, .commit, creditDeed, .commit]).map
    fun y => (x.2.allMarked, y.1.map fun r => (r 9).map (·.balance))) =
      some (true, [some 15, some 10]) by decide +kernel)
  obtain ⟨⟨roots', s'⟩, hs', heq⟩ := Option.map_eq_some_iff.mp hmap
  obtain ⟨hmarked, hroots⟩ := Prod.mk.inj heq
  have hreach : Runs (deedStep false) Live _ _ (roots, s) :=
    Runs.of_exec_append (.nil _) (by simp [Live, creditDeed, storeDeed]) hs
  have hrun := (Runs.of_exec hs').of_guarded
  obtain ⟨c, hc, halike⟩ := copy_behaves_alike hreach ((of_runs hreach).1.copyable hmarked)
  obtain ⟨t', hrun', hread, -⟩ := halike 1 1 0 _ roots' s' hrun
  exact ⟨roots, s, c, roots', s', t', hreach, hc, hrun, hrun', hroots, hread⟩

def bothRoots (before after : List Deed) : Option (List StateRoot × List StateRoot) := do
  let (_, s) ← exec (deedStep false) ([], StateDB.new oneContract false) before
  let c ← s.copy.toOption
  let (roots, _) ← exec (deedStep false) ([], s) after
  let (roots', _) ← exec (deedStep true) ([], c) after
  return (roots, roots')

/-- A copy fails to remember contracts, forgets roots left for later, and misses open changes. -/
theorem copy_differs :
    (exec (deedStep false) ([], StateDB.new oneContract false)
      [storeDeed, .finalise false]).isSome = true ∧
    (bothRoots [] [storeDeed, .finalise false]).isNone = true ∧
    (bothRoots [storeDeed, .finalise false] [.intermediateRoot]).map (Prod.map
      (List.map fun r => (r 7).map (·.storageRoot 0))
      (List.map fun r => (r 7).map (·.storageRoot 0))) = some ([some 1], [some 0]) ∧
    (bothRoots [creditDeed] [.intermediateRoot]).map (Prod.map (List.map fun r => (r 9).isSome)
      (List.map fun r => (r 9).isSome)) = some ([true], [false]) :=
  ⟨by decide +kernel, by decide +kernel, by decide +kernel, by decide +kernel⟩

end StateDB

end Kaia
