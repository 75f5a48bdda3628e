import Kaia.Foundation.Runs
import Kaia.State.Finalise

/-! # Sequences of mutators

Methods are called in any order, keys are updated, and snapshots are nested in any way. A revert
gives back all that the later calls have changed, as long as the journal records them.
-/

namespace Kaia

open Foundation

namespace World

variable {w w' : World}

@[simp] theorem getOrNew_forced (w : World) (a : Address) (acc : Account) :
    (w.getOrNew a acc).2.forced = w.forced := by
  unfold getOrNew create
  cases w.find a with
  | some o => rfl
  | none =>
    cases w.objects a with
    | some | none => rfl

theorem getOrNew_empty (w : World) (a : Address) :
    (w.getOrNew a eoa).1.account.empty = w.read a true (·.account.empty) := by
  unfold getOrNew read
  cases w.find a with
  | some | none => rfl

def Touches (w : World) : DbCall → Prop
  | .addBalance a amount => a = ripemd ∧ amount = 0 ∧ w.read a true (·.account.empty) = true
  | _ => False

theorem addBalance_forced {a : Address} {amount : ℤ}
    (h : ¬ w.Touches (.addBalance a amount)) : (w.addBalance a amount).forced = w.forced := by
  simp only [addBalance]
  by_cases hz : amount = 0
  · rw [if_pos hz]
    by_cases he : (w.getOrNew a eoa).1.account.empty = true
    · have ha : a ≠ ripemd := fun ha => h ⟨ha, hz, (w.getOrNew_empty a).symm.trans he⟩
      simp only [he, if_true, touch, ha, if_false]
      exact w.getOrNew_forced a eoa
    · rw [if_neg he]
      exact w.getOrNew_forced a eoa
  · rw [if_neg hz]
    exact w.getOrNew_forced a eoa

theorem answer_forced {c : DbCall} {r : c.Ret} (h : ¬ w.Touches c)
    (hok : w.answer c = .ok (r, w')) : w'.forced = w.forced := by
  have hret : ∀ {α : Type} {x : α} {v : World} {y : α}, (Except.ok (x, v) : Except Crash _) =
      .ok (y, w') → w' = v := fun h => (Prod.mk.inj (Except.ok.inj h)).2.symm
  cases c with
  | addBalance a amount => rw [hret hok]; exact addBalance_forced h
  | subBalance a amount =>
    rw [hret hok]
    simp only [subBalance]
    split <;> exact w.getOrNew_forced a eoa
  | setBalance a amount | setNonce a amount => rw [hret hok]; exact w.getOrNew_forced a eoa
  | incNonce a => rw [hret hok]; exact w.getOrNew_forced a eoa
  | setCode a code => rw [hret hok]; exact w.getOrNew_forced a contract
  | setState a key value =>
    rw [hret hok]
    simp only [setState]
    split <;> exact w.getOrNew_forced a contract
  | createEOA a hr key | createSmartContractAccount a hr key =>
    rw [hret hok, createAccountWith, create]
    cases w.objects a <;> rfl
  | createSmartContractAccountWithKey a hr key format r =>
    rw [hret hok, createAccountWith, create]
    cases w.objects a <;> rfl
  | selfDestruct a =>
    rw [hret hok, selfDestruct]
    cases w.find a <;> rfl
  | selfDestruct6780 a =>
    rw [hret hok, selfDestruct6780]
    cases w.find a with
    | none => rfl
    | some o =>
      simp only
      split <;> rfl
  | addPreimage hash preimage =>
    rw [hret hok, addPreimage]
    cases w.preimages hash <;> rfl
  | subRefund gas =>
    obtain ⟨v, hv, heq⟩ := map_eq_ok.mp hok
    obtain ⟨-, rfl⟩ := Prod.mk.inj heq
    unfold subRefund at hv
    split at hv
    · cases hv
    · obtain rfl := Except.ok.inj hv
      rfl
  | addSlotToAccessList a slot =>
    obtain ⟨v, hv, heq⟩ := map_eq_ok.mp hok
    obtain ⟨-, rfl⟩ := Prod.mk.inj heq
    obtain ⟨x, -, hv⟩ := bind_eq_ok.mp hv
    obtain rfl := Except.ok.inj hv
    rfl
  | slotInAccessList a slot =>
    obtain ⟨v, -, heq⟩ := map_eq_ok.mp hok
    obtain ⟨-, rfl⟩ := Prod.mk.inj heq
    rfl
  | _ =>
    obtain rfl := hret hok
    rfl

end World

namespace StateDB

/-- What may happen to a database within a transaction. -/
inductive Mutator
  | call (c : DbCall)
  | updateKey (a : Address) (newKey : AccountKey)
  | snapshot
  | revertToSnapshot (revid : ℕ)

def apply (s : StateDB) : Mutator → Option StateDB
  | .call c => ((s.answer c).map (·.2)).toOption
  | .updateKey a newKey => some (s.updateKey a newKey).2
  | .snapshot => some s.snapshot.2
  | .revertToSnapshot revid => (s.revertToSnapshot revid).toOption

/-- The databases between `New` and `Commit`; access lists are prepared before use. -/
inductive Reached : StateDB → Prop
  | new (root : StateRoot) (snaps : Bool) : Reached (StateDB.new root snaps)
  | mutate {s s' : StateDB} (m : Mutator) : Reached s → s.apply m = some s' → Reached s'
  | setTxContext {s : StateDB} (thash bhash : Hash) (ti : ℕ) :
      Reached s → Reached (s.setTxContext thash bhash ti)
  | prepare {s s' : StateDB} (r : Params.Rules) (sender feepayer coinbase : Address)
      (dst : Option Address) (precompiles : List Address) (list : AccessTuples) :
      Reached s → s.Unlisted →
      s.prepare r sender feepayer coinbase dst precompiles list = .ok s' → Reached s'
  | finalise {s s' : StateDB} (deleteEmptyObjects setStorageRoot : Bool) :
      Reached s → s.finalise deleteEmptyObjects setStorageRoot = .ok s' → Reached s'

def Nested (revid : ℕ) : Mutator → Prop
  | .revertToSnapshot revid' => revid < revid'
  | _ => True

/-- No key is changed, and the ripemd account is not touched while it is empty or missing. -/
def Journaled (s : StateDB) : Mutator → Prop
  | .call (.addBalance a amount) => ¬ (a = ripemd ∧ amount = 0 ∧ (s.isEmpty a).1 = true)
  | .updateKey a newKey => ∀ so acc, (s.getStateObject a).1 = some so →
      so.account.updateKey newKey = .ok acc → acc = so.account
  | _ => True

variable {s s' s'' t : StateDB} {a : Address} {de : Bool}

/-! ## The invariant holds throughout -/

variable {m : Mutator} {c : DbCall} {r : StateRoot}

theorem Wf.answer_step (h : s.Wf) {x : c.Ret × StateDB} (hx : s.answer c = .ok x) :
    s.Step x.2 ∧ s.view.answer c = .ok (x.1, x.2.view) := by
  have hans := h.answers c
  rw [hx] at hans
  cases hw : s.view.answer c with
  | error e => rw [hw] at hans; exact hans.elim
  | ok y =>
    rw [hw] at hans
    obtain ⟨hret, hstep, hview⟩ := hans
    refine ⟨hstep, ?_⟩
    rw [hret, hview]

theorem Wf.apply (h : s.Wf) (hm : s.apply m = some s') : s'.Wf := by
  cases m with
  | call c =>
    obtain ⟨x, hx, rfl⟩ := map_eq_ok.mp (toOption_eq_some.mp hm)
    exact (h.answer_step hx).1.wf
  | updateKey a newKey =>
    obtain rfl := Option.some_inj.mp hm
    exact (h.updateKey a newKey).2.1.wf
  | snapshot =>
    obtain rfl := Option.some_inj.mp hm
    exact h.snapshot
  | revertToSnapshot revid => exact h.revertToSnapshot (toOption_eq_some.mp hm)

theorem Wf.prepare (h : s.Wf) (hun : s.Unlisted) {r : Params.Rules}
    {sender feepayer coinbase : Address} {dst : Option Address} {precompiles : List Address}
    {list : AccessTuples}
    (hok : s.prepare r sender feepayer coinbase dst precompiles list = .ok s') : s'.Wf := by
  obtain ⟨x, hrun, hs'⟩ := bind_eq_ok.mp hok
  obtain rfl := Except.ok.inj hs'
  have hclear := h.clearAccess hun r
  have hwf := (run_alike hclear hclear rfl hrun).1.wf
  exact hwf.withRecords _ hwf.accessFits

theorem Reached.wf (h : Reached s) : s.Wf := by
  induction h with
  | new root snaps => exact .new root snaps
  | mutate m _ hm ih => exact ih.apply hm
  | setTxContext thash bhash ti _ ih => exact ih.withRecords _ ih.accessFits
  | prepare r sender feepayer coinbase dst precompiles list _ hun hok ih => exact ih.prepare hun hok
  | finalise de ssr _ hok ih => exact ih.finalise hok

/-! ## Nested snapshots -/

/-- The states of the valid snapshots, each reached from the one below by recorded changes. -/
inductive Chain (s₀ : StateDB) : StateDB → Prop
  | base {s : StateDB} (hrec : s₀.Recorded s) (hrev : s.validRevisions = s₀.validRevisions)
      (hid : s₀.nextRevisionId ≤ s.nextRevisionId) : Chain s₀ s
  | push {s s' : StateDB} (hchain : Chain s₀ s) (hrec : s.snapshot.2.Recorded s')
      (hrev : s'.validRevisions = s.snapshot.2.validRevisions)
      (hid : s.snapshot.2.nextRevisionId ≤ s'.nextRevisionId) : Chain s₀ s'

theorem Chain.recorded (h : Chain s s') (hrec : s'.Recorded s'')
    (hrev : s''.validRevisions = s'.validRevisions)
    (hid : s'.nextRevisionId ≤ s''.nextRevisionId) : Chain s s'' := by
  cases h with
  | base hrec' hrev' hid' => exact .base (hrec'.trans hrec) (hrev.trans hrev') (hid'.trans hid)
  | push hchain hrec' hrev' hid' =>
    exact .push hchain (hrec'.trans hrec) (hrev.trans hrev') (hid'.trans hid)

theorem Chain.step (h : Chain s s') (hstep : s'.Step s'') : Chain s s'' :=
  h.recorded hstep.toRecorded hstep.validRevisions hstep.nextRevisionId.ge

theorem Chain.extends (h : Chain s s') : s.Extends s' := by
  induction h with
  | base hrec hrev hid => exact ⟨hrec, by rw [hrev], hid⟩
  | push _ hrec hrev hid ih =>
    have hext : Extends _ _ := ⟨hrec, by rw [hrev], hid⟩
    exact ih.trans hext.of_snapshot

theorem Chain.revertToRevision (h : Chain s s') {r : Revision} (hr : r ∈ s'.validRevisions)
    (hlt : ∀ r' ∈ s.validRevisions, r'.id < r.id) (hext : s'.Extends t)
    (hok : t.revertToSnapshot r.id = .ok s'') :
    Chain s s'' ∧ s''.view.forced = t.view.forced := by
  induction h generalizing t with
  | base hrec hrev hid =>
    rw [hrev] at hr
    exact absurd (hlt r hr) (lt_irrefl _)
  | @push u v hchain hrec hrev hid ih =>
    have hext' : u.snapshot.2.Extends t := Extends.trans ⟨hrec, by rw [hrev], hid⟩ hext
    rw [hrev] at hr
    rcases List.mem_append.mp hr with hr | hr
    · exact ih hr hext'.of_snapshot hok
    · obtain rfl : r = ⟨u.nextRevisionId, u.journal.length⟩ := by simpa using hr
      obtain ⟨u', heq, hu, hrev', -, hview⟩ := hext'.revertToSnapshot
      obtain rfl : u' = s'' := Except.ok.inj (heq.symm.trans hok)
      exact ⟨hchain.recorded hu.toRecorded hrev' hu.nextRevisionId, by rw [hview]; rfl⟩

/-! ## Recorded mutators -/

theorem Wf.updateKey_step (h : s.Wf) {newKey : AccountKey}
    (hj : s.Journaled (.updateKey a newKey)) :
    s.Step (s.updateKey a newKey).2 ∧ (s.updateKey a newKey).2.view = s.view := by
  obtain ⟨obj, s₁, hget, hstep, hview, -, hlive⟩ := h.getStateObject a
  unfold Journaled at hj
  simp only [hget] at hj
  simp only [StateDB.updateKey, hget]
  cases obj with
  | none => exact ⟨hstep, hview⟩
  | some so =>
    simp only
    cases hk : so.account.updateKey newKey with
    | error e => exact ⟨hstep, hview⟩
    | ok acc =>
      obtain rfl := hj so acc rfl hk
      obtain ⟨hlook, -⟩ := hlive so rfl
      obtain ⟨hstep', hview'⟩ := hstep.wf.cache hlook rfl (hstep.wf.objects a so hlook) fun _ h => h
      exact ⟨hstep.trans hstep', hview'.trans hview⟩

theorem Wf.touches_of_journaled (h : s.Wf) (hj : s.Journaled (.call c)) : ¬ s.view.Touches c := by
  cases c with
  | addBalance a amount =>
    rintro ⟨ha, hz, he⟩
    have hread : (s.isEmpty a).1 = s.view.read a true (·.account.empty) :=
      (h.answersRead fun o => o.account.rootless_empty).1
    exact hj ⟨ha, hz, hread.trans he⟩
  | _ => exact not_false

theorem Chain.apply (h : Chain s s')
    (hnested : ∀ r ∈ s.validRevisions, ∀ revid, m = .revertToSnapshot revid → r.id < revid)
    (hj : s'.Journaled m) (hm : s'.apply m = some s'') :
    Chain s s'' ∧ s''.view.forced = s'.view.forced := by
  have hwf := h.extends.wf
  cases m with
  | call c =>
    obtain ⟨x, hx, rfl⟩ := map_eq_ok.mp (toOption_eq_some.mp hm)
    obtain ⟨hstep, hans⟩ := hwf.answer_step hx
    exact ⟨h.step hstep, World.answer_forced (hwf.touches_of_journaled hj) hans⟩
  | updateKey a newKey =>
    obtain rfl := Option.some_inj.mp hm
    obtain ⟨hstep, hview⟩ := hwf.updateKey_step hj
    exact ⟨h.step hstep, by rw [hview]⟩
  | snapshot =>
    obtain rfl := Option.some_inj.mp hm
    exact ⟨.push h (.refl hwf.snapshot) rfl le_rfl, rfl⟩
  | revertToSnapshot revid =>
    have hok := toOption_eq_some.mp hm
    obtain ⟨r, hr, rfl, -⟩ := revertToSnapshot_eq_ok hok
    exact h.revertToRevision hr (fun r' hr' => hnested r' hr' r.id rfl) (.refl hwf) hok

theorem Chain.of_runs {ms : List Mutator} (h : s.Wf)
    (hrun : Runs StateDB.apply (fun s' m => Nested s.snapshot.1 m ∧ s'.Journaled m) s.snapshot.2 ms s') :
    Chain s.snapshot.2 s' ∧ s'.view.forced = s.view.forced := by
  refine hrun.invariant (P := fun s' => Chain s.snapshot.2 s' ∧ s'.view.forced = s.view.forced)
    ⟨.base (.refl h.snapshot) rfl le_rfl, rfl⟩ fun t m u hok hm hinv => ?_
  obtain ⟨hnested, hj⟩ := hok
  have hids : ∀ r ∈ s.snapshot.2.validRevisions, ∀ revid, m = .revertToSnapshot revid →
      r.id < revid := by
    rintro r hr revid rfl
    exact lt_of_le_of_lt (Nat.lt_succ_iff.mp (h.snapshot.revisions_lt r hr).1) hnested
  obtain ⟨hchain, hforced⟩ := hinv.1.apply hids hj hm
  exact ⟨hchain, hforced.trans hinv.2⟩

/-! ## What a revert gives back -/

section

variable (hs : s.Wf) (ht : t.Wf) (hview : t.view = s.view) (hbase : s.SameBase t)

include hs ht hview hbase

theorem intermediateRoot_unique {r' : StateRoot} {t' : StateDB}
    (hok : s.intermediateRoot de = .ok (r, s')) (hok' : t.intermediateRoot de = .ok (r', t')) :
    r' = r := by
  rw [hs.intermediateRoot_root hok, ht.intermediateRoot_root hok', hview, hbase.trie,
    hbase.stateObjectsDirtyStorage]

theorem intermediateRoot_alike (hopen : ∀ a, s.known a .opened → t.known a .opened)
    (hok : s.intermediateRoot de = .ok (r, s')) : ∃ t', t.intermediateRoot de = .ok (r, t') := by
  obtain ⟨s₂, hfin, -⟩ := bind_eq_ok.mp hok
  obtain ⟨s₁, hend, hroot⟩ := hs.finalise_true hfin
  obtain ⟨t₁, hfold⟩ := ht.finaliseLoop_exists true (hview ▸ hs.encodable_of_finalise hfin)
  have hend' := ht.ended hfold
  obtain ⟨t₂, ht₂⟩ := Wf.updateStorageRoots_exists (s := t₁.clearJournalAndRefund)
    fun a ha o ho => by
      have hlater : a ∈ s₁.stateObjectsDirtyStorage := by
        rw [hend'.later, hview, hbase.stateObjectsDirtyStorage] at ha
        exact (hend.later a).mpr ha
      rw [hend'.view, hview, ← hend.view] at ho
      obtain ⟨he, hop⟩ := hroot.opened a hlater o ho
      refine ⟨he, fun hp => ?_⟩
      rcases hend.opened_before a (hop hp) with hk | ⟨hd, o', ho', hg⟩
      · exact hend'.opened a (hopen a hk)
      · exact hend'.opened_of_dirtied a o' (hview ▸ hd) (hview ▸ ho') hg
  have hok' : t.intermediateRoot de = .ok (t₂.trie, t₂) :=
    bind_eq_ok.mpr ⟨t₂, bind_eq_ok.mpr ⟨t₁, hfold, ht₂⟩, rfl⟩
  obtain rfl := intermediateRoot_unique hs ht hview hbase hok hok'
  exact ⟨t₂, hok'⟩

end

/-- No reader can tell the databases apart, and the same roots follow, after any program. -/
structure Restored (s s' : StateDB) : Prop where
  exist : ∀ a, (s'.exist a).1 = (s.exist a).1
  getBalance : ∀ a, (s'.getBalance a).1 = (s.getBalance a).1
  getNonce : ∀ a, (s'.getNonce a).1 = (s.getNonce a).1
  getCode : ∀ a, (s'.getCode a).1 = (s.getCode a).1
  accountType : ∀ a, (s'.getAccount a).1.map (·.type) = (s.getAccount a).1.map (·.type)
  getKey : ∀ a, (s'.getKey a).1 = (s.getKey a).1
  getState : ∀ a key, (s'.getState a key).1 = (s.getState a key).1
  getCommittedState : ∀ a key, (s'.getCommittedState a key).1 = (s.getCommittedState a key).1
  hasSelfDestructed : ∀ a, (s'.hasSelfDestructed a).1 = (s.hasSelfDestructed a).1
  isCreated : ∀ a, (s'.isCreated a).1 = (s.isCreated a).1
  toRecords : s'.toRecords = s.toRecords
  intermediateRoot : ∀ de r t, s.intermediateRoot de = .ok (r, t) →
    ∃ t', s'.intermediateRoot de = .ok (r, t')
  commit : ∀ de r t, s.commit de = .ok (r, t) → ∃ t', s'.commit de = .ok (r, t')
  later : ∀ (p : DbProg Unit) de t r u, handler.run p s = .ok ((), t) →
    t.intermediateRoot de = .ok (r, u) → ∃ t', handler.run p s' = .ok ((), t') ∧
      ∀ r' u', t'.intermediateRoot de = .ok (r', u') → r' = r

theorem Wf.read_alike (hs : s.Wf) (ht : t.Wf) (hview : t.view = s.view) {α : Type}
    {default : α} {f : StateObject → α} (g : Obj → α) (hfg : ∀ o, g o.view = f o) (a : Address) :
    (t.readObject a default f).1 = (s.readObject a default f).1 := by
  rw [(ht.answersRead hfg).1, (hs.answersRead hfg).1, hview]

theorem Restored.of_view (hs : s.Wf) (ht : t.Wf) (hview : t.view = s.view) (hbase : s.SameBase t)
    (hopen : ∀ a, s.known a .opened → t.known a .opened) : Restored s t where
  exist := hs.read_alike ht hview (fun _ => true) fun _ => rfl
  getBalance := hs.read_alike ht hview (·.account.balance) fun _ => rfl
  getNonce := hs.read_alike ht hview (·.account.nonce) fun _ => rfl
  getCode := hs.read_alike ht hview (·.account.code) fun o => o.account.rootless_code
  accountType a := by
    have htype : ∀ u : StateDB, (u.getAccount a).1.map (·.type) =
        (u.readObject a none fun o => some o.account.type).1 := by
      intro u
      simp only [getAccount, readObject]
      cases u.getStateObject a with
      | mk obj u' => cases obj <;> rfl
    rw [htype, htype]
    exact hs.read_alike ht hview (fun o => some o.account.type)
      (fun o => congrArg some o.account.rootless_type) a
  getKey := hs.read_alike ht hview (·.account.getKey) fun o => o.account.rootless_getKey
  getState a key := by
    obtain ⟨s₁, heq, -⟩ := hs.getState a key
    obtain ⟨t₁, heq', -⟩ := ht.getState a key
    rw [heq, heq', hview]
  getCommittedState a key := by
    obtain ⟨s₁, heq, -⟩ := hs.getCommittedState a key
    obtain ⟨t₁, heq', -⟩ := ht.getCommittedState a key
    rw [heq, heq', hview]
  hasSelfDestructed := hs.read_alike ht hview (·.selfDestructed) fun _ => rfl
  isCreated := hs.read_alike ht hview (·.created) fun _ => rfl
  toRecords := congrArg (fun w : World => w.toRecords) hview
  intermediateRoot _ _ _ hok := intermediateRoot_alike hs ht hview hbase hopen hok
  commit _ _ _ hok := hs.commit_same ht hview hbase.trie
    (fun _ => by rw [hbase.stateObjectsDirty]) hok
  later p de s₁ r u hrun hok := by
    obtain ⟨hext, t₁, hrun', hext', hview'⟩ := run_alike hs ht hview hrun
    exact ⟨t₁, hrun', fun r' u' hok' => intermediateRoot_unique hext.wf hext'.wf hview'
      (hext.base.symm.trans (hbase.trans hext'.base)) hok hok'⟩

/-- A revert gives back everything that recorded mutators have changed since the snapshot. -/
theorem revertToSnapshot_restores (hs : Reached s) {ms : List Mutator}
    (hrun : Runs StateDB.apply (fun s' m => Nested s.snapshot.1 m ∧ s'.Journaled m)
      s.snapshot.2 ms s') :
    ∃ s'', s'.revertToSnapshot s.snapshot.1 = .ok s'' ∧ Restored s s'' := by
  obtain ⟨hchain, hforced⟩ := Chain.of_runs hs.wf hrun
  obtain ⟨s'', heq, hext, -, hknown, hview⟩ := hchain.extends.revertToSnapshot
  rw [hforced, World.withForced_self] at hview
  exact ⟨s'', heq, .of_view hs.wf hext.wf hview hext.base fun a => hknown a .opened⟩

def twoAccounts : StateRoot := fun a =>
  if a = 1 then some ⟨0, 100, .externallyOwned false .legacy⟩
  else if a = 7 then some ⟨1, 0, .smartContract false .fail emptyStorage [0] 0⟩
  else none

/-- A contract is written, destructed in a nested snapshot and brought back. -/
theorem revertToSnapshot_restores_contract :
    ∃ s' s'', Runs StateDB.apply (fun s' m => Nested 0 m ∧ s'.Journaled m)
        (StateDB.new twoAccounts true).snapshot.2
        [.call (.setState 7 0 1), .snapshot, .call (.selfDestruct 7), .revertToSnapshot 1] s' ∧
      s'.revertToSnapshot 0 = .ok s'' ∧ Restored (StateDB.new twoAccounts true) s'' := by
  obtain ⟨s', hs'⟩ := Option.isSome_iff_exists.mp (show (exec StateDB.apply
    (StateDB.new twoAccounts true).snapshot.2
    [.call (.setState 7 0 1), .snapshot, .call (.selfDestruct 7), .revertToSnapshot 1]).isSome
      by decide +kernel)
  obtain ⟨s₁, h₁, s₂, h₂, s₃, h₃, h₄⟩ : ∃ s₁, _ ∧ ∃ s₂, _ ∧ ∃ s₃, _ ∧ _ := by
    simpa [exec, Option.bind_eq_some_iff] using hs'
  have hrun : Runs StateDB.apply (fun s' m => Nested 0 m ∧ s'.Journaled m)
      (StateDB.new twoAccounts true).snapshot.2
      ([] ++ [.call (.setState 7 0 1)] ++ [.snapshot] ++ [.call (.selfDestruct 7)] ++
        [.revertToSnapshot 1]) s' :=
    ((((Runs.nil _).snoc ⟨trivial, trivial⟩ h₁).snoc ⟨trivial, trivial⟩ h₂).snoc
      ⟨trivial, trivial⟩ h₃).snoc ⟨Nat.zero_lt_one, trivial⟩ h₄
  obtain ⟨s'', hok, hres⟩ := revertToSnapshot_restores (.new twoAccounts true) hrun
  exact ⟨s', s'', hrun, hok, hres⟩

/-- A key that was updated after the snapshot survives the revert. -/
theorem revertToSnapshot_keeps_key : ∃ s s' s'', Reached s ∧
    Runs StateDB.apply (fun _ m => Nested s.snapshot.1 m) s.snapshot.2 [.updateKey 1 .fail] s' ∧
    s'.revertToSnapshot s.snapshot.1 = .ok s'' ∧
    (s.getKey 1).1.isLegacy = true ∧ (s''.getKey 1).1.isLegacy = false := by
  obtain ⟨s'', hok, hkey⟩ := Option.map_eq_some_iff.mp (show
    ((((StateDB.new twoAccounts false).snapshot.2.updateKey 1 .fail).2.revertToSnapshot 0).toOption.map
      fun s'' => (s''.getKey 1).1.isLegacy) = some false by decide +kernel)
  exact ⟨StateDB.new twoAccounts false, _, s'', .new _ _, Runs.single trivial rfl,
    toOption_eq_some.mp hok, by decide +kernel, hkey⟩

end StateDB

end Kaia
