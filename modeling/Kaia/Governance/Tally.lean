import Kaia.Validator.Powers
import Kaia.Governance.Faults

/-! # The tally and the votes

The tally is kept beside the list of votes and changed along with it. It counts the votes as
long as every vote names the validator that sealed it and nobody who has voted is removed.
-/

namespace Kaia

open Foundation List ValidatorSet

/-- A value that compares with others under a key. -/
def VoteValue.Plain (k : GovKey) (v : VoteValue) : Prop := isEqualValue k v v = true

theorem isEqualValue_iff {k : GovKey} {v w : VoteValue} (hv : v.Plain k) :
    isEqualValue k v w = true ↔ v = w := by
  constructor
  · intro h
    unfold isEqualValue at h
    split at h <;> simp_all
  · rintro rfl
    exact hv

def standing : List GovernanceTallyItem → GovKey → VoteValue → ℕ
  | [], _, _ => 0
  | item :: tally, k, v => if item.key = k ∧ item.value = v then item.votes else standing tally k v

def support (V : ValidatorSet) (votes : List GovernanceVote) (k : GovKey) (v : VoteValue) : ℕ :=
  ((votes.filter fun e => e.key = k ∧ e.value = v).map fun e => V.power e.validator).sum

def GovernanceTallyItem.target (item : GovernanceTallyItem) : GovKey × VoteValue :=
  (item.key, item.value)

def GovernanceVote.ballot (vote : GovernanceVote) : Address × GovKey := (vote.validator, vote.key)

/-- One item for each value, all of them comparable. -/
structure Tidy (tally : List GovernanceTallyItem) : Prop where
  nodup : (tally.map GovernanceTallyItem.target).Nodup
  plain : ∀ item ∈ tally, item.value.Plain item.key

variable {item : GovernanceTallyItem} {tally : List GovernanceTallyItem} {k k' : GovKey}
  {v v' : VoteValue} {vp : ℕ} {isAdd : Bool}

theorem Tidy.tail (h : Tidy (item :: tally)) : Tidy tally where
  nodup := (List.nodup_cons.mp h.nodup).2
  plain := fun i hi => h.plain i (List.mem_cons_of_mem _ hi)

theorem standing_eq_zero (h : (k, v) ∉ tally.map GovernanceTallyItem.target) :
    standing tally k v = 0 := by
  induction tally with
  | nil => rfl
  | cons item tally ih =>
    rw [map_cons, mem_cons, not_or] at h
    rw [standing, if_neg, ih h.2]
    rintro ⟨rfl, rfl⟩
    exact h.1 rfl

theorem standing_of_mem (h : (tally.map GovernanceTallyItem.target).Nodup) (hi : item ∈ tally) :
    standing tally item.key item.value = item.votes := by
  induction tally with
  | nil => cases hi
  | cons item' tally ih =>
    rw [map_cons, nodup_cons] at h
    rw [standing]
    rcases mem_cons.mp hi with rfl | hi
    · rw [if_pos ⟨rfl, rfl⟩]
    · rw [if_neg, ih h.2 hi]
      rintro ⟨hk, hv⟩
      apply h.1
      rw [GovernanceTallyItem.target, hk, hv]
      exact mem_map_of_mem hi

def recount (isAdd : Bool) (n vp : ℕ) : ℕ := if isAdd then uint64 (n + vp) else n - vp

theorem changeGovernanceTally_match (h : item.key = k ∧ isEqualValue k item.value v = true) :
    changeGovernanceTally k v vp isAdd (item :: tally) =
      (recount isAdd item.votes vp, if recount isAdd item.votes vp = 0 then tally
        else { item with votes := recount isAdd item.votes vp } :: tally) := by
  rw [changeGovernanceTally, if_pos h]
  rfl

theorem changeGovernanceTally_skip (h : ¬ (item.key = k ∧ isEqualValue k item.value v = true)) :
    changeGovernanceTally k v vp isAdd (item :: tally) =
      ((changeGovernanceTally k v vp isAdd tally).1,
        item :: (changeGovernanceTally k v vp isAdd tally).2) := by
  rw [changeGovernanceTally, if_neg h]

theorem mem_changeGovernanceTally (h : item ∈ (changeGovernanceTally k v vp isAdd tally).2) :
    (isAdd = true ∧ item.target = (k, v)) ∨ ∃ item' ∈ tally, item'.target = item.target := by
  induction tally with
  | nil =>
    simp only [changeGovernanceTally] at h
    split at h
    · next hadd =>
      obtain rfl := mem_singleton.mp h
      exact .inl ⟨hadd, rfl⟩
    · cases h
  | cons item' tally ih =>
    by_cases hm : item'.key = k ∧ isEqualValue k item'.value v = true
    · rw [changeGovernanceTally_match hm] at h
      split at h
      · exact .inr ⟨item, mem_cons_of_mem _ h, rfl⟩
      · rcases mem_cons.mp h with rfl | h
        · exact .inr ⟨item', mem_cons_self, rfl⟩
        · exact .inr ⟨item, mem_cons_of_mem _ h, rfl⟩
    · rw [changeGovernanceTally_skip hm] at h
      rcases mem_cons.mp h with rfl | h
      · exact .inr ⟨item, mem_cons_self, rfl⟩
      · obtain h | ⟨i, hi, heq⟩ := ih h
        · exact .inl h
        · exact .inr ⟨i, mem_cons_of_mem _ hi, heq⟩

theorem Tidy.change (h : Tidy tally) (hv : isAdd = true → v.Plain k) :
    Tidy (changeGovernanceTally k v vp isAdd tally).2 := by
  constructor
  · induction tally with
    | nil =>
      simp only [changeGovernanceTally]
      split <;> simp
    | cons item tally ih =>
      have hnd := nodup_cons.mp h.nodup
      by_cases hm : item.key = k ∧ isEqualValue k item.value v = true
      · rw [changeGovernanceTally_match hm]
        split
        · exact hnd.2
        · exact nodup_cons.mpr hnd
      · rw [changeGovernanceTally_skip hm]
        refine nodup_cons.mpr ⟨fun hmem => ?_, ih h.tail⟩
        obtain ⟨i, hi, heq⟩ := mem_map.mp hmem
        obtain ⟨hadd, htarget⟩ | ⟨i', hi', heq'⟩ := mem_changeGovernanceTally hi
        · rw [heq] at htarget
          cases htarget
          exact hm ⟨rfl, (isEqualValue_iff (hv hadd)).mpr rfl⟩
        · apply hnd.1
          rw [← heq, ← heq']
          exact mem_map_of_mem hi'
  · intro i hi
    obtain ⟨hadd, htarget⟩ | ⟨i', hi', heq⟩ := mem_changeGovernanceTally hi
    · cases htarget
      exact hv hadd
    · obtain ⟨hkey, hval⟩ := Prod.mk.inj heq
      rw [← hkey, ← hval]
      exact h.plain i' hi'

def changed (isAdd : Bool) (n vp : ℕ) : ℕ := if isAdd then n + vp else n - vp

theorem recount_eq {n : ℕ} (h : isAdd = true → n + vp < 2 ^ 64) :
    recount isAdd n vp = changed isAdd n vp := by
  cases isAdd with
  | false => rfl
  | true => exact Nat.mod_eq_of_lt (h rfl)

variable (k v vp isAdd) in
theorem changeGovernanceTally_spec (h : Tidy tally)
    (hlt : isAdd = true → standing tally k v + vp < 2 ^ 64) :
    (changeGovernanceTally k v vp isAdd tally).1 = changed isAdd (standing tally k v) vp ∧
      ∀ k' v', standing (changeGovernanceTally k v vp isAdd tally).2 k' v' =
        if k = k' ∧ v = v' then changed isAdd (standing tally k v) vp
        else standing tally k' v' := by
  induction tally with
  | nil => cases isAdd <;> simp [changeGovernanceTally, standing, changed]
  | cons item tally ih =>
    have hiff : (item.key = k ∧ isEqualValue k item.value v = true) ↔
        item.key = k ∧ item.value = v := by
      refine and_congr_right fun hk => isEqualValue_iff ?_
      rw [← hk]
      exact h.plain item mem_cons_self
    by_cases hmatch : item.key = k ∧ item.value = v
    · rw [changeGovernanceTally_match (hiff.mpr hmatch)]
      rw [standing, if_pos hmatch] at hlt ⊢
      rw [recount_eq hlt]
      refine ⟨rfl, fun k' v' => ?_⟩
      obtain ⟨rfl, rfl⟩ := hmatch
      by_cases hsame : item.key = k' ∧ item.value = v'
      · rw [if_pos hsame]
        obtain ⟨rfl, rfl⟩ := hsame
        dsimp only
        split
        · next hzero => rw [hzero, standing_eq_zero (nodup_cons.mp h.nodup).1]
        · rw [standing, if_pos ⟨rfl, rfl⟩]
      · rw [if_neg hsame, standing, if_neg hsame]
        dsimp only
        split
        · rfl
        · rw [standing, if_neg hsame]
    · rw [changeGovernanceTally_skip (fun hm => hmatch (hiff.mp hm))]
      rw [standing, if_neg hmatch] at hlt ⊢
      obtain ⟨hfst, hsnd⟩ := ih h.tail hlt
      refine ⟨hfst, fun k' v' => ?_⟩
      rw [standing, hsnd, standing]
      by_cases hsame : k = k' ∧ v = v'
      · obtain ⟨rfl, rfl⟩ := hsame
        rw [if_neg hmatch]
        simp
      · rw [if_neg hsame, if_neg hsame]

/-- Each validator votes once for a key, and the item of a value has the power of its votes. -/
structure Tallied (V : ValidatorSet) (votes : List GovernanceVote)
    (tally : List GovernanceTallyItem) : Prop where
  once : (votes.map GovernanceVote.ballot).Nodup
  items : (tally.map GovernanceTallyItem.target).Nodup
  counts : ∀ item ∈ tally, item.votes = support V votes item.key item.value

/-- The tally counts the votes, values without an item have no power, and voters are members. -/
structure Ledger (V : ValidatorSet) (votes : List GovernanceVote)
    (tally : List GovernanceTallyItem) : Prop where
  definite : Definite V.members
  once : (votes.map GovernanceVote.ballot).Nodup
  tidy : Tidy tally
  standing_eq : ∀ k v, standing tally k v = support V votes k v
  voters : ∀ e ∈ votes, e.validator ∈ V.pool

variable {V W : ValidatorSet} {votes votes' : List GovernanceVote}
  {tally' : List GovernanceTallyItem} {vote : GovernanceVote} {proposer : Address}

theorem Ledger.tallied (h : Ledger V votes tally) : Tallied V votes tally where
  once := h.once
  items := h.tidy.nodup
  counts := fun item hi => by rw [← h.standing_eq, standing_of_mem h.tidy.nodup hi]

theorem ledger_nil (hV : Definite V.members) : Ledger V [] [] where
  definite := hV
  once := List.nodup_nil
  tidy := ⟨List.nodup_nil, fun _ h => by cases h⟩
  standing_eq := fun _ _ => rfl
  voters := fun _ h => by cases h

theorem Ledger.congr (h : Ledger V votes tally) (hW : Definite W.members)
    (hagree : ∀ e ∈ votes, V.Agrees W e.validator) : Ledger W votes tally where
  definite := hW
  once := h.once
  tidy := h.tidy
  standing_eq := by
    intro k v
    rw [h.standing_eq, support, support]
    congr 1
    apply map_congr_left
    intro e he
    exact ((hagree e (mem_filter.mp he).1).power_eq hW).symm
  voters := fun e he => (hagree e he).mem_pool.mpr (h.voters e he)

theorem support_append (V : ValidatorSet) (votes votes' : List GovernanceVote) (k : GovKey)
    (v : VoteValue) :
    support V (votes ++ votes') k v = support V votes k v + support V votes' k v := by
  simp [support]

theorem support_singleton (V : ValidatorSet) (vote : GovernanceVote) (k : GovKey) (v : VoteValue) :
    support V [vote] k v = if vote.key = k ∧ vote.value = v then V.power vote.validator else 0 := by
  by_cases h : vote.key = k ∧ vote.value = v <;> simp [support, h]

theorem voters_nodup (h : (votes.map GovernanceVote.ballot).Nodup) (k : GovKey) (v : VoteValue) :
    ((votes.filter fun e => e.key = k ∧ e.value = v).map GovernanceVote.validator).Nodup := by
  have hsub : ((votes.filter fun e => e.key = k ∧ e.value = v).map GovernanceVote.ballot).Nodup :=
    h.sublist (filter_sublist.map _)
  rw [List.Nodup, pairwise_map] at hsub ⊢
  refine hsub.imp_of_mem fun {e e'} he he' hne heq => hne ?_
  obtain ⟨hk, -⟩ : e.key = k ∧ e.value = v := by simpa using (mem_filter.mp he).2
  obtain ⟨hk', -⟩ : e'.key = k ∧ e'.value = v := by simpa using (mem_filter.mp he').2
  rw [GovernanceVote.ballot, GovernanceVote.ballot, heq, hk, hk']

theorem support_le (h : (votes.map GovernanceVote.ballot).Nodup) (k : GovKey) (v : VoteValue) :
    support V votes k v ≤ V.fullPower := by
  have hsum := sum_powerIn_le V.members (voters_nodup h k v)
  rw [map_map] at hsum
  exact hsum

theorem eraseP_of_find? {α : Type} {p : α → Bool} {l : List α} {a : α} (h : l.find? p = some a) :
    ∃ l₁ l₂, l = l₁ ++ a :: l₂ ∧ l.eraseP p = l₁ ++ l₂ := by
  obtain ⟨ha, l₁, l₂, rfl, hl₁⟩ := find?_eq_some_iff_append.mp h
  refine ⟨l₁, l₂, rfl, ?_⟩
  rw [eraseP_append_right _ (fun b hb => by simpa using hl₁ b hb), eraseP_cons_of_pos ha]

theorem Ledger.removePreviousVote (h : Ledger V votes tally)
    (hr : Kaia.removePreviousVote V votes tally proposer k = .ok (votes', tally')) :
    Ledger V votes' tally' ∧ (proposer, k) ∉ votes'.map GovernanceVote.ballot ∧
      votes'.Sublist votes := by
  unfold Kaia.removePreviousVote at hr
  cases hf : votes.find? fun e => decide (e.validator = proposer ∧ e.key = k) with
  | none =>
    rw [hf] at hr
    cases hr
    refine ⟨h, fun hmem => ?_, List.Sublist.refl _⟩
    obtain ⟨e, he, heq⟩ := mem_map.mp hmem
    cases heq
    simpa using find?_eq_none.mp hf e he
  | some old =>
    rw [hf] at hr
    dsimp only at hr
    split at hr
    · cases hr
    · next i p hp =>
      cases hr
      obtain ⟨rfl, rfl⟩ : old.validator = proposer ∧ old.key = k := by
        simpa using find?_some hf
      obtain ⟨l₁, l₂, hvotes, herase⟩ := eraseP_of_find? hf
      have hpower := power_of_getByAddress h.definite hp
      have hperm : votes.Perm (old :: (l₁ ++ l₂)) := hvotes ▸ perm_middle
      have hnd := (hperm.map GovernanceVote.ballot).nodup_iff.mp h.once
      rw [map_cons, nodup_cons] at hnd
      have hsupport : ∀ k v, support V votes k v =
          support V [old] k v + support V (l₁ ++ l₂) k v := by
        intro k v
        rw [hvotes, support_append, ← singleton_append, support_append, support_append]
        omega
      rw [herase]
      refine ⟨⟨h.definite, hnd.2, ?_, ?_, ?_⟩, hnd.1, ?_⟩
      · exact h.tidy.change (by simp)
      · intro k v
        have hspec := (changeGovernanceTally_spec old.key old.value p.votingPower false h.tidy
          (by simp)).2 k v
        rw [hspec, h.standing_eq, h.standing_eq, hsupport, hsupport, support_singleton,
          support_singleton, hpower]
        split
        · next heq =>
          obtain ⟨rfl, rfl⟩ := heq
          simp [changed]
        · simp
      · intro e he
        exact h.voters e (hperm.mem_iff.mpr (mem_cons_of_mem _ he))
      · rw [hvotes]
        exact List.Sublist.append_left (sublist_cons_self _ _) _

theorem Ledger.add (h : Ledger V votes tally) (hfull : V.fullPower < 2 ^ 64)
    {i : ℕ} {p : Validator} (hp : V.getByAddress vote.validator = some (i, p))
    (hnew : vote.ballot ∉ votes.map GovernanceVote.ballot) (hplain : vote.value.Plain vote.key) :
    Ledger V (votes ++ [vote])
        (changeGovernanceTally vote.key vote.value p.votingPower true tally).2 ∧
      (changeGovernanceTally vote.key vote.value p.votingPower true tally).1 =
        support V (votes ++ [vote]) vote.key vote.value := by
  have hpower := power_of_getByAddress h.definite hp
  have honce : ((votes ++ [vote]).map GovernanceVote.ballot).Nodup := by
    rw [map_append]
    exact nodup_append_comm.mpr (nodup_cons.mpr ⟨hnew, h.once⟩)
  have hsum : support V (votes ++ [vote]) vote.key vote.value =
      support V votes vote.key vote.value + p.votingPower := by
    rw [support_append, support_singleton, if_pos ⟨rfl, rfl⟩, hpower]
  have hlt : standing tally vote.key vote.value + p.votingPower < 2 ^ 64 := by
    rw [h.standing_eq, ← hsum]
    exact (support_le honce _ _).trans_lt hfull
  obtain ⟨hfst, hsnd⟩ := changeGovernanceTally_spec vote.key vote.value p.votingPower true
    h.tidy (fun _ => hlt)
  refine ⟨⟨h.definite, honce, h.tidy.change fun _ => hplain, ?_, ?_⟩, ?_⟩
  · intro k v
    rw [hsnd, support_append, support_singleton, h.standing_eq, h.standing_eq, hpower]
    split
    · next heq =>
      obtain ⟨rfl, rfl⟩ := heq
      rfl
    · rfl
  · intro e he
    rcases mem_append.mp he with he | he
    · exact h.voters e he
    · obtain rfl := mem_singleton.mp he
      exact mem_pool_of_getByAddress hp
  · rw [hfst, hsum, h.standing_eq]
    rfl

def VoteValue.targets : VoteValue → List Address
  | .address a => [a]
  | .addresses as => as
  | _ => []

variable {V' : ValidatorSet} {addr : Address} {o : AddressOrder}

theorem removeVotesLoop_of_ne (h : ∀ e ∈ votes, e.validator ≠ addr) {fuel i : ℕ}
    (hfuel : votes.length - i < fuel) (ret : List GovernanceVote) :
    removeVotesLoop addr fuel votes i ret = some ret := by
  induction fuel generalizing i with
  | zero => omega
  | succ fuel ih =>
    rw [removeVotesLoop]
    cases hi : votes[i]? with
    | none => rfl
    | some e =>
      dsimp only
      rw [if_neg (h e (mem_of_getElem? hi))]
      have hlt := (List.getElem?_eq_some_iff.mp hi).1
      exact ih (by omega)

theorem removeTargets_of_ne {targets : List Address}
    (h : ∀ t ∈ targets, ∀ e ∈ votes, e.validator ≠ t) :
    removeTargets V votes targets =
      some (targets.foldl (fun V t => (V.removeValidator t).1) V, votes) := by
  induction targets generalizing V with
  | nil => rfl
  | cons t targets ih =>
    have hnone : removeVotesFromRemovedNode votes t = some votes :=
      removeVotesLoop_of_ne (h t mem_cons_self) (by omega) votes
    rw [removeTargets, hnone, foldl_cons]
    exact ih fun t' ht' => h t' (mem_cons_of_mem _ ht')

section

variable (h : Ledger V votes tally)

include h

theorem Ledger.addValidator (o : AddressOrder) (a : Address) :
    Ledger (V.addValidator o a) votes tally :=
  h.congr (definite_addValidator o h.definite a)
    fun e he => agrees_addValidator o (h.voters e he) a

theorem Ledger.addValidators (o : AddressOrder) (as : List Address) :
    Ledger (as.foldl (ValidatorSet.addValidator o) V) votes tally := by
  induction as generalizing V with
  | nil => exact h
  | cons a as ih => exact ih (h.addValidator o a)

theorem Ledger.removeValidator
    (hne : ∀ e ∈ votes, e.validator ≠ addr) : Ledger (V.removeValidator addr).1 votes tally :=
  h.congr (definite_removeValidator h.definite addr)
    fun e he => agrees_removeValidator (hne e he)

theorem Ledger.removeValidators {as : List Address}
    (hne : ∀ a ∈ as, ∀ e ∈ votes, e.validator ≠ a) :
    Ledger (as.foldl (fun V t => (V.removeValidator t).1) V) votes tally := by
  induction as generalizing V with
  | nil => exact h
  | cons a as ih =>
    exact ih (h.removeValidator (hne a mem_cons_self)) fun b hb => hne b (mem_cons_of_mem _ hb)

theorem Ledger.reflectVote
    (hne : vote.key = .removeValidator → ∀ a ∈ vote.value.targets, ∀ e ∈ votes, e.validator ≠ a)
    (hr : Kaia.reflectVote o V votes vote = .ok (V', votes')) :
    votes' = votes ∧ Ledger V' votes tally := by
  unfold Kaia.reflectVote at hr
  split at hr
  · cases hr
    exact ⟨rfl, h.addValidator o _⟩
  · cases hr
    exact ⟨rfl, h.addValidators o _⟩
  · next a hk hv =>
    cases hr
    refine ⟨rfl, h.removeValidator (hne hk a ?_)⟩
    rw [hv]
    exact mem_singleton_self a
  · next as hk hv =>
    have hlist : ∀ a ∈ as, ∀ e ∈ votes, e.validator ≠ a := by
      rw [hv] at hne
      exact hne hk
    rw [removeTargets_of_ne hlist] at hr
    cases hr
    exact ⟨rfl, h.removeValidators hlist⟩
  · cases hr
    exact ⟨rfl, h⟩

end

theorem plain_of_checkValue {k : GovKey} {v : VoteValue} (h : checkValue k v = true) :
    v.Plain k := by
  cases k <;> cases v <;> first
    | exact absurd h Bool.false_ne_true
    | simp [VoteValue.Plain, isEqualValue, GovKey.type]

namespace Governance

variable {g g' : Governance} {writable : Bool} {pset : GovParams} {self : Address} {number : ℕ}

theorem withdraw_loses {k : GovKey} {value : VoteValue} (h : g.withdraw k value = .ok g') :
    Loses g g' := by
  unfold withdraw at h
  split at h
  · cases h
    exact fun _ _ => id
  · obtain ⟨same, -, h⟩ := bind_eq_ok.mp h
    cases h
    intro k' v hv
    split at hv
    · by_cases hk : k' = k
      · subst hk
        simp [removeItem] at hv
      · simp only [removeItem, Function.update_of_ne hk] at hv
        exact hv
    · exact hv

theorem removePreviousVote_loses {mode : GovernanceMode} {node : Address}
    {r : List GovernanceVote × List GovernanceTallyItem}
    (h : g.removePreviousVote writable V votes tally proposer vote mode node = .ok (r, g')) :
    Kaia.removePreviousVote V votes tally proposer vote.key = .ok r ∧ Loses g g' := by
  obtain ⟨r', hr', h⟩ := bind_eq_ok.mp h
  split at h
  · cases h
    exact ⟨hr', fun _ _ => id⟩
  · obtain ⟨g'', hg'', h⟩ := bind_eq_ok.mp h
    cases h
    refine ⟨hr', ?_⟩
    unfold retract at hg''
    dsimp only at hg''
    split at hg''
    · exact withdraw_loses hg''
    · cases hg''
      exact fun _ _ => id

/-- A new vote of a validator is counted, and then has its effect or none. -/
theorem addNewVote_cases {i : ℕ} {p : Validator}
    (hp : V.getByAddress vote.validator = some (i, p))
    (h : g.addNewVote writable o V votes tally vote pset.governanceMode pset.governingNode number =
      .ok ((V', votes', tally'), g')) :
    tally' = (changeGovernanceTally vote.key vote.value p.votingPower true tally).2 ∧
      ((V' = V ∧ votes' = votes ∧ g' = g) ∨
        (passes pset.governanceMode pset.governingNode V vote
            (changeGovernanceTally vote.key vote.value p.votingPower true tally).1 = true ∧
          reflectVote o V votes vote = .ok (V', votes') ∧
          ∀ k v, g'.changeSet k = some v →
            g.changeSet k = some v ∨ (k = vote.key ∧ v.1 = vote.value))) := by
  obtain ⟨r, hr, h⟩ := bind_eq_ok.mp h
  rw [hp] at h
  dsimp only at h
  unfold Kaia.addNewVote at hr
  rw [hp] at hr
  dsimp only at hr
  by_cases hpass : passes pset.governanceMode pset.governingNode V vote
      (changeGovernanceTally vote.key vote.value p.votingPower true tally).1 = true
  · have hcond := hpass
    simp only [passes, decide_eq_true_eq] at hcond
    rw [if_pos hcond] at hr
    obtain ⟨⟨V₁, votes₁⟩, hreflect, hr⟩ := bind_eq_ok.mp hr
    cases hr
    split at h
    · obtain ⟨g₁, hg₁, h⟩ := bind_eq_ok.mp h
      cases h
      refine ⟨rfl, .inr ⟨hpass, hreflect, ?_⟩⟩
      unfold updateChangeSet at hg₁
      split at hg₁
      · cases hg₁
        exact fun _ _ => .inl
      · split at hg₁
        · cases hg₁
          intro k v hv
          by_cases hk : k = vote.key
          · subst hk
            simp only [setValue, Function.update_self, Option.some.injEq] at hv
            exact .inr ⟨rfl, by rw [← hv]⟩
          · simp only [setValue, Function.update_of_ne hk] at hv
            exact .inl hv
        · cases hg₁
    · cases h
      exact ⟨rfl, .inr ⟨hpass, hreflect, fun _ _ => .inl⟩⟩
  · have hcond := hpass
    simp only [passes, decide_eq_true_eq] at hcond
    rw [if_neg hcond] at hr
    cases hr
    rw [if_neg (fun hc => hpass hc.1)] at h
    cases h
    exact ⟨rfl, .inl ⟨rfl, rfl, rfl⟩⟩

/-- More than half of the voting power is behind a value, from different active voters. -/
def Backed (V : ValidatorSet) (votes : List GovernanceVote) (k : GovKey) (v : VoteValue) : Prop :=
  let voters := (votes.filter fun e => e.key = k ∧ e.value = v).map GovernanceVote.validator
  voters.Nodup ∧ V.totalVotingPower / 2 < (voters.map (powerIn V.list)).sum

/-- The voters for a value are not demoted. -/
def VotersActive (V : ValidatorSet) (votes : List GovernanceVote) (k : GovKey) (v : VoteValue) :
    Prop :=
  ∀ e ∈ votes, e.key = k ∧ e.value = v → (V.getByAddress e.validator).isSome

theorem support_eq_active (h : VotersActive V votes k v) : support V votes k v =
    (((votes.filter fun e => e.key = k ∧ e.value = v).map GovernanceVote.validator).map
      (powerIn V.list)).sum := by
  rw [support, map_map]
  congr 1
  refine map_congr_left fun e he => powerIn_append_left ?_
  obtain ⟨hmem, hkv⟩ := mem_filter.mp he
  exact getByAddress_isSome.mp (h e hmem (by simpa using hkv))

/-- The vote removes validators, and passes once it is counted. -/
def RemovalPasses (V : ValidatorSet) (votes : List GovernanceVote)
    (tally : List GovernanceTallyItem) (pset : GovParams) (vote : GovernanceVote) : Prop :=
  vote.key = .removeValidator ∧ ∃ i p, V.getByAddress vote.validator = some (i, p) ∧
    passes pset.governanceMode pset.governingNode V vote
      (changeGovernanceTally vote.key vote.value p.votingPower true
        (tallyWithout V votes tally vote.validator vote.key)).1 = true

/-- A vote of its proposer keeps the ledger, and in ballot mode takes more than half the power. -/
theorem castVote_ledger (h : Ledger V votes tally) (hfull : V.fullPower < 2 ^ 64)
    (hin : (V.getByAddress vote.validator).isSome) (hplain : vote.value.Plain vote.key)
    (hstay : RemovalPasses V votes tally pset vote → ∀ a ∈ vote.value.targets,
      vote.validator ≠ a ∧ ∀ e ∈ votes, e.validator ≠ a)
    (hactive : VotersActive V votes vote.key vote.value)
    (hcast : g.castVote writable o V votes tally pset vote.validator self number vote =
      .ok ((V', votes', tally'), g')) :
    Ledger V' votes' tally' ∧ (pset.governanceMode = .ballot →
      (V' ≠ V → Backed V votes' vote.key vote.value) ∧
      ∀ k v, g'.changeSet k = some v → g.changeSet k ≠ some v → Backed V votes' k v.1) := by
  obtain ⟨⟨⟨votes₁, tally₁⟩, g₁⟩, hprev, hcast⟩ := bind_eq_ok.mp hcast
  obtain ⟨⟨r, g₂⟩, hadd, hcast⟩ := bind_eq_ok.mp hcast
  cases hcast
  rw [mapError_eq_ok] at hprev
  obtain ⟨hprev, hloses⟩ := removePreviousVote_loses hprev
  obtain ⟨hledger₁, hnew, hsub⟩ := h.removePreviousVote hprev
  obtain rfl := removePreviousVote_tally hprev
  obtain ⟨⟨i, p⟩, hp⟩ := Option.isSome_iff_exists.mp hin
  obtain ⟨hledger₂, hcount⟩ := hledger₁.add hfull hp hnew hplain
  have hchange : (if writable = true ∧ self = vote.validator then
      g₂.removeVote vote.key vote.value number else g₂).changeSet = g₂.changeSet := by
    split
    · exact removeVote_changeSet _ _ _
    · rfl
  rw [hchange]
  obtain ⟨rfl, hcases⟩ := addNewVote_cases hp hadd
  obtain ⟨rfl, rfl, rfl⟩ | ⟨hpass, hreflect, hset⟩ := hcases
  · exact ⟨hledger₂, fun _ => ⟨fun hne => absurd rfl hne,
      fun k v hv hnot => absurd (hloses k v hv) hnot⟩⟩
  · -- nobody who is removed has a vote in the list
    have hne : vote.key = .removeValidator → ∀ a ∈ vote.value.targets,
        ∀ e ∈ votes₁ ++ [vote], e.validator ≠ a := by
      intro hk a ha e he
      obtain ⟨hself, hothers⟩ := hstay ⟨hk, i, p, hp, hpass⟩ a ha
      rcases mem_append.mp he with he | he
      · exact hothers e (hsub.subset he)
      · obtain rfl := mem_singleton.mp he
        exact hself
    obtain ⟨rfl, hledger₃⟩ := hledger₂.reflectVote hne hreflect
    refine ⟨hledger₃, fun hmode => ?_⟩
    have hbacked : Backed V (votes₁ ++ [vote]) vote.key vote.value := by
      have hactive₁ : VotersActive V (votes₁ ++ [vote]) vote.key vote.value := by
        intro e he hkv
        rcases mem_append.mp he with he | he
        · exact hactive e (hsub.subset he) hkv
        · obtain rfl := mem_singleton.mp he
          exact hin
      refine ⟨voters_nodup hledger₂.once _ _, ?_⟩
      rw [← support_eq_active hactive₁, ← hcount]
      simpa [passes, hmode, isGovernanceModeSingleOrNone] using hpass
    refine ⟨fun _ => hbacked, fun k v hv hnot => ?_⟩
    obtain hv | ⟨rfl, hval⟩ := hset k v hv
    · exact absurd (hloses k v hv) hnot
    · rw [hval]
      exact hbacked

variable {F : Type} {env : SnapshotEnv F} {policy : ProposerPolicy} {header : Header}

/-- A vote that counts names the sealer, removes no voter and joins no demoted one, and voting powers
do not overflow. -/
structure Fair (env : SnapshotEnv F) (snap : Snapshot) (header : Header) : Prop where
  own : ∀ vote pset, Counts env.gov snap.valSet header vote pset →
    ecrecover (m := Id) env.recover header = .ok vote.validator
  stay : ∀ vote pset, Counts env.gov snap.valSet header vote pset →
    RemovalPasses snap.valSet (snap.turnEpoch (uint64 header.number)).votes
      (snap.turnEpoch (uint64 header.number)).tally pset vote →
    ∀ a ∈ vote.value.targets, vote.validator ≠ a ∧
      ∀ e ∈ (snap.turnEpoch (uint64 header.number)).votes, e.validator ≠ a
  active : ∀ vote pset, Counts env.gov snap.valSet header vote pset →
    VotersActive snap.valSet (snap.turnEpoch (uint64 header.number)).votes vote.key vote.value
  bounded : snap.valSet.fullPower < 2 ^ 64

/-- Nothing takes effect without more than half of the voting power. -/
structure Supported (env : SnapshotEnv F) (policy : ProposerPolicy) (header : Header)
    (st st' : Snapshot × Governance) : Prop where
  validators : ¬ KeepsValidators env policy header st.1.valSet st'.1.valSet →
    ∃ vote pset, Counts env.gov st.1.valSet header vote pset ∧
      Backed st.1.valSet st'.1.votes vote.key vote.value
  changes : ∀ k v, st'.2.changeSet k = some v → st.2.changeSet k ≠ some v →
    Backed st.1.valSet st'.1.votes k v.1

variable {st st' : Snapshot × Governance} {s : Snapshot} {headers : List Header}

theorem handleGovernanceVote_ledger {gov : GovEnv} (h : Ledger V votes tally)
    (hfull : V.fullPower < 2 ^ 64) (hin : (V.getByAddress proposer).isSome)
    (hown : ∀ vote pset, Counts gov V header vote pset → vote.validator = proposer)
    (hstay : ∀ vote pset, Counts gov V header vote pset → RemovalPasses V votes tally pset vote →
      ∀ a ∈ vote.value.targets, vote.validator ≠ a ∧ ∀ e ∈ votes, e.validator ≠ a)
    (hactive : ∀ vote pset, Counts gov V header vote pset →
      VotersActive V votes vote.key vote.value)
    (hr : g.handleGovernanceVote writable o gov V votes tally header proposer self =
      .ok ((V', votes', tally'), g')) :
    Ledger V' votes' tally' ∧
      ((V' = V ∧ Loses g g') ∨ ∃ vote pset, Counts gov V header vote pset ∧
        (pset.governanceMode = .ballot → (V' ≠ V → Backed V votes' vote.key vote.value) ∧
          ∀ k v, g'.changeSet k = some v → g.changeSet k ≠ some v → Backed V votes' k v.1)) := by
  obtain ⟨⟨⟩, hchange⟩ | ⟨vote, pset, g₁, hcounts, hcast, hchange⟩ := handleGovernanceVote_cases hr
  · exact ⟨h, .inl ⟨rfl, fun k v hv => hchange ▸ hv⟩⟩
  · obtain rfl := hown vote pset hcounts
    obtain ⟨_, -, -, hval, -⟩ := id hcounts
    obtain ⟨hledger, heffect⟩ := castVote_ledger h hfull hin
      (plain_of_checkValue (validateVote_checkValue hval)) (hstay vote pset hcounts)
      (hactive vote pset hcounts) hcast
    rw [hchange]
    exact ⟨hledger, .inr ⟨vote, pset, hcounts, heffect⟩⟩

theorem ledger_turnEpoch {snap : Snapshot} (h : Ledger snap.valSet snap.votes snap.tally)
    (number : ℕ) : Ledger snap.valSet (snap.turnEpoch number).votes (snap.turnEpoch number).tally := by
  unfold Snapshot.turnEpoch
  split
  · exact ledger_nil h.definite
  · exact h

theorem applyHeader_ledger (h : Ledger st.1.valSet st.1.votes st.1.tally)
    (hfair : Fair env st.1 header)
    (hstep : applyHeader env policy writable self st header = .ok st') :
    Ledger st'.1.valSet st'.1.votes st'.1.tally ∧
      ∀ pset, env.gov.effectiveParams (uint64 header.number) = some pset →
        pset.governanceMode = .ballot → Supported env policy header st st' := by
  obtain ⟨validator, V', g₀, hvalidator, hin, hcleared, hhandle, hW⟩ := applyHeader_eq_ok hstep
  obtain ⟨hledger, heffect⟩ := handleGovernanceVote_ledger
    (ledger_turnEpoch h (uint64 header.number)) hfair.bounded hin
    (fun vote pset hcounts => Except.ok.inj ((hfair.own vote pset hcounts).symm.trans hvalidator))
    hfair.stay hfair.active hhandle
  constructor
  · -- the refresh keeps the powers of everybody
    split at hW
    · have hagree := Snapshot.refreshCouncil_agrees hledger.definite hW
      exact hledger.congr (definite_of_agrees hledger.definite hagree)
        fun e _ => hagree e.validator
    · rwa [Except.ok.inj hW] at hledger
  · intro pset hpset hmode
    obtain ⟨rfl, hloses⟩ | ⟨vote, pset', hcounts, hballot⟩ := heffect
    · exact ⟨fun hnot => absurd (keepsValidators_of_refresh hW) hnot,
        fun k v hv hnot => absurd (hcleared k v (hloses k v hv)) hnot⟩
    · obtain ⟨-, -, -, -, hpset'⟩ := id hcounts
      obtain rfl := Option.some.inj (hpset.symm.trans hpset')
      obtain ⟨hvalidators, hchanges⟩ := hballot hmode
      exact ⟨fun hnot => ⟨vote, pset, hcounts, hvalidators fun heq =>
          hnot (heq ▸ keepsValidators_of_refresh hW)⟩,
        fun k v hv hnot => hchanges k v hv fun hv' => hnot (hcleared k v hv')⟩

theorem reaches_ledger (hs : Definite s.valSet.members) (hvotes : s.votes = [])
    (htally : s.tally = []) (hfair : ∀ earlier header st₁, earlier ++ [header] <+: headers →
      Reaches env policy writable self s g earlier st₁ → Fair env st₁.1 header)
    (hrun : Reaches env policy writable self s g headers st) :
    Ledger st.1.valSet st.1.votes st.1.tally := by
  induction headers using reverseRecOn generalizing st with
  | nil =>
    cases hrun
    have hstart := definite_copy env.chain.order hs
    simp only [Snapshot.start, Snapshot.copy, Snapshot.reload, hvotes, htally]
    exact ledger_nil hstart
  | append_singleton headers header ih =>
    obtain ⟨st₁, hst₁, hstep⟩ := reaches_append.mp hrun
    have hledger := ih (fun earlier h st₂ hpre => hfair earlier h st₂
      (hpre.trans (prefix_append _ _))) hst₁
    exact (applyHeader_ledger hledger (hfair headers header st₁ (prefix_refl _) hst₁) hstep).1

/-- In every run of fair headers the tally counts the votes, and changes take a majority. -/
theorem tally_counts_votes (env : SnapshotEnv F) (policy : ProposerPolicy) (writable : Bool)
    (self : Address) (s : Snapshot) (g : Governance) (headers : List Header)
    (hs : Definite s.valSet.members) (hvotes : s.votes = []) (htally : s.tally = [])
    (hfair : ∀ earlier header st₁, earlier ++ [header] <+: headers →
      Reaches env policy writable self s g earlier st₁ → Fair env st₁.1 header)
    {st : Snapshot × Governance} (hrun : Reaches env policy writable self s g headers st) :
    Tallied st.1.valSet st.1.votes st.1.tally ∧
      ∀ earlier header pset st₁ st₂, headers = earlier ++ [header] →
        Reaches env policy writable self s g earlier st₁ →
        Reaches env policy writable self s g headers st₂ →
        env.gov.effectiveParams (uint64 header.number) = some pset →
        pset.governanceMode = .ballot → Supported env policy header st₁ st₂ := by
  refine ⟨(reaches_ledger hs hvotes htally hfair hrun).tallied, ?_⟩
  rintro earlier header pset st₁ st₂ rfl hst₁ hst₂ hpset hmode
  obtain ⟨st₁', hst₁', hstep⟩ := reaches_append.mp hst₂
  cases hst₁.symm.trans hst₁'
  have hledger := reaches_ledger hs hvotes htally (fun e h st hpre => hfair e h st
    (hpre.trans (prefix_append _ _))) hst₁
  exact (applyHeader_ledger hledger (hfair earlier header st₁ (prefix_refl _) hst₁)
    hstep).2 pset hpset hmode

/-- Ballots, with the votes and the sealer of `forging`. -/
def balloting : SnapshotEnv ℕ :=
  { forging with
    gov :=
      { forging.gov with
        effectiveParams := fun _ => some
          { epoch := 604800, policy := roundRobin, committeeSize := 22
            governanceMode := .ballot, governingNode := 1, minimumStake := 5 } } }

/-- One vote of the sealer itself is counted. -/
theorem tally_counts_votes_own :
    ∃ st, Reaches balloting roundRobin true 3 threeValidators blank [votingHeader 1 [2]] st ∧
      st.1.votes.length = 1 ∧ Tallied st.1.valSet st.1.votes st.1.tally := by
  refine ⟨_, rfl, rfl, ?_⟩
  refine (tally_counts_votes balloting roundRobin true 3 threeValidators blank
    [votingHeader 1 [2]] ?_ rfl rfl ?_ rfl).1
  · intro a p q hp hq
    have hfresh : ∀ x ∈ threeValidators.valSet.members.map Validator.franchise, x.2 = 1000 := by
      decide
    exact (hfresh _ hp).trans (hfresh _ hq).symm
  · intro earlier header st₁ hpre hst₁
    obtain ⟨rfl, rfl⟩ : earlier = [] ∧ header = votingHeader 1 [2] := by
      obtain ⟨rest, hrest⟩ := hpre
      cases earlier with
      | nil =>
        cases hrest
        exact ⟨rfl, rfl⟩
      | cons h earlier => simp at hrest
    cases hst₁
    have hcounts : ∀ vote pset, Counts balloting.gov
        (threeValidators.start balloting).valSet (votingHeader 1 [2]) vote pset →
        vote = ⟨2, .addValidator, .address 9⟩ := by
      rintro vote pset ⟨cast, hcast, -, hval, -⟩
      cases hcast
      cases hval
      rfl
    refine ⟨fun vote pset h => ?_, fun vote pset h hpass => ?_, fun _ _ _ e he => ?_, by decide⟩
    · rw [hcounts vote pset h]
      rfl
    · rw [hcounts vote pset h] at hpass
      exact absurd hpass.1 (by decide)
    · cases he

/-- The same vote in the name of another counts twice and passes with the power of one. -/
theorem forged_votes_counted_twice :
    ∃ st, Reaches balloting roundRobin true 3 threeValidators blank
        [votingHeader 1 [3], votingHeader 2 [3]] st ∧
      st.1.votes = [⟨1, .unitPrice, .uint64 7⟩, ⟨1, .unitPrice, .uint64 7⟩] ∧
      ¬ Tallied st.1.valSet st.1.votes st.1.tally ∧
      (st.2.changeSet .unitPrice).map Subtype.val = some (.uint64 7) := by
  refine ⟨_, rfl, ?_, fun h => ?_, ?_⟩
  · decide +kernel
  · exact absurd h.once (by decide +kernel)
  · decide +kernel

end Governance

end Kaia
