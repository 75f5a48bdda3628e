import Kaia.Governance.Authority

/-! # Votes that stop a node

The vote of a header is decoded, checked and counted. This does not return for a number of more
than eight bytes, an earlier vote of no validator, and the voter among validators to remove.
-/

namespace Kaia

open Foundation Governance

variable {gov : GovEnv} {header : Header} {raw : RawVote}

theorem parseVoteValue_eq_error_iff : (∃ p, parseVoteValue raw = .error p) ↔ raw.Oversized := by
  constructor
  · rintro ⟨p, hp⟩
    exact ((parseVoteValue_spec raw).of_error hp).2
  · rintro ⟨k, b, hk, htype, hb, hlong⟩
    have herr : paddedUint64 b = .error .makeSlice := if_pos hlong
    refine ⟨.makeSlice, ?_⟩
    unfold parseVoteValue
    obtain htype | htype := htype <;> simp only [hk, htype, hb, herr] <;> rfl

/-- The bytes of the vote decode to a number that is too long. -/
def OversizedVote (gov : GovEnv) (header : Header) : Prop :=
  header.vote ≠ [] ∧ ∃ raw, gov.decodeVote header.vote = some raw ∧ raw.Oversized

theorem headerVote_eq_error_iff : (∃ p, headerVote gov header = .error p) ↔
    OversizedVote gov header := by
  unfold headerVote OversizedVote
  by_cases hnil : header.vote = []
  · simp [hnil]
  · rw [if_neg hnil]
    cases hdec : gov.decodeVote header.vote with
    | none => simp
    | some raw =>
      simp only [ne_eq, hnil, not_false_eq_true, Option.some.injEq, true_and, exists_eq_left']
      rw [← parseVoteValue_eq_error_iff]
      cases parseVoteValue raw with
      | error p => exact ⟨fun _ => ⟨p, rfl⟩, fun _ => ⟨p, rfl⟩⟩
      | ok parsed =>
        constructor
        · rintro ⟨p, hp⟩
          cases parsed <;> cases hp
        · rintro ⟨p, hp⟩
          cases hp

section Removal

variable {addr : Address} {votes ret ret' : List GovernanceVote} {last : GovernanceVote}
  {valset : ValidatorSet}

theorem removeVotesFromRemovedNode_getLast (hlast : votes.getLast? = some last)
    (h : removeVotesFromRemovedNode votes addr = some ret') : ret'.getLast? = some last := by
  have hne : last.validator ≠ addr := by
    intro heq
    rw [removeVotesFromRemovedNode_eq_none_iff.mpr ⟨last, hlast, heq⟩] at h
    cases h
  rw [removeVotesFromRemovedNode_eq hlast hne] at h
  cases h
  have hkept : (votes.filter (fun v => v.validator ≠ addr)).getLast? = some last := by
    obtain ⟨rest, rfl⟩ := List.getLast?_eq_some_iff.mp hlast
    simp [hne]
  rw [List.getLast?_append, hkept, List.getLast?_replicate]
  split <;> rfl

theorem removeTargets_eq_none_iff {targets : List Address} (hlast : votes.getLast? = some last) :
    removeTargets valset votes targets = none ↔ last.validator ∈ targets := by
  induction targets generalizing valset votes with
  | nil => simp [removeTargets]
  | cons target targets ih =>
    rw [removeTargets]
    cases hr : removeVotesFromRemovedNode votes target with
    | none =>
      obtain ⟨last', hlast', hmatch⟩ := removeVotesFromRemovedNode_eq_none_iff.mp hr
      cases hlast.symm.trans hlast'
      simp [hmatch]
    | some votes' =>
      have hne : last.validator ≠ target := by
        intro heq
        rw [removeVotesFromRemovedNode_eq_none_iff.mpr ⟨last, hlast, heq⟩] at hr
        cases hr
      rw [ih (removeVotesFromRemovedNode_getLast hlast hr), List.mem_cons]
      simp [hne]

end Removal

variable {g : Governance} {o : AddressOrder} {valset : ValidatorSet} {votes : List GovernanceVote}
  {tally : List GovernanceTallyItem} {vote : GovernanceVote} {mode : GovernanceMode}
  {governingNode proposer self : Address} {writable : Bool} {blockNum : ℕ}

theorem isA_of_checkValue {k : GovKey} {v : VoteValue} (h : checkValue k v = true)
    (hadd : k ≠ .addValidator) (hremove : k ≠ .removeValidator) : v.isA k.type = true := by
  cases k <;> cases v <;> first | rfl | simp_all [checkValue, GovKey.type]

theorem updateChangeSet_ok (h : checkValue vote.key vote.value = true) :
    ∃ g', g.updateChangeSet vote = .ok g' := by
  unfold updateChangeSet
  split
  · exact ⟨_, rfl⟩
  · next hkey =>
    rw [not_or] at hkey
    rw [dif_pos (isA_of_checkValue h hkey.1 hkey.2)]
    exact ⟨_, rfl⟩

theorem compareValues_ok {v w : VoteValue} {t : ValueType} (h : v.isA t = true) :
    compareValues v w = .ok (v = w) := by
  cases v <;> first | rfl | (cases t <;> cases h)

theorem retract_ok (old : GovernanceVote) :
    ∃ g', g.retract writable valset tally proposer vote old mode governingNode = .ok g' := by
  unfold retract
  dsimp only
  split
  · unfold withdraw
    split
    · exact ⟨_, rfl⟩
    · next v hv =>
      rw [compareValues_ok v.2]
      exact ⟨_, rfl⟩
  · exact ⟨_, rfl⟩

/-- An earlier vote of a proposer that is not a validator. -/
def StrayVote (valset : ValidatorSet) (votes : List GovernanceVote) (proposer : Address)
    (key : GovKey) : Prop :=
  (∃ old ∈ votes, old.validator = proposer ∧ old.key = key) ∧ valset.getByAddress proposer = none

variable (g writable tally mode governingNode) in
theorem removePreviousVote_eq_ok_iff :
    (∃ r, g.removePreviousVote writable valset votes tally proposer vote mode governingNode =
      .ok r) ↔ ¬ StrayVote valset votes proposer vote.key := by
  unfold Governance.removePreviousVote Kaia.removePreviousVote StrayVote
  cases hf : votes.find? fun v => decide (v.validator = proposer ∧ v.key = vote.key) with
  | none =>
    have hnone : ¬ ∃ old ∈ votes, old.validator = proposer ∧ old.key = vote.key := by
      rintro ⟨old, hmem, hold⟩
      exact absurd (List.find?_eq_none.mp hf old hmem) (by simpa using hold)
    exact ⟨fun _ h => hnone h.1, fun _ => ⟨_, rfl⟩⟩
  | some old =>
    have hold := List.find?_some hf
    have hmem := List.mem_of_find?_eq_some hf
    cases hv : valset.getByAddress proposer with
    | none =>
      refine ⟨fun h => ?_, fun h => absurd ⟨⟨old, hmem, by simpa using hold⟩, rfl⟩ h⟩
      obtain ⟨r, hr⟩ := h
      cases hr
    | some p =>
      refine ⟨fun _ h => (nomatch h.2), fun _ => ?_⟩
      obtain ⟨g', hg'⟩ : ∃ g', g.retract writable valset tally proposer vote old mode
          governingNode = .ok g' := retract_ok old
      simp only [bind, Except.bind, hg']
      exact ⟨_, rfl⟩

def tallyWithout (valset : ValidatorSet) (votes : List GovernanceVote)
    (tally : List GovernanceTallyItem) (proposer : Address) (key : GovKey) :
    List GovernanceTallyItem :=
  match votes.find? fun v => v.validator = proposer ∧ v.key = key, valset.getByAddress proposer with
  | some old, some (_, p) => (changeGovernanceTally key old.value p.votingPower false tally).2
  | _, _ => tally

theorem removePreviousVote_tally {key : GovKey} {votes' : List GovernanceVote}
    {tally' : List GovernanceTallyItem}
    (h : Kaia.removePreviousVote valset votes tally proposer key = .ok (votes', tally')) :
    tally' = tallyWithout valset votes tally proposer key := by
  unfold Kaia.removePreviousVote at h
  unfold tallyWithout
  split at h
  · next hf =>
    rw [hf]
    cases h
    rfl
  · next old hf =>
    split at h
    · cases h
    · next i p hp =>
      rw [hf, hp]
      cases h
      rfl

/-- A list of validators to remove that holds the voter, and enough power behind it. -/
def SelfRemoval (valset : ValidatorSet) (tally : List GovernanceTallyItem) (pset : GovParams)
    (vote : GovernanceVote) : Prop :=
  ∃ as i v, vote.key = .removeValidator ∧ vote.value = .addresses as ∧ vote.validator ∈ as ∧
    valset.getByAddress vote.validator = some (i, v) ∧
    Governance.passes pset.governanceMode pset.governingNode valset vote
      (changeGovernanceTally vote.key vote.value v.votingPower true tally).1 = true

variable (o valset votes) in
theorem reflectVote_eq_ok_iff :
    (∃ r, reflectVote o valset (votes ++ [vote]) vote = .ok r) ↔
      ¬ ∃ as, vote.key = .removeValidator ∧ vote.value = .addresses as ∧ vote.validator ∈ as := by
  unfold reflectVote
  split
  · next hk hv => simp [hk]
  · next hk hv => simp [hk]
  · next hk hv => simp [hv]
  · next as hk hv =>
    have hlast : (votes ++ [vote]).getLast? = some vote := List.getLast?_concat
    cases ht : removeTargets valset (votes ++ [vote]) as with
    | none =>
      have hmem := (removeTargets_eq_none_iff hlast).mp ht
      simp [hk, hv, hmem]
    | some r =>
      have hmem : vote.validator ∉ as := by
        intro hmem
        rw [(removeTargets_eq_none_iff hlast).mpr hmem] at ht
        cases ht
      simp [hk, hv, hmem]
  · next hk =>
    refine ⟨fun _ => ?_, fun _ => ⟨_, rfl⟩⟩
    rintro ⟨as, hkey, hvalue, -⟩
    exact hk as hkey hvalue

variable (g writable o votes blockNum) in
theorem addNewVote_eq_ok_iff {pset : GovParams} (h : checkValue vote.key vote.value = true) :
    (∃ r, g.addNewVote writable o valset (votes ++ [vote]) tally vote pset.governanceMode
      pset.governingNode blockNum = .ok r) ↔ ¬ SelfRemoval valset tally pset vote := by
  unfold Governance.addNewVote Kaia.addNewVote SelfRemoval
  cases hv : valset.getByAddress vote.validator with
  | none => simp [bind, Except.bind]
  | some p =>
    obtain ⟨i, v⟩ := p
    obtain ⟨g', hg'⟩ := updateChangeSet_ok (g := g) h
    by_cases hpass : passes pset.governanceMode pset.governingNode valset vote
        (changeGovernanceTally vote.key vote.value v.votingPower true tally).1 = true
    · have hcond := hpass
      simp only [passes, decide_eq_true_eq] at hcond
      rw [show (∃ as i' v', _) ↔ ∃ as, vote.key = .removeValidator ∧ vote.value = .addresses as ∧
        vote.validator ∈ as from ?_, ← reflectVote_eq_ok_iff o valset votes]
      · dsimp only
        rw [if_pos hcond]
        cases hr : reflectVote o valset (votes ++ [vote]) vote with
        | error e => simp [bind, Except.bind]
        | ok r =>
          refine ⟨fun _ => ⟨_, rfl⟩, fun _ => ?_⟩
          simp only [bind, Except.bind, hg', Except.mapError]
          split <;> exact ⟨_, rfl⟩
      · constructor
        · rintro ⟨as, -, -, hk, hval, hmem, -⟩
          exact ⟨as, hk, hval, hmem⟩
        · rintro ⟨as, hk, hval, hmem⟩
          exact ⟨as, i, v, hk, hval, hmem, rfl, hpass⟩
    · have hcond := hpass
      simp only [passes, decide_eq_true_eq] at hcond
      dsimp only
      rw [if_neg hcond]
      refine ⟨fun _ => ?_, fun _ => ?_⟩
      · rintro ⟨as, i', v', -, -, -, hget, hpass'⟩
        cases hget
        exact hpass hpass'
      · simp only [bind, Except.bind, hpass, Bool.false_eq_true, false_and, if_false]
        exact ⟨_, rfl⟩

theorem castVote_eq_ok_iff {pset : GovParams} (h : checkValue vote.key vote.value = true) :
    (∃ r, g.castVote writable o valset votes tally pset proposer self blockNum vote = .ok r) ↔
      ¬ StrayVote valset votes proposer vote.key ∧
      ¬ SelfRemoval valset (tallyWithout valset votes tally proposer vote.key) pset vote := by
  rw [← removePreviousVote_eq_ok_iff g tally pset.governanceMode pset.governingNode writable]
  unfold Governance.castVote
  cases hprev : g.removePreviousVote writable valset votes tally proposer vote pset.governanceMode
      pset.governingNode with
  | error e => simp [bind, Except.bind, Except.mapError]
  | ok r =>
    obtain ⟨⟨votes', tally'⟩, g'⟩ := r
    have htally : tally' = tallyWithout valset votes tally proposer vote.key := by
      obtain ⟨r, hr, hrest⟩ := bind_eq_ok.mp hprev
      split at hrest
      · cases hrest
        exact removePreviousVote_tally hr
      · obtain ⟨g'', -, hg''⟩ := bind_eq_ok.mp hrest
        cases hg''
        exact removePreviousVote_tally hr
    subst htally
    rw [← addNewVote_eq_ok_iff g' o votes' writable blockNum h]
    simp only [bind, Except.bind, Except.mapError]
    cases hadd : g'.addNewVote writable o valset (votes' ++ [vote])
      (tallyWithout valset votes tally proposer vote.key) vote pset.governanceMode
      pset.governingNode blockNum with
    | error e => simp
    | ok r => simp

namespace Governance

variable (g : Governance) (writable : Bool) (o : AddressOrder) (gov : GovEnv)
  (valset : ValidatorSet) (votes : List GovernanceVote) (tally : List GovernanceTallyItem)
  (header : Header) (proposer self : Address)

/-- The bytes do not decode, name no key that can be voted on or carry no value for it. -/
def Rejected : Prop :=
  ∀ raw, header.vote ≠ [] → gov.decodeVote header.vote = some raw →
    ∀ vote, parseVoteValue raw = .ok (.ok vote) →
      vote.key.forbidden = true ∨ validateVote gov.toLower vote = none

/-- A long number, or a counted vote after one of no validator or with the voter to be removed. -/
def StopsNode : Prop :=
  OversizedVote gov header ∨ ∃ vote pset, Counts gov valset header vote pset ∧
    (StrayVote valset votes proposer vote.key ∨
      SelfRemoval valset (tallyWithout valset votes tally proposer vote.key) pset vote)

variable {gov header}

theorem headerVote_cases (h : ¬ OversizedVote gov header) :
    ∃ parsed, headerVote gov header = .ok parsed := by
  cases hv : headerVote gov header with
  | error p => exact absurd (headerVote_eq_error_iff.mp ⟨p, hv⟩) h
  | ok parsed => exact ⟨parsed, rfl⟩

theorem Rejected.validateVote_eq_none (hrej : Rejected gov header)
    (h : headerVote gov header = .ok (some vote)) : validateVote gov.toLower vote = none := by
  obtain ⟨raw, hne, hraw, hparsed, hkey⟩ := headerVote_eq_some h
  exact (hrej raw hne hraw vote hparsed).resolve_left (by simp [hkey])

variable {g writable o valset votes tally proposer self}

theorem validateVote_checkValue {toLower : Bytes → Bytes} {vote' : GovernanceVote}
    (h : validateVote toLower vote = some vote') : checkValue vote'.key vote'.value = true := by
  obtain ⟨hcheck, heq⟩ := Option.ite_none_right_eq_some.mp h
  obtain rfl := Option.some.inj heq
  exact hcheck

theorem handleGovernanceVote_of_not_counts (hok : ¬ OversizedVote gov header)
    (h : ∀ vote pset, ¬ Counts gov valset header vote pset) :
    ∃ g', g.handleGovernanceVote writable o gov valset votes tally header proposer self =
      .ok ((valset, votes, tally), g') := by
  obtain ⟨parsed, hparsed⟩ := headerVote_cases hok
  unfold handleGovernanceVote
  simp only [hparsed, Except.mapError, bind, Except.bind]
  cases parsed with
  | none => exact ⟨_, rfl⟩
  | some cast =>
    dsimp only
    split
    · next happlies =>
      cases hval : validateVote gov.toLower cast with
      | none => exact ⟨_, rfl⟩
      | some vote =>
        cases hp : gov.effectiveParams (uint64 header.number) with
        | none => exact ⟨_, rfl⟩
        | some pset => exact absurd ⟨cast, hparsed, happlies, hval, hp⟩ (h vote pset)
    · exact ⟨_, rfl⟩

theorem handleGovernanceVote_of_counts {pset : GovParams} (h : Counts gov valset header vote pset) :
    (∃ r, g.handleGovernanceVote writable o gov valset votes tally header proposer self = .ok r) ↔
      ∃ r, g.castVote writable o valset votes tally pset proposer self (uint64 header.number) vote =
        .ok r := by
  obtain ⟨cast, hcast, happlies, hval, hp⟩ := h
  unfold handleGovernanceVote
  simp only [hcast, Except.mapError, bind, Except.bind, happlies, hval, hp, if_true]
  cases g.castVote writable o valset votes tally pset proposer self (uint64 header.number) vote <;>
    simp

theorem handleGovernanceVote_eq_ok_iff :
    (∃ r, g.handleGovernanceVote writable o gov valset votes tally header proposer self = .ok r) ↔
      ¬ StopsNode gov valset votes tally header proposer := by
  constructor
  · rintro ⟨r, hr⟩ (hover | ⟨vote, pset, hcounts, hharm⟩)
    · obtain ⟨p, hp⟩ := headerVote_eq_error_iff.mpr hover
      unfold handleGovernanceVote at hr
      simp only [hp, Except.mapError, bind, Except.bind] at hr
      cases hr
    · obtain ⟨_, -, -, hval, -⟩ := id hcounts
      have hcast := (handleGovernanceVote_of_counts hcounts).mp ⟨r, hr⟩
      obtain ⟨hstray, hself⟩ := (castVote_eq_ok_iff (validateVote_checkValue hval)).mp hcast
      exact hharm.elim hstray hself
  · intro hok
    obtain ⟨hover, hcounted⟩ := not_or.mp hok
    by_cases hcounts : ∃ vote pset, Counts gov valset header vote pset
    · obtain ⟨vote, pset, hcounts⟩ := hcounts
      obtain ⟨_, -, -, hval, -⟩ := id hcounts
      rw [handleGovernanceVote_of_counts hcounts,
        castVote_eq_ok_iff (validateVote_checkValue hval), ← not_or]
      exact fun hharm => hcounted ⟨vote, pset, hcounts, hharm⟩
    · push Not at hcounts
      obtain ⟨g', hg'⟩ := handleGovernanceVote_of_not_counts hover hcounts
      exact ⟨_, hg'⟩

/-- The vote of a header is handled, or rejected without effect, unless it stops the node. -/
theorem handleGovernanceVote_returns_iff (g : Governance) (writable : Bool) (o : AddressOrder)
    (gov : GovEnv) (valset : ValidatorSet) (votes : List GovernanceVote)
    (tally : List GovernanceTallyItem) (header : Header) (proposer self : Address) :
    ((∃ r, g.handleGovernanceVote writable o gov valset votes tally header proposer self =
        .ok r) ∧
      (Rejected gov header →
        ∃ g', g.handleGovernanceVote writable o gov valset votes tally header proposer self =
          .ok ((valset, votes, tally), g'))) ↔
    ¬ StopsNode gov valset votes tally header proposer := by
  constructor
  · rintro ⟨hok, -⟩
    exact handleGovernanceVote_eq_ok_iff.mp hok
  · intro hok
    refine ⟨handleGovernanceVote_eq_ok_iff.mpr hok, fun hrej => ?_⟩
    apply handleGovernanceVote_of_not_counts (not_or.mp hok).1
    rintro vote pset ⟨cast, hcast, -, hval, -⟩
    rw [hrej.validateVote_eq_none hcast] at hval
    cases hval

def nineBytes : GovEnv :=
  { decodeVote := fun _ => some ⟨1, "governance.unitprice", .bytes (List.replicate 9 1)⟩
    toLower := id
    effectiveParams := fun _ => none }

theorem nine_bytes_panic :
    (blank.handleGovernanceVote false ChainEnv.counting.order nineBytes
        threeValidators.valSet [] [] (votingHeader 1 [1]) 2 3).map Prod.fst =
      .error (.panic .makeSlice) := by
  rfl

end Governance

end Kaia
