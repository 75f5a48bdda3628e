import Kaia.Foundation.Outcomes
import Kaia.Governance.Handler

/-! # Who may vote in single mode

In single mode a vote takes effect when it is from the governing node. The voter is read from the
vote and not from the seal, so votes may claim to be from that node.
-/

namespace Kaia

open Foundation

variable {gov : GovEnv} {header : Header} {vote vote' : GovernanceVote}

/-- A number or a truth value of more than eight bytes. -/
def RawVote.Oversized (raw : RawVote) : Prop :=
  ∃ k b, governanceKeyMap raw.key = some k ∧ (k.type = .uint64 ∨ k.type = .bool) ∧
    raw.value = .bytes b ∧ 8 < b.length

theorem parseVoteValue_spec (raw : RawVote) :
    Outcome (fun p => p = .makeSlice ∧ raw.Oversized)
      (fun r => ∀ vote, r = .ok vote → vote.validator = raw.validator) (parseVoteValue raw) := by
  have hlong : ∀ {k b}, governanceKeyMap raw.key = some k → (k.type = .uint64 ∨ k.type = .bool) →
      raw.value = .bytes b →
      Outcome (fun p => p = .makeSlice ∧ raw.Oversized) (fun _ => True) (paddedUint64 b) := by
    intro k b hk htype hb
    unfold paddedUint64
    split
    · next hlt => exact ⟨rfl, k, b, hk, htype, hb, hlt⟩
    · trivial
  have hparsed : ∀ k v vote, (.ok ⟨raw.validator, k, v⟩ : Except VoteErr GovernanceVote) = .ok vote →
      vote.validator = raw.validator := by
    rintro k v _ ⟨⟩
    rfl
  unfold parseVoteValue
  split
  · exact nofun
  · next k hk =>
    dsimp only
    split
    · exact hparsed _ _
    · exact hparsed _ _
    · split
      · split
        · exact nofun
        · split
          · exact hparsed _ _
          · exact nofun
      · exact nofun
    · next htype hv => exact (hlong hk (.inl htype) hv).bind fun _ _ => hparsed _ _
    · next htype hv => exact (hlong hk (.inr htype) hv).bind fun _ _ => hparsed _ _
    · exact nofun

theorem headerVote_eq_some (h : headerVote gov header = .ok (some vote)) :
    ∃ raw, header.vote ≠ [] ∧ gov.decodeVote header.vote = some raw ∧
      parseVoteValue raw = .ok (.ok vote) ∧ vote.key.forbidden = false := by
  unfold headerVote at h
  split at h
  · cases h
  · next hne =>
    split at h
    · cases h
    · next raw hraw =>
      obtain ⟨parsed, hparsed, hrest⟩ := bind_eq_ok.mp h
      cases parsed with
      | error e => cases hrest
      | ok parsed =>
        dsimp only at hrest
        split at hrest
        · cases hrest
        · next hkey =>
          cases hrest
          exact ⟨raw, hne, hraw, hparsed, Bool.eq_false_of_not_eq_true hkey⟩

theorem validateVote_validator {toLower : Bytes → Bytes}
    (h : validateVote toLower vote = some vote') :
    vote'.validator = vote.validator ∧ vote'.key = vote.key := by
  obtain ⟨-, heq⟩ := Option.ite_none_right_eq_some.mp h
  obtain rfl := Option.some.inj heq
  exact ⟨rfl, rfl⟩

namespace Governance

variable {g g' : Governance} {o : AddressOrder} {valset : ValidatorSet}
  {votes : List GovernanceVote} {tally : List GovernanceTallyItem}
  {governingNode proposer self : Address} {writable : Bool}

@[simp] theorem removeVote_changeSet (k : GovKey) (value : VoteValue) (number : ℕ) :
    (g.removeVote k value number).changeSet = g.changeSet := by
  unfold removeVote
  split
  · split <;> rfl
  · rfl

@[simp] theorem importVotes_changeSet (number : ℕ) :
    (g.importVotes number votes tally).changeSet = g.changeSet := by
  unfold importVotes
  split <;> rfl

theorem not_singleOrNone (hne : vote.validator ≠ governingNode) :
    isGovernanceModeSingleOrNone .single governingNode vote.validator = false := by
  simp [isGovernanceModeSingleOrNone, hne]

variable {r : ValidatorSet × List GovernanceVote × List GovernanceTallyItem} {pset : GovParams}

theorem addNewVote_single (hne : vote.validator ≠ governingNode) (blockNum : ℕ)
    (h : g.addNewVote writable o valset votes tally vote .single governingNode blockNum =
      .ok (r, g')) : r.1 = valset ∧ g' = g := by
  obtain ⟨r', hr, hrest⟩ := bind_eq_ok.mp h
  have hpass : ∀ n, passes .single governingNode valset vote n = false := by
    simp [passes, not_singleOrNone hne]
  have hset : r'.1 = valset := by
    unfold Kaia.addNewVote at hr
    split at hr
    · cases hr
      rfl
    · simp only [not_singleOrNone hne, Bool.false_eq_true, false_or, reduceCtorEq, false_and,
        if_false] at hr
      cases hr
      rfl
  split at hrest
  · cases hrest
    exact ⟨hset, rfl⟩
  · simp only [hpass, Bool.false_eq_true, false_and, if_false] at hrest
    cases hrest
    exact ⟨hset, rfl⟩

theorem removePreviousVote_single (hne : vote.validator ≠ governingNode)
    {r : List GovernanceVote × List GovernanceTallyItem}
    (h : g.removePreviousVote writable valset votes tally proposer vote .single governingNode =
      .ok (r, g')) : g' = g := by
  obtain ⟨r', -, hrest⟩ := bind_eq_ok.mp h
  split at hrest
  · cases hrest
    rfl
  · simp [retract, not_singleOrNone hne] at hrest
    cases hrest
    rfl

theorem castVote_single (hmode : pset.governanceMode = .single)
    (hne : vote.validator ≠ pset.governingNode) {number : ℕ}
    (h : g.castVote writable o valset votes tally pset proposer self number vote = .ok (r, g')) :
    r.1 = valset ∧ g'.changeSet = g.changeSet := by
  obtain ⟨⟨⟨vs, ts⟩, g₁⟩, hprev, hrest⟩ := bind_eq_ok.mp h
  obtain ⟨⟨r₂, g₂⟩, hnew, hok⟩ := bind_eq_ok.mp hrest
  rw [hmode] at hprev hnew
  obtain rfl := removePreviousVote_single hne (mapError_eq_ok.mp hprev)
  obtain ⟨hset, rfl⟩ := addNewVote_single hne number hnew
  cases hok
  refine ⟨hset, ?_⟩
  split
  · exact removeVote_changeSet _ _ _
  · rfl

/-- The vote of a header, with the parameters it is counted under. -/
def Counts (gov : GovEnv) (valset : ValidatorSet) (header : Header) (vote : GovernanceVote)
    (pset : GovParams) : Prop :=
  ∃ cast, headerVote gov header = .ok (some cast) ∧ voteApplies valset cast = true ∧
    validateVote gov.toLower cast = some vote ∧
    gov.effectiveParams (uint64 header.number) = some pset

/-- No change is added. -/
def Loses (g g' : Governance) : Prop :=
  ∀ k v, g'.changeSet k = some v → g.changeSet k = some v

/-- No vote counts, or one is cast; lists of votes to send have no effect. -/
theorem handleGovernanceVote_cases
    (h : g.handleGovernanceVote writable o gov valset votes tally header proposer self =
      .ok (r, g')) :
    (r = (valset, votes, tally) ∧ g'.changeSet = g.changeSet) ∨
      ∃ vote pset g₁, Counts gov valset header vote pset ∧
        g.castVote writable o valset votes tally pset proposer self (uint64 header.number) vote =
          .ok (r, g₁) ∧ g'.changeSet = g₁.changeSet := by
  obtain ⟨parsed, hparsed, h⟩ := bind_eq_ok.mp h
  rw [mapError_eq_ok] at hparsed
  cases parsed with
  | none =>
    cases h
    exact .inl ⟨rfl, rfl⟩
  | some cast =>
    dsimp only at h
    split at h
    · next happlies =>
      split at h
      · next vote hval =>
        split at h
        · cases h
          exact .inl ⟨rfl, rfl⟩
        · next pset hpset =>
          obtain ⟨⟨r₁, g₁⟩, hcast, h⟩ := bind_eq_ok.mp h
          cases h
          refine .inr ⟨vote, pset, g₁, ⟨cast, hparsed, happlies, hval, hpset⟩, hcast, ?_⟩
          split
          · exact importVotes_changeSet _
          · rfl
      · cases h
        refine .inl ⟨rfl, ?_⟩
        split
        · exact importVotes_changeSet _
        · rfl
    · cases h
      refine .inl ⟨rfl, ?_⟩
      split
      · exact removeVote_changeSet _ _ _
      · rfl

theorem handleGovernanceVote_single (hpset : gov.effectiveParams (uint64 header.number) = some pset)
    (hmode : pset.governanceMode = .single)
    (hvote : ∀ raw, gov.decodeVote header.vote = some raw → raw.validator ≠ pset.governingNode)
    (h : g.handleGovernanceVote writable o gov valset votes tally header proposer self =
      .ok (r, g')) : r.1 = valset ∧ g'.changeSet = g.changeSet := by
  obtain ⟨rfl, hchange⟩ | ⟨vote, pset', g₁, ⟨cast, hcast, -, hval, hp⟩, h, hchange⟩ :=
    handleGovernanceVote_cases h
  · exact ⟨rfl, hchange⟩
  · cases hpset.symm.trans hp
    obtain ⟨raw, -, hraw, hparsed, -⟩ := headerVote_eq_some hcast
    have hne : vote.validator ≠ pset.governingNode := by
      rw [(validateVote_validator hval).1, (parseVoteValue_spec raw).of_ok hparsed _ rfl]
      exact hvote raw hraw
    rw [hchange]
    exact castVote_single hmode hne h

variable {F : Type}

/-- The council of a snapshot is left as it is, or refreshed by stakes only. -/
def KeepsValidators (env : SnapshotEnv F) (policy : ProposerPolicy) (header : Header)
    (valSet valSet' : ValidatorSet) : Prop :=
  if policy = weightedRandom then
    Snapshot.refreshCouncil env valSet (uint64 header.number) = .ok valSet'
  else valSet' = valSet

variable {env : SnapshotEnv F} {policy : ProposerPolicy} {st st' : Snapshot × Governance}
  {s : Snapshot} {headers : List Header}

theorem keepsValidators_of_refresh {V W : ValidatorSet}
    (h : (if policy = weightedRandom then Snapshot.refreshCouncil env V (uint64 header.number)
      else .ok V) = .ok W) : KeepsValidators env policy header V W := by
  unfold KeepsValidators
  split at h
  · next hpolicy => rwa [if_pos hpolicy]
  · next hpolicy =>
    rw [if_neg hpolicy]
    exact (Except.ok.inj h).symm

theorem applyHeader_eq_ok (h : applyHeader env policy writable self st header = .ok st') :
    ∃ validator V g, ecrecover (m := Id) env.recover header = .ok validator ∧
      (st.1.valSet.getByAddress validator).isSome ∧ Loses st.2 g ∧
      g.handleGovernanceVote writable env.chain.order env.gov st.1.valSet
        (st.1.turnEpoch (uint64 header.number)).votes (st.1.turnEpoch (uint64 header.number)).tally
        header validator self = .ok ((V, st'.1.votes, st'.1.tally), st'.2) ∧
      (if policy = weightedRandom then Snapshot.refreshCouncil env V (uint64 header.number)
        else .ok V) = .ok st'.1.valSet := by
  obtain ⟨snap, g⟩ := st
  obtain ⟨validator, hvalidator, h⟩ := bind_eq_ok.mp h
  dsimp only at h
  split at h
  · cases h
  · next hin =>
    split at h
    · cases h
    · obtain ⟨⟨⟨V, votes, tally⟩, g'⟩, hhandle, h⟩ := bind_eq_ok.mp h
      obtain ⟨W, hW, h⟩ := bind_eq_ok.mp h
      cases h
      rw [mapError_eq_ok] at hvalidator hhandle
      have hset : ((snap.turnEpoch (uint64 header.number)).reload env
          (uint64 (uint64 header.number + 1))).valSet = snap.valSet := by
        unfold Snapshot.turnEpoch
        split <;> rfl
      rw [hset] at hhandle
      refine ⟨validator, V, _, hvalidator, by simpa [Option.isSome_iff_ne_none] using hin,
        fun k v hv => ?_, hhandle, hW⟩
      split at hv
      · cases hv
      · exact hv

theorem reaches_append :
    Reaches env policy writable self s g (headers ++ [header]) st' ↔
      ∃ st, Reaches env policy writable self s g headers st ∧
        applyHeader env policy writable self st header = .ok st' := by
  unfold Reaches
  rw [List.foldlM_append, bind_eq_ok]
  refine exists_congr fun st => and_congr_right fun _ => ?_
  rw [List.foldlM_cons, bind_eq_ok]
  constructor
  · rintro ⟨st₁, hst₁, hpure⟩
    cases hpure
    exact hst₁
  · exact fun hst' => ⟨st', hst', rfl⟩

/-- If only the governing node votes in its name, blocks of other nodes change nothing. -/
theorem single_mode_authority (env : SnapshotEnv F) (policy : ProposerPolicy) (writable : Bool)
    (self : Address) (s : Snapshot) (g : Governance) (headers : List Header) (header : Header)
    {st st' : Snapshot × Governance} {proposer : Address} {pset : GovParams}
    (hrun : Reaches env policy writable self s g headers st)
    (hstep : Reaches env policy writable self s g (headers ++ [header]) st')
    (hproposer : ecrecover (m := Id) env.recover header = .ok proposer)
    (hpset : env.gov.effectiveParams (uint64 header.number) = some pset)
    (hmode : pset.governanceMode = .single) (hne : proposer ≠ pset.governingNode)
    (hvote : ∀ raw, env.gov.decodeVote header.vote = some raw →
      raw.validator = pset.governingNode →
      ecrecover (m := Id) env.recover header = .ok pset.governingNode) :
    KeepsValidators env policy header st.1.valSet st'.1.valSet ∧
      ∀ k v, st'.2.changeSet k = some v → st.2.changeSet k = some v := by
  have hother : ∀ raw, env.gov.decodeVote header.vote = some raw →
      raw.validator ≠ pset.governingNode := by
    intro raw hraw hnode
    exact hne (Except.ok.inj (hproposer.symm.trans (hvote raw hraw hnode)))
  obtain ⟨st₀, hst₀, hlast⟩ := reaches_append.mp hstep
  cases hrun.symm.trans hst₀
  obtain ⟨validator, V, g₀, -, -, hloses, hhandle, hrefresh⟩ := applyHeader_eq_ok hlast
  obtain ⟨hset, hchange⟩ := handleGovernanceVote_single hpset hmode hother hhandle
  obtain rfl : V = st.1.valSet := hset
  exact ⟨keepsValidators_of_refresh hrefresh, fun k v hv => hloses k v (hchange ▸ hv)⟩

/-- Three validators in single mode under the first; every header is sealed by the second. -/
def forging : SnapshotEnv ℕ where
  chain := ChainEnv.counting
  gov :=
    { decodeVote := fun b =>
        match b with
        | [1] => some ⟨1, "governance.addvalidator", .bytes [9]⟩
        | [2] => some ⟨2, "governance.addvalidator", .bytes [9]⟩
        | [3] => some ⟨1, "governance.unitprice", .bytes [7]⟩
        | _ => none
      toLower := id
      effectiveParams := fun _ => some
        { epoch := 604800, policy := roundRobin, committeeSize := 22
          governanceMode := .single, governingNode := 1, minimumStake := 5 } }
  float := FloatOps.nat
  recover := fun _ _ => .ok 2
  stakingInfo := fun _ => none
  getHeaderByNumber := fun _ => none

def votingHeader (number : ℕ) (vote : Bytes) : Header :=
  { number, parentHash := 0, hash := 0, sigHash := 0, extra := some ⟨[1, 2, 3], [], []⟩
    mixHash := none, vote }

def threeValidators : Snapshot :=
  newSnapshot forging 0 0 (fullCommittee [1, 2, 3])

def blank : Governance := ⟨fun _ => none, fun _ => none, [], [], 0⟩

theorem single_mode_authority_own_vote :
    ∃ st st', Reaches forging roundRobin true 3 threeValidators blank
        [votingHeader 1 [2]] st ∧
      Reaches forging roundRobin true 3 threeValidators blank
        ([votingHeader 1 [2]] ++ [votingHeader 2 [2]]) st' ∧
      KeepsValidators forging roundRobin (votingHeader 2 [2]) st.1.valSet st'.1.valSet ∧
      ∀ k v, st'.2.changeSet k = some v → st.2.changeSet k = some v := by
  obtain ⟨st, hst⟩ : ∃ st, Reaches forging roundRobin true 3 threeValidators blank
      [votingHeader 1 [2]] st := ⟨_, rfl⟩
  obtain ⟨st', hst'⟩ : ∃ st', Reaches forging roundRobin true 3 threeValidators blank
      ([votingHeader 1 [2]] ++ [votingHeader 2 [2]]) st' := ⟨_, rfl⟩
  refine ⟨st, st', hst, hst', ?_⟩
  refine single_mode_authority forging roundRobin true 3 threeValidators blank
    [votingHeader 1 [2]] (votingHeader 2 [2]) hst hst'
    (show ecrecover (m := Id) forging.recover (votingHeader 2 [2]) = .ok 2 from rfl) rfl rfl
    (by decide) ?_
  intro raw hraw hnode
  obtain rfl := Option.some.inj hraw
  exact absurd hnode (by decide)

/-- The second validator votes as the first: a validator is added and a parameter changed. -/
theorem forged_votes_pass :
    ∃ st, Reaches forging roundRobin true 3 threeValidators blank
        [votingHeader 1 [1], votingHeader 2 [3]] st ∧
      (ecrecover (m := Id) forging.recover (votingHeader 1 [1]) = .ok 2) ∧
      (ecrecover (m := Id) forging.recover (votingHeader 2 [3]) = .ok 2) ∧
      9 ∉ addresses threeValidators.valSet.list ∧ 9 ∈ addresses st.1.valSet.list ∧
      (st.2.changeSet .unitPrice).map Subtype.val = some (.uint64 7) := by
  refine ⟨_, rfl, rfl, rfl, ?_, ?_, ?_⟩ <;> decide +kernel

end Governance

end Kaia
