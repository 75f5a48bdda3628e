import Kaia.Validator.CommitteeSize
import Kaia.Validator.Refresh

/-! # When a proposer is selected

A weighted council takes a member of the committee of the mix hash, or goes round the precomputed
proposers. It may also panic, or select somebody who is no validator.
-/

namespace Kaia

open Foundation List

variable {env : ChainEnv} {c : WeightedCouncil} {vs : List Validator} {size : ℕ} {mixHash : Bytes}

/-- The proposer is a validator, or the last one where there are no validators. -/
def WeightedCouncil.Proposes (c : WeightedCouncil) (lastProposer : Address) (p : Address) : Prop :=
  if c.validators = [] then p = lastProposer else p ∈ addresses c.validators

/-- `CalcProposer` returns and selects, for every last proposer and every round. -/
def WeightedCouncil.Selects (env : ChainEnv) (c : WeightedCouncil) : Prop :=
  ∀ lastProposer round, round < 2 ^ 64 →
    ∃ c' p, c.calcProposer env lastProposer round = .ok c' ∧ c'.proposer = some p ∧
      c.Proposes lastProposer p

/-- The committee of the mix hash can be drawn and is not empty. -/
def RandaoDrawable (c : WeightedCouncil) (mixHash : Bytes) : Prop :=
  c.validators ≠ [] ∧ c.subSize ≠ 0 ∧ (c.subSize = 1 ∨ 8 ≤ mixHash.length)

/-- What the selection needs; proposers past `2 ^ 64` are never selected. -/
def WeightedCouncil.Selectable (env : ChainEnv) (c : WeightedCouncil) : Prop :=
  if isForked env.forks.randao (uint64 (c.blockNum + 1)) then
    ∀ mixHash, c.mixHash = some mixHash → RandaoDrawable c mixHash
  else
    c.proposers = [] ∨ env.proposerUpdateInterval ≠ 0 ∧
      ∀ p ∈ c.proposers.take (2 ^ 64), p ∈ addresses c.validators

theorem selectRandaoCommittee_drawn (rng : Rng) (hsize : size ≠ 0)
    (hmix : size = 1 ∨ 8 ≤ mixHash.length) (hne : vs ≠ []) :
    ∃ committee, selectRandaoCommittee rng vs size mixHash = .ok committee ∧ committee ≠ [] ∧
      ∀ v ∈ committee, v ∈ vs := by
  by_cases hsmall : size < 2
  · exact ⟨vs, by rw [selectRandaoCommittee, if_pos hsmall, if_neg hsize], hne, fun _ => id⟩
  · obtain ⟨l, hl, hlen, -, hsub⟩ :=
      @selectRandaoCommittee_ok size rng vs mixHash (by omega) (by omega)
    have hpos := length_pos_iff.mpr hne
    exact ⟨l, hl, length_pos_iff.mp (by omega), hsub⟩

theorem pick_committee_ok (rng : Rng) (round : ℕ) (h : RandaoDrawable c mixHash) :
    ∃ committee p, selectRandaoCommittee rng c.validators c.subSize mixHash = .ok committee ∧
      pickBySeed committee round = .ok p ∧ p ∈ addresses c.validators := by
  obtain ⟨hne, hsize, hmix⟩ := h
  obtain ⟨committee, hcommittee, hcne, hsub⟩ := selectRandaoCommittee_drawn rng hsize hmix hne
  obtain ⟨v, hv, hpick⟩ := pickBySeed_ok hcne round
  exact ⟨committee, v.address, hcommittee, hpick, mem_map_of_mem (hsub v (mem_of_getElem? hv))⟩

theorem selectRandaoCommittee_not_drawn (rng : Rng) (h : ¬ RandaoDrawable c mixHash) :
    (∃ e, selectRandaoCommittee rng c.validators c.subSize mixHash = .error e) ∨
      selectRandaoCommittee rng c.validators c.subSize mixHash = .ok [] := by
  unfold selectRandaoCommittee
  by_cases hzero : c.subSize = 0
  · exact .inr (by rw [hzero]; rfl)
  · by_cases hmix : c.subSize = 1 ∨ 8 ≤ mixHash.length
    · have hnil : c.validators = [] := not_not.mp fun hne => h ⟨hne, hzero, hmix⟩
      right
      by_cases hsmall : c.subSize < 2
      · rw [if_pos hsmall, if_neg hzero, hnil]
      · rw [if_neg hsmall, if_neg (by omega), hnil]
        dsimp only
        rw [length_nil, Nat.min_zero, take_zero]
    · rw [not_or] at hmix
      exact .inl ⟨.sliceBounds, by rw [if_neg (by omega), if_pos (by omega)]⟩

/-! ## The calculation by what was selected -/

variable {lastProposer p : Address} {round : ℕ} {e : GoPanic}

theorem calcProposer_of_some (h : weightedRandomProposer env c round = .ok (some p)) :
    c.calcProposer env lastProposer round = .ok { c with proposer := some p } := by
  unfold WeightedCouncil.calcProposer
  rw [h]
  rfl

theorem calcProposer_of_error (h : weightedRandomProposer env c round = .error e) :
    c.calcProposer env lastProposer round = .error e := by
  unfold WeightedCouncil.calcProposer
  rw [h]
  rfl

theorem calcProposer_of_none (h : weightedRandomProposer env c round = .ok none) :
    ∃ c' p, c.calcProposer env lastProposer round = .ok c' ∧ c'.proposer = some p ∧
      c.Proposes lastProposer p := by
  unfold WeightedCouncil.calcProposer
  rw [h]
  by_cases hnil : c.validators = []
  · refine ⟨{ c with proposer := some lastProposer }, lastProposer, if_pos hnil, rfl, ?_⟩
    exact (if_pos hnil).mpr rfl
  · obtain ⟨v, hv, hpick⟩ := pickBySeed_ok hnil
      (if lastProposer = 0 then round else calcSeed c.validators lastProposer round)
    refine ⟨{ c with proposer := some v.address }, v.address, ?_, rfl, ?_⟩
    · refine (if_neg hnil).trans ?_
      rw [WeightedCouncil.chooseProposerByRoundRobin, hpick]
      rfl
    · exact (if_neg hnil).mpr (mem_map_of_mem (mem_of_getElem? hv))

theorem selects_iff_of_randao (hfork : isForked env.forks.randao (uint64 (c.blockNum + 1)) = true) :
    c.Selects env ↔ ∀ mixHash, c.mixHash = some mixHash → RandaoDrawable c mixHash := by
  cases hmix : c.mixHash with
  | none =>
    refine ⟨fun _ => nofun, fun _ lastProposer round _ => calcProposer_of_none ?_⟩
    unfold weightedRandomProposer
    rw [if_pos hfork, hmix]
  | some mixHash =>
    have hdraw : ∀ round, weightedRandomProposer env c round = (do
        let committee ← selectRandaoCommittee env.rng c.validators c.subSize mixHash
        let p ← pickBySeed committee round
        .ok (some p)) := by
      intro round
      unfold weightedRandomProposer
      rw [if_pos hfork, hmix]
    simp only [Option.some.injEq, forall_eq']
    constructor
    · intro h
      by_contra hnot
      obtain ⟨c', p, hok, -⟩ := h 0 0 (by decide)
      have herr : ∃ e, weightedRandomProposer env c 0 = .error e := by
        rw [hdraw]
        rcases selectRandaoCommittee_not_drawn env.rng hnot with ⟨e, he⟩ | hnil
        · exact ⟨e, by rw [he]; rfl⟩
        · exact ⟨.divideByZero, by rw [hnil]; rfl⟩
      obtain ⟨e, he⟩ := herr
      cases (calcProposer_of_error he).symm.trans hok
    · intro h lastProposer round _
      obtain ⟨committee, p, hcommittee, hpick, hp⟩ := pick_committee_ok env.rng round h
      refine ⟨_, p, calcProposer_of_some ?_, rfl, (if_neg h.1).mpr hp⟩
      rw [hdraw, hcommittee]
      show (do let p ← pickBySeed committee round; Except.ok (some p)) = _
      rw [hpick]
      rfl

theorem exists_round (blockNum refreshed : ℕ) {i : ℕ} (hi : i < 2 ^ 64) :
    ∃ round < 2 ^ 64, sub64 (blockNum + round) refreshed = i := by
  refine ⟨(i + refreshed % 2 ^ 64 + (2 ^ 64 - blockNum % 2 ^ 64)) % 2 ^ 64,
    Nat.mod_lt _ (by decide), ?_⟩
  unfold sub64 uint64
  omega

theorem selects_iff_of_not_randao
    (hfork : ¬ isForked env.forks.randao (uint64 (c.blockNum + 1)) = true) :
    c.Selects env ↔ c.proposers = [] ∨ env.proposerUpdateInterval ≠ 0 ∧
      ∀ p ∈ c.proposers.take (2 ^ 64), p ∈ addresses c.validators := by
  by_cases hnil : c.proposers = []
  · refine ⟨fun _ => .inl hnil, fun _ lastProposer round _ => calcProposer_of_none ?_⟩
    unfold weightedRandomProposer
    rw [if_neg hfork, if_pos hnil]
  · simp only [hnil, false_or]
    by_cases hzero : env.proposerUpdateInterval = 0
    · have herr : weightedRandomProposer env c 0 = .error .divideByZero := by
        unfold weightedRandomProposer
        rw [if_neg hfork, if_neg hnil, if_pos hzero]
      refine ⟨fun h => ?_, fun h => absurd hzero h.1⟩
      obtain ⟨c', p, hok, -⟩ := h 0 0 (by decide)
      cases (calcProposer_of_error herr).symm.trans hok
    · obtain ⟨refreshed, hpick⟩ : ∃ refreshed, ∀ round, weightedRandomProposer env c round =
          .ok c.proposers[sub64 (c.blockNum + round) refreshed % c.proposers.length]? :=
        ⟨_, fun _ => WeightedCouncil.weightedRandomProposer_before (by simpa using hfork) hnil hzero⟩
      constructor
      · refine fun h => ⟨hzero, fun p hp => ?_⟩
        obtain ⟨i, hi⟩ := mem_iff_getElem?.mp hp
        rw [getElem?_take] at hi
        obtain ⟨hword, hi⟩ := Option.ite_none_right_eq_some.mp hi
        obtain ⟨hlt, -⟩ := List.getElem?_eq_some_iff.mp hi
        obtain ⟨round, hround, hindex⟩ := exists_round c.blockNum refreshed hword
        have hsome : weightedRandomProposer env c round = .ok (some p) := by
          rw [hpick, hindex, Nat.mod_eq_of_lt hlt, hi]
        -- some other last proposer, so that the proposer has to be a validator
        obtain ⟨c', q, hok, hq, hproposes⟩ := h (p + 1) round hround
        rw [calcProposer_of_some hsome] at hok
        obtain rfl := Except.ok.inj hok
        obtain rfl := Option.some.inj hq
        unfold WeightedCouncil.Proposes at hproposes
        split at hproposes
        · exact absurd hproposes (by bv_omega)
        · exact hproposes
      · rintro ⟨-, hall⟩ lastProposer round _
        obtain ⟨i, hi, hlt, hword⟩ : ∃ i, sub64 (c.blockNum + round) refreshed %
            c.proposers.length = i ∧ i < c.proposers.length ∧ i < 2 ^ 64 := by
          refine ⟨_, rfl, Nat.mod_lt _ (length_pos_iff.mpr hnil), ?_⟩
          exact (Nat.mod_le _ _).trans_lt (Nat.mod_lt _ (by decide))
        have hmem : c.proposers[i] ∈ c.proposers.take (2 ^ 64) := by
          refine mem_iff_getElem?.mpr ⟨i, ?_⟩
          rw [getElem?_take, if_pos hword, getElem?_eq_getElem hlt]
        refine ⟨_, c.proposers[i], calcProposer_of_some ((hpick round).trans ?_), rfl,
          (if_neg ?_).mpr (hall _ hmem)⟩
        · rw [hi, getElem?_eq_getElem hlt]
        · intro hvals
          have hp := hall _ hmem
          rw [hvals] at hp
          cases hp

theorem selects_iff_selectable (c : WeightedCouncil) : c.Selects env ↔ c.Selectable env := by
  unfold WeightedCouncil.Selectable
  split
  · next hfork => exact selects_iff_of_randao hfork
  · next hfork => exact selects_iff_of_not_randao hfork

/-- Proposer selection works exactly when it finds what it needs, for a council and for its copy. -/
theorem calcProposer_selects_iff (env : ChainEnv) (c : WeightedCouncil) :
    (c.Selects env ↔ c.Selectable env) ∧ (c.copy.Selects env ↔ c.copy.Selectable env) :=
  ⟨selects_iff_selectable c, selects_iff_selectable c.copy⟩

/-- A council of one validator without a mix hash, after the randao fork. -/
def unmixedCouncil : WeightedCouncil where
  subSize := 2
  demotedValidators := []
  validators := [newValidator 1]
  policy := weightedRandom
  proposer := none
  proposers := []
  proposersBlockNum := 0
  blockNum := 0
  mixHash := none

/-- The copy of a council has an empty mix hash in the place of a missing one, and panics. -/
theorem copied_council_panics :
    (unmixedCouncil.calcProposer { ChainEnv.counting with forks.randao := some 0 } 1 0).isOk = true ∧
      unmixedCouncil.copy.calcProposer { ChainEnv.counting with forks.randao := some 0 } 1 0 =
        .error .sliceBounds := by
  decide

/-- The members that may propose: each as often as it weighs, or all of them once if none has a
weight. -/
def weightedMembers (validators : List Validator) : List Validator :=
  if ∀ v ∈ validators, v.weight = 0 then validators
  else validators.flatMap fun v => List.replicate v.weight v

theorem picks_candidates (validators : List Validator) :
    let weighted := validators.zipIdx.flatMap fun (val, index) => List.replicate val.weight index
    picks validators (if weighted = [] then List.range validators.length else weighted) =
      weightedMembers validators := by
  intro weighted
  have hpicks : picks validators weighted =
      validators.flatMap fun v => replicate v.weight v :=
    picks_weighted Validator.weight [] validators
  have hnil : weighted = [] ↔ ∀ v ∈ validators, v.weight = 0 := by
    rw [flatMap_eq_nil_iff]
    constructor
    · intro h v hv
      obtain ⟨i, hi⟩ := getElem?_of_mem hv
      simpa using h (v, i) (mem_zipIdx_iff_getElem?.mpr hi)
    · rintro h ⟨v, i⟩ hmem
      simpa using h v (mem_of_getElem? (mem_zipIdx_iff_getElem?.mp hmem))
  unfold weightedMembers
  split
  · next h => rw [if_pos (hnil.mp h), picks_range]
  · next h => rw [if_neg fun hzero => h (hnil.mpr hzero), hpicks]

/-- The proposers drawn are the members that may propose, and a random committee is the two
proposers and others, at distinct positions. -/
theorem shuffles_lose_nobody (env : ChainEnv) (validators : List Validator) (seed : ℤ) :
    (drawProposers env seed validators).Perm (addresses (weightedMembers validators)) ∧
    ∀ committeeSize proposerIdx nextProposerIdx, proposerIdx ≠ nextProposerIdx →
      proposerIdx < validators.length → nextProposerIdx < validators.length →
      2 ≤ committeeSize → committeeSize ≤ validators.length →
      ∃ others committee,
        selectRandomCommittee env.rng validators committeeSize seed proposerIdx nextProposerIdx =
          some committee ∧
        committee = picks validators (proposerIdx :: nextProposerIdx :: others) ∧
        (proposerIdx :: nextProposerIdx :: others).Nodup ∧ committee.length = committeeSize ∧
        committee[0]? = validators[proposerIdx]? ∧ committee[1]? = validators[nextProposerIdx]? ∧
        (validators.Nodup → committee.Nodup) := by
  constructor
  · unfold drawProposers
    dsimp only
    rw [← picks_candidates validators]
    exact ((swaps_perm _ _).filterMap _).map _
  · intro k i j hij hi hj h2 hk
    obtain ⟨others, hselect, hnodup, hlen, hlt⟩ :=
      selectRandomCommittee_positions env.rng seed hi hj hij h2 hk
    have hat : ∀ {x} (hx : x < validators.length), validators[x]? = some validators[x] :=
      fun hx => getElem?_eq_getElem hx
    refine ⟨others, _, hselect, rfl, hnodup, ?_, ?_, ?_, ?_⟩
    · rw [length_picks hlt, hlen]
    · rw [picks, filterMap_cons_some (hat hi), hat hi]
      rfl
    · rw [picks, filterMap_cons_some (hat hi), filterMap_cons_some (hat hj), hat hj]
      rfl
    · intro hvalidators
      have hids := nodup_map_picks (f := id) (by rwa [map_id]) hnodup
      rwa [map_id] at hids

/-- A committee of three out of four. -/
theorem shuffles_lose_nobody_three : ∃ others committee,
    selectRandomCommittee ChainEnv.counting.rng ([1, 2, 3, 4].map newValidator) 3 5 3 0 =
      some committee ∧
    committee = picks ([1, 2, 3, 4].map newValidator) (3 :: 0 :: others) ∧
    (3 :: 0 :: others).Nodup ∧ committee.length = 3 ∧ committee[0]? = some (newValidator 4) ∧
    committee[1]? = some (newValidator 1) ∧
    (([1, 2, 3, 4].map newValidator).Nodup → committee.Nodup) :=
  (shuffles_lose_nobody ChainEnv.counting ([1, 2, 3, 4].map newValidator) 5).2 3 3 0
    (by decide) (by decide) (by decide) (by decide) (by decide)

end Kaia
