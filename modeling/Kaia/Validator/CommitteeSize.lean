import Kaia.Validator.Committee

/-! # Committee size and proposer membership

The committee of a view has `min subSize size` members and contains the proposer exactly when that
is a validator and the second member can be found. Otherwise it is everyone, or a panic.
-/

namespace Kaia

open Foundation List Option

/-- What the quorum and the fault bound assume of a committee. -/
structure Composed (validators : List Validator) (subSize : ℕ) (proposer : Address)
    (committee : List Validator) : Prop where
  length_eq : committee.length = min subSize validators.length
  nodup : (addresses committee).Nodup
  subset : ∀ v ∈ committee, v ∈ validators
  proposer_mem : proposer ∈ addresses committee

variable {vs : List Validator} {k : ℕ} {p : Address}

theorem composed_whole (hnd : (addresses vs).Nodup) (hle : vs.length ≤ k)
    (hp : p ∈ addresses vs) : Composed vs k p vs :=
  ⟨by omega, hnd, fun _ h => h, hp⟩

variable {v : Validator} {i j : ℕ}

theorem composed_singleton (hv : v ∈ vs) : Composed vs 1 v.address [v] where
  length_eq := by
    have := length_pos_of_mem hv
    simp; omega
  nodup := by simp [addresses]
  subset := by simpa using hv
  proposer_mem := by simp [addresses]

theorem Composed.mem {l : List Validator} (h : Composed vs k p l) : p ∈ addresses vs := by
  obtain ⟨v, hv, rfl⟩ := mem_map.mp h.proposer_mem
  exact mem_map_of_mem (h.subset v hv)

theorem not_composed_whole (hlt : k < vs.length) : ¬ Composed vs k p vs := fun h => by
  have := h.length_eq; omega

variable (rng : Rng) (seed : ℤ)

theorem selectRandomCommittee_positions (hi : i < vs.length)
    (hj : j < vs.length) (hij : i ≠ j) (h2 : 2 ≤ k) (hk : k ≤ vs.length) :
    ∃ others, selectRandomCommittee rng vs k seed i j = some (picks vs (i :: j :: others)) ∧
      (i :: j :: others).Nodup ∧ (i :: j :: others).length = k ∧
      ∀ x ∈ i :: j :: others, x < vs.length := by
  set others := (range vs.length).filter fun x => x ≠ i ∧ x ≠ j with hothers
  set picked := swaps others
    ((range (vs.length - 2)).map fun x => (x, rng.intn seed x (vs.length - 2))) with hpicked
  have hperm : picked.Perm others := swaps_perm _ _
  have hlen : picked.length = vs.length - 2 := by
    rw [hperm.length_eq, hothers, length_filter_ne_ne hi hj hij]
  have hmem : ∀ x ∈ picked.take (k - 2), x < vs.length ∧ x ≠ i ∧ x ≠ j := by
    intro x hx
    have := hperm.mem_iff.mp (mem_of_mem_take hx)
    simpa [hothers] using this
  refine ⟨picked.take (k - 2), ?_, ?_, ?_, ?_⟩
  · have h1 : ¬ (vs.length < k ∨ vs.length ≤ i ∨ vs.length ≤ j) := by omega
    simp only [selectRandomCommittee, hij, h1, if_false, show ¬ k < 2 by omega]
    rfl
  · have hrest : (picked.take (k - 2)).Nodup :=
      (hperm.nodup_iff.mpr (nodup_range.filter _)).sublist (take_sublist _ _)
    simp only [nodup_cons, mem_cons, not_or]
    exact ⟨⟨hij, fun h => (hmem i h).2.1 rfl⟩, fun h => (hmem j h).2.2 rfl, hrest⟩
  · simp only [length_cons, length_take, hlen]
    omega
  · intro x hx
    rcases mem_cons.mp hx with rfl | hx
    · exact hi
    · rcases mem_cons.mp hx with rfl | hx
      · exact hj
      · exact (hmem x hx).1

theorem selectRandomCommittee_composed (hnd : (addresses vs).Nodup)
    {w : Validator} (hi : vs[i]? = some v) (hj : vs[j]? = some w) (hij : i ≠ j) (h2 : 2 ≤ k)
    (hk : k ≤ vs.length) :
    ∃ l, selectRandomCommittee rng vs k seed i j = some l ∧ Composed vs k v.address l := by
  have hil := (List.getElem?_eq_some_iff.mp hi).1
  have hjl := (List.getElem?_eq_some_iff.mp hj).1
  obtain ⟨others, hselect, hposs, hlen, hlt⟩ :=
    selectRandomCommittee_positions rng seed hil hjl hij h2 hk
  refine ⟨_, hselect, ?_, ?_, ?_, ?_⟩
  · rw [length_picks hlt, hlen]
    omega
  · exact nodup_map_picks hnd hposs
  · exact fun _ h => mem_of_mem_picks h
  · exact List.mem_map_of_mem (mem_picks List.mem_cons_self hi)

theorem shuffleValidators_perm : (shuffleValidators rng vs seed).Perm vs :=
  swaps_perm _ _

theorem selectRandaoCommittee_ok (vs : List Validator) {mixHash : Bytes} (h2 : 2 ≤ k)
    (hmix : 8 ≤ mixHash.length) :
    ∃ l, selectRandaoCommittee rng vs k mixHash = .ok l ∧ l.length = min k vs.length ∧
      ((addresses vs).Nodup → (addresses l).Nodup) ∧ ∀ v ∈ l, v ∈ vs := by
  have hperm : (shuffleValidators rng vs (int64 (bigEndian (mixHash.take 8)))).Perm vs :=
    shuffleValidators_perm rng _
  refine ⟨_, by simp only [selectRandaoCommittee, show ¬ k < 2 by omega,
    show ¬ mixHash.length < 8 by omega, if_false]; rfl, ?_, ?_, ?_⟩
  · simp [hperm.length_eq]
  · intro hnd
    rw [addresses, map_take]
    exact ((hperm.map _).nodup_iff.mpr hnd).sublist (take_sublist _ _)
  · exact fun v hv => hperm.mem_iff.mp (mem_of_mem_take hv)

theorem pickBySeed_ok (hne : vs ≠ []) (seed : ℕ) :
    ∃ v, vs[seed % vs.length]? = some v ∧ pickBySeed vs seed = .ok v.address := by
  have hlt : seed % vs.length < vs.length := Nat.mod_lt _ (length_pos_iff.mpr hne)
  exact ⟨_, getElem?_eq_getElem hlt, by simp [pickBySeed, getElem?_eq_getElem hlt]⟩

theorem getByAddress_getElem (hnd : (addresses vs).Nodup) (hi : vs[i]? = some v) :
    getByAddress vs v.address = some (i, v) := by
  have hmem : v.address ∈ addresses vs := List.mem_map_of_mem (List.mem_of_getElem? hi)
  obtain ⟨j, w, hjw, hj, hw⟩ := exists_getByAddress hmem
  have hi' : (addresses vs)[i]? = some v.address := by simp [addresses, hi]
  have hj' : (addresses vs)[j]? = some v.address := by simp [addresses, hj, hw]
  have hlt := (List.getElem?_eq_some_iff.mp hi').1
  obtain rfl := (List.getElem?_inj hlt hnd).mp (hi'.trans hj'.symm)
  obtain rfl : v = w := some.inj (hi.symm.trans hj)
  exact hjw

namespace DefaultSet

def proposerIndex (s : DefaultSet) (lastProposer : Address) (round : ℕ) : ℕ :=
  (if lastProposer = 0 then round
    else if s.policy = sticky then calcSeed s.validators lastProposer round
    else uint64 (calcSeed s.validators lastProposer round + 1)) % s.validators.length

/-- The next proposer in the same round must not be the selected one again. -/
def NextDiffers (s : DefaultSet) (lastProposer : Address) (round : ℕ) : Prop :=
  ∃ v, s.validators[s.proposerIndex lastProposer round]? = some v ∧
    s.proposerIndex v.address round ≠ s.proposerIndex lastProposer round

variable {s : DefaultSet}

theorem selector_ok (hne : s.validators ≠ []) (lastProposer : Address) (round : ℕ) :
    ∃ v, s.validators[s.proposerIndex lastProposer round]? = some v ∧
      s.selector lastProposer round = .ok v.address := by
  unfold selector proposerIndex stickyProposer roundRobinProposer
  split_ifs <;> exact pickBySeed_ok hne _

theorem subListWithProposer_composed_iff (env : ChainEnv) (prevHash : Hash) (view : View)
    (hnd : (addresses s.validators).Nodup) (hpos : 1 ≤ s.subSize) (hi : s.validators[i]? = some v) :
    (∃ l, s.subListWithProposer env prevHash v.address view = .ok l ∧
        Composed s.validators s.subSize v.address l) ↔
      s.validators.length ≤ s.subSize ∨ s.subSize = 1 ∨
        s.proposerIndex v.address (uint64 view.round) ≠ i := by
  have hv := mem_of_getElem? hi
  have hne : s.validators ≠ [] := ne_nil_of_mem hv
  by_cases hle : s.validators.length ≤ s.subSize
  · simp only [subListWithProposer, hle, if_true, Except.ok.injEq, exists_eq_left', true_or,
      iff_true]
    exact composed_whole hnd hle (mem_map_of_mem hv)
  by_cases h1 : s.subSize = 1
  · rw [h1] at hle
    simp only [subListWithProposer, hle, if_false, getByAddress_getElem hnd hi, h1, if_true,
      Except.ok.injEq, exists_eq_left', true_or, or_true, iff_true]
    exact composed_singleton hv
  obtain ⟨w, hw, hsel⟩ := selector_ok hne v.address (uint64 view.round)
  simp only [subListWithProposer, hle, if_false, getByAddress_getElem hnd hi, h1, hsel,
    getByAddress_getElem hnd hw, Except.bind, bind, false_or]
  constructor
  · rintro ⟨l, hl, hc⟩ heq
    simp only [heq, selectRandomCommittee, if_true, Except.ok.injEq] at hl
    subst hl
    exact not_composed_whole (by omega) hc
  · intro hdiff
    obtain ⟨l, hl, hc⟩ := selectRandomCommittee_composed env.rng
      (if isForked env.forks.istanbul view.sequence then
        int64 (convertHashToSeed prevHash + int64 view.round) else convertHashToSeed prevHash)
      hnd hi hw (Ne.symm hdiff) (show 2 ≤ s.subSize by omega) (by omega)
    exact ⟨l, by rw [hl], hc⟩

end DefaultSet

namespace WeightedCouncil

def proposerAt (env : ChainEnv) (c : WeightedCouncil) (round : ℕ) : Option Address :=
  c.proposers[sub64 (c.blockNum + round)
    (calcProposerBlockNumber env.proposerUpdateInterval (uint64 (c.blockNum + 1))) %
      c.proposers.length]?

/-- Another proposer follows within the update interval, and the first one is a validator. -/
def NextFound (env : ChainEnv) (c : WeightedCouncil) (proposer : Address) (round : ℕ) : Prop :=
  ∃ j q, 1 ≤ j ∧ j ≤ env.proposerUpdateInterval ∧ q ≠ proposer ∧ q ∈ addresses c.validators ∧
    c.proposerAt env (uint64 (uint64 round + j)) = some q ∧
    ∀ i, 1 ≤ i → i < j → c.proposerAt env (uint64 (uint64 round + i)) = some proposer

variable {env : ChainEnv} {c : WeightedCouncil} {round : ℕ}

theorem exists_proposerAt (env : ChainEnv) (hne : c.proposers ≠ []) (round : ℕ) :
    ∃ q, c.proposerAt env round = some q := by
  have hpos := length_pos_iff.mpr hne
  exact ⟨_, getElem?_eq_getElem (Nat.mod_lt _ hpos)⟩

section BeforeRandao

variable (hr : isForked env.forks.randao (uint64 (c.blockNum + 1)) = false)
  (hne : c.proposers ≠ []) (hiv : env.proposerUpdateInterval ≠ 0)
include hr hne hiv

theorem weightedRandomProposer_before :
    weightedRandomProposer env c round = .ok (c.proposerAt env round) := by
  simp [weightedRandomProposer, hr, hne, hiv, proposerAt]

theorem findNextProposer_eq_some (left idx : ℕ) {q : Address} :
    c.findNextProposer env p round left idx = .ok (some q) ↔
      ∃ j, idx ≤ j ∧ j < idx + left ∧ q ≠ p ∧
        c.proposerAt env (uint64 (uint64 round + j)) = some q ∧
        ∀ i, idx ≤ i → i < j → c.proposerAt env (uint64 (uint64 round + i)) = some p := by
  induction left generalizing idx with
  | zero =>
    simp only [findNextProposer, Except.ok.injEq, reduceCtorEq, false_iff, not_exists]
    omega
  | succ left ih =>
    obtain ⟨r, hr'⟩ := exists_proposerAt env hne (uint64 (uint64 round + idx))
    simp only [findNextProposer, weightedRandomProposer_before hr hne hiv, hr', bind, Except.bind]
    by_cases hp : p = r
    · subst hp
      simp only [ne_eq, not_true_eq_false, if_false, ih]
      constructor
      · rintro ⟨j, hj, hlt, hq, hat, hbefore⟩
        refine ⟨j, by omega, by omega, hq, hat, fun i hi hij => ?_⟩
        rcases Nat.lt_or_ge idx i with h | h
        · exact hbefore i h hij
        · obtain rfl : i = idx := by omega
          exact hr'
      · rintro ⟨j, hj, hlt, hq, hat, hbefore⟩
        have hne' : j ≠ idx := fun h => hq (some.inj (hat.symm.trans (h ▸ hr')))
        exact ⟨j, by omega, by omega, hq, hat, fun i hi hij => hbefore i (by omega) hij⟩
    · simp only [ne_eq, hp, not_false_eq_true, if_true, Except.ok.injEq, some.injEq]
      constructor
      · rintro rfl
        exact ⟨idx, le_rfl, by omega, Ne.symm hp, hr', fun i hi hij => by omega⟩
      · rintro ⟨j, hj, _, _, hat, hbefore⟩
        rcases Nat.lt_or_ge idx j with h | h
        · exact absurd (some.inj ((hbefore idx le_rfl h).symm.trans hr')) hp
        · obtain rfl : j = idx := by omega
          exact (some.inj (hr'.symm.trans hat))

theorem findNextProposer_ok (p : Address) (round left idx : ℕ) :
    ∃ q, c.findNextProposer env p round left idx = .ok q := by
  induction left generalizing idx with
  | zero => exact ⟨_, rfl⟩
  | succ left ih =>
    obtain ⟨r, hr'⟩ := exists_proposerAt env hne (uint64 (uint64 round + idx))
    simp only [findNextProposer, weightedRandomProposer_before hr hne hiv, hr', bind, Except.bind]
    split
    · exact ⟨_, rfl⟩
    · exact ih _

end BeforeRandao

variable {prevHash : Hash} {view : View}

/-- The committee of the view around a proposer is composed as the quorum assumes. -/
def ComposesFor (env : ChainEnv) (c : WeightedCouncil) (prevHash : Hash) (view : View)
    (p : Address) : Prop :=
  ∃ l, c.subListWithProposer env prevHash p view = .ok l ∧ Composed c.validators c.subSize p l

theorem findNextProposer_proposer (q : Option Address) (left idx : ℕ) :
    ({ c with proposer := q } : WeightedCouncil).findNextProposer env p round left idx =
      c.findNextProposer env p round left idx := by
  induction left generalizing idx with
  | zero => rfl
  | succ left ih => simp only [findNextProposer, ih]; rfl

theorem composesFor_proposer (q : Option Address) :
    ({ c with proposer := q } : WeightedCouncil).ComposesFor env prevHash view p ↔
      c.ComposesFor env prevHash view p := by
  simp only [ComposesFor, subListWithProposer, findNextProposer_proposer]

theorem composesFor_small (hnd : (addresses c.validators).Nodup)
    (hsmall : c.validators.length ≤ c.subSize ∨ c.subSize = 1) :
    c.ComposesFor env prevHash view p ↔ p ∈ addresses c.validators := by
  refine ⟨fun ⟨_, _, h⟩ => h.mem, fun hp => ?_⟩
  by_cases hle : c.validators.length ≤ c.subSize
  · exact ⟨_, by simp [subListWithProposer, hle], composed_whole hnd hle hp⟩
  · have h1 := hsmall.resolve_left hle
    rw [h1] at hle
    obtain ⟨i, v, hv, hi, rfl⟩ := exists_getByAddress hp
    refine ⟨[v], by simp [subListWithProposer, h1, hle, hv], ?_⟩
    rw [h1]
    exact composed_singleton (mem_of_getElem? hi)

theorem subListWithProposer_before (hv : Kaia.getByAddress c.validators v.address = some (i, v))
    (hlt : ¬ c.validators.length ≤ c.subSize) (h1 : c.subSize ≠ 1)
    (hr : isForked env.forks.randao view.sequence = false) (prevHash : Hash) :
    c.subListWithProposer env prevHash v.address view =
      (c.findNextProposer env v.address view.round env.proposerUpdateInterval 1).bind fun next =>
        match next with
        | none => .ok c.validators
        | some nextProposer =>
          match Kaia.getByAddress c.validators nextProposer with
          | none => .ok c.validators
          | some (nextProposerIdx, _) =>
            match selectRandomCommittee env.rng c.validators c.subSize
              (if isForked env.forks.istanbul view.sequence then
                int64 (convertHashToSeed prevHash + int64 view.round)
                else convertHashToSeed prevHash) i nextProposerIdx with
            | none => .ok c.validators
            | some committee => .ok committee := by
  unfold subListWithProposer
  rw [if_neg hlt, hv]
  dsimp only
  rw [if_neg h1, hr]
  rfl

theorem composesFor_before (hnd : (addresses c.validators).Nodup)
    (hr : isForked env.forks.randao (uint64 (c.blockNum + 1)) = false)
    (hseq : view.sequence = uint64 (c.blockNum + 1)) (hne : c.proposers ≠ [])
    (hiv : env.proposerUpdateInterval ≠ 0) (hk : 2 ≤ c.subSize)
    (hlt : c.subSize < c.validators.length) :
    c.ComposesFor env prevHash view p ↔
      p ∈ addresses c.validators ∧ c.NextFound env p view.round := by
  by_cases hp : p ∈ addresses c.validators
  swap
  · exact ⟨fun ⟨_, _, h⟩ => absurd h.mem hp, fun h => absurd h.1 hp⟩
  obtain ⟨i, v, hv, hi, rfl⟩ := exists_getByAddress hp
  have hsub := subListWithProposer_before hv (by omega) (by omega) (hseq ▸ hr) prevHash
  obtain ⟨next, hnext⟩ := findNextProposer_ok hr hne hiv v.address view.round
    env.proposerUpdateInterval 1
  simp only [ComposesFor, hsub, hnext, Except.bind, hp, true_and]
  cases next with
  | none =>
    refine ⟨fun ⟨l, hl, hc⟩ => ?_, fun ⟨j, q, h1, hj, hq, hqv, hat, hbefore⟩ => ?_⟩
    · obtain rfl := Except.ok.inj hl
      exact absurd hc (not_composed_whole hlt)
    · have hsome := (findNextProposer_eq_some hr hne hiv env.proposerUpdateInterval 1).mpr
        ⟨j, h1, by omega, hq, hat, hbefore⟩
      simp [hnext] at hsome
  | some q =>
    obtain ⟨j, h1, hj, hq, hat, hbefore⟩ := (findNextProposer_eq_some hr hne hiv _ 1).mp hnext
    have hfound : c.NextFound env v.address view.round ↔ q ∈ addresses c.validators := by
      refine ⟨fun ⟨j', q', h1', hj', hq', hqv, hat', hbefore'⟩ => ?_,
        fun hqv => ⟨j, q, h1, by omega, hq, hqv, hat, hbefore⟩⟩
      -- both searches stop at the first entry other than the proposer
      have hsome := (findNextProposer_eq_some hr hne hiv env.proposerUpdateInterval 1).mpr
        ⟨j', h1', by omega, hq', hat', hbefore'⟩
      rw [hnext] at hsome
      obtain rfl : q = q' := by simpa using hsome
      exact hqv
    rw [hfound]
    by_cases hqv : q ∈ addresses c.validators
    · obtain ⟨iq, w, hw, hiq, rfl⟩ := exists_getByAddress hqv
      have hij : i ≠ iq := by
        rintro rfl
        exact hq (by rw [some.inj (hiq.symm.trans hi)])
      obtain ⟨l, hl, hc⟩ := selectRandomCommittee_composed env.rng
        (if isForked env.forks.istanbul view.sequence then
          int64 (convertHashToSeed prevHash + int64 view.round) else convertHashToSeed prevHash)
        hnd hi hiq hij hk (by omega)
      exact iff_of_true ⟨l, by simp only [hw, hl], hc⟩ hqv
    · simp only [getByAddress_eq_none.mpr hqv, Except.ok.injEq, exists_eq_left', hqv, iff_false]
      exact not_composed_whole hlt

theorem composesFor_after (hr : isForked env.forks.randao view.sequence = true)
    {mixHash : Bytes} (hmix : c.mixHash = some mixHash) {l : List Validator}
    (hl : selectRandaoCommittee env.rng c.validators c.subSize mixHash = .ok l)
    (hc : Composed c.validators c.subSize p l) (hk : 2 ≤ c.subSize)
    (hlt : c.subSize < c.validators.length) : c.ComposesFor env prevHash view p := by
  obtain ⟨i, v, hv, _, _⟩ := exists_getByAddress hc.mem
  refine ⟨l, ?_, hc⟩
  simp only [subListWithProposer, show ¬ c.validators.length ≤ c.subSize by omega, if_false, hv,
    show c.subSize ≠ 1 by omega, hr, if_true, hmix, hl]

/-- When the committee around the calculated proposer is composed. -/
def CommitteeCondition (env : ChainEnv) (c : WeightedCouncil) (round : ℕ) : Prop :=
  if isForked env.forks.randao (uint64 (c.blockNum + 1)) then
    c.subSize = 1 ∨ ∃ mixHash, c.mixHash = some mixHash ∧ 8 ≤ mixHash.length
  else if c.proposers = [] then c.validators.length ≤ c.subSize ∨ c.subSize = 1
  else env.proposerUpdateInterval ≠ 0 ∧ ∃ p, c.proposerAt env (uint64 round) = some p ∧
    p ∈ addresses c.validators ∧
    (c.validators.length ≤ c.subSize ∨ c.subSize = 1 ∨ c.NextFound env p round)

/-- The proposer is calculated and the committee around it is composed. -/
def SelectsCommittee (env : ChainEnv) (c : WeightedCouncil) (lastProposer : Address)
    (prevHash : Hash) (view : View) : Prop :=
  ∃ c' p, c.calcProposer env lastProposer (uint64 view.round) = .ok c' ∧ c'.proposer = some p ∧
    c'.ComposesFor env prevHash view p

variable {last : Address}

theorem calcProposer_validators {c' : WeightedCouncil} {r : ℕ}
    (h : c.calcProposer env last r = .ok c') : c'.validators = c.validators := by
  simp only [calcProposer, bind, Except.bind] at h
  repeat' split at h
  all_goals first
    | (obtain rfl := Except.ok.inj h; rfl)
    | simp at h

theorem selectsCommittee_of_proposer (h : weightedRandomProposer env c (uint64 view.round) =
    .ok (some p)) :
    c.SelectsCommittee env last prevHash view ↔ c.ComposesFor env prevHash view p := by
  simp [SelectsCommittee, calcProposer, h, bind, Except.bind, composesFor_proposer]

theorem not_selectsCommittee_of_panic {e : GoPanic}
    (h : weightedRandomProposer env c (uint64 view.round) = .error e) :
    ¬ c.SelectsCommittee env last prevHash view := by
  simp [SelectsCommittee, calcProposer, h, bind, Except.bind]

theorem selectsCommittee_after (hnd : (addresses c.validators).Nodup) (hpos : 1 ≤ c.subSize)
    (hne : c.validators ≠ []) (hr : isForked env.forks.randao (uint64 (c.blockNum + 1)) = true)
    (hseq : view.sequence = uint64 (c.blockNum + 1)) {mixHash : Bytes}
    (hmix : c.mixHash = some mixHash) :
    c.SelectsCommittee env last prevHash view ↔ c.subSize = 1 ∨ 8 ≤ mixHash.length := by
  have hrandao : ∀ {l v}, selectRandaoCommittee env.rng c.validators c.subSize mixHash = .ok l →
      pickBySeed l (uint64 view.round) = .ok v →
      weightedRandomProposer env c (uint64 view.round) = .ok (some v) := by
    intro l v hl hv
    simp [weightedRandomProposer, hr, hmix, hl, hv, bind, Except.bind]
  by_cases h1 : c.subSize = 1
  · obtain ⟨v, hi, hv⟩ := pickBySeed_ok hne (uint64 view.round)
    rw [selectsCommittee_of_proposer (hrandao (by simp [selectRandaoCommittee, h1]) hv),
      composesFor_small hnd (.inr h1)]
    exact iff_of_true (mem_map_of_mem (mem_of_getElem? hi)) (.inl h1)
  have hk : 2 ≤ c.subSize := by omega
  by_cases h8 : 8 ≤ mixHash.length
  · obtain ⟨l, hl, hlen, hlnd, hlsub⟩ :=
      selectRandaoCommittee_ok env.rng c.validators hk h8
    have hlne : l ≠ [] := by
      have := length_pos_iff.mpr hne
      exact length_pos_iff.mp (by omega)
    obtain ⟨v, hi, hv⟩ := pickBySeed_ok hlne (uint64 view.round)
    have hvl : v ∈ l := mem_of_getElem? hi
    refine iff_of_true ?_ (.inr h8)
    rw [selectsCommittee_of_proposer (hrandao hl hv)]
    by_cases hle : c.validators.length ≤ c.subSize
    · exact (composesFor_small hnd (.inl hle)).mpr (mem_map_of_mem (hlsub v hvl))
    · exact composesFor_after (by rw [hseq, hr]) hmix hl
        ⟨hlen, hlnd hnd, hlsub, mem_map_of_mem hvl⟩ hk (by omega)
  · refine iff_of_false (not_selectsCommittee_of_panic (e := .sliceBounds) ?_) (by simp [h1, h8])
    simp [weightedRandomProposer, hr, hmix, selectRandaoCommittee, show ¬ c.subSize < 2 by omega,
      show mixHash.length < 8 by omega, bind, Except.bind]

theorem selectsCommittee_no_proposers (hnd : (addresses c.validators).Nodup)
    (hne : c.validators ≠ []) (hr : isForked env.forks.randao (uint64 (c.blockNum + 1)) = false)
    (hseq : view.sequence = uint64 (c.blockNum + 1)) (hps : c.proposers = []) :
    c.SelectsCommittee env last prevHash view ↔
      c.validators.length ≤ c.subSize ∨ c.subSize = 1 := by
  have hnone : ∀ round, weightedRandomProposer env c round = .ok none := by
    simp [weightedRandomProposer, hr, hps]
  obtain ⟨v, hi, hv⟩ := pickBySeed_ok hne (if last = 0 then uint64 view.round
    else calcSeed c.validators last (uint64 view.round))
  have hmem : v.address ∈ addresses c.validators := mem_map_of_mem (mem_of_getElem? hi)
  have hsel : c.SelectsCommittee env last prevHash view ↔
      c.ComposesFor env prevHash view v.address := by
    simp only [SelectsCommittee, calcProposer, hnone, hne, chooseProposerByRoundRobin, hv, bind,
      Except.bind, if_false, Except.ok.injEq, exists_and_left, exists_eq_left', some.injEq,
      composesFor_proposer]
  rw [hsel]
  by_cases hsmall : c.validators.length ≤ c.subSize ∨ c.subSize = 1
  · exact iff_of_true ((composesFor_small hnd hsmall).mpr hmem) hsmall
  refine iff_of_false (fun ⟨l, hl, hc⟩ => ?_) hsmall
  obtain ⟨hlt, h1⟩ := not_or.mp hsmall
  rw [subListWithProposer_before (getByAddress_getElem hnd hi) hlt h1 (hseq ▸ hr)] at hl
  -- an interval of no rounds gives the whole council, any other one the nil proposer
  cases hiv : env.proposerUpdateInterval with
  | zero =>
    simp only [hiv, findNextProposer, Except.bind, Except.ok.injEq] at hl
    subst hl
    exact not_composed_whole (Nat.lt_of_not_le hlt) hc
  | succ m =>
    simp [hiv, findNextProposer, hnone, Except.bind, bind] at hl

theorem selectsCommittee_iff (hnd : (addresses c.validators).Nodup) (hpos : 1 ≤ c.subSize)
    (hseq : view.sequence = uint64 (c.blockNum + 1))
    (hmix : isForked env.forks.randao (uint64 (c.blockNum + 1)) → c.mixHash ≠ none) :
    c.SelectsCommittee env last prevHash view ↔
      c.validators ≠ [] ∧ c.CommitteeCondition env view.round := by
  by_cases hne : c.validators = []
  · refine iff_of_false (fun ⟨c', p, hc', _, _, _, hc⟩ => ?_) (by simp [hne])
    have hmem := hc.mem
    rw [calcProposer_validators hc', hne] at hmem
    simp [addresses] at hmem
  simp only [ne_eq, hne, not_false_eq_true, true_and, CommitteeCondition]
  cases hr : isForked env.forks.randao (uint64 (c.blockNum + 1)) with
  | true =>
    obtain ⟨mixHash, hm⟩ := ne_none_iff_exists'.mp (hmix hr)
    simp [selectsCommittee_after hnd hpos hne hr hseq hm, hm]
  | false =>
    by_cases hps : c.proposers = []
    · simp [selectsCommittee_no_proposers hnd hne hr hseq hps, hps]
    by_cases hiv : env.proposerUpdateInterval = 0
    · simp only [Bool.false_eq_true, if_false, hps, hiv, not_true_eq_false, false_and,
        iff_false]
      exact not_selectsCommittee_of_panic (e := .divideByZero)
        (by simp [weightedRandomProposer, hr, hps, hiv])
    obtain ⟨p, hp⟩ := exists_proposerAt env hps (uint64 view.round)
    simp only [Bool.false_eq_true, if_false, hps, hiv, not_false_eq_true, true_and, hp,
      some.injEq, exists_eq_left',
      selectsCommittee_of_proposer ((weightedRandomProposer_before hr hps hiv).trans (by rw [hp]))]
    by_cases hsmall : c.validators.length ≤ c.subSize ∨ c.subSize = 1
    · rw [composesFor_small hnd hsmall]
      tauto
    · obtain ⟨hlt, h1⟩ := not_or.mp hsmall
      rw [composesFor_before hnd hr hseq hps hiv (by omega) (by omega)]
      simp only [hlt, h1, false_or]

end WeightedCouncil

namespace ValidatorSet

/-- The calculated proposer has a committee of the assumed size around it, all distinct. -/
def SelectsCommittee (env : ChainEnv) (V : ValidatorSet) (lastProposer : Address)
    (prevHash : Hash) (view : View) : Prop :=
  ∃ V' p committee, V.calcProposer env lastProposer (uint64 view.round) = .ok V' ∧
    V'.getProposer = some p ∧ V'.subListWithProposer env prevHash p view = .ok committee ∧
    Composed V'.list V'.subGroupSize p committee

def CommitteeCondition (env : ChainEnv) (lastProposer : Address) (round : ℕ) :
    ValidatorSet → Prop
  | .default s => s.validators ≠ [] ∧ (s.validators.length ≤ s.subSize ∨ s.subSize = 1 ∨
      s.NextDiffers lastProposer (uint64 round))
  | .weighted c => c.validators ≠ [] ∧ c.CommitteeCondition env round

/-- A weighted council serves the block after its own; after the randao fork it has
a mix hash. -/
def ServesView (env : ChainEnv) (view : View) : ValidatorSet → Prop
  | .default _ => True
  | .weighted c => view.sequence = uint64 (c.blockNum + 1) ∧
      (isForked env.forks.randao (uint64 (c.blockNum + 1)) → c.mixHash ≠ none)

variable {env : ChainEnv} {last : Address} {prevHash : Hash} {view : View}

theorem selectsCommittee_default {s : DefaultSet} (hnd : (addresses s.validators).Nodup)
    (hpos : 1 ≤ s.subSize) :
    (ValidatorSet.default s).SelectsCommittee env last prevHash view ↔
      (ValidatorSet.default s).CommitteeCondition env last view.round := by
  by_cases hne : s.validators = []
  · refine iff_of_false (fun ⟨V', p, l, hV', _, _, hc⟩ => ?_) (fun h => h.1 hne)
    have hV : ValidatorSet.default s = V' := by
      simpa [calcProposer, DefaultSet.calcProposer, hne, Except.map] using hV'
    subst hV
    simpa [list, hne, addresses] using hc.mem
  obtain ⟨v, hi, hv⟩ := DefaultSet.selector_ok hne last (uint64 view.round)
  have hcalc : (ValidatorSet.default s).calcProposer env last (uint64 view.round) =
      .ok (.default { s with proposer := some v.address }) := by
    simp [calcProposer, DefaultSet.calcProposer, hne, hv, bind, Except.bind, Except.map]
  have hcomp := DefaultSet.subListWithProposer_composed_iff env prevHash view hnd hpos hi
  simp only [SelectsCommittee, hcalc, Except.ok.injEq, exists_and_left, exists_eq_left',
    getProposer, some.injEq]
  refine hcomp.trans ?_
  simp only [CommitteeCondition, ne_eq, hne, not_false_eq_true, true_and, DefaultSet.NextDiffers,
    hi, some.injEq, exists_eq_left']

/-- The committee of a view is composed as the quorum assumes exactly under the
committee condition. -/
theorem selectsCommittee_iff_committeeCondition (V : ValidatorSet)
    (hnd : (addresses V.list).Nodup) (hpos : 1 ≤ V.subGroupSize) (hview : V.ServesView env view) :
    V.SelectsCommittee env last prevHash view ↔ V.CommitteeCondition env last view.round := by
  cases V with
  | default s => exact selectsCommittee_default hnd hpos
  | weighted c =>
    have hiff : c.SelectsCommittee env last prevHash view ↔ _ :=
      WeightedCouncil.selectsCommittee_iff hnd hpos hview.1 hview.2
    rw [CommitteeCondition, ← hiff]
    constructor
    · rintro ⟨V', p, l, hV', hp, hl, hc⟩
      cases hcalc : c.calcProposer env last (uint64 view.round) with
      | error e => simp [calcProposer, hcalc, Except.map] at hV'
      | ok c' =>
        simp only [calcProposer, hcalc, Except.map, Except.ok.injEq] at hV'
        subst hV'
        exact ⟨c', p, hcalc, hp, l, hl, hc⟩
    · rintro ⟨c', p, hc', hp, l, hl, hc⟩
      exact ⟨.weighted c', p, l, by simp [calcProposer, hc', Except.map], hp, hl, hc⟩

def rotating : ValidatorSet :=
  .default ⟨2, [1, 2, 3, 4].map newValidator, roundRobin, none⟩

theorem rotating_selectsCommittee :
    (addresses rotating.list).Nodup ∧ 1 ≤ rotating.subGroupSize ∧
      rotating.ServesView .counting ⟨0, 1⟩ ∧
      rotating.SelectsCommittee .counting 1 0 ⟨0, 1⟩ :=
  ⟨by decide, by decide, trivial,
    (selectsCommittee_iff_committeeCondition rotating (by decide) (by decide) trivial).mpr
      ⟨by decide, .inr (.inr ⟨newValidator 2, by decide, by decide⟩)⟩⟩

def stuck : DefaultSet := ⟨2, [1, 2, 3].map newValidator, sticky, none⟩

/-- In round 0 a sticky set seeks the next proposer at the proposer, and returns everyone. -/
theorem stuck_subListWithProposer :
    (addresses stuck.validators).Nodup ∧
      (stuck.calcProposer 1 0).map DefaultSet.proposer = .ok (some 1) ∧
      stuck.subListWithProposer .counting 0 1 ⟨0, 1⟩ = .ok stuck.validators ∧
      ¬ (ValidatorSet.default stuck).SelectsCommittee .counting 1 0 ⟨0, 1⟩ := by
  refine ⟨by decide, by decide, by decide, fun h => ?_⟩
  rcases (selectsCommittee_default (by decide) (by decide)).mp h with
    ⟨-, hle | h1 | ⟨v, hv, hdiff⟩⟩
  · exact absurd hle (by decide)
  · exact absurd h1 (by decide)
  · obtain rfl : newValidator 1 = v := some.inj hv
    exact hdiff (by decide)

end ValidatorSet

end Kaia
