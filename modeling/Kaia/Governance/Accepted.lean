import Kaia.Consensus.BaseFee
import Kaia.Governance.Faults
import Kaia.Governance.History
import Kaia.Reward.Ratio

/-! # What accepted values do to blocks

Votes are checked when they are cast, and their values are used much later, by the snapshot, the
base fee and the rewards. Of the values that pass the checks some cannot be used.
-/

namespace Kaia

open Foundation

variable {F : Type} {env : SnapshotEnv F} {V : ValidatorSet} {header : Header}

theorem headerVote_ne_divideByZero (gov : GovEnv) (header : Header) :
    headerVote gov header ≠ .error .divideByZero := by
  unfold headerVote
  split
  · exact nofun
  · split
    · exact nofun
    · refine bind_ne_error (fun h => ?_) fun parsed _ => ?_
      · cases ((parseVoteValue_spec _).of_error h).1
      · cases parsed <;> exact nofun

theorem addNewVote_ne_panic (o : AddressOrder) (votes : List GovernanceVote)
    (tally : List GovernanceTallyItem) (vote : GovernanceVote) (mode : GovernanceMode)
    (node : Address) (p : GoPanic) : addNewVote o V votes tally vote mode node ≠ .error (.panic p) := by
  have hreflect : reflectVote o V votes vote ≠ .error (.panic p) := by
    unfold reflectVote
    split
    · exact nofun
    · exact nofun
    · exact nofun
    · split <;> exact nofun
    · exact nofun
  unfold addNewVote
  split
  · exact nofun
  · dsimp only
    split
    · exact bind_ne_error hreflect fun _ _ => nofun
    · exact nofun

theorem handleGovernanceVote_ne_divideByZero (o : AddressOrder) (gov : GovEnv) (V : ValidatorSet)
    (votes : List GovernanceVote) (tally : List GovernanceTallyItem) (header : Header)
    (proposer : Address) :
    handleGovernanceVote o gov V votes tally header proposer ≠ .error (.panic .divideByZero) := by
  have hpanic : Function.Injective Fault.panic := fun _ _ => Fault.panic.inj
  unfold handleGovernanceVote
  refine bind_ne_error (mapError_ne_error hpanic (headerVote_ne_divideByZero gov header))
    fun parsed _ => ?_
  cases parsed with
  | none => exact nofun
  | some vote =>
    dsimp only
    split
    · split
      · refine bind_ne_error (mapError_ne_error hpanic ?_) fun r _ => ?_
        · unfold removePreviousVote
          repeat' split
          all_goals exact nofun
        exact addNewVote_ne_panic _ _ _ _ _ _ _
      · exact nofun
    · exact nofun

theorem mapM_ne_error {α β ε : Type} {f : α → Except ε β} {e : ε} (hf : ∀ a, f a ≠ .error e)
    (l : List α) : l.mapM f ≠ .error e := by
  induction l with
  | nil => exact nofun
  | cons a l ih =>
    rw [List.mapM_cons]
    exact bind_ne_error (hf a) fun _ _ => bind_ne_error ih fun _ _ => nofun

variable (fl : FloatOps F)

theorem rewardStake_ne_divideByZero (info : StakingInfo) (reward : Address) :
    rewardStake fl info reward ≠ .error .divideByZero := by
  unfold rewardStake
  generalize info.councilRewardAddrs.zipIdx = l
  generalize fl.zero = acc
  induction l generalizing acc with
  | nil => exact nofun
  | cons x l ih =>
    rw [List.foldlM_cons]
    refine bind_ne_error ?_ fun acc' _ => ih acc'
    dsimp only
    split
    · split <;> exact nofun
    · exact nofun

theorem stakingAmountOf_ne_divideByZero (info : StakingInfo) (val : Validator) :
    stakingAmountOf fl info val ≠ .error .divideByZero := by
  unfold stakingAmountOf
  split
  · exact nofun
  · split
    · exact nofun
    · exact bind_ne_error (rewardStake_ne_divideByZero _ _ _) fun _ _ => nofun

theorem filterValidators_ne_divideByZero (isSingle : Bool) (node : Address)
    (cs : List (Validator × F)) (minStaking : ℕ) :
    filterValidators fl isSingle node cs minStaking ≠ .error .divideByZero := by
  unfold filterValidators
  extract_lets _ _ _ _ _ govNode
  cases govNode with
  | none | some =>
    split
    split <;> exact nofun

theorem refreshedLists_ne_divideByZero {fl : FloatOps F} {chain : ChainEnv}
    {stakingInfo : ℕ → Option StakingInfo} (h : chain.proposerUpdateInterval ≠ 0)
    (blockNum : ℕ) (isSingle : Bool) (node : Address) (minStaking : ℕ) (vs ds : List Validator) :
    refreshedLists fl chain stakingInfo blockNum isSingle node minStaking vs ds ≠
      .error .divideByZero := by
  unfold refreshedLists
  split
  · exact nofun
  · refine bind_ne_error (by unfold stakingBlockNum; split <;> exact nofun) fun num _ => ?_
    split
    · exact nofun
    · refine bind_ne_error (mapM_ne_error (stakingAmountOf_ne_divideByZero fl _) _) fun cs _ => ?_
      split
      · exact bind_ne_error (filterValidators_ne_divideByZero fl _ _ _ _) fun _ _ => nofun
      · exact nofun

theorem refreshCouncil_ne_divideByZero (h : env.chain.proposerUpdateInterval ≠ 0)
    (V : ValidatorSet) (number : ℕ) :
    Snapshot.refreshCouncil env V number ≠ .error (.fault (.panic .divideByZero)) := by
  have hvals : ∀ blockNum isSingle node minStaking, V.refreshValSet env.float env.chain
      env.stakingInfo blockNum isSingle node minStaking ≠ .error .divideByZero := by
    intro blockNum isSingle node minStaking
    cases V with
    | default s => exact nofun
    | weighted c =>
      refine bind_ne_error (refreshedLists_ne_divideByZero h _ _ _ _ _ _) fun r _ => ?_
      cases r <;> exact nofun
  have hfault : Function.Injective (ApplyErr.fault ∘ Fault.panic) := fun p q heq =>
    Fault.panic.inj (ApplyErr.fault.inj heq)
  unfold Snapshot.refreshCouncil
  dsimp only
  split
  · exact nofun
  · refine bind_ne_error (mapError_ne_error hfault (hvals _ _ _ _)) fun r _ => ?_
    split
    · exact nofun
    · split <;> exact nofun

theorem applyHeader_ne_divideByZero (h : env.chain.proposerUpdateInterval ≠ 0)
    {policy : ProposerPolicy} {snap : Snapshot} (hepoch : snap.epoch ≠ 0) (header : Header) :
    Snapshot.applyHeader env policy snap header ≠ .error (.fault (.panic .divideByZero)) := by
  unfold Snapshot.applyHeader
  refine bind_ne_error ?_ fun validator _ => ?_
  · cases ecrecover (m := Id) env.recover header <;> exact nofun
  · split
    · exact nofun
    · refine bind_ne_error (mapError_ne_error (fun _ _ => ApplyErr.fault.inj)
        (handleGovernanceVote_ne_divideByZero _ _ _ _ _ _ _)) fun r _ => ?_
      refine bind_ne_error ?_ fun _ _ => nofun
      split
      · exact refreshCouncil_ne_divideByZero h _ _
      · exact nofun

namespace Governance

/-- Block processing with a value is defined, with the other parameters as they may be. -/
def UsesDefined : GovKey → VoteValue → Prop
  | .epoch, .uint64 n =>
    (∀ (F : Type) (env : SnapshotEnv F) policy snap header, snap.epoch = n →
      env.chain.proposerUpdateInterval ≠ 0 →
      Snapshot.applyHeader env policy snap header ≠ .error (.fault (.panic .divideByZero))) ∧
    (∀ num, ∃ blockNum, calcGovernanceInfoBlock num n = .ok blockNum) ∧
    ∀ lib (db : GovernanceDB) num, ∃ r, db.readGovernanceAtNumber lib num n = .ok r
  | .gasTarget, .uint64 n =>
    ∀ parent config lower upper, config.gasTarget = n →
      ∃ fee, nextBlockBaseFee parent config lower upper = .ok fee
  | .baseFeeDenominator, .uint64 n =>
    ∀ parent config lower upper, config.baseFeeDenominator = n → config.gasTarget ≠ 0 →
      ∃ fee, nextBlockBaseFee parent config lower upper = .ok fee
  | .ratio, .text t =>
    ∃ rc, parseRewardRatio t = .ok rc ∧ ∀ source, ∃ r, splitByRatio rc source = .ok r
  | .kip82Ratio, .text t =>
    ∃ rc, parseRewardKip82Ratio t = .ok rc ∧ ∀ source, ∃ r, splitByKip82Ratio rc source = .ok r
  | _, _ => True

/-- An epoch and a gas target that are not zero, and shares that fit into signed words. -/
def Usable : GovKey → VoteValue → Prop
  | .epoch, .uint64 n | .gasTarget, .uint64 n => n ≠ 0
  | .ratio, .text t | .kip82Ratio, .text t => SignedShares t
  | _, _ => True

variable {n : ℕ} {t : Bytes}

theorem usesDefined_epoch : UsesDefined .epoch (.uint64 n) ↔ Usable .epoch (.uint64 n) := by
  constructor
  · rintro ⟨-, hcalc, -⟩ rfl
    obtain ⟨b, hb⟩ := hcalc 0
    cases hb
  · intro (hn : n ≠ 0)
    have hcalc : ∀ num, ∃ blockNum, calcGovernanceInfoBlock num n = .ok blockNum :=
      fun num => ⟨_, if_neg hn⟩
    refine ⟨?_, hcalc, ?_⟩
    · rintro F env policy snap header rfl hinterval
      exact applyHeader_ne_divideByZero hinterval hn header
    · intro lib db num
      obtain ⟨b, hb⟩ := hcalc num
      rw [GovernanceDB.readGovernanceAtNumber, hb]
      simp only [bind, Except.bind]
      split <;> exact ⟨_, rfl⟩

theorem usesDefined_gasTarget :
    UsesDefined .gasTarget (.uint64 n) ↔ Usable .gasTarget (.uint64 n) :=
  nextBlockBaseFee_defined_iff

theorem exists_ok_iff {ε α : Type} {p : Prop} [Decidable p] {x : Except ε α} {a : α} {e : ε}
    {D : α → Prop} (hx : x = if p then .ok a else .error e) (ha : D a) :
    (∃ a, x = .ok a ∧ D a) ↔ p := by
  rw [hx]
  split
  · next h => exact iff_of_true ⟨a, rfl, ha⟩ h
  · next h => exact iff_of_false (by simp) h

theorem usesDefined_ratio (h : checkRatio t = true) :
    UsesDefined .ratio (.text t) ↔ Usable .ratio (.text t) := by
  obtain ⟨n₀, n₁, n₂, -, -, hsigned, hparse⟩ := parseRewardRatio_of_check h
  exact (exists_ok_iff hparse fun source => ⟨_, splitByRatio_eq source (by decide)⟩).trans
    hsigned.symm

theorem usesDefined_kip82Ratio (h : checkKip82Ratio t = true) :
    UsesDefined .kip82Ratio (.text t) ↔ Usable .kip82Ratio (.text t) := by
  obtain ⟨n₀, n₁, -, -, hsigned, hparse⟩ := parseRewardKip82Ratio_of_check h
  exact (exists_ok_iff hparse fun source => ⟨_, splitByKip82Ratio_eq source (by decide)⟩).trans
    hsigned.symm

/-- An accepted vote is usable if its epoch or gas target is not zero and its shares fit. -/
theorem accepted_value_usable_iff (toLower : Bytes → Bytes) (vote vote' : GovernanceVote)
    (h : validateVote toLower vote = some vote') :
    UsesDefined vote'.key vote'.value ↔ Usable vote'.key vote'.value := by
  have hcheck := validateVote_checkValue h
  obtain ⟨voter, key, value⟩ := vote'
  dsimp only at hcheck ⊢
  cases key with
  | epoch =>
    cases value with
    | uint64 n => exact usesDefined_epoch
    | _ => exact Iff.rfl
  | gasTarget =>
    cases value with
    | uint64 n => exact usesDefined_gasTarget
    | _ => exact Iff.rfl
  | baseFeeDenominator =>
    cases value with
    | uint64 n =>
      refine iff_of_true ?_ trivial
      intro parent config lower upper _ htarget
      exact nextBlockBaseFee_defined htarget
    | _ => exact Iff.rfl
  | ratio =>
    cases value with
    | text t => exact usesDefined_ratio hcheck
    | _ => exact Iff.rfl
  | kip82Ratio =>
    cases value with
    | text t => exact usesDefined_kip82Ratio hcheck
    | _ => exact Iff.rfl
  | _ => exact Iff.rfl

/-- The ratio `34/54/12`. -/
theorem accepted_value_usable_ratio :
    UsesDefined .ratio (.text [51, 52, 47, 53, 52, 47, 49, 50]) := by
  refine (accepted_value_usable_iff id ⟨1, .ratio, .text [51, 52, 47, 53, 52, 47, 49, 50]⟩
    ⟨1, .ratio, .text [51, 52, 47, 53, 52, 47, 49, 50]⟩ (by decide)).mpr ?_
  have hall : ∀ s ∈ ([51, 52, 47, 53, 52, 47, 49, 50] : Bytes).splitOn 47,
      (parseUint s).all (· < 2 ^ 63) = true := by decide
  intro s hs n hn
  simpa [hn] using hall s hs

/-- An epoch of zero is accepted, and the next header stops the node. -/
theorem zero_epoch_accepted :
    validateVote id ⟨1, .epoch, .uint64 0⟩ = some ⟨1, .epoch, .uint64 0⟩ ∧
      Snapshot.applyHeader forging roundRobin { threeValidators with epoch := 0 }
        (votingHeader 1 []) = .error (.fault (.panic .divideByZero)) := by
  constructor
  · decide
  · rfl

end Governance

end Kaia
