import Kaia.Backend.SignatureCache
import Kaia.Foundation.Folds
import Kaia.Governance.Votes
import Kaia.Validator.Refresh

/-! # Snapshots of the validator set

A snapshot is the validator set after a block with the pending votes. It is brought forward by
headers at once or in two parts to the same result, up to values that are not always set, unless
a refresh has written through the members that snapshots share.
-/

namespace Kaia

open Foundation List ValidatorSet

structure Snapshot where
  epoch : ℕ
  number : ℕ
  hash : Hash
  valSet : ValidatorSet
  policy : ProposerPolicy
  committeeSize : ℕ
  votes : List GovernanceVote
  tally : List GovernanceTallyItem
  deriving DecidableEq

/-- What bringing a snapshot forward reads besides the headers. -/
structure SnapshotEnv (F : Type) where
  chain : ChainEnv
  gov : GovEnv
  float : FloatOps F
  recover : Recover
  stakingInfo : ℕ → Option StakingInfo
  getHeaderByNumber : ℕ → Option Header

/-- The ways in which bringing a snapshot forward fails. -/
inductive ApplyErr
  | verify (e : VerifyErr)
  | fault (f : Fault)
  deriving DecidableEq

def zeroMixHash : Bytes := List.replicate 32 0

variable {F : Type} (env : SnapshotEnv F)

def effectiveParams (number : ℕ) : ℕ × ProposerPolicy × ℕ :=
  match env.gov.effectiveParams number with
  | none => (604800, roundRobin, 21)
  | some pset => (pset.epoch, pset.policy, pset.committeeSize)

def newSnapshot (number : ℕ) (hash : Hash) (valSet : ValidatorSet) : Snapshot :=
  let (epoch, policy, committeeSize) := effectiveParams env (uint64 (number + 1))
  { epoch, number, hash, valSet, policy, committeeSize, votes := [], tally := [] }

namespace Snapshot

variable (policy : ProposerPolicy) (s : Snapshot)

def copy : Snapshot := { s with valSet := s.valSet.copy env.chain.order }

def reload (number : ℕ) : Snapshot :=
  let (epoch, policy, committeeSize) := effectiveParams env number
  { s with epoch, policy, committeeSize }

/-- Divide the council and draw the proposers after `number`; the errors of both are only logged. -/
def refreshCouncil (valSet : ValidatorSet) (number : ℕ) : Except ApplyErr ValidatorSet :=
  let next := uint64 (number + 1)
  match env.gov.effectiveParams next with
  | none => .error (.verify .governance)
  | some pset => do
    let refreshed ← (valSet.refreshValSet env.float env.chain env.stakingInfo next
      (pset.governanceMode = .single) pset.governingNode (uint64 pset.minimumStake)).mapError
        (.fault ∘ .panic)
    let valSet := refreshed.toOption.getD valSet
    if env.chain.forks.kaia.any fun b : ℕ => (b : ℤ) ≤ int64 next then .ok valSet
    else if env.chain.proposerUpdateInterval = 0 then .error (.fault (.panic .divideByZero))
    else
      match env.getHeaderByNumber
          (calcProposerBlockNumber env.chain.proposerUpdateInterval next) with
      | none => .ok valSet
      | some pHeader =>
        let drawn := valSet.refreshProposers env.chain pHeader.hash (uint64 pHeader.number)
        .ok (drawn.toOption.getD valSet)

def turnEpoch (number : ℕ) : Snapshot :=
  if number % s.epoch = 0 then { s with votes := [], tally := [] } else s

variable (snap : Snapshot)

/-- Count the vote of a header and, under the weighted-random policy, refresh the council. -/
def countVote (header : Header) (validator : Address) :
    Except ApplyErr Snapshot := do
  let (valSet, votes, tally) ← (handleGovernanceVote env.chain.order env.gov snap.valSet
    snap.votes snap.tally header validator).mapError .fault
  let refreshed :=
    if policy = weightedRandom then refreshCouncil env valSet (uint64 header.number)
    else .ok valSet
  let valSet ← refreshed
  .ok { snap with valSet, votes, tally }

/-- The body of the loop. -/
def applyHeader (header : Header) :
    Except ApplyErr Snapshot := do
  let number := uint64 header.number
  let validator ← (ecrecover (m := Id) env.recover header).mapError .verify
  if (snap.valSet.getByAddress validator).isNone then .error (.verify .unauthorized)
  else if snap.epoch = 0 then .error (.fault (.panic .divideByZero))
  else
    let snap := (snap.turnEpoch number).reload env (uint64 (number + 1))
    countVote env policy snap header validator

def start : Snapshot := (s.copy env).reload env (uint64 (s.number + 1))

def contiguous : ℕ → List Header → Bool
  | _, [] => true
  | n, header :: headers =>
      uint64 header.number = uint64 (n + 1) && contiguous (uint64 header.number) headers

/-- Set what is set once for a whole list of headers, the last of which is given. -/
def finish (count : ℕ) (last : Header) : Snapshot :=
  let number := uint64 (snap.number + count)
  let valSet :=
    if snap.valSet.policy = weightedRandom then
      let valSet := snap.valSet.setBlockNum number
      if env.chain.forks.randao = some (number + 1) then valSet.setMixHash (some zeroMixHash)
      else if isForked env.chain.forks.randao number then valSet.setMixHash last.mixHash
      else valSet
    else snap.valSet
  { snap with
    number, hash := last.hash, valSet := valSet.setSubGroupSize snap.committeeSize }

/-- What `apply` returns without write access. -/
def apply (headers : List Header) : Except ApplyErr Snapshot :=
  match headers.getLast? with
  | none => .ok s
  | some last =>
    if contiguous s.number headers then do
      let snap ← headers.foldlM (applyHeader env policy) (s.start env)
      .ok (snap.finish env headers.length last)
    else .error (.verify .invalidVotingChain)

/-- What is left of `s` when the loop has run from `snap`. A member that `snap` still shares is as
the last refresh wrote it; a removed one is not shared any more, and is a new one if added again. -/
def writtenFrom : Snapshot → List Address → Snapshot → List Header → Snapshot
  | s, _, _, [] => s
  | s, shared, snap, header :: headers =>
    match applyHeader env policy snap header with
    | .error _ => s
    | .ok next =>
      let shared := shared.filter (· ∈ next.valSet.pool)
      writtenFrom { s with valSet := s.valSet.overwrite shared next.valSet } shared next headers

/-- What `apply` leaves of the snapshot it is called on. -/
def written (headers : List Header) : Snapshot :=
  if contiguous s.number headers then
    writtenFrom env policy s s.valSet.pool (s.start env) headers
  else s

end Snapshot

namespace Snapshot

variable {env : SnapshotEnv F} {policy : ProposerPolicy} {s t : Snapshot} {header : Header}
  {headers : List Header}

section Frames

def reframe (number : ℕ) (hash : Hash) (φ : SetFrame) (s : Snapshot) : Snapshot :=
  { s with number, hash, valSet := s.valSet.reframe φ }

variable (n : ℕ) (hash : Hash) (φ : SetFrame)

theorem refreshCouncil_reframe (V : ValidatorSet) (number : ℕ) :
    refreshCouncil env (V.reframe φ) number =
      (refreshCouncil env V number).map (ValidatorSet.reframe φ) := by
  unfold refreshCouncil
  dsimp only
  cases env.gov.effectiveParams (uint64 (number + 1)) with
  | none => rfl
  | some pset =>
    simp only [refreshValSet_reframe, mapError_map, except_map_bind, except_bind_map,
      toOption_getD_map, refreshProposers_reframe]
    congr 1
    funext refreshed
    split
    · rfl
    · split
      · rfl
      · split <;> rfl

theorem countVote_reframe (s : Snapshot) (header : Header) (validator : Address) :
    countVote env policy (s.reframe n hash φ) header validator =
      (countVote env policy s header validator).map (reframe n hash φ) := by
  simp only [countVote, reframe, handleGovernanceVote_reframe, mapError_map, except_map_bind,
    except_bind_map, Prod.map_fst, Prod.map_snd, id_eq]
  congr 1
  funext r
  split
  · rw [refreshCouncil_reframe, except_map_bind]
    rfl
  · rfl

theorem applyHeader_reframe (s : Snapshot) (header : Header) :
    applyHeader env policy (s.reframe n hash φ) header =
      (applyHeader env policy s header).map (reframe n hash φ) := by
  unfold applyHeader
  dsimp only
  rw [except_bind_map]
  congr 1
  funext validator
  have hval : (s.reframe n hash φ).valSet.getByAddress validator =
      s.valSet.getByAddress validator := s.valSet.getByAddress_reframe φ validator
  have hnext : ((s.reframe n hash φ).turnEpoch (uint64 header.number)).reload env
      (uint64 (uint64 header.number + 1)) =
      ((s.turnEpoch (uint64 header.number)).reload env
        (uint64 (uint64 header.number + 1))).reframe n hash φ := by
    unfold turnEpoch reframe
    split <;> rfl
  have hepoch : (s.reframe n hash φ).epoch = s.epoch := rfl
  rw [hval, hnext, hepoch, countVote_reframe]
  split
  · rfl
  · split <;> rfl

end Frames

section Loop

theorem refreshCouncil_settled {V W : ValidatorSet} {number : ℕ}
    (h : refreshCouncil env V number = .ok W) :
    W.policy = V.policy ∧ (V.Settled env.chain.order → W.Settled env.chain.order) := by
  unfold refreshCouncil at h
  dsimp only at h
  split at h
  · cases h
  · obtain ⟨r, hr, hrest⟩ := bind_eq_ok.mp h
    have hval := refreshValSet_settled (o := env.chain.order) (mapError_eq_ok.mp hr)
    split at hrest
    · cases hrest
      exact hval
    · split at hrest
      · cases hrest
      · split at hrest
        · cases hrest
          exact hval
        · rename_i pHeader _
          cases hrest
          have hprop := refreshProposers_settled (o := env.chain.order) env.chain
            (r.toOption.getD V) pHeader.hash (uint64 pHeader.number)
          exact ⟨hprop.1.trans hval.1, fun hs => hprop.2 (hval.2 hs)⟩

theorem countVote_ok {validator : Address} (h : countVote env policy s header validator = .ok t) :
    ∃ V votes tally, t = { s with valSet := V, votes, tally } ∧ V.policy = s.valSet.policy ∧
      (s.valSet.Settled env.chain.order → V.Settled env.chain.order) := by
  obtain ⟨⟨V, votes, tally⟩, hvote, hrest⟩ := bind_eq_ok.mp h
  have hedits := edits_of_handleGovernanceVote (mapError_eq_ok.mp hvote)
  obtain ⟨W, hrefresh, hok⟩ := bind_eq_ok.mp hrest
  cases hok
  refine ⟨W, votes, tally, rfl, ?_⟩
  split at hrefresh
  · obtain ⟨hpolicy, hsettled⟩ := refreshCouncil_settled hrefresh
    exact ⟨hpolicy.trans hedits.policy_eq, fun hs => hsettled (hedits.settled hs)⟩
  · cases hrefresh
    exact ⟨hedits.policy_eq, hedits.settled⟩

theorem applyHeader_ok (h : applyHeader env policy s header = .ok t) :
    t.reload env (uint64 (uint64 header.number + 1)) = t ∧ t.valSet.policy = s.valSet.policy ∧
      (s.valSet.Settled env.chain.order → t.valSet.Settled env.chain.order) := by
  obtain ⟨validator, -, hrest⟩ := bind_eq_ok.mp h
  have hturn : (s.turnEpoch (uint64 header.number)).valSet = s.valSet := by
    unfold turnEpoch
    split <;> rfl
  split at hrest
  · cases hrest
  · split at hrest
    · cases hrest
    · obtain ⟨V, votes, tally, rfl, hpolicy, hsettled⟩ := countVote_ok hrest
      rw [← hturn]
      exact ⟨rfl, hpolicy, hsettled⟩

variable (hfold : headers.foldlM (applyHeader env policy) s = .ok t)
include hfold

theorem foldlM_frame : t.reframe s.number s.hash s.valSet.frame = t := by
  have hself : s.reframe s.number s.hash s.valSet.frame = s := by
    rw [reframe, reframe_frame]
  have hcomm := foldlM_map_comm (f := applyHeader env policy)
    (applyHeader_reframe s.number s.hash s.valSet.frame) headers s
  rw [hself, hfold] at hcomm
  exact (Except.ok.inj hcomm).symm

theorem foldlM_council_frame {c : WeightedCouncil} (ht : t.valSet = .weighted c) :
    s.valSet.frame = (weighted c).frame := by
  have hset := congrArg Snapshot.valSet (foldlM_frame hfold)
  simp only [reframe, ht] at hset
  have hframe := congrArg frame hset
  rwa [frame_reframe_weighted] at hframe

theorem foldlM_settled (hs : s.valSet.Settled env.chain.order) :
    t.valSet.policy = s.valSet.policy ∧ t.valSet.Settled env.chain.order :=
  foldlM_invariant
    (P := fun u => u.valSet.policy = s.valSet.policy ∧ u.valSet.Settled env.chain.order)
    (fun _ _ _ hstep hu =>
      ⟨(applyHeader_ok hstep).2.1.trans hu.1, (applyHeader_ok hstep).2.2 hu.2⟩)
    hfold ⟨rfl, hs⟩

theorem foldlM_reloaded {last : Header} (hlast : headers.getLast? = some last) :
    t.reload env (uint64 (uint64 last.number + 1)) = t := by
  obtain ⟨init, rfl⟩ := getLast?_eq_some_iff.mp hlast
  rw [foldlM_append, bind_eq_ok] at hfold
  obtain ⟨u, -, hstep⟩ := hfold
  rw [foldlM_cons, bind_eq_ok] at hstep
  obtain ⟨v, hv, hpure⟩ := hstep
  cases hpure
  exact (applyHeader_ok hv).1

end Loop

theorem uint64_add_left {a b : ℕ} (h : uint64 a = uint64 b) (c : ℕ) :
    uint64 (a + c) = uint64 (b + c) := by
  unfold uint64 at *
  omega

@[simp] theorem uint64_uint64 (n : ℕ) : uint64 (uint64 n) = uint64 n := Nat.mod_mod _ _

theorem contiguous_congr {n m : ℕ} (h : uint64 n = uint64 m) (headers : List Header) :
    contiguous n headers = contiguous m headers := by
  cases headers with
  | nil => rfl
  | cons header headers => rw [contiguous, contiguous, uint64_add_left h]

theorem contiguous_last {n : ℕ} {last : Header} (h : contiguous n headers)
    (hlast : headers.getLast? = some last) : uint64 last.number = uint64 (n + headers.length) := by
  induction headers generalizing n with
  | nil => simp at hlast
  | cons header headers ih =>
    obtain ⟨hfirst, hrest⟩ : uint64 header.number = uint64 (n + 1) ∧
        contiguous (uint64 header.number) headers := by simpa [contiguous] using h
    cases headers with
    | nil =>
      obtain rfl : header = last := by simpa using hlast
      exact hfirst
    | cons next headers =>
      have hnum := ih hrest (by simpa using hlast)
      rw [hnum, hfirst, uint64_add_left (uint64_uint64 (n + 1))]
      simp only [length_cons]
      congr 1
      omega

theorem contiguous_append (n : ℕ) (h₁ h₂ : List Header) :
    contiguous n (h₁ ++ h₂) = (contiguous n h₁ && contiguous (n + h₁.length) h₂) := by
  induction h₁ generalizing n with
  | nil => rfl
  | cons header h₁ ih =>
    simp only [cons_append, contiguous, length_cons]
    by_cases hfirst : uint64 header.number = uint64 (n + 1)
    · have hlen : uint64 (uint64 header.number + h₁.length) = uint64 (n + (h₁.length + 1)) := by
        rw [hfirst, uint64_add_left (uint64_uint64 (n + 1))]
        congr 1
        omega
      rw [ih, contiguous_congr hlen, Bool.and_assoc]
    · simp [hfirst]

def endMixHash (env : SnapshotEnv F) (number : ℕ) (last : Header) (mixHash : Option Bytes) :
    Option Bytes :=
  if env.chain.forks.randao = some (number + 1) then some zeroMixHash
  else if isForked env.chain.forks.randao number then last.mixHash
  else mixHash

/-- The frame that a snapshot is given at the end of a list of headers. -/
def endFrame (env : SnapshotEnv F) (number : ℕ) (last : Header) (s : Snapshot) : SetFrame where
  subSize := if s.committeeSize = 0 then s.valSet.frame.subSize else s.committeeSize
  proposer := s.valSet.frame.proposer
  blockNum := if s.valSet.policy = weightedRandom then number else s.valSet.frame.blockNum
  mixHash :=
    if s.valSet.policy = weightedRandom then endMixHash env number last s.valSet.frame.mixHash
    else s.valSet.frame.mixHash

theorem finish_eq_reframe (s : Snapshot) (count : ℕ) (last : Header) :
    s.finish env count last = s.reframe (uint64 (s.number + count)) last.hash
      (endFrame env (uint64 (s.number + count)) last s) := by
  unfold finish reframe endFrame endMixHash
  dsimp only
  congr 1
  rw [setSubGroupSize_eq_reframe]
  cases hV : s.valSet with
  | default | weighted => split <;> split <;> (try split) <;> rfl

theorem endMixHash_later {n m : ℕ} (hnm : n < m) (last last' : Header) (b : Bytes) :
    endMixHash env m last' (some ((endMixHash env n last (some b)).getD [])) =
      endMixHash env m last' (some b) := by
  unfold endMixHash
  cases hr : env.chain.forks.randao with
  | none => rfl
  | some fork =>
    by_cases hm : fork ≤ m
    · simp [isForked, hm]
    · have hn : ¬ fork ≤ n := by omega
      have hne : fork ≠ n + 1 := by omega
      simp [isForked, hm, hn, hne]

section Composition

def restartFrame (env : SnapshotEnv F) (number : ℕ) (last : Header) (proposer : Option Address)
    (s : Snapshot) : SetFrame :=
  { endFrame env number last s with
    proposer, mixHash := some ((endFrame env number last s).mixHash.getD []) }

theorem start_settled (env : SnapshotEnv F) (s : Snapshot) :
    (s.start env).valSet.Settled env.chain.order :=
  s.valSet.copy_settled

theorem start_finish {last : Header} (hcontiguous : contiguous s.number headers)
    (hlast : headers.getLast? = some last)
    (hfold : headers.foldlM (applyHeader env policy) (s.start env) = .ok t) :
    ∃ proposer, (t.finish env headers.length last).start env =
      t.reframe (uint64 (s.number + headers.length)) last.hash
        (restartFrame env (uint64 (s.number + headers.length)) last proposer t) := by
  have hnumber : t.number = s.number := by
    rw [← foldlM_frame hfold]
    rfl
  have hsettled := (foldlM_settled hfold (start_settled env s)).2
  have hreload := foldlM_reloaded hfold hlast
  rw [contiguous_last hcontiguous hlast] at hreload
  obtain ⟨p, hp⟩ := hsettled.copy_reframe (endFrame env (uint64 (s.number + headers.length)) last t)
  refine ⟨p, ?_⟩
  rw [finish_eq_reframe, hnumber]
  calc
    _ = (t.reload env (uint64 (uint64 (s.number + headers.length) + 1))).reframe
          (uint64 (s.number + headers.length)) last.hash
          (restartFrame env (uint64 (s.number + headers.length)) last p t) := by
      simp only [start, copy, reframe, hp]
      rfl
    _ = _ := by rw [hreload]

/-- Two snapshots agree in all that every list of headers sets or passes on. -/
structure Agree (s t : Snapshot) : Prop where
  number : s.number = t.number
  hash : s.hash = t.hash
  epoch : s.epoch = t.epoch
  policy : s.policy = t.policy
  committeeSize : s.committeeSize = t.committeeSize
  votes : s.votes = t.votes
  tally : s.tally = t.tally
  validators : s.valSet.list = t.valSet.list
  demotedValidators : s.valSet.demotedList = t.valSet.demotedList
  proposers : s.valSet.proposers = t.valSet.proposers
  proposersBlockNum : s.valSet.proposersBlockNum = t.valSet.proposersBlockNum
  blockNum : s.valSet.frame.blockNum = t.valSet.frame.blockNum

theorem Agree.refl (s : Snapshot) : Agree s s := by constructor <;> rfl

theorem agree_reframe {n : ℕ} {hash : Hash} {φ ψ : SetFrame} (h : φ.blockNum = ψ.blockNum)
    (s : Snapshot) : Agree (s.reframe n hash φ) (s.reframe n hash ψ) where
  number := rfl
  hash := rfl
  epoch := rfl
  policy := rfl
  committeeSize := rfl
  votes := rfl
  tally := rfl
  validators := by simp [reframe]
  demotedValidators := by simp [reframe]
  proposers := by simp [reframe]
  proposersBlockNum := by simp [reframe]
  blockNum := by
    cases hV : s.valSet with
    | default v => simp [reframe, hV, ValidatorSet.reframe, ValidatorSet.frame]
    | weighted c => simpa [reframe, hV, ValidatorSet.reframe, ValidatorSet.frame] using h

section Split

variable {h₁ h₂ : List Header} {last₁ last₂ : Header} {s₁ s₂ : Snapshot}

theorem apply_eq_fold {last : Header} (hlast : headers.getLast? = some last) (s : Snapshot) :
    apply env policy s headers =
      if contiguous s.number headers then
        (headers.foldlM (applyHeader env policy) (s.start env)).map
          (finish env · headers.length last)
      else .error (.verify .invalidVotingChain) := by
  unfold apply
  rw [hlast]
  dsimp only
  split
  · cases headers.foldlM (applyHeader env policy) (s.start env) <;> rfl
  · rfl

section Ends

variable (hfold : h₂.foldlM (applyHeader env policy) s₁ = .ok s₂)
  (hs₁ : s₁.valSet.Settled env.chain.order) (n₁ n : ℕ) (proposer : Option Address)
include hfold hs₁

theorem endFrame_blockNum :
    (endFrame env n last₂ s₂).blockNum = (endFrame env n last₂ (s₂.reframe n₁ last₁.hash
      (restartFrame env n₁ last₁ proposer s₁))).blockNum := by
  have hpolicy := (foldlM_settled hfold hs₁).1
  simp only [endFrame, reframe, policy_reframe]
  split
  · rfl
  · rename_i hne
    cases hV : s₂.valSet with
    | default v => rfl
    | weighted c =>
      rw [hpolicy] at hne
      simp only [frame_reframe_weighted, restartFrame, endFrame, hne, if_false,
        foldlM_council_frame hfold hV]

theorem endFrame_mixHash (hn : n₁ < n) :
    (s₂.valSet.reframe (endFrame env n last₂ s₂)).frame.mixHash =
      (s₂.valSet.reframe (endFrame env n last₂ (s₂.reframe n₁ last₁.hash
        (restartFrame env n₁ last₁ proposer s₁)))).frame.mixHash := by
  obtain ⟨hpolicy, hs₂⟩ := foldlM_settled hfold hs₁
  cases hV : s₂.valSet with
  | default v => rfl
  | weighted c =>
    rw [hV] at hs₂
    obtain ⟨b, hb⟩ : ∃ b, (weighted c).frame.mixHash = some b :=
      Option.isSome_iff_exists.mp hs₂
    rw [hV] at hpolicy
    simp only [endFrame, reframe, restartFrame, hV, frame_reframe_weighted,
      policy_reframe, hpolicy, foldlM_council_frame hfold hV, hb]
    split
    · exact (endMixHash_later hn last₁ last₂ b).symm
    · rfl

end Ends

theorem apply_finish (hcontiguous : contiguous s.number h₁) (hlast₁ : h₁.getLast? = some last₁)
    (hlast₂ : h₂.getLast? = some last₂)
    (hfold : h₁.foldlM (applyHeader env policy) (s.start env) = .ok s₁) :
    ∃ proposer, apply env policy (s₁.finish env h₁.length last₁) h₂ =
      if contiguous (s.number + h₁.length) h₂ then
        (h₂.foldlM (applyHeader env policy) s₁).map fun s₂ =>
          (s₂.reframe (uint64 (s.number + h₁.length)) last₁.hash
            (restartFrame env (uint64 (s.number + h₁.length)) last₁ proposer s₁)).finish env
              h₂.length last₂
      else .error (.verify .invalidVotingChain) := by
  obtain ⟨proposer, hstart⟩ := start_finish hcontiguous hlast₁ hfold
  have hnumber : (s₁.finish env h₁.length last₁).number = uint64 (s.number + h₁.length) := by
    rw [← foldlM_frame hfold]
    rfl
  refine ⟨proposer, ?_⟩
  rw [apply_eq_fold hlast₂, hnumber, contiguous_congr (uint64_uint64 _), hstart,
    foldlM_map_comm (applyHeader_reframe _ _ _)]
  cases h₂.foldlM (applyHeader env policy) s₁ <;> rfl

/-- Both ways fail, or both end in the same state of the loop, in different frames. -/
theorem apply_append_cases (hlast₁ : h₁.getLast? = some last₁) (hlast₂ : h₂.getLast? = some last₂)
    (env : SnapshotEnv F) (policy : ProposerPolicy) (s : Snapshot) :
    (∃ e e', apply env policy s (h₁ ++ h₂) = .error e ∧
      (apply env policy s h₁ >>= fun s₁ => apply env policy s₁ h₂) = .error e') ∨
    ∃ s₁ s₂ proposer, h₁.foldlM (applyHeader env policy) (s.start env) = .ok s₁ ∧
      h₂.foldlM (applyHeader env policy) s₁ = .ok s₂ ∧
      apply env policy s (h₁ ++ h₂) = .ok (s₂.finish env (h₁ ++ h₂).length last₂) ∧
      (apply env policy s h₁ >>= fun s₁ => apply env policy s₁ h₂) =
        .ok ((s₂.reframe (uint64 (s.number + h₁.length)) last₁.hash
          (restartFrame env (uint64 (s.number + h₁.length)) last₁ proposer s₁)).finish env
            h₂.length last₂) := by
  have hlast : (h₁ ++ h₂).getLast? = some last₂ := by simp [hlast₂]
  rw [apply_eq_fold hlast, apply_eq_fold hlast₁, contiguous_append, foldlM_append]
  cases hc₁ : contiguous s.number h₁ with
  | false => exact .inl ⟨_, _, rfl, rfl⟩
  | true =>
    cases hf₁ : h₁.foldlM (applyHeader env policy) (s.start env) with
    | error e =>
      cases contiguous (s.number + h₁.length) h₂ with
      | false | true => exact .inl ⟨_, _, rfl, rfl⟩
    | ok s₁ =>
      obtain ⟨proposer, hsplit⟩ := apply_finish hc₁ hlast₁ hlast₂ hf₁
      simp only [if_true, Except.map, bind, Except.bind, hsplit]
      cases contiguous (s.number + h₁.length) h₂ with
      | false => exact .inl ⟨_, _, rfl, rfl⟩
      | true =>
        cases hf₂ : h₂.foldlM (applyHeader env policy) s₁ with
        | error e => exact .inl ⟨e, e, rfl, rfl⟩
        | ok s₂ => exact .inr ⟨s₁, s₂, proposer, rfl, hf₂, rfl, rfl⟩

end Split

variable (number : ℕ)

/-- Both fail or the snapshots agree; a committee size of zero is never installed, and the mix hash
is the same if the block number has not left its word. -/
def SameOutcome : Except ApplyErr Snapshot → Except ApplyErr Snapshot → Prop
  | .ok a, .ok b =>
      Agree a b ∧
        (a.committeeSize ≠ 0 → a.valSet.subGroupSize = b.valSet.subGroupSize) ∧
        (number < 2 ^ 64 → a.valSet.frame.mixHash = b.valSet.frame.mixHash)
  | .error _, .error _ => True
  | _, _ => False

theorem SameOutcome.refl (r : Except ApplyErr Snapshot) : SameOutcome number r r := by
  cases r with
  | error e => trivial
  | ok a => exact ⟨Agree.refl a, fun _ => rfl, fun _ => rfl⟩

theorem sameOutcome_finish {h₁ h₂ : List Header} {last₁ last₂ : Header} {s₁ s₂ : Snapshot}
    (proposer : Option Address) (hne : h₂ ≠ [])
    (hf₁ : h₁.foldlM (applyHeader env policy) (s.start env) = .ok s₁)
    (hf₂ : h₂.foldlM (applyHeader env policy) s₁ = .ok s₂) :
    SameOutcome (s.number + (h₁ ++ h₂).length) (.ok (s₂.finish env (h₁ ++ h₂).length last₂))
      (.ok ((s₂.reframe (uint64 (s.number + h₁.length)) last₁.hash
        (restartFrame env (uint64 (s.number + h₁.length)) last₁ proposer s₁)).finish env
          h₂.length last₂)) := by
  have hs₁ := (foldlM_settled hf₁ (start_settled env s)).2
  have hnumber : s₂.number = s.number := by
    rw [← foldlM_frame hf₂, ← foldlM_frame hf₁]
    rfl
  have hend : uint64 (uint64 (s.number + h₁.length) + h₂.length) =
      uint64 (s.number + (h₁ ++ h₂).length) := by
    rw [uint64_add_left (uint64_uint64 _), length_append, Nat.add_assoc]
  rw [finish_eq_reframe, finish_eq_reframe, hnumber]
  generalize hn₁ : uint64 (s.number + h₁.length) = n₁ at hend ⊢
  generalize hn : uint64 (s.number + (h₁ ++ h₂).length) = n at hend ⊢
  have hreframe (φ ψ : SetFrame) :
      (s₂.reframe n₁ last₁.hash φ).reframe n last₂.hash ψ = s₂.reframe n last₂.hash ψ := by
    simp only [reframe, reframe_reframe]
  have hnum (φ : SetFrame) : (s₂.reframe n₁ last₁.hash φ).number = n₁ := rfl
  rw [hnum, hend, hreframe]
  refine ⟨agree_reframe (endFrame_blockNum hf₂ hs₁ n₁ n proposer) s₂, ?_, ?_⟩
  · intro hsize
    have hsize₂ : s₂.committeeSize ≠ 0 := hsize
    simp [reframe, endFrame, hsize₂]
  · intro hlt
    have hpos := length_pos_iff.mpr hne
    apply endFrame_mixHash hf₂ hs₁ n₁ n proposer
    rw [← hn₁, ← hn]
    unfold uint64
    rw [length_append] at hlt ⊢
    omega

/-- On equal snapshots, two lists of headers may be applied at once or one after the other. -/
theorem sameOutcome_append (env : SnapshotEnv F) (policy : ProposerPolicy) (s : Snapshot)
    (h₁ h₂ : List Header) :
    SameOutcome (s.number + (h₁ ++ h₂).length) (apply env policy s (h₁ ++ h₂))
      (apply env policy s h₁ >>= fun s₁ => apply env policy s₁ h₂) := by
  cases hlast₁ : h₁.getLast? with
  | none =>
    obtain rfl := getLast?_eq_none_iff.mp hlast₁
    exact SameOutcome.refl _ _
  | some last₁ =>
    cases hlast₂ : h₂.getLast? with
    | none =>
      obtain rfl := getLast?_eq_none_iff.mp hlast₂
      have hbind : (apply env policy s h₁ >>= fun s₁ => apply env policy s₁ []) =
          apply env policy s h₁ := by
        cases apply env policy s h₁ <;> rfl
      rw [hbind, append_nil]
      exact SameOutcome.refl _ _
    | some last₂ =>
      obtain ⟨e, e', hbatch, hsplit⟩ | ⟨s₁, s₂, p, hf₁, hf₂, hbatch, hsplit⟩ :=
        apply_append_cases hlast₁ hlast₂ env policy s
      · rw [hbatch, hsplit]
        trivial
      · rw [hbatch, hsplit]
        have hne : h₂ ≠ [] := by
          rintro rfl
          simp at hlast₂
        exact sameOutcome_finish p hne hf₁ hf₂

theorem writtenFrom_number (headers : List Header) (s snap : Snapshot) (shared : List Address) :
    (writtenFrom env policy s shared snap headers).number = s.number := by
  induction headers generalizing s snap shared with
  | nil => rfl
  | cons header headers ih =>
    rw [writtenFrom]
    split
    · rfl
    · rw [ih]

@[simp] theorem written_number : (s.written env policy headers).number = s.number := by
  unfold written
  split
  · exact writtenFrom_number headers s _ _
  · rfl

/-- The first header gives the same whether the writes have been made or not: there were none, or
its own refresh makes them. -/
def FirstUnaffected (env : SnapshotEnv F) (policy : ProposerPolicy) (s : Snapshot)
    (headers : List Header) : Prop :=
  ∀ header ∈ headers.head?,
    applyHeader env policy ((s.written env policy headers).start env) header =
      applyHeader env policy (s.start env) header

instance (env : SnapshotEnv F) (policy : ProposerPolicy) (s : Snapshot) (headers : List Header) :
    Decidable (FirstUnaffected env policy s headers) :=
  inferInstanceAs (Decidable (∀ header ∈ headers.head?, _ = _))

theorem apply_congr_first (hnumber : s.number = t.number)
    (hfirst : applyHeader env policy (s.start env) header =
      applyHeader env policy (t.start env) header) (headers : List Header) :
    apply env policy s (header :: headers) = apply env policy t (header :: headers) := by
  obtain ⟨last, hlast⟩ : ∃ last, (header :: headers).getLast? = some last :=
    Option.isSome_iff_exists.mp (by simp)
  rw [apply_eq_fold hlast, apply_eq_fold hlast, hnumber, foldlM_cons, foldlM_cons, hfirst]

/-- A chain whose only validator seals every block, without votes and stakes. -/
def solo (randao : Option ℕ) (committeeSize : ℕ → ℕ) : SnapshotEnv ℕ where
  chain := { ChainEnv.counting with forks := ⟨none, none, none, randao⟩ }
  gov :=
    { decodeVote := fun _ => none
      toLower := id
      effectiveParams := fun n => some
        { epoch := 604800, policy := weightedRandom, committeeSize := committeeSize n
          governanceMode := .none, governingNode := 0, minimumStake := 0 } }
  float := FloatOps.nat
  recover := fun _ _ => .ok 1
  stakingInfo := fun _ => none
  getHeaderByNumber := fun _ => none

def soloSnapshot : Snapshot where
  epoch := 604800
  number := number
  hash := 0
  valSet := .weighted ⟨22, [], [newValidator 1], weightedRandom, some 1, [1], 0, number, some []⟩
  policy := weightedRandom
  committeeSize := 22
  votes := []
  tally := []

def soloHeader : Header := ⟨number, 0, 0, 0, some ⟨[], [], []⟩, some [7], []⟩

/-- The chain with stakes, which are missing at block three, and with the last forks at block four;
proposers are drawn at every second block. -/
def gapped : SnapshotEnv ℕ :=
  { solo none fun _ => 22 with
    chain := { ChainEnv.counting with
      forks := ⟨some 0, some 4, some 4, some 4⟩, proposerUpdateInterval := 2 }
    stakingInfo := fun n => if n = 3 then none else some ⟨[1], [8], false, [5]⟩
    getHeaderByNumber := fun n => some (soloHeader n) }

/-- The snapshot after block one of the chain with stakes. -/
def weighedSnapshot : Snapshot :=
  { soloSnapshot 1 with
    valSet := .weighted ⟨22, [], [⟨1, 8, 1000, 100⟩], weightedRandom, some 1, [1], 0, 1, some []⟩ }

end Composition

end Snapshot

end Kaia
