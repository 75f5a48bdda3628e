import Kaia.Validator.Basic
import Kaia.Foundation.Shuffle

/-! # Proposers and committees

How the next proposer and the committee of a view are selected. A selection that
makes the Go runtime panic returns the panic; a selection that fails otherwise
falls back to the whole council, as the source does.
-/

namespace Kaia

open Foundation

/-- The `k`-th draws of `math/rand` below a bound for a seed. -/
structure Rng where
  intn : ℤ → ℕ → ℕ → ℕ
  intn_lt : ∀ seed k n, 0 < n → intn seed k n < n
  shuffle : ℤ → ℕ → ℕ → ℕ
  shuffle_lt : ∀ seed k n, 0 < n → shuffle seed k n < n

/-- The block numbers of the hard forks; `none` for a fork that is not scheduled. -/
structure ForkConfig where
  istanbul : Option ℕ
  kore : Option ℕ
  kaia : Option ℕ
  randao : Option ℕ

def isForked (fork : Option ℕ) (num : ℕ) : Bool :=
  match fork with
  | none => false
  | some b => b ≤ num

/-- The globals that validator selection reads. -/
structure ChainEnv where
  forks : ForkConfig
  proposerUpdateInterval : ℕ
  rng : Rng
  order : AddressOrder

/-- A chain whose draws count up from the seed and on which no fork is scheduled. -/
def ChainEnv.counting : ChainEnv where
  forks := ⟨none, none, none, none⟩
  proposerUpdateInterval := 3600
  rng :=
    { intn := fun seed k n => (seed.toNat + k) % n
      intn_lt := fun _ _ _ h => Nat.mod_lt _ h
      shuffle := fun seed k n => (seed.toNat + k) % n
      shuffle_lt := fun _ _ _ h => Nat.mod_lt _ h }
  order :=
    { less := fun a b => a.toNat < b.toNat
      irrefl := by simp
      trans := by simp only [decide_eq_true_eq]; omega
      total := fun a b h => by
        have hne : a.toNat ≠ b.toNat := fun h' => h (BitVec.eq_of_toNat_eq h')
        simp only [decide_eq_true_eq]; omega }

def calcProposerBlockNumber (interval n : ℕ) : ℕ :=
  if n % interval = 0 then sub64 n interval else n - n % interval

/-- The first fifteen hexadecimal digits of a hash, which always fit a signed word. -/
def convertHashToSeed (h : Hash) : ℤ := (h.toNat >>> 196 : ℕ)

def bigEndian (b : Bytes) : ℕ := b.foldl (fun n x => n * 256 + x.toNat) 0

/-- Select the proposer, the next proposer and random others. -/
def selectRandomCommittee (rng : Rng) (validators : List Validator) (committeeSize : ℕ)
    (seed : ℤ) (proposerIdx nextProposerIdx : ℕ) : Option (List Validator) :=
  if proposerIdx = nextProposerIdx then none
  else
    let validatorSize := validators.length
    if validatorSize < committeeSize ∨ validatorSize ≤ proposerIdx ∨
        validatorSize ≤ nextProposerIdx then none
    else if committeeSize < 2 then
      if committeeSize = 0 then none else some (picks validators [proposerIdx])
    else
      let pickSize := validatorSize - 2
      let indexs := (List.range validatorSize).filter fun i => i ≠ proposerIdx ∧ i ≠ nextProposerIdx
      let picked := swaps indexs ((List.range pickSize).map fun i => (i, rng.intn seed i pickSize))
      some (picks validators (proposerIdx :: nextProposerIdx :: picked.take (committeeSize - 2)))

/-- The Fisher-Yates shuffle of `rand.Shuffle`, from the last position down. -/
def shuffleValidators (rng : Rng) (validators : List Validator) (seed : ℤ) : List Validator :=
  let n := validators.length
  swaps validators ((List.range (n - 1)).map fun k => (n - 1 - k, rng.shuffle seed k (n - k)))

/-- Select the committee with the mix hash as the seed. -/
def selectRandaoCommittee (rng : Rng) (validators : List Validator) (committeeSize : ℕ)
    (mixHash : Bytes) : Except GoPanic (List Validator) :=
  if committeeSize < 2 then .ok (if committeeSize = 0 then [] else validators)
  else if mixHash.length < 8 then .error .sliceBounds
  else
    let seed := int64 (bigEndian (mixHash.take 8))
    .ok ((shuffleValidators rng validators seed).take (min committeeSize validators.length))

variable (validators : List Validator) (proposer : Address)

def calcSeed (round : ℕ) : ℕ :=
  uint64 (((getByAddress validators proposer).elim 0 Prod.fst) + round)

def pickBySeed (seed : ℕ) : Except GoPanic Address :=
  match validators[seed % validators.length]? with
  | some v => .ok v.address
  | none => .error .divideByZero

def roundRobinProposer (round : ℕ) : Except GoPanic Address :=
  pickBySeed validators
    (if proposer = 0 then round else uint64 (calcSeed validators proposer round + 1))

def stickyProposer (round : ℕ) : Except GoPanic Address :=
  pickBySeed validators (if proposer = 0 then round else calcSeed validators proposer round)

namespace DefaultSet

def selector (s : DefaultSet) (lastProposer : Address) (round : ℕ) : Except GoPanic Address :=
  if s.policy = sticky then stickyProposer s.validators lastProposer round
  else roundRobinProposer s.validators lastProposer round

def calcProposer (s : DefaultSet) (lastProposer : Address) (round : ℕ) :
    Except GoPanic DefaultSet :=
  if s.validators = [] then .ok s
  else do
    let p ← s.selector lastProposer round
    .ok { s with proposer := some p }

def subListWithProposer (env : ChainEnv) (s : DefaultSet) (prevHash : Hash)
    (proposerAddr : Address) (view : View) : Except GoPanic (List Validator) :=
  let validators := s.validators
  let committeeSize := s.subSize
  if validators.length ≤ committeeSize then .ok validators
  else
    match getByAddress validators proposerAddr with
    | none => .ok validators
    | some (proposerIdx, proposer) =>
      if committeeSize = 1 then .ok [proposer]
      else do
        let nextProposer ← s.selector proposer.address (uint64 view.round)
        match getByAddress validators nextProposer with
        | none => .ok validators
        | some (nextProposerIdx, _) =>
          let seed := convertHashToSeed prevHash
          let seed := if isForked env.forks.istanbul view.sequence then
            int64 (seed + int64 view.round) else seed
          match selectRandomCommittee env.rng validators committeeSize seed proposerIdx
            nextProposerIdx with
          | none => .ok validators
          | some committee => .ok committee

end DefaultSet

/-- From the committee of the mix hash after randao, from the precomputed proposers before. -/
def weightedRandomProposer (env : ChainEnv) (c : WeightedCouncil) (round : ℕ) :
    Except GoPanic (Option Address) :=
  if isForked env.forks.randao (uint64 (c.blockNum + 1)) then
    match c.mixHash with
    | none => .ok none
    | some mixHash => do
      let committee ← selectRandaoCommittee env.rng c.validators c.subSize mixHash
      let p ← pickBySeed committee round
      .ok (some p)
  else if c.proposers = [] then .ok none
  else if env.proposerUpdateInterval = 0 then .error .divideByZero
  else
    let refreshed := calcProposerBlockNumber env.proposerUpdateInterval (uint64 (c.blockNum + 1))
    .ok c.proposers[sub64 (c.blockNum + round) refreshed % c.proposers.length]?

namespace WeightedCouncil

def chooseProposerByRoundRobin (c : WeightedCouncil) (lastProposer : Address) (round : ℕ) :
    Except GoPanic Address :=
  pickBySeed c.validators
    (if lastProposer = 0 then round else calcSeed c.validators lastProposer round)

def calcProposer (env : ChainEnv) (c : WeightedCouncil) (lastProposer : Address) (round : ℕ) :
    Except GoPanic WeightedCouncil := do
  match ← weightedRandomProposer env c round with
  | some p => .ok { c with proposer := some p }
  | none =>
    if c.validators = [] then .ok { c with proposer := some lastProposer }
    else do
      let p ← c.chooseProposerByRoundRobin lastProposer round
      .ok { c with proposer := some p }

/-- The search for a next proposer from `idx` on, up to the proposer update interval. -/
def findNextProposer (env : ChainEnv) (c : WeightedCouncil) (proposer : Address) (round : ℕ) :
    ℕ → ℕ → Except GoPanic (Option Address)
  | 0, _ => .ok none
  | left + 1, idx => do
    match ← weightedRandomProposer env c (uint64 (uint64 round + idx)) with
    | none => .error .nilPointer
    | some next =>
      if proposer ≠ next then .ok (some next)
      else findNextProposer env c proposer round left (idx + 1)

def subListWithProposer (env : ChainEnv) (c : WeightedCouncil) (prevHash : Hash)
    (proposerAddr : Address) (view : View) : Except GoPanic (List Validator) :=
  let validators := c.validators
  let committeeSize := c.subSize
  if validators.length ≤ committeeSize then .ok validators
  else
    match getByAddress validators proposerAddr with
    | none => .ok validators
    | some (proposerIdx, proposer) =>
      if committeeSize = 1 then .ok [proposer]
      else if isForked env.forks.randao view.sequence then
        match c.mixHash with
        | none => .ok []
        | some mixHash => selectRandaoCommittee env.rng validators committeeSize mixHash
      else do
        match ← c.findNextProposer env proposer.address view.round env.proposerUpdateInterval 1 with
        | none => .ok validators
        | some nextProposer =>
          match getByAddress validators nextProposer with
          | none => .ok validators
          | some (nextProposerIdx, _) =>
            let seed := convertHashToSeed prevHash
            let seed := if isForked env.forks.istanbul view.sequence then
              int64 (seed + int64 view.round) else seed
            match selectRandomCommittee env.rng validators committeeSize seed proposerIdx
              nextProposerIdx with
            | none => .ok validators
            | some committee => .ok committee

end WeightedCouncil

namespace ValidatorSet

variable (env : ChainEnv)

variable (V : ValidatorSet) (prevHash : Hash)

def calcProposer (lastProposer : Address) (round : ℕ) : Except GoPanic ValidatorSet :=
  match V with
  | .default s => (s.calcProposer lastProposer round).map .default
  | .weighted c => (c.calcProposer env lastProposer round).map .weighted

def subListWithProposer (proposerAddr : Address) (view : View) : Except GoPanic (List Validator) :=
  match V with
  | .default s => s.subListWithProposer env prevHash proposerAddr view
  | .weighted c => c.subListWithProposer env prevHash proposerAddr view

/-- The committee under the stored proposer; without one a weighted council panics. -/
def subList (view : View) : Except GoPanic (List Validator) :=
  match V.getProposer with
  | some p => V.subListWithProposer env prevHash p view
  | none =>
    match V with
    | .default s => .ok s.validators
    | .weighted _ => .error .nilPointer

/-- Whether an address is in the committee. A panicking selection stops the node;
here it admits nobody. -/
def checkInSubList (view : View) (a : Address) : Bool :=
  match V.subList env prevHash view with
  | .ok committee => (addresses committee).contains a
  | .error _ => false

theorem checkInSubList_iff {V : ValidatorSet} {prevHash : Hash} {view : View} {a : Address} :
    V.checkInSubList env prevHash view a = true ↔
      ∃ committee, V.subList env prevHash view = .ok committee ∧ a ∈ addresses committee := by
  unfold checkInSubList
  cases V.subList env prevHash view <;> simp

end ValidatorSet

end Kaia
