import Mathlib
import Kaia.Istanbul.Types
import Kaia.Foundation.Quorum

/-! # Validator sets

The plain set of the round-robin and sticky policies, and the weighted council, which also keeps
demoted members and precomputed proposers. Sizes and quorums are read off either.
-/

namespace Kaia

open Foundation

structure Validator where
  address : Address
  rewardAddress : Address
  votingPower : ℕ
  weight : ℕ
  deriving DecidableEq

variable (vs : List Validator) (a : Address)

def newValidator : Validator := ⟨a, 0, 1000, 0⟩

@[simp] theorem newValidator_address : (newValidator a).address = a := rfl

abbrev ProposerPolicy := ℕ

def roundRobin : ProposerPolicy := 0
def sticky : ProposerPolicy := 1
def weightedRandom : ProposerPolicy := 2

/-- The order of address texts, the checksummed hexadecimal forms, by which lists are sorted. -/
structure AddressOrder where
  less : Address → Address → Bool
  irrefl : ∀ a, less a a = false
  trans : ∀ a b c, less a b → less b c → less a c
  total : ∀ a b, a ≠ b → less a b ∨ less b a

variable (o : AddressOrder) (V : ValidatorSet)

/-- Validators compare by the texts of their addresses. -/
def AddressOrder.le (v w : Validator) : Prop :=
  o.less w.address v.address = false

instance (o : AddressOrder) : DecidableRel o.le :=
  fun _ _ => inferInstanceAs (Decidable (_ = _))

def AddressOrder.sort : List Validator :=
  vs.insertionSort o.le

def getByAddress : List Validator → Address → Option (ℕ × Validator)
  | [], _ => none
  | v :: vs, a =>
      if v.address = a then some (0, v) else (getByAddress vs a).map fun p => (p.1 + 1, p.2)

def removeAddress : List Validator :=
  vs.eraseP fun v => v.address == a

def addresses : List Address := vs.map Validator.address

/-- The set of the round-robin and sticky policies. -/
structure DefaultSet where
  subSize : ℕ
  validators : List Validator
  policy : ProposerPolicy
  proposer : Option Address
  deriving DecidableEq

/-- The council of the weighted-random policy; only addresses are read of proposers. -/
structure WeightedCouncil where
  subSize : ℕ
  demotedValidators : List Validator
  validators : List Validator
  policy : ProposerPolicy
  proposer : Option Address
  proposers : List Address
  proposersBlockNum : ℕ
  blockNum : ℕ
  mixHash : Option Bytes
  deriving DecidableEq

inductive ValidatorSet
  | default (s : DefaultSet)
  | weighted (c : WeightedCouncil)
  deriving DecidableEq

namespace ValidatorSet

def list : ValidatorSet → List Validator
  | .default s => s.validators
  | .weighted c => c.validators

def demotedList : ValidatorSet → List Validator
  | .default _ => []
  | .weighted c => c.demotedValidators

def size : ℕ := V.list.length

def subGroupSize : ValidatorSet → ℕ
  | .default s => s.subSize
  | .weighted c => c.subSize

def policy : ValidatorSet → ProposerPolicy
  | .default s => s.policy
  | .weighted c => c.policy

def getProposer : ValidatorSet → Option Address
  | .default s => s.proposer
  | .weighted c => c.proposer

def getByAddress : Option (ℕ × Validator) :=
  Kaia.getByAddress V.list a

def getDemotedByAddress : Option (ℕ × Validator) :=
  Kaia.getByAddress V.demotedList a

def totalVotingPower : ℕ := uint64 (V.list.map Validator.votingPower).sum

def isSubSet : Bool := V.subGroupSize < V.size

def f : ℤ :=
  if V.subGroupSize < V.size then faults V.subGroupSize else faults V.size

/-- The comparison of the stored proposer with the member of that address; both
sides may be missing. -/
def isProposer : Bool :=
  match V.getByAddress a with
  | some (_, v) => V.getProposer == some v.address
  | none => V.getProposer == none

def addValidator (o : AddressOrder) (V : ValidatorSet) (a : Address) : ValidatorSet :=
  if (V.getByAddress a).isSome ∨ (V.getDemotedByAddress a).isSome then V
  else
    match V with
    | .default s => .default { s with validators := o.sort (s.validators ++ [newValidator a]) }
    | .weighted c => .weighted { c with validators := o.sort (c.validators ++ [newValidator a]) }

/-- `RemoveValidator`. The weighted council falls back to its demoted members. -/
def removeValidator : ValidatorSet × Bool :=
  match V with
  | .default s =>
      if (Kaia.getByAddress s.validators a).isSome then
        (.default { s with validators := removeAddress s.validators a }, true)
      else (.default s, false)
  | .weighted c =>
      if (Kaia.getByAddress c.validators a).isSome then
        (.weighted { c with
          validators := removeAddress c.validators a
          proposers := c.proposers.filter (· ≠ a) }, true)
      else if (Kaia.getByAddress c.demotedValidators a).isSome then
        (.weighted { c with demotedValidators := removeAddress c.demotedValidators a }, true)
      else (.weighted c, false)

def pool : List Address := addresses (V.list ++ V.demotedList)

end ValidatorSet

/-- A plain set of fresh validators, sorted, with the first one as the proposer. -/
def newDefaultSubSet (addrs : List Address) (policy : ProposerPolicy) (subSize : ℕ) : DefaultSet :=
  let validators := o.sort (addrs.map newValidator)
  { subSize, validators, policy, proposer := validators.head?.map Validator.address }

def fullCommittee (addrs : List Address) : ValidatorSet :=
  .default ⟨22, addrs.map newValidator, roundRobin, none⟩

/-- `Copy` of a plain set: it is rebuilt from its addresses. -/
def DefaultSet.copy (s : DefaultSet) : DefaultSet :=
  let newValSet := newDefaultSubSet o (addresses s.validators) s.policy s.subSize
  match s.proposer with
  | none => newValSet
  | some p =>
    if (getByAddress newValSet.validators p).isSome then { newValSet with proposer := some p }
    else newValSet

/-- `Copy` of a council. In the code the copy has the same members by pointer: what is written into
them afterwards is seen in both councils, as `ValidatorSet.overwrite` tells. -/
def WeightedCouncil.copy (c : WeightedCouncil) : WeightedCouncil :=
  { c with mixHash := some (c.mixHash.getD []) }

def ValidatorSet.copy : ValidatorSet → ValidatorSet
  | .default s => .default (s.copy o)
  | .weighted c => .weighted c.copy

/-- A set after writes into those of its members that it shares with `source`. A plain set shares
none. -/
def ValidatorSet.overwrite (shared : List Address) (source : ValidatorSet) : ValidatorSet :=
  match V with
  | .default s => .default s
  | .weighted c =>
    let current := fun v : Validator =>
      if v.address ∈ shared then
        ((source.list ++ source.demotedList).find? (·.address = v.address)).getD v
      else v
    .weighted { c with
      demotedValidators := c.demotedValidators.map current
      validators := c.validators.map current }

def requiredMessageCount : ℕ :=
  let size := if V.isSubSet then V.subGroupSize else V.size
  quorum size

def ValidatorSet.groupSize : ℕ := min V.subGroupSize V.size

theorem ValidatorSet.f_eq : V.f = faults V.groupSize := by
  unfold ValidatorSet.f ValidatorSet.groupSize
  split
  · rw [min_eq_left (by omega)]
  · rw [min_eq_right (by omega)]

theorem requiredMessageCount_eq : requiredMessageCount V = quorum V.groupSize := by
  simp only [requiredMessageCount, ValidatorSet.isSubSet, decide_eq_true_eq, ValidatorSet.groupSize]
  split
  · rw [min_eq_left (by omega)]
  · rw [min_eq_right (by omega)]

variable {vs : List Validator} {a : Address} {v : Validator} {i : ℕ}

theorem getByAddress_isSome : (getByAddress vs a).isSome ↔ a ∈ addresses vs := by
  induction vs with
  | nil => simp [getByAddress, addresses]
  | cons w vs ih =>
    simp only [addresses, List.map_cons, List.mem_cons] at ih ⊢
    by_cases h : w.address = a
    · simp [getByAddress, h]
    · simp [getByAddress, h, ih, Ne.symm h]

theorem getByAddress_eq_none : getByAddress vs a = none ↔ a ∉ addresses vs := by
  rw [← getByAddress_isSome, Option.not_isSome_iff_eq_none]

theorem getByAddress_eq_some (h : getByAddress vs a = some (i, v)) :
    vs[i]? = some v ∧ v.address = a := by
  induction vs generalizing i with
  | nil => simp [getByAddress] at h
  | cons w vs ih =>
    by_cases hw : w.address = a
    · simp only [getByAddress, hw, if_true, Option.some.injEq, Prod.mk.injEq] at h
      obtain ⟨rfl, rfl⟩ := h
      simp [hw]
    · simp only [getByAddress, hw, if_false, Option.map_eq_some_iff, Prod.mk.injEq] at h
      obtain ⟨⟨j, w'⟩, hj, rfl, rfl⟩ := h
      simpa using ih hj

theorem exists_getByAddress (h : a ∈ addresses vs) :
    ∃ i v, getByAddress vs a = some (i, v) ∧ vs[i]? = some v ∧ v.address = a := by
  obtain ⟨⟨i, v⟩, hv⟩ := Option.isSome_iff_exists.mp (getByAddress_isSome.mpr h)
  exact ⟨i, v, hv, getByAddress_eq_some hv⟩

theorem addresses_removeAddress : addresses (removeAddress vs a) = (addresses vs).erase a := by
  induction vs with
  | nil => rfl
  | cons w vs ih =>
    unfold removeAddress addresses at ih ⊢
    by_cases h : w.address = a
    · simp [h]
    · simp [h, ih]

theorem AddressOrder.sort_perm (vs : List Validator) : (o.sort vs).Perm vs :=
  List.perm_insertionSort _ _

instance : Std.Total o.le where
  total v w := by
    unfold AddressOrder.le
    cases h : o.less w.address v.address
    · exact .inl rfl
    · refine .inr (Bool.eq_false_iff.mpr fun h' => ?_)
      simpa [o.irrefl] using o.trans _ _ _ h h'

instance : IsTrans Validator o.le where
  trans u v w huv hvw := by
    unfold AddressOrder.le at *
    refine Bool.eq_false_iff.mpr fun h => ?_
    by_cases hvu : v.address = u.address
    · rw [hvu, h] at hvw; simp at hvw
    · rcases o.total _ _ hvu with hlt | hlt
      · simp [hlt] at huv
      · simp [o.trans _ _ _ h hlt] at hvw

variable {V : ValidatorSet}

theorem DefaultSet.copy_eq (s : DefaultSet) :
    ∃ proposer, s.copy o =
      ⟨s.subSize, o.sort ((addresses s.validators).map newValidator), s.policy, proposer⟩ := by
  cases hp : s.proposer with
  | none => exact ⟨_, by simp only [DefaultSet.copy, hp, newDefaultSubSet]; rfl⟩
  | some p =>
    simp only [DefaultSet.copy, hp, newDefaultSubSet]
    by_cases h : (getByAddress (o.sort ((addresses s.validators).map newValidator)) p).isSome
    · exact ⟨_, if_pos h⟩
    · exact ⟨_, if_neg h⟩

theorem DefaultSet.copy_validators (s : DefaultSet) :
    (s.copy o).validators = o.sort ((addresses s.validators).map newValidator) := by
  obtain ⟨p, hp⟩ := s.copy_eq o
  rw [hp]

theorem ValidatorSet.copy_pool_perm (V : ValidatorSet) : (V.copy o).pool.Perm V.pool := by
  cases V with
  | default s =>
    have hperm := (o.sort_perm ((addresses s.validators).map newValidator)).map Validator.address
    simpa [pool, copy, list, demotedList, DefaultSet.copy_validators, addresses,
      Function.comp_def] using hperm
  | weighted c => exact List.Perm.refl _

theorem ValidatorSet.removeValidator_members (V : ValidatorSet) (a : Address) :
    (V.removeValidator a).1.list ++ (V.removeValidator a).1.demotedList =
        removeAddress (V.list ++ V.demotedList) a ∧
      ((V.removeValidator a).2 = true ↔ a ∈ V.pool) := by
  have hany : ∀ {vs : List Validator},
      vs.any (fun v => v.address == a) = (Kaia.getByAddress vs a).isSome :=
    Bool.eq_iff_iff.mpr (by simp [getByAddress_isSome, addresses])
  have hself : ∀ {vs : List Validator}, (Kaia.getByAddress vs a).isSome = false →
      vs.eraseP (fun v => v.address == a) = vs :=
    fun h => List.eraseP_of_forall_not (by simpa using hany.trans h)
  rw [pool, ← getByAddress_isSome, ← hany, List.any_append, removeAddress, List.eraseP_append, hany,
    hany]
  cases V with
  | default s =>
    cases h : (Kaia.getByAddress s.validators a).isSome <;>
      simp [removeValidator, list, demotedList, Kaia.getByAddress, removeAddress, h]
  | weighted c =>
    cases h : (Kaia.getByAddress c.validators a).isSome <;>
      cases hd : (Kaia.getByAddress c.demotedValidators a).isSome <;>
      simp [removeValidator, list, demotedList, removeAddress, h, hd, hself]

/-- A validator is removed from the pool once for each of its entries. -/
theorem ValidatorSet.removeValidator_spec (V : ValidatorSet) (a : Address) :
    (V.removeValidator a).1.pool = V.pool.erase a ∧
      ((V.removeValidator a).2 = true ↔ a ∈ V.pool) := by
  obtain ⟨hmembers, hfound⟩ := V.removeValidator_members a
  exact ⟨by rw [pool, hmembers, addresses_removeAddress, pool], hfound⟩

end Kaia
