import Mathlib
import Kaia.Backend.Snapshot

/-! # Voting powers

Which voting power the members of a validator set have. Votes and refreshes move members
around and weigh them again, and both leave the powers of those that stay alone.
-/

namespace Kaia

open Foundation List Validator

def Validator.franchise (v : Validator) : Address × ℕ := (v.address, v.votingPower)

def powerIn (vs : List Validator) (a : Address) : ℕ :=
  ((getByAddress vs a).map fun p => p.2.votingPower).getD 0

/-- No address has two voting powers. -/
def Definite (vs : List Validator) : Prop :=
  ∀ a p q, (a, p) ∈ vs.map Validator.franchise → (a, q) ∈ vs.map Validator.franchise → p = q

variable {vs ws : List Validator} {a : Address} {p : ℕ}

theorem mem_franchise_of_getByAddress {i : ℕ} {v : Validator}
    (h : getByAddress vs a = some (i, v)) :
    (a, v.votingPower) ∈ vs.map franchise := by
  obtain ⟨hi, ha⟩ := getByAddress_eq_some h
  exact mem_map.mpr ⟨v, mem_of_getElem? hi, by rw [franchise, ha]⟩

theorem mem_addresses_of_franchise (h : (a, p) ∈ vs.map franchise) :
    a ∈ addresses vs := by
  obtain ⟨v, hv, hvp⟩ := mem_map.mp h
  cases hvp
  exact mem_map_of_mem hv

theorem powerIn_eq (hvs : Definite vs) (h : (a, p) ∈ vs.map franchise) :
    powerIn vs a = p := by
  obtain ⟨i, v, hget, -⟩ := exists_getByAddress (mem_addresses_of_franchise h)
  rw [powerIn, hget]
  exact hvs a _ _ (mem_franchise_of_getByAddress hget) h

theorem mem_franchise_powerIn (h : a ∈ addresses vs) :
    (a, powerIn vs a) ∈ vs.map franchise := by
  obtain ⟨i, v, hget, -⟩ := exists_getByAddress h
  rw [powerIn, hget]
  exact mem_franchise_of_getByAddress hget

theorem powerIn_cons_of_ne {v : Validator} (h : v.address ≠ a) :
    powerIn (v :: vs) a = powerIn vs a := by
  rw [powerIn, getByAddress, if_neg h, powerIn]
  cases getByAddress vs a <;> rfl

theorem powerIn_append_left (h : a ∈ addresses vs) : powerIn (vs ++ ws) a = powerIn vs a := by
  induction vs with
  | nil => cases h
  | cons v vs ih =>
    by_cases hv : v.address = a
    · simp [powerIn, getByAddress, hv]
    · rw [cons_append, powerIn_cons_of_ne hv, powerIn_cons_of_ne hv]
      exact ih ((mem_cons.mp h).resolve_left (Ne.symm hv))

theorem Definite.mono (hvs : Definite vs)
    (hsub : ∀ x ∈ ws.map franchise, x ∈ vs.map franchise) : Definite ws :=
  fun a p q hp hq => hvs a p q (hsub _ hp) (hsub _ hq)

theorem powerIn_congr (hws : Definite ws)
    (h : ∀ p, (a, p) ∈ ws.map franchise ↔ (a, p) ∈ vs.map franchise) :
    powerIn ws a = powerIn vs a := by
  by_cases ha : a ∈ addresses vs
  · exact powerIn_eq hws ((h _).mpr (mem_franchise_powerIn ha))
  · have hw : a ∉ addresses ws := by
      intro hw
      exact ha (mem_addresses_of_franchise ((h _).mp (mem_franchise_powerIn hw)))
    rw [powerIn, powerIn, getByAddress_eq_none.mpr ha, getByAddress_eq_none.mpr hw]

variable (vs) in
theorem sum_powerIn_le {as : List Address} (hnd : as.Nodup) :
    (as.map (powerIn vs)).sum ≤ (vs.map votingPower).sum := by
  induction vs generalizing as with
  | nil =>
    have hzero : as.map (powerIn []) = replicate as.length 0 := map_const' ..
    simp [hzero]
  | cons v vs ih =>
    rw [map_cons, sum_cons]
    by_cases hv : v.address ∈ as
    · have hperm := perm_cons_erase hv
      have hrest : (as.erase v.address).map (powerIn (v :: vs)) =
          (as.erase v.address).map (powerIn vs) := by
        apply map_congr_left
        intro b hb
        exact powerIn_cons_of_ne fun heq => hnd.not_mem_erase (heq ▸ hb)
      have hself : powerIn (v :: vs) v.address = v.votingPower := by
        simp [powerIn, getByAddress]
      rw [(hperm.map _).sum_eq, map_cons, sum_cons, hrest, hself]
      exact Nat.add_le_add_left (ih (hnd.erase _)) _
    · have hall : as.map (powerIn (v :: vs)) = as.map (powerIn vs) := by
        apply map_congr_left
        intro b hb
        exact powerIn_cons_of_ne fun heq => hv (heq ▸ hb)
      rw [hall]
      exact (ih hnd).trans (Nat.le_add_left _ _)

namespace ValidatorSet

def members (V : ValidatorSet) : List Validator := V.list ++ V.demotedList

def power (V : ValidatorSet) (a : Address) : ℕ := powerIn V.members a

def fullPower (V : ValidatorSet) : ℕ := (V.members.map Validator.votingPower).sum

/-- The two sets agree about an address. -/
def Agrees (V W : ValidatorSet) (a : Address) : Prop :=
  ∀ p, (a, p) ∈ W.members.map Validator.franchise ↔ (a, p) ∈ V.members.map Validator.franchise

variable {V W : ValidatorSet} {b : Address}

theorem mem_pool_iff : a ∈ V.pool ↔ ∃ p, (a, p) ∈ V.members.map franchise :=
  ⟨fun h => ⟨_, mem_franchise_powerIn h⟩, fun ⟨_, h⟩ => mem_addresses_of_franchise h⟩

theorem Agrees.mem_pool (h : Agrees V W a) : a ∈ W.pool ↔ a ∈ V.pool := by
  rw [mem_pool_iff, mem_pool_iff]
  exact exists_congr h

theorem Agrees.power_eq (hW : Definite W.members) (h : Agrees V W a) : W.power a = V.power a :=
  powerIn_congr hW h

theorem Agrees.refl (V : ValidatorSet) (a : Address) : Agrees V V a := fun _ => Iff.rfl

variable {v : Validator} {x : Address × ℕ}

theorem power_of_getByAddress {i : ℕ} (hV : Definite V.members) (h : V.getByAddress a = some (i, v)) :
    V.power a = v.votingPower := by
  apply powerIn_eq hV
  rw [members, map_append]
  exact mem_append_left _ (mem_franchise_of_getByAddress h)

theorem mem_pool_of_getByAddress {p : ℕ × Validator} (h : V.getByAddress a = some p) :
    a ∈ V.pool := by
  unfold pool addresses
  rw [map_append]
  exact mem_append_left _ (getByAddress_isSome.mp (Option.isSome_iff_exists.mpr ⟨p, h⟩))

variable (o : AddressOrder)

theorem mem_franchise_addValidator :
    x ∈ (V.addValidator o a).members.map franchise ↔
      x ∈ V.members.map franchise ∨ (a ∉ V.pool ∧ x = (a, 1000)) := by
  have hpool : ((V.getByAddress a).isSome ∨ (V.getDemotedByAddress a).isSome) ↔ a ∈ V.pool := by
    simp [getByAddress, getDemotedByAddress, getByAddress_isSome, pool, addresses]
  unfold addValidator
  by_cases ha : a ∈ V.pool
  · rw [if_pos (hpool.mpr ha)]
    simp [ha]
  · rw [if_neg (fun h => ha (hpool.mp h))]
    have hsort : ∀ vs ws : List Validator,
        x ∈ (o.sort (vs ++ [newValidator a]) ++ ws).map franchise ↔
          x ∈ (vs ++ ws).map franchise ∨ x = (a, 1000) := by
      intro vs ws
      rw [(((o.sort_perm _).append_right ws).map _).mem_iff]
      simp only [map_append, mem_append, map_cons, map_nil,
        mem_singleton]
      exact or_right_comm
    rw [and_iff_right ha]
    cases V with
    | default s => exact hsort s.validators []
    | weighted c => exact hsort c.validators c.demotedValidators

theorem definite_addValidator (hV : Definite V.members) (a : Address) :
    Definite (V.addValidator o a).members := by
  intro b p q hp hq
  rw [mem_franchise_addValidator] at hp hq
  rcases hp with hp | ⟨ha, hp⟩ <;> rcases hq with hq | ⟨ha', hq⟩
  · exact hV b p q hp hq
  · cases hq
    exact absurd (mem_pool_iff.mpr ⟨p, hp⟩) ha'
  · cases hp
    exact absurd (mem_pool_iff.mpr ⟨q, hq⟩) ha
  · cases hp
    cases hq
    rfl

theorem agrees_addValidator (hb : b ∈ V.pool) (a : Address) :
    Agrees V (V.addValidator o a) b := by
  intro p
  rw [mem_franchise_addValidator]
  constructor
  · rintro (h | ⟨ha, h⟩)
    · exact h
    · cases h
      exact absurd hb ha
  · exact .inl

theorem mem_franchise_removeAddress (hx : x.1 ≠ a) :
    x ∈ (removeAddress vs a).map franchise ↔ x ∈ vs.map franchise := by
  simp only [mem_map]
  refine exists_congr fun v => and_congr_left fun hv => ?_
  apply mem_eraseP_of_neg
  have hne : v.address ≠ a := by
    rw [← hv] at hx
    exact hx
  simp [hne]

theorem definite_removeValidator (hV : Definite V.members) (a : Address) :
    Definite (V.removeValidator a).1.members := by
  apply hV.mono
  intro x hx
  obtain ⟨v, hv, rfl⟩ := mem_map.mp hx
  rw [members, (V.removeValidator_members a).1] at hv
  exact mem_map_of_mem (mem_of_mem_eraseP hv)

theorem agrees_removeValidator (hb : b ≠ a) : Agrees V (V.removeValidator a).1 b := by
  intro p
  rw [members, (V.removeValidator_members a).1]
  exact mem_franchise_removeAddress (x := (b, p)) hb

end ValidatorSet

variable {F : Type} {fl : FloatOps F} {info : StakingInfo} {ds vs' ds' : List Validator}
  {cs kept demoted : List (Validator × F)}

theorem stakingAmountOf_franchise {val : Validator} {c : Validator × F}
    (h : stakingAmountOf fl info val = .ok c) : c.1.franchise = val.franchise := by
  unfold stakingAmountOf at h
  split at h
  · cases h
    rfl
  · split at h
    · cases h
    · obtain ⟨stake, -, hc⟩ := bind_eq_ok.mp h
      cases hc
      rfl

theorem getStakingAmountsOfValidators_franchise
    (h : getStakingAmountsOfValidators fl info vs = .ok cs) :
    cs.map (·.1.franchise) = vs.map franchise := by
  unfold getStakingAmountsOfValidators at h
  induction vs generalizing cs with
  | nil =>
    cases h
    rfl
  | cons v vs ih =>
    rw [mapM_cons] at h
    obtain ⟨c, hc, hrest⟩ := bind_eq_ok.mp h
    obtain ⟨cs', hcs', hpure⟩ := bind_eq_ok.mp hrest
    cases hpure
    rw [map_cons, map_cons, ih hcs', stakingAmountOf_franchise hc]

variable {isSingle : Bool} {node : Address} {minStaking : ℕ}

/-- The division loses nobody: in single mode the governing node comes back. -/
theorem filterValidators_franchise
    (hdef : ∀ a p q, (a, p) ∈ cs.map (·.1.franchise) → (a, q) ∈ cs.map (·.1.franchise) → p = q)
    (h : filterValidators fl isSingle node cs minStaking = .ok (kept, demoted)) (x : Address × ℕ) :
    x ∈ (kept ++ demoted).map (·.1.franchise) ↔ x ∈ cs.map (·.1.franchise) := by
  unfold filterValidators at h
  extract_lets isGovNode enough others newValidators newDemoted govNode govNodeStaking at h
  have hsplit : ∀ c, c ∈ newValidators ++ newDemoted ↔ c ∈ others := by
    intro c
    simp only [newValidators, newDemoted, mem_append, mem_filter]
    cases enough c <;> simp
  split at h
  next nv nd hpair =>
  have hothers : ∀ c, c ∈ nv ++ nd ↔ c ∈ others := by
    intro c
    rw [← hsplit]
    split at hpair
    · next hnone =>
      cases hpair
      rw [hnone.1, append_nil, nil_append]
    · cases hpair
      rfl
  cases isSingle with
  | false =>
    have hall : others = cs := by
      simp [others, isGovNode]
    cases h
    simp only [mem_map, hothers, hall]
  | true =>
    cases hnode : govNode with
    | none =>
      rw [hnode] at h
      cases h
    | some g =>
      rw [hnode] at h
      have hg : g ∈ cs.filter isGovNode := mem_of_getLast? hnode
      have hmem : ∀ c, c ∈ nv ++ [g] ++ nd ↔ c ∈ others ∨ c = g := by
        intro c
        rw [← hothers]
        simp only [mem_append, mem_singleton]
        exact or_right_comm
      cases h
      simp only [mem_map, hmem]
      constructor
      · rintro ⟨c, hc | rfl, rfl⟩
        · exact ⟨c, (mem_filter.mp hc).1, rfl⟩
        · exact ⟨c, (mem_filter.mp hg).1, rfl⟩
      · rintro ⟨c, hc, rfl⟩
        by_cases hgov : isGovNode c = true
        · -- every entry of the governing node has the power of the last one
          refine ⟨g, .inr rfl, ?_⟩
          have haddr : g.1.address = c.1.address := by
            have h₁ := (mem_filter.mp hg).2
            simp only [isGovNode, Bool.true_and, beq_iff_eq] at h₁ hgov
            exact h₁.symm.trans hgov
          have hpow := hdef c.1.address g.1.votingPower c.1.votingPower
            (mem_map.mpr ⟨g, (mem_filter.mp hg).1, by rw [← haddr]; rfl⟩)
            (mem_map.mpr ⟨c, hc, rfl⟩)
          rw [franchise, franchise, haddr, hpow]
        · exact ⟨c, .inl (mem_filter.mpr ⟨hc, by simpa using hgov⟩), rfl⟩

theorem setZeroWeight_franchise (vs : List Validator) :
    (setZeroWeight vs).map franchise = vs.map franchise := by
  rw [setZeroWeight, map_map]
  rfl

variable (fl info) in
theorem calcTotalAmount_franchise (cs : List (Validator × F)) :
    (calcTotalAmount fl info cs).2.map (·.1.franchise) = cs.map (·.1.franchise) := by
  unfold calcTotalAmount
  split
  · rfl
  · dsimp only
    split
    · rw [map_map]
      rfl
    · rfl

theorem reweigh_franchise (isKore : Bool) (cs : List (Validator × F)) :
    (reweigh fl isKore info cs).map franchise = cs.map (·.1.franchise) := by
  unfold reweigh
  split
  · rw [setZeroWeight_franchise, map_map]
    rfl
  · dsimp only
    rw [← calcTotalAmount_franchise fl info cs]
    unfold calcWeight
    split
    · rw [map_map]
      rfl
    · rw [setZeroWeight_franchise, map_map]
      rfl

variable {env : ChainEnv} {stakingInfo : ℕ → Option StakingInfo}

theorem refreshedLists_franchise {blockNum : ℕ} (hdef : Definite (vs ++ ds))
    (h : refreshedLists fl env stakingInfo blockNum isSingle node minStaking vs ds =
      .ok (.ok (vs', ds'))) (x : Address × ℕ) :
    x ∈ (vs' ++ ds').map franchise ↔ x ∈ (vs ++ ds).map franchise := by
  unfold refreshedLists at h
  split at h
  · cases h
  · obtain ⟨num, -, h⟩ := bind_eq_ok.mp h
    split at h
    · cases h
    · next info hinfo =>
      obtain ⟨cs, hcs, h⟩ := bind_eq_ok.mp h
      have hfr := getStakingAmountsOfValidators_franchise hcs
      rw [← hfr]
      split at h
      · obtain ⟨⟨kept, demoted⟩, hfilter, hok⟩ := bind_eq_ok.mp h
        cases hok
        have hparts := filterValidators_franchise (fun a p q => by
          rw [hfr]
          exact hdef a p q) hfilter x
        rw [← hparts, map_append, mem_append, map_append, mem_append,
          ((env.order.sort_perm _).map _).mem_iff, ((env.order.sort_perm _).map _).mem_iff,
          reweigh_franchise, map_map]
        rfl
      · cases h
        rw [take_append_drop, reweigh_franchise]

namespace ValidatorSet

variable {V W : ValidatorSet}

theorem refreshValSet_agrees {blockNum : ℕ} {r : Except RefreshErr ValidatorSet}
    (hV : Definite V.members)
    (h : V.refreshValSet fl env stakingInfo blockNum isSingle node minStaking = .ok r) (a : Address) :
    Agrees V (r.toOption.getD V) a := by
  cases V with
  | default s =>
    cases h
    exact Agrees.refl _ _
  | weighted c =>
    obtain ⟨lists, hlists, h⟩ := bind_eq_ok.mp h
    cases lists with
    | error e =>
      cases h
      exact Agrees.refl _ _
    | ok lists =>
      cases h
      intro p
      exact refreshedLists_franchise hV hlists (a, p)

theorem members_refreshProposers (env : ChainEnv) (V : ValidatorSet) (hash : Hash) (blockNum : ℕ) :
    ((V.refreshProposers env hash blockNum).toOption.getD V).members = V.members := by
  cases V with
  | default s => rfl
  | weighted c =>
    unfold refreshProposers
    dsimp only
    split
    · rfl
    · split <;> rfl

theorem definite_of_agrees (hV : Definite V.members) (h : ∀ a, Agrees V W a) : Definite W.members :=
  hV.mono fun x => (h x.1 x.2).mp

theorem definite_copy (o : AddressOrder) (hV : Definite V.members) :
    Definite (V.copy o).members := by
  cases V with
  | weighted c => exact hV
  | default s =>
    -- the members of a plain set are made anew
    have hfresh : ∀ x ∈ (ValidatorSet.default (s.copy o)).members.map franchise,
        x.2 = 1000 := by
      intro x hx
      obtain ⟨v, hv, rfl⟩ := mem_map.mp hx
      rw [members, list, demotedList, append_nil, DefaultSet.copy_validators,
        (o.sort_perm _).mem_iff] at hv
      obtain ⟨a, -, rfl⟩ := mem_map.mp hv
      rfl
    intro a p q hp hq
    exact (hfresh _ hp).trans (hfresh _ hq).symm

end ValidatorSet

theorem Snapshot.refreshCouncil_agrees {F : Type} {env : SnapshotEnv F} {V W : ValidatorSet}
    {number : ℕ} (hV : Definite V.members) (h : refreshCouncil env V number = .ok W)
    (a : Address) : V.Agrees W a := by
  unfold refreshCouncil at h
  dsimp only at h
  split at h
  · cases h
  · obtain ⟨r, hr, h⟩ := bind_eq_ok.mp h
    have hagree := ValidatorSet.refreshValSet_agrees hV (mapError_eq_ok.mp hr) a
    split at h
    · cases h
      exact hagree
    · split at h
      · cases h
      · split at h
        · cases h
          exact hagree
        · cases h
          intro p
          rw [ValidatorSet.members_refreshProposers]
          exact hagree p

end Kaia
