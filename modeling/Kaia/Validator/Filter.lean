import Kaia.Validator.Refresh

/-! # Dividing the candidates

The refresh of the council divides its members into validators and demoted validators. Nobody is
lost or counted twice, somebody is always a validator, and who is demoted is decided by the stakes
alone.
-/

namespace Kaia

open Foundation List

variable {F : Type} (fl : FloatOps F)

/-- The stake that is compared with the minimum. The conversion is exact on integral amounts. -/
def stakeOf (c : Validator × F) : ℕ := fl.toUint64 c.2

/-- In single mode the governing node is exempt from the division. -/
def IsGovNode (isSingleMode : Bool) (govNodeAddr : Address) (c : Validator × F) : Prop :=
  isSingleMode = true ∧ govNodeAddr = c.1.address

variable {fl} {isSingleMode : Bool} {govNodeAddr : Address} {candidates : List (Validator × F)}
  {minStaking : ℕ} {c g : Validator × F} {validators demoted : List (Validator × F)}

def otherCandidates (isSingleMode : Bool) (govNodeAddr : Address)
    (candidates : List (Validator × F)) : List (Validator × F) :=
  candidates.filter fun c => !(isSingleMode && govNodeAddr == c.1.address)

theorem mem_otherCandidates : c ∈ otherCandidates isSingleMode govNodeAddr candidates ↔
    c ∈ candidates ∧ ¬ IsGovNode isSingleMode govNodeAddr c := by
  simp only [otherCandidates, IsGovNode, mem_filter, Bool.not_eq_true', Bool.and_eq_false_iff,
    beq_eq_false_iff_ne, not_and_or, Bool.not_eq_true, ne_eq]

variable (fl) in
/-- The division of the candidates other than the governing node, which has the given stake. -/
def divide (fallback : Prop) [Decidable fallback] (minStaking : ℕ)
    (others : List (Validator × F)) : List (Validator × F) × List (Validator × F) :=
  if others.filter (fun c => minStaking ≤ stakeOf fl c) = [] ∧ fallback then
    (others.filter (fun c => !decide (minStaking ≤ stakeOf fl c)), [])
  else
    (others.filter (fun c => minStaking ≤ stakeOf fl c),
      others.filter (fun c => !decide (minStaking ≤ stakeOf fl c)))

variable {fallback : Prop} [Decidable fallback] {others : List (Validator × F)}

theorem divide_perm : ((divide fl fallback minStaking others).1 ++
    (divide fl fallback minStaking others).2).Perm others := by
  have hsplit := filter_append_perm (fun c => decide (minStaking ≤ stakeOf fl c)) others
  unfold divide
  split
  · next hnone =>
    rw [hnone.1, nil_append] at hsplit
    rwa [append_nil]
  · exact hsplit

theorem divide_ne_nil (hfallback : fallback) (hne : others ≠ []) :
    (divide fl fallback minStaking others).1 ≠ [] := by
  unfold divide
  split
  · next hnone =>
    intro hdemoted
    have hsplit := filter_append_perm (fun c => decide (minStaking ≤ stakeOf fl c)) others
    dsimp only at hdemoted
    rw [hnone.1, hdemoted] at hsplit
    exact hne hsplit.symm.eq_nil
  · next hsome =>
    intro hnone
    exact hsome ⟨hnone, hfallback⟩

theorem mem_divide_snd : c ∈ (divide fl fallback minStaking others).2 ↔
    c ∈ others ∧ stakeOf fl c < minStaking ∧
      ((∃ d ∈ others, minStaking ≤ stakeOf fl d) ∨ ¬ fallback) := by
  have hnone : others.filter (fun c => minStaking ≤ stakeOf fl c) = [] ↔
      ¬ ∃ d ∈ others, minStaking ≤ stakeOf fl d := by
    simp [filter_eq_nil_iff]
  unfold divide
  split
  · next h =>
    rw [hnone] at h
    constructor
    · rintro ⟨⟩
    · rintro ⟨-, -, hd | hf⟩
      · exact absurd hd h.1
      · exact absurd h.2 hf
  · next h =>
    rw [hnone, not_and_or, not_not] at h
    simp only [mem_filter, Bool.not_eq_true', decide_eq_false_iff_not, not_le, h, and_true]

theorem filter_govNode (hdistinct : (candidates.map (·.1.address)).Nodup) (hg : g ∈ candidates)
    (haddr : govNodeAddr = g.1.address) :
    candidates.filter (fun c => true && govNodeAddr == c.1.address) = [g] := by
  subst haddr
  have hnodup : (candidates.filter (fun c => true && g.1.address == c.1.address)).Nodup :=
    (List.Nodup.of_map _ hdistinct).filter _
  apply perm_singleton.mp
  rw [perm_ext_iff_of_nodup hnodup (nodup_singleton g)]
  intro c
  simp only [Bool.true_and, mem_filter, beq_iff_eq, mem_singleton]
  constructor
  · rintro ⟨hc, haddr⟩
    exact inj_on_of_nodup_map hdistinct hc hg haddr.symm
  · rintro rfl
    exact ⟨hg, rfl⟩

theorem filterValidators_of_not_single :
    filterValidators fl false govNodeAddr candidates minStaking =
      .ok (divide fl True minStaking candidates) := by
  simp only [filterValidators, divide, stakeOf, Bool.false_and, Bool.not_false, filter_true,
    Bool.false_eq_true, not_false_eq_true, true_or, and_true, if_false]
  rfl

section

variable (hdistinct : (candidates.map (·.1.address)).Nodup) (hg : g ∈ candidates)
    (haddr : govNodeAddr = g.1.address)

include hdistinct hg haddr

theorem filterValidators_of_single :
    filterValidators fl true govNodeAddr candidates minStaking =
      .ok (((divide fl (stakeOf fl g < minStaking) minStaking
          (otherCandidates true govNodeAddr candidates)).1 ++ [g]),
        (divide fl (stakeOf fl g < minStaking) minStaking
          (otherCandidates true govNodeAddr candidates)).2) := by
  simp only [filterValidators, divide, stakeOf, otherCandidates, filter_govNode hdistinct hg haddr,
    getLast?_singleton, Option.elim_some, not_true_eq_false, false_or, if_true]
  rfl

theorem otherCandidates_perm :
    (otherCandidates true govNodeAddr candidates ++ [g]).Perm candidates := by
  have hsplit := filter_append_perm (fun c => true && govNodeAddr == c.1.address) candidates
  rw [filter_govNode hdistinct hg haddr] at hsplit
  exact perm_append_comm.trans hsplit

end

/-- Candidates divided into validators and demoted validators. -/
structure Partition (fl : FloatOps F) (isSingleMode : Bool) (govNodeAddr : Address)
    (candidates : List (Validator × F)) (minStaking : ℕ)
    (validators demoted : List (Validator × F)) : Prop where
  perm : (validators ++ demoted).Perm candidates
  ne_nil : candidates ≠ [] → validators ≠ []
  govNode : isSingleMode = true → ∃ g ∈ validators, g.1.address = govNodeAddr
  demoted : ∀ c ∈ candidates, ¬ IsGovNode isSingleMode govNodeAddr c →
    (c ∈ demoted ↔ stakeOf fl c < minStaking ∧ ∃ d ∈ candidates, minStaking ≤ stakeOf fl d)

end Kaia
