import Mathlib
import Kaia.Validator.Committee

/-! # Verification of committed seals

The verifier accepts a block when every committed seal recovers to another member of the parent's
council and more than `2 * F` do. The loop is over any way to resolve a signature.
-/

namespace Kaia

open Foundation List

/-- The errors of header verification and of building the parent's snapshot. -/
inductive VerifyErr
  | unknownBlock | unknownAncestor | invalidExtraDataFormat | invalidVotingChain | unauthorized
  | invalidSignature | emptyCommittedSeals | invalidCommittedSeals | governance
  | recovery (e : SignatureErr)
  deriving DecidableEq

variable {m : Type → Type} [Monad m]

/-- Strike each sealing validator from the copied set and count it. -/
def countSeals (resolve : Bytes → m (Except SignatureErr Address)) :
    ValidatorSet → ℕ → List Bytes → m (Except VerifyErr ℕ)
  | _, validSeal, [] => pure (.ok validSeal)
  | validators, validSeal, sig :: seals => do
    match ← resolve sig with
    | .error _ => pure (.error .invalidSignature)
    | .ok addr =>
      match validators.removeValidator addr with
      | (validators, true) => countSeals resolve validators (validSeal + 1) seals
      | (_, false) => pure (.error .invalidCommittedSeals)

/-- `verifyCommittedSeals`, given the lookup of the parent's snapshot. -/
def verifyCommittedSeals (o : AddressOrder)
    (resolve : Bytes → Bytes → m (Except SignatureErr Address))
    (snapshot : ℕ → Hash → m (Except VerifyErr ValidatorSet)) (header : Header) :
    m (Except VerifyErr Unit) := do
  let number := uint64 header.number
  if number = 0 then pure (.ok ())
  else
    match ← snapshot (number - 1) header.parentHash with
    | .error e => pure (.error e)
    | .ok valSet =>
      match header.extra with
      | none => pure (.error .invalidExtraDataFormat)
      | some extra =>
        if extra.committedSeal = [] then pure (.error .emptyCommittedSeals)
        else do
          let proposalSeal := prepareCommittedSeal header.hash
          match ← countSeals (resolve proposalSeal) (valSet.copy o) 0 extra.committedSeal with
          | .error e => pure (.error e)
          | .ok validSeal =>
            if (validSeal : ℤ) ≤ 2 * valSet.f then pure (.error .invalidCommittedSeals)
            else pure (.ok ())

/-- Put the committed seals into the extra data of a header. -/
def writeCommittedSeals (h : Header) (committedSeals : List Bytes) : Except VerifyErr Header :=
  if committedSeals = [] then .error .invalidCommittedSeals
  else if committedSeals.any fun sig => sig.length ≠ 65 then .error .invalidCommittedSeals
  else
    match h.extra with
    | none => .error .invalidExtraDataFormat
    | some istanbulExtra =>
      .ok { h with extra := some { istanbulExtra with committedSeal := committedSeals } }

/-- The verifier accepts a header against its parent's validators. -/
def Accepts (o : AddressOrder) (recover : Recover) (V : ValidatorSet) (header : Header) : Prop :=
  verifyCommittedSeals (m := Id) o recover (fun _ _ => .ok V) header = .ok ()

def sealers (recover : Recover) (header : Header) : List Address :=
  (header.extra.elim [] IstanbulExtra.committedSeal).filterMap fun sig =>
    (recover (prepareCommittedSeal header.hash) sig).toOption

variable {resolve : Bytes → Except SignatureErr Address} {V : ValidatorSet} {sig : Bytes}
  {seals : List Bytes} {n : ℕ} {a : Address}

theorem countSeals_cons_found (hr : resolve sig = .ok a) (ha : a ∈ V.pool) :
    countSeals (m := Id) resolve V n (sig :: seals) =
      countSeals (m := Id) resolve (V.removeValidator a).1 (n + 1) seals := by
  have hfound := (V.removeValidator_spec a).2.mpr ha
  rw [countSeals]
  simp only [hr, bind]
  rw [← Prod.mk.eta (p := V.removeValidator a), hfound]

theorem countSeals_cons_missing (hr : resolve sig = .ok a) (ha : a ∉ V.pool) :
    countSeals (m := Id) resolve V n (sig :: seals) = .error .invalidCommittedSeals := by
  have hfound : (V.removeValidator a).2 = false :=
    Bool.eq_false_iff.mpr (mt (V.removeValidator_spec a).2.mp ha)
  rw [countSeals]
  simp only [hr, bind]
  rw [← Prod.mk.eta (p := V.removeValidator a), hfound]
  rfl

theorem countSeals_of_distinct {as : List Address} (hmap : seals.map resolve = as.map .ok)
    (hasnd : as.Nodup) (hsub : ∀ a ∈ as, a ∈ V.pool) :
    countSeals (m := Id) resolve V n seals = .ok (n + as.length) := by
  induction seals generalizing V n as with
  | nil =>
    obtain rfl : as = [] := by simpa using hmap
    rfl
  | cons sig seals ih =>
    obtain _ | ⟨a, as⟩ := as
    · simp at hmap
    obtain ⟨hr, hrest⟩ : resolve sig = .ok a ∧ seals.map resolve = as.map .ok := by
      simpa using hmap
    obtain ⟨ha, hsub⟩ := forall_mem_cons.mp hsub
    obtain ⟨hnot, hasnd⟩ := nodup_cons.mp hasnd
    have hpool : ∀ x ∈ as, x ∈ (V.removeValidator a).1.pool := fun x hx => by
      rw [(V.removeValidator_spec _).1]
      have hne : x ≠ a := fun h => hnot (h ▸ hx)
      exact (mem_erase_of_ne hne).mpr (hsub x hx)
    rw [countSeals_cons_found hr ha, ih hrest hasnd hpool, length_cons]
    congr 1
    omega

theorem countSeals_eq_ok {k : ℕ} (hnd : V.pool.Nodup)
    (h : countSeals (m := Id) resolve V n seals = .ok k) :
    ∃ as : List Address, seals.map resolve = as.map .ok ∧ as.Nodup ∧ (∀ a ∈ as, a ∈ V.pool) ∧
      k = n + as.length := by
  induction seals generalizing V n with
  | nil =>
    obtain rfl : n = k := Except.ok.inj h
    exact ⟨[], rfl, nodup_nil, by simp, rfl⟩
  | cons sig seals ih =>
    cases hr : resolve sig with
    | error e => simp [countSeals, hr, bind, pure] at h
    | ok a =>
      have hpool := (V.removeValidator_spec a).1
      by_cases ha : a ∈ V.pool
      · rw [countSeals_cons_found hr ha] at h
        obtain ⟨as, has, hasnd, hsub, rfl⟩ := ih (hpool ▸ hnd.erase a) h
        have hrest : ∀ x ∈ as, x ≠ a ∧ x ∈ V.pool := fun x hx =>
          hnd.mem_erase_iff.mp (hpool ▸ hsub x hx)
        refine ⟨a :: as, by simp [hr, has], ?_, ?_, by simp; omega⟩
        · exact nodup_cons.mpr ⟨fun h => (hrest a h).1 rfl, hasnd⟩
        · exact forall_mem_cons.mpr ⟨ha, fun x hx => (hrest x hx).2⟩
      · rw [countSeals_cons_missing hr ha] at h
        cases h

variable {o : AddressOrder} {recover : Recover} {header : Header}

theorem filterMap_toOption_of_map {α β ε : Type*} {f : α → Except ε β} {l : List α} {as : List β}
    (h : l.map f = as.map .ok) : l.filterMap (fun x => (f x).toOption) = as := by
  have := congrArg (filterMap Except.toOption) h
  simpa [filterMap_map, Function.comp_def, Except.toOption] using this

theorem accepts_of_distinct {extra : IstanbulExtra} {as : List Address}
    (hextra : header.extra = some extra) (hne : extra.committedSeal ≠ [])
    (hmap : extra.committedSeal.map (recover (prepareCommittedSeal header.hash)) = as.map .ok)
    (hasnd : as.Nodup) (hsub : ∀ a ∈ as, a ∈ V.pool) (hf : 2 * V.f < as.length) :
    Accepts o recover V header := by
  have hcount := countSeals_of_distinct (V := V.copy o) (n := 0) hmap hasnd
    fun a ha => (V.copy_pool_perm o).mem_iff.mpr (hsub a ha)
  by_cases hnum : uint64 header.number = 0
  · simp [Accepts, verifyCommittedSeals, hnum, pure]
  · simp only [Accepts, verifyCommittedSeals, hnum, hextra, hne, hcount, if_false, bind, pure,
      Nat.zero_add]
    rw [if_neg (by omega)]

/-- A header is accepted if its seals recover to distinct members, at least one and over `2 * F`. -/
theorem accepts_iff (hnd : V.pool.Nodup) (hnum : uint64 header.number ≠ 0) :
    Accepts o recover V header ↔ ∃ extra, header.extra = some extra ∧ extra.committedSeal ≠ [] ∧
      extra.committedSeal.map (recover (prepareCommittedSeal header.hash)) =
        (sealers recover header).map .ok ∧
      (sealers recover header).Nodup ∧ (∀ a ∈ sealers recover header, a ∈ V.pool) ∧
      2 * V.f < (sealers recover header).length := by
  refine ⟨fun h => ?_, fun ⟨extra, hextra, hne, hmap, hasnd, hsub, hf⟩ =>
    accepts_of_distinct hextra hne hmap hasnd hsub hf⟩
  have hcopy := V.copy_pool_perm o
  simp only [Accepts, verifyCommittedSeals, hnum, if_false, bind, pure] at h
  cases hextra : header.extra with
  | none => simp [hextra] at h
  | some extra =>
    simp only [hextra] at h
    split at h
    · cases h
    · next hne =>
      split at h
      · cases h
      · next k hcount =>
        obtain ⟨as, hmap, hasnd, hsub, rfl⟩ := countSeals_eq_ok (hcopy.nodup_iff.mpr hnd) hcount
        have hsealers : sealers recover header = as := by
          simpa [sealers, hextra] using filterMap_toOption_of_map hmap
        rw [hsealers]
        refine ⟨extra, rfl, hne, hmap, hasnd, fun a ha => hcopy.mem_iff.mp (hsub a ha), ?_⟩
        split at h
        · cases h
        · omega

/-- Accepted headers carry quorums, and two of one parent share more sealers than can be faulty. -/
def SealQuorum (o : AddressOrder) (V : ValidatorSet) : Prop :=
  ∀ (recover : Recover) (h h' : Header), h.number = h'.number → h.parentHash = h'.parentHash →
    uint64 h.number ≠ 0 → Accepts o recover V h → Accepts o recover V h' →
    V.f < ((sealers recover h).toFinset ∩ (sealers recover h').toFinset).card ∧
      requiredMessageCount V ≤ (sealers recover h).toFinset.card

/-- No committee, or the whole council with one member more than a multiple of three. -/
def SealQuorumCondition (V : ValidatorSet) : Prop :=
  V.groupSize = 0 ∨ V.demotedList = [] ∧ V.size ≤ V.subGroupSize ∧ V.size % 3 = 1

theorem length_pool (V : ValidatorSet) : V.pool.length = V.size + V.demotedList.length := by
  simp [ValidatorSet.pool, addresses, ValidatorSet.size]

theorem sealQuorum_of_condition (hnd : V.pool.Nodup) (hcond : SealQuorumCondition V) :
    SealQuorum o V := by
  intro recover h h' hnum _ hne hacc hacc'
  obtain ⟨_, _, _, _, hA, hsubA, hlenA⟩ := (accepts_iff hnd hne).mp hacc
  obtain ⟨_, _, _, _, hB, hsubB, hlenB⟩ := (accepts_iff hnd (hnum ▸ hne)).mp hacc'
  rw [requiredMessageCount_eq, toFinset_card_of_nodup hA]
  rw [V.f_eq] at hlenA hlenB ⊢
  rcases hcond with hzero | ⟨hdem, hle, hmod⟩
  · rw [hzero]
    constructor
    · unfold faults; omega
    · unfold quorum; simp
  · have hgroup : V.groupSize = V.size := by
      unfold ValidatorSet.groupSize; omega
    have hpool : V.pool.length = V.size := by simp [length_pool, hdem]
    have hover := card_add_card_le (C := V.pool.toFinset)
      (fun a ha => mem_toFinset.mpr (hsubA a (mem_toFinset.mp ha)))
      (fun a ha => mem_toFinset.mpr (hsubB a (mem_toFinset.mp ha)))
    rw [toFinset_card_of_nodup hA, toFinset_card_of_nodup hB,
      toFinset_card_of_nodup hnd, hpool] at hover
    unfold faults at *
    unfold quorum
    constructor
    · omega
    · split <;> omega

/-- A recovery under which a signature of length `i` comes from the `i`-th member. -/
def positionRecover (pool : List Address) : Recover := fun _ sig =>
  match pool[sig.length]? with
  | some a => .ok a
  | none => .error .recoverFailed

/-- A header of block 1 sealed by the members at the given positions. -/
def positionHeader (positions : List ℕ) : Header where
  number := 1
  parentHash := 0
  hash := 0
  sigHash := 0
  extra := some ⟨[], [], positions.map fun i => List.replicate i 0⟩
  mixHash := none
  vote := []

variable {pool : List Address} {is : List ℕ}

theorem map_positionRecover (data : Bytes) (his : ∀ i ∈ is, i < pool.length) :
    (is.map fun i => replicate i (0 : UInt8)).map (positionRecover pool data) =
      (picks pool is).map .ok := by
  induction is with
  | nil => rfl
  | cons i is ih =>
    obtain ⟨hi, his⟩ := forall_mem_cons.mp his
    have hrest := ih his
    simp only [picks] at hrest ⊢
    simp [positionRecover, getElem?_eq_getElem hi, hrest]

theorem sealers_positionHeader (his : ∀ i ∈ is, i < pool.length) :
    sealers (positionRecover pool) (positionHeader is) = picks pool is :=
  filterMap_toOption_of_map (map_positionRecover _ his)

theorem accepts_positionHeader (hnd : V.pool.Nodup) (hisnd : is.Nodup)
    (his : ∀ i ∈ is, i < V.pool.length) (hne : is ≠ []) (hlen : 2 * V.f < is.length) :
    Accepts o (positionRecover V.pool) V (positionHeader is) := by
  rw [accepts_iff hnd (by simp [positionHeader, uint64]), sealers_positionHeader his]
  refine ⟨_, rfl, by simpa using hne, map_positionRecover _ his, ?_, ?_, ?_⟩
  · simpa using nodup_map_picks (f := id) (by simpa using hnd) hisnd
  · exact fun a ha => mem_of_mem_picks ha
  · rwa [length_picks his]

/-- Few members lie both among the first `k` and among the last `k` of a list. -/
theorem card_first_inter_last_le (hnd : pool.Nodup) (k : ℕ) :
    ((picks pool (range k)).toFinset ∩
      (picks pool (range' (pool.length - k) k)).toFinset).card ≤ 2 * k - pool.length := by
  have hsub : (picks pool (range k)).toFinset ∩
      (picks pool (range' (pool.length - k) k)).toFinset ⊆
      (picks pool (range' (pool.length - k) (2 * k - pool.length))).toFinset := by
    intro a ha
    obtain ⟨hfirst, hlast⟩ := Finset.mem_inter.mp ha
    obtain ⟨i, hi, hia⟩ := mem_filterMap.mp (mem_toFinset.mp hfirst)
    obtain ⟨j, hj, hja⟩ := mem_filterMap.mp (mem_toFinset.mp hlast)
    have hlt := (List.getElem?_eq_some_iff.mp hia).1
    obtain rfl : i = j := (getElem?_inj hlt hnd).mp (hia.trans hja.symm)
    rw [mem_range] at hi
    rw [mem_range'_1] at hj
    exact mem_toFinset.mpr (mem_picks (mem_range'_1.mpr (by omega)) hia)
  calc _ ≤ _ := Finset.card_le_card hsub
    _ ≤ (picks pool (range' (pool.length - k) (2 * k - pool.length))).length :=
      toFinset_card_le _
    _ ≤ (range' (pool.length - k) (2 * k - pool.length)).length :=
      length_filterMap_le _ _
    _ = 2 * k - pool.length := length_range'

/-- Accepted headers carry quorums exactly under the condition. -/
theorem sealQuorum_iff_condition (o : AddressOrder) (V : ValidatorSet) (hnd : V.pool.Nodup) :
    SealQuorum o V ↔ SealQuorumCondition V := by
  refine ⟨fun hq => ?_, sealQuorum_of_condition hnd⟩
  by_contra hcond
  simp only [SealQuorumCondition, not_or] at hcond
  obtain ⟨hpos, hrest⟩ := hcond
  have hgroup : V.groupSize ≤ V.size := min_le_right _ _
  have hlen := length_pool V
  set f := (V.groupSize + 2) / 3 - 1 with hf
  have hVf : V.f = f := by rw [V.f_eq]; unfold faults; omega
  -- the smallest accepted number of seals, taken from both ends of the pool
  have hroom : 3 * f + 2 ≤ V.pool.length := by
    by_cases hdem : V.demotedList = []
    · by_cases hle : V.size ≤ V.subGroupSize
      · have hmod : V.size % 3 ≠ 1 := fun h => hrest ⟨hdem, hle, h⟩
        omega
      · have : V.groupSize = V.subGroupSize := min_eq_left (by omega)
        omega
    · have := length_pos_iff.mpr hdem
      omega
  have hfirst : Accepts o (positionRecover V.pool) V (positionHeader (range (2 * f + 1))) :=
    accepts_positionHeader hnd nodup_range
      (fun i hi => by rw [mem_range] at hi; omega) (by simp) (by simp [hVf])
  have hlast : Accepts o (positionRecover V.pool) V
      (positionHeader (range' (V.pool.length - (2 * f + 1)) (2 * f + 1))) :=
    accepts_positionHeader hnd nodup_range'
      (fun i hi => by rw [mem_range'_1] at hi; omega) (by simp) (by simp [hVf])
  have hover := (hq _ (positionHeader (range (2 * f + 1)))
    (positionHeader (range' (V.pool.length - (2 * f + 1)) (2 * f + 1))) rfl rfl
    (by simp [positionHeader, uint64]) hfirst hlast).1
  rw [sealers_positionHeader (fun i hi => by rw [mem_range] at hi; omega),
    sealers_positionHeader (fun i hi => by rw [mem_range'_1] at hi; omega), hVf] at hover
  have := card_first_inter_last_le hnd (2 * f + 1)
  omega

/-- Four validators are one more than a multiple of three. -/
theorem sealQuorum_four :
    (fullCommittee [1, 2, 3, 4]).pool.Nodup ∧
      SealQuorum ChainEnv.counting.order (fullCommittee [1, 2, 3, 4]) :=
  ⟨by decide, (sealQuorum_iff_condition _ _ (by decide)).mpr
    (.inr ⟨by decide, by decide, by decide⟩)⟩

/-- Of five validators, three seals are accepted, and two such headers share a single sealer. -/
theorem five_validators_accept_three :
    let V := fullCommittee [1, 2, 3, 4, 5]
    let recover := positionRecover V.pool
    V.f = 1 ∧ requiredMessageCount V = 4 ∧
      Accepts ChainEnv.counting.order recover V (positionHeader [0, 1, 2]) ∧
      Accepts ChainEnv.counting.order recover V (positionHeader [2, 3, 4]) ∧
      ((sealers recover (positionHeader [0, 1, 2])).toFinset ∩
        (sealers recover (positionHeader [2, 3, 4])).toFinset).card = 1 ∧
      ¬ SealQuorum ChainEnv.counting.order V := by
  intro V recover
  have hnd : V.pool.Nodup := by decide
  have hfirst : Accepts ChainEnv.counting.order recover V (positionHeader [0, 1, 2]) :=
    accepts_positionHeader hnd (by decide) (by decide) (by decide) (by decide)
  have hlast : Accepts ChainEnv.counting.order recover V (positionHeader [2, 3, 4]) :=
    accepts_positionHeader hnd (by decide) (by decide) (by decide) (by decide)
  refine ⟨by decide, by decide, hfirst, hlast, by decide, fun hq => ?_⟩
  have := (hq recover _ _ rfl rfl (by decide) hfirst hlast).2
  exact absurd this (by decide)

end Kaia
