import Kaia.Core.Votes
import Kaia.Backend.CommittedSeals

/-! # Seals of committed blocks

A core commits a proposal with the seals of the COMMIT messages it has counted. It never looks into
the seals; when they are good, there are enough of them, from distinct validators.
-/

namespace Kaia

open Foundation List

/-- The seals recover to distinct validators and the header passes, in whatever order. -/
def CommitVerifies (o : AddressOrder) (recover : Recover) (V : ValidatorSet) (p : Proposal)
    (committedSeals : List Bytes) : Prop :=
  ∀ seals, seals.Perm committedSeals → ∃ header, ∃ as : List Address,
    writeCommittedSeals p.header seals = .ok header ∧
    seals.map (recover (prepareCommittedSeal p.hash)) = as.map .ok ∧ as.Nodup ∧
    (∀ a ∈ as, a ∈ addresses V.list) ∧ Accepts o recover V header

/-- The parent's council is the one by which the core counts, and the extra data of the
header decodes. -/
structure FitsParent (parents : Header → ValidatorSet) (V : ValidatorSet) (h : Header) : Prop where
  extra : h.extra.isSome
  list : (parents h).list = V.list
  subGroupSize : (parents h).subGroupSize = V.subGroupSize

/-- COMMIT messages carry seals of their senders, and proposals extend parents with the council. -/
structure SealsRecover (recover : Recover) (parents : Header → ValidatorSet) (c : Core)
    (ev : Event) : Prop where
  commits : ∀ m ∈ ev.handled c, m.code = .commit → ∀ sub ∈ c.current.subject,
    m.decodeSubject = some sub →
      recover (prepareCommittedSeal sub.digest) (copySeal m.committedSeal) = .ok m.address
  proposals : ∀ m ∈ ev.handled c, m.code = .preprepare → ∀ pp ∈ m.decodePreprepare,
    pp.view = c.currentView → FitsParent parents c.valSet pp.proposal.header

instance (parents : Header → ValidatorSet) (V : ValidatorSet) (h : Header) :
    Decidable (FitsParent parents V h) :=
  decidable_of_iff (h.extra.isSome ∧ (parents h).list = V.list ∧
      (parents h).subGroupSize = V.subGroupSize)
    ⟨fun ⟨h₁, h₂, h₃⟩ => ⟨h₁, h₂, h₃⟩, fun h => ⟨h.extra, h.list, h.subGroupSize⟩⟩

instance (recover : Recover) (parents : Header → ValidatorSet) (c : Core) (ev : Event) :
    Decidable (SealsRecover recover parents c ev) :=
  decidable_of_iff ((∀ m ∈ ev.handled c, m.code = .commit → ∀ sub ∈ c.current.subject,
      m.decodeSubject = some sub →
        recover (prepareCommittedSeal sub.digest) (copySeal m.committedSeal) = .ok m.address) ∧
      ∀ m ∈ ev.handled c, m.code = .preprepare → ∀ pp ∈ m.decodePreprepare,
        pp.view = c.currentView → FitsParent parents c.valSet pp.proposal.header)
    ⟨fun ⟨h₁, h₂⟩ => ⟨h₁, h₂⟩, fun h => ⟨h.commits, h.proposals⟩⟩

theorem length_copySeal (sig : Bytes) : (copySeal sig).length = 65 := by
  simp [copySeal]
  omega

theorem exists_map_ok_of_perm {α β ε : Type*} {f : α → Except ε β} {l l' : List α} {as : List β}
    (hperm : l'.Perm l) (h : l.map f = as.map .ok) :
    ∃ as' : List β, as'.Perm as ∧ l'.map f = as'.map .ok := by
  refine ⟨l'.filterMap fun x => (f x).toOption, ?_, ?_⟩
  · have := hperm.filterMap fun x => (f x).toOption
    rwa [filterMap_toOption_of_map h] at this
  · have hall : ∀ x ∈ l', ∃ b, f x = .ok b := fun x hx => by
      obtain ⟨b, -, hb⟩ := mem_map.mp (h ▸ mem_map_of_mem (hperm.mem_iff.mp hx))
      exact ⟨b, hb.symm⟩
    clear hperm h
    induction l' with
    | nil => rfl
    | cons x xs ih =>
      obtain ⟨⟨b, hb⟩, hxs⟩ := forall_mem_cons.mp hall
      simp [hb, Except.toOption, ih hxs]

variable {V : ValidatorSet} {p : Proposal}

theorem two_mul_f_lt_of_quorum {n : ℕ} (h : requiredMessageCount V ≤ n) : 2 * V.f < n := by
  rw [requiredMessageCount_eq] at h
  rw [V.f_eq]
  rcases Nat.eq_zero_or_pos V.groupSize with hzero | hpos
  · rw [hzero]
    unfold faults
    omega
  · have := two_mul_faults_lt_quorum hpos
    omega

theorem commitVerifies_of_quorum {o : AddressOrder} {recover : Recover}
    {parents : Header → ValidatorSet} {committedSeals : List Bytes}
    (hfits : FitsParent parents V p.header) (as : List Address) (hne : committedSeals ≠ [])
    (hlen : ∀ sig ∈ committedSeals, sig.length = 65)
    (hmap : committedSeals.map (recover (prepareCommittedSeal p.hash)) = as.map .ok)
    (hnd : as.Nodup) (hsub : ∀ a ∈ as, a ∈ addresses V.list)
    (hq : requiredMessageCount V ≤ as.length) :
    CommitVerifies o recover (parents p.header) p committedSeals := by
  intro seals hperm
  obtain ⟨as', has', hmap'⟩ := exists_map_ok_of_perm hperm hmap
  obtain ⟨extra, hextra⟩ := Option.isSome_iff_exists.mp hfits.extra
  have hne' : seals ≠ [] := fun h => hne (List.Perm.nil_eq (h ▸ hperm)).symm
  have hlen' : ¬ seals.any (fun sig => sig.length ≠ 65) = true := by
    simpa using fun sig hsig => hlen sig (hperm.mem_iff.mp hsig)
  have hsub' : ∀ a ∈ as', a ∈ addresses (parents p.header).list := fun a ha => by
    rw [hfits.list]
    exact hsub a (has'.mem_iff.mp ha)
  have hf : 2 * (parents p.header).f < as'.length := by
    refine two_mul_f_lt_of_quorum ?_
    rw [has'.length_eq, requiredMessageCount_eq, ValidatorSet.groupSize, ValidatorSet.size,
      hfits.list, hfits.subGroupSize]
    rwa [requiredMessageCount_eq] at hq
  refine ⟨{ p.header with extra := some { extra with committedSeal := seals } }, as', ?_, hmap',
    has'.nodup_iff.mpr hnd, hsub', ?_⟩
  · rw [writeCommittedSeals, if_neg hne', if_neg hlen', hextra]
  · exact accepts_of_distinct rfl hne' hmap' (has'.nodup_iff.mpr hnd)
      (fun a ha => map_subset _ (subset_append_left _ _) (hsub' a ha)) hf

/-- The seal of a counted COMMIT is its sender's, who is a validator. -/
def SealedVote (recover : Recover) (V : ValidatorSet) (_ : View) (p : Proposal) (m : Message) :
    Prop :=
  m.address ∈ addresses V.list ∧ (m.code = .commit →
    recover (prepareCommittedSeal p.hash) (copySeal m.committedSeal) = .ok m.address)

def Effect.Verifies (o : AddressOrder) (recover : Recover) (parents : Header → ValidatorSet) :
    Effect → Prop
  | .commit _ p seals => CommitVerifies o recover (parents p.header) p seals
  | _ => True

/-- The votes are sealed, the proposal fits its parent, and what was committed verifies. -/
structure Core.Sealed (o : AddressOrder) (recover : Recover) (parents : Header → ValidatorSet)
    (c : Core) : Prop where
  votes : c.VotesSatisfy (SealedVote recover)
  fits : ∀ p, c.current.proposal = some p → FitsParent parents c.valSet p.header
  log : ∀ e ∈ c.log, e.Verifies o recover parents

variable {bk : Backend} {env : ChainEnv} {ctx : Option Message} {c c' : Core} {o : AddressOrder}
  {recover : Recover} {parents : Header → ValidatorSet}

theorem FitsParent.setProposer {h : Header} (hf : FitsParent parents V h) (q : Option Address) :
    FitsParent parents (V.setProposer q) h :=
  ⟨hf.extra, by rw [hf.list, V.setProposer_list],
    by rw [hf.subGroupSize, V.setProposer_subGroupSize]⟩

theorem Core.Sealed.commitVerifies (hc : c.Sealed o recover parents)
    (hp : c.current.proposal = some p) (hne : c.current.commits.messages ≠ [])
    (hq : requiredMessageCount c.valSet ≤ c.current.commits.size) :
    CommitVerifies o recover (parents p.header) p c.current.committedSeals := by
  have hvote : ∀ m ∈ c.current.commits.messages, m.address ∈ addresses c.valSet.list ∧
      recover (prepareCommittedSeal p.hash) (copySeal m.committedSeal) = .ok m.address := by
    intro m hm
    obtain ⟨p', hp', hsrc, hsealed⟩ := hc.votes.holds .commit m hm
    obtain rfl := Option.some.inj (hp.symm.trans hp')
    exact ⟨hsrc, hsealed (hc.votes.code .commit m hm)⟩
  refine commitVerifies_of_quorum (hc.fits p hp) (c.current.commits.messages.map (·.address))
    (by simpa [RoundState.committedSeals] using hne) ?_ ?_ c.current.commits.nodup ?_
    (by rw [length_map]; exact hq)
  · intro sig hsig
    obtain ⟨m, -, rfl⟩ := mem_map.mp hsig
    exact length_copySeal _
  · rw [RoundState.committedSeals, map_map, map_map]
    exact map_congr_left fun m hm => (hvote m hm).2
  · intro a ha
    obtain ⟨m, hm, rfl⟩ := mem_map.mp ha
    exact (hvote m hm).1

theorem Move.sealed (h : Move bk env ctx c c') (hc : c.Sealed o recover parents) :
    c'.Sealed o recover parents := by
  refine ⟨h.votesSatisfy (fun _ _ _ _ _ hQ => hQ) hc.votes, fun p' hp' => ?_, fun e he => ?_⟩
  · obtain ⟨p, hp, hheader, q, hV⟩ := h.proposal hp'
    rw [hheader, hV]
    exact (hc.fits p hp).setProposer q
  · rcases h.mem_log he with hold | _ | ⟨p, hp, hne, hq⟩
    · exact hc.log e hold
    · trivial
    · exact hc.commitVerifies hp hne hq

theorem step_sealed {ev : Event} (h : c.step bk env ev = some c')
    (hok : SealsRecover recover parents c ev) (hc : c.Sealed o recover parents) :
    c'.Sealed o recover parents := by
  refine Core.step_induct (P := Core.Sealed o recover parents) h (fun posted d _ hr => ?_)
    fun _ _ hm => hm.sealed
  refine ⟨hr.votesSatisfy (fun _ _ _ _ _ hQ => hQ) ⟨hc.votes.quiet, hc.votes.code, hc.votes.holds⟩
    fun msg p hmsg hcount => ⟨getByAddress_isSome.mp hcount.validator, fun hcode => ?_⟩,
    fun p' hp' => ?_, fun e he => ?_⟩
  · exact hok.commits msg hmsg hcode ⟨c.currentView, p.hash, p.parentHash⟩
      hcount.current_subject hcount.subject
  · rw [hr.frame.valSet]
    rcases hr.proposal hp' with hkept | ⟨msg, pp, hmsg, hcode, hpp, hview, rfl⟩
    · exact hc.fits p' hkept
    · exact hok.proposals msg hmsg hcode pp hpp hview
  · rcases hr.mem_log he with hold | hnew
    · exact hc.log e hold
    · cases hnew <;> trivial

/-- In every run in which counted seals recover to their senders, committed blocks verify. -/
theorem committed_blocks_verify (bk : Backend) (env : ChainEnv) (address : Address) (node : Bool)
    (recover : Recover) (parents : Header → ValidatorSet) {es : List Event} {c : Core}
    (h : Runs (Core.step bk env) (SealsRecover recover parents) (.start bk env address node) es c) :
    ∀ v p seals, .commit v p seals ∈ c.log →
      CommitVerifies env.order recover (parents p.header) p seals := by
  obtain ⟨-, -, hlog⟩ := start_empty bk env address node
  have hc : c.Sealed env.order recover parents :=
    h.invariant ⟨start_votesSatisfy _ _ _ _, by simp [start_current, RoundState.proposal,
      RoundState.newSequence], by simp [hlog]⟩ fun _ _ _ hok hstep => step_sealed hstep hok
  exact fun v p seals hmem => hc.log _ hmem

def firstByteRecover : Recover := fun _ sig =>
  match sig with
  | [] => .error .invalidSignatureLen
  | b :: _ => if b = 0 then .error .recoverFailed else .ok (.ofNat 160 b.toNat)

/-- Block 1 with extra data. -/
def blockWithExtra : Proposal :=
  ⟨{ (Proposal.block 1 0 1).header with extra := some ⟨[], [], []⟩ }, 0⟩

def proposedAndCommitted (sealOfFour : Bytes) : List Event :=
  .message (.signed 1 0 .preprepare (.preprepare ⟨⟨0, 1⟩, blockWithExtra⟩) []) ::
  [(1, [1]), (2, [2]), (4, sealOfFour)].map fun (a, sig) =>
    .message (.signed a 0 .commit (.subject ⟨⟨0, 1⟩, 1, 0⟩) sig)

def Core.committedBlocks (c : Core) : List (View × Proposal × List Bytes) :=
  c.log.filterMap fun
    | .commit v p seals => some (v, p, seals)
    | _ => none

theorem Core.mem_committedBlocks {v : View} {seals : List Bytes}
    (h : (v, p, seals) ∈ c.committedBlocks) : .commit v p seals ∈ c.log := by
  obtain ⟨e, he, heq⟩ := mem_filterMap.mp h
  cases e with
  | commit => cases heq; exact he
  | broadcast | startNewRound | sendRoundChange => cases heq

/-- With three good seals the committed block verifies. -/
theorem three_seals_verify :
    let V := fullCommittee [1, 2, 3, 4]
    let bk : Backend := fun _ => .genesis V
    ∃ c seals, Runs (Core.step bk .counting) (SealsRecover firstByteRecover fun _ => V)
        (.start bk .counting 3 true) (proposedAndCommitted [4]) c ∧
      .commit ⟨0, 1⟩ blockWithExtra seals ∈ c.log ∧
      CommitVerifies ChainEnv.counting.order firstByteRecover V blockWithExtra seals := by
  intro V bk
  obtain ⟨c, hrun, hlog⟩ := Runs.exists_of_exec
    (guarded (Core.step bk .counting) (SealsRecover firstByteRecover fun _ => V))
    (.start bk .counting 3 true) (proposedAndCommitted [4])
    Core.committedBlocks
    [(⟨0, 1⟩, blockWithExtra, [copySeal [4], copySeal [2], copySeal [1]])]
    (by decide +kernel)
  have hmem := Core.mem_committedBlocks (hlog ▸ mem_singleton.mpr rfl)
  exact ⟨c, _, hrun.of_guarded, hmem, committed_blocks_verify bk .counting 3 true firstByteRecover
    (fun _ => V) hrun.of_guarded _ _ _ hmem⟩

/-- One COMMIT without a seal is counted, and the committed block is rejected. -/
theorem missing_seal_is_committed :
    let V := fullCommittee [1, 2, 3, 4]
    let bk : Backend := fun _ => .genesis V
    ∃ c seals header, CoreRuns bk .counting (.start bk .counting 3 true)
        (proposedAndCommitted []) c ∧
      .commit ⟨0, 1⟩ blockWithExtra seals ∈ c.log ∧
      writeCommittedSeals blockWithExtra.header seals = .ok header ∧
      verifyCommittedSeals (m := Id) ChainEnv.counting.order firstByteRecover
        (fun _ _ => .ok V) header = .error .invalidSignature ∧
      ¬ CommitVerifies ChainEnv.counting.order firstByteRecover V blockWithExtra seals := by
  intro V bk
  obtain ⟨c, hrun, hlog⟩ := Runs.exists_of_exec (Core.step bk .counting)
    (.start bk .counting 3 true) (proposedAndCommitted [])
    Core.committedBlocks
    [(⟨0, 1⟩, blockWithExtra, [copySeal [], copySeal [2], copySeal [1]])]
    (by decide +kernel)
  have hmem := Core.mem_committedBlocks (hlog ▸ mem_singleton.mpr rfl)
  refine ⟨c, _, _, hrun, hmem, rfl, rfl, fun hall => ?_⟩
  obtain ⟨_, as, -, hmap, -⟩ := hall _ (List.Perm.refl _)
  cases as with
  | nil => cases hmap
  | cons a as =>
    have herr : firstByteRecover (prepareCommittedSeal blockWithExtra.hash) (copySeal []) = .ok a :=
      (cons.inj hmap).1
    cases herr

end Kaia
