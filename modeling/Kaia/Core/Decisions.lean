import Mathlib
import Kaia.Core.Locks
import Kaia.Core.Votes
import Kaia.Validator.CommitteeSize

/-! # Decisions of one honest core

Through one sequence an honest core sends COMMIT for the digest it is locked on, and commits after
a quorum of COMMIT messages. What is known of the other nodes enters as two predicates: which
messages are authentic and which digests are certified.
-/

namespace Kaia

open Foundation List ValidatorSet

/-- The committees of a sequence are within one group, not larger than that of the quorums. -/
structure FixedCommittee (env : ChainEnv) (V : ValidatorSet) (σ : ℕ) (C : Finset Address) :
    Prop where
  card : C.card ≤ V.groupSize
  subset : ∀ q lastProposer r prevHash round committee,
    ((V.setProposer q).withProposer env lastProposer r).subList env prevHash ⟨round, σ⟩ =
      .ok committee → ∀ a ∈ addresses committee, a ∈ C

/-- The committee after the randao fork, which the mix hash determines. -/
def WeightedCouncil.randaoCommittee (env : ChainEnv) (c : WeightedCouncil) : List Address :=
  match c.mixHash with
  | none => []
  | some mixHash =>
    match selectRandaoCommittee env.rng c.validators c.subSize mixHash with
    | .ok committee => addresses committee
    | .error _ => []

/-- The committee of a sequence is the whole council, or selected by the mix hash. -/
def SequenceCommittee (env : ChainEnv) (V : ValidatorSet) (σ : ℕ) (C : Finset Address) : Prop :=
  V.size ≤ V.subGroupSize ∧ C = (addresses V.list).toFinset ∨
    ∃ c, V = .weighted c ∧ isForked env.forks.randao σ = true ∧
      isForked env.forks.randao (uint64 (c.blockNum + 1)) = true ∧ c.subSize ≠ 1 ∧
      c.subSize < c.validators.length ∧ C = (c.randaoCommittee env).toFinset

variable {env : ChainEnv} {V : ValidatorSet} {σ : ℕ} {C : Finset Address} {c : WeightedCouncil}

theorem subList_of_size_le {prevHash : Hash} {view : View} {committee : List Validator}
    (hle : V.size ≤ V.subGroupSize) (h : V.subList env prevHash view = .ok committee) :
    committee = V.list := by
  unfold subList at h
  cases hp : V.getProposer with
  | none =>
    rw [hp] at h
    cases V with
    | default s => exact (Except.ok.inj h).symm
    | weighted c => cases h
  | some p =>
    rw [hp] at h
    cases V with
    | default s =>
      have hle : s.validators.length ≤ s.subSize := hle
      simp only [subListWithProposer, DefaultSet.subListWithProposer, hle, if_true] at h
      exact (Except.ok.inj h).symm
    | weighted c =>
      have hle : c.validators.length ≤ c.subSize := hle
      simp only [subListWithProposer, WeightedCouncil.subListWithProposer, hle,
        if_true] at h
      exact (Except.ok.inj h).symm

theorem fixedCommittee_of_size_le (hle : V.size ≤ V.subGroupSize) :
    FixedCommittee env V σ (addresses V.list).toFinset where
  card := by
    refine (toFinset_card_le _).trans ?_
    rw [addresses, length_map, groupSize, min_eq_right hle]
    exact le_rfl
  subset := by
    intro q lastProposer r prevHash round committee h a ha
    obtain ⟨q', hq'⟩ := (V.setProposer q).withProposer_eq_setProposer env lastProposer r
    rw [hq', V.setProposer_setProposer] at h
    have hlist := subList_of_size_le (by simpa [size] using hle) h
    rw [hlist, V.setProposer_list] at ha
    exact mem_toFinset.mpr ha

theorem selectRandaoCommittee_subset {vs l : List Validator} {k : ℕ} {mixHash : Bytes}
    (h1 : k ≠ 1) (h : selectRandaoCommittee env.rng vs k mixHash = .ok l) :
    l.length ≤ min k vs.length ∧ ∀ a ∈ addresses l, a ∈ addresses vs := by
  unfold selectRandaoCommittee at h
  split_ifs at h with hlt hzero hlen
  · obtain rfl := Except.ok.inj h
    simp [addresses]
  · omega
  · obtain rfl := Except.ok.inj h
    refine ⟨by simp, fun a ha => ?_⟩
    obtain ⟨v, hv, rfl⟩ := mem_map.mp ha
    exact mem_map_of_mem ((shuffleValidators_perm _ _).mem_iff.mp
      (mem_of_mem_take hv))

theorem pickBySeed_mem {vs : List Validator} {seed : ℕ} {p : Address}
    (h : pickBySeed vs seed = .ok p) : p ∈ addresses vs := by
  unfold pickBySeed at h
  split at h
  · rename_i v hv
    obtain rfl := Except.ok.inj h
    exact mem_map_of_mem (mem_of_getElem? hv)
  · cases h

theorem calcProposer_randao {c' : WeightedCouncil} {lastProposer : Address} {r : ℕ}
    (hfork : isForked env.forks.randao (uint64 (c.blockNum + 1)) = true) (h1 : c.subSize ≠ 1)
    (hne : c.validators ≠ []) (h : c.calcProposer env lastProposer r = .ok c') :
    ∃ p ∈ addresses c.validators, c' = { c with proposer := some p } := by
  cases hmix : c.mixHash with
  | none =>
    obtain ⟨p, hp⟩ : ∃ p, c.chooseProposerByRoundRobin lastProposer r = .ok p :=
      (pickBySeed_ok hne _).elim fun v hv => ⟨v.address, hv.2⟩
    simp only [WeightedCouncil.calcProposer, weightedRandomProposer, hfork, hmix, hne, hp, if_true,
      if_false, bind, Except.bind] at h
    exact ⟨p, pickBySeed_mem hp, (Except.ok.inj h).symm⟩
  | some mixHash =>
    simp only [WeightedCouncil.calcProposer, weightedRandomProposer, hfork, hmix, if_true, bind,
      Except.bind] at h
    cases hl : selectRandaoCommittee env.rng c.validators c.subSize mixHash with
    | error e => simp [hl] at h
    | ok l =>
      cases hp : pickBySeed l r with
      | error e => simp [hl, hp] at h
      | ok p =>
        simp only [hl, hp] at h
        exact ⟨p, (selectRandaoCommittee_subset h1 hl).2 p (pickBySeed_mem hp),
          (Except.ok.inj h).symm⟩

theorem fixedCommittee_of_randao (hσ : isForked env.forks.randao σ = true)
    (hfork : isForked env.forks.randao (uint64 (c.blockNum + 1)) = true) (h1 : c.subSize ≠ 1)
    (hlt : c.subSize < c.validators.length) :
    FixedCommittee env (.weighted c) σ (c.randaoCommittee env).toFinset where
  card := by
    refine (toFinset_card_le _).trans ?_
    unfold WeightedCouncil.randaoCommittee
    split
    · exact Nat.zero_le _
    · split
      · rename_i l hl
        rw [addresses, length_map]
        exact (selectRandaoCommittee_subset h1 hl).1
      · exact Nat.zero_le _
  subset := by
    intro q lastProposer r prevHash round committee h a ha
    have hne : c.validators ≠ [] := ne_nil_of_length_pos (Nat.zero_lt_of_lt hlt)
    cases hcalc : ({ c with proposer := q } : WeightedCouncil).calcProposer env lastProposer r with
    | error e =>
      simp [withProposer, setProposer, calcProposer, hcalc,
        Except.map, subList, getProposer] at h
    | ok c' =>
      obtain ⟨p, hp, rfl⟩ := calcProposer_randao (c := { c with proposer := q }) hfork h1 hne hcalc
      obtain ⟨i, v, hv, -, rfl⟩ := exists_getByAddress hp
      simp only [withProposer, setProposer, calcProposer,
        hcalc, Except.map, subList, getProposer,
        subListWithProposer, WeightedCouncil.subListWithProposer,
        if_neg (Nat.not_le_of_lt hlt), hv, h1, hσ, if_true, if_false] at h
      rw [mem_toFinset, WeightedCouncil.randaoCommittee]
      cases hmix : c.mixHash with
      | none =>
        simp only [hmix] at h
        obtain rfl := Except.ok.inj h
        simp [addresses] at ha
      | some mixHash =>
        simp only [hmix] at h ⊢
        rw [h]
        exact ha

theorem SequenceCommittee.fixed (h : SequenceCommittee env V σ C) : FixedCommittee env V σ C := by
  rcases h with ⟨hle, rfl⟩ | ⟨c, rfl, hσ, hfork, h1, hlt, rfl⟩
  · exact fixedCommittee_of_size_le hle
  · exact fixedCommittee_of_randao hσ hfork h1 hlt

/-- The core has sent a COMMIT for a digest through `sendCommit`. -/
def Core.SentCommit (σ : ℕ) (c : Core) (d : Hash) : Prop :=
  ∃ msg sub, .broadcast .sendCommit msg ∈ c.log ∧ msg.decodeSubject = some sub ∧
    sub.view.sequence = σ ∧ sub.digest = d

/-- All COMMIT messages of a sequence are for one digest, on which the core is locked. -/
def Core.OneDigest (σ : ℕ) (c : Core) : Prop :=
  ∀ d, c.SentCommit σ d → (∀ d', c.SentCommit σ d' → d' = d) ∧ d ≠ 0 ∧
    (σ < c.current.sequence ∨ c.current.sequence = σ ∧ c.current.LockedOn d)

variable {bk : Backend} {ctx : Option Message} {c c' : Core} {d : Hash}

theorem RoundState.LockedOn.unique {s : RoundState} {L L' : Hash} (h : s.LockedOn L)
    (h' : s.LockedOn L') : L = L' :=
  h.1.symm.trans h'.1

theorem Move.sentCommit (h : Move bk env ctx c c') (hd : c'.SentCommit σ d) :
    c.SentCommit σ d ∨ c.current.sequence = σ ∧ c.current.LockedOn d := by
  obtain ⟨msg, sub, hmem, hsub, hseq, hdig⟩ := hd
  rcases h.mem_log hmem with hold | ⟨_, _, _, _, sub', hbody, hcur, hlock⟩
  · exact .inl ⟨msg, sub, hold, hsub, hseq, hdig⟩
  · obtain rfl : sub' = sub := by simpa [Message.decodeSubject, hbody] using hsub
    obtain ⟨p, hp, rfl⟩ := Core.subject_digest hcur
    exact .inr ⟨hseq, hlock.trans hdig, p, hp, hdig⟩

theorem Receive.sentCommit (h : Receive bk env ctx c c') (hd : c'.SentCommit σ d) :
    c.SentCommit σ d := by
  obtain ⟨msg, sub, hmem, hrest⟩ := hd
  rcases h.mem_log hmem with hold | hnew
  · exact ⟨msg, sub, hold, hrest⟩
  · cases hnew

/-- A quorum of committee members with authentic COMMIT messages for the digest. -/
def CommitQuorum (n σ : ℕ) (C : Finset Address) (Auth : Message → Prop) (d : Hash) : Prop :=
  ∃ Q : Finset Address, Q ⊆ C ∧ Q.Nonempty ∧ quorum n ≤ Q.card ∧ ∀ a ∈ Q, ∃ m sub, Auth m ∧
    m.address = a ∧ m.code = .commit ∧ m.decodeSubject = some sub ∧ sub.view.sequence = σ ∧
    sub.digest = d

/-- The state of an honest core as far as one sequence is concerned. -/
structure Core.Honest (env : ChainEnv) (V : ValidatorSet) (C : Finset Address) (σ : ℕ)
    (Auth : Message → Prop) (Cert : Hash → Prop) (c : Core) : Prop where
  council : c.current.sequence = σ → ∃ q lastProposer r,
    c.valSet = (V.setProposer q).withProposer env lastProposer r
  nonzero : ∀ p, c.current.proposal = some p → p.hash ≠ 0
  once : c.OneDigest σ
  stored : ∀ m ∈ c.stored, Auth m
  votes : c.VotesSatisfy fun _ v p m => Auth m ∧
    m.decodeSubject = some ⟨v, p.hash, p.parentHash⟩ ∧ (v.sequence = σ → m.address ∈ C)
  sent : ∀ origin m, .broadcast origin m ∈ c.log → m.code = .commit →
    ∀ sub, m.decodeSubject = some sub → sub.view.sequence = σ →
      origin = .sendCommit ∨ Cert sub.digest
  decided : ∀ v p seals, .commit v p seals ∈ c.log → v.sequence = σ → Cert p.hash

variable {Auth Auth' : Message → Prop} {Cert Cert' : Hash → Prop}

theorem Core.Honest.mono (h : c.Honest env V C σ Auth Cert) (hA : ∀ m, Auth m → Auth' m)
    (hC : ∀ d, Cert d → Cert' d) : c.Honest env V C σ Auth' Cert' where
  council := h.council
  nonzero := h.nonzero
  once := h.once
  stored m hm := hA m (h.stored m hm)
  votes := h.votes.mono fun _ _ _ _ hQ => ⟨hA _ hQ.1, hQ.2⟩
  sent o m hm hcode sub hsub hseq := (h.sent o m hm hcode sub hsub hseq).imp_right (hC _)
  decided v p seals hm hseq := hC _ (h.decided v p seals hm hseq)

theorem Move.council (h : Move bk env ctx c c') :
    c'.valSet = c.valSet ∧ c'.current.sequence = c.current.sequence ∨
    (∃ lastProposer r, c'.valSet = c.valSet.withProposer env lastProposer r ∧
      c'.current.sequence = c.current.sequence) ∨
    ∃ lp lastProposer, c'.valSet = ((bk c.clock).validators lp).withProposer env lastProposer 0 ∧
      c'.current.sequence = lp.number + 1 := by
  cases h with
  | idle h =>
    obtain ⟨-, hvalSet, -⟩ := h.frame
    obtain ⟨request, hcur⟩ := h.current
    exact .inl ⟨hvalSet, by rw [hcur]⟩
  | newSequence lp lastProposer => exact .inr (.inr ⟨lp, lastProposer, rfl, rfl⟩)
  | newRound round lastProposer => exact .inr (.inl ⟨lastProposer, uint64 round, rfl, rfl⟩)
  | lock => exact .inl ⟨rfl, congrArg View.sequence (RoundState.lockHash_view _)⟩
  | commit =>
    refine .inl ⟨rfl, ?_⟩
    split <;> rfl
  | send | catchUp | reseal | setState => exact .inl ⟨rfl, rfl⟩

theorem Core.Honest.requiredMessageCount (h : c.Honest env V C σ Auth Cert)
    (hseq : c.current.sequence = σ) :
    Kaia.requiredMessageCount c.valSet = quorum V.groupSize := by
  obtain ⟨q, lastProposer, r, hV⟩ := h.council hseq
  obtain ⟨q', hq'⟩ := (V.setProposer q).withProposer_eq_setProposer env lastProposer r
  rw [hV, hq', requiredMessageCount_eq]
  simp [groupSize, size]

theorem Core.Honest.commitQuorum {p : Proposal} (h : c.Honest env V C σ Auth Cert)
    (hseq : c.current.sequence = σ) (hp : c.current.proposal = some p)
    (hne : c.current.commits.messages ≠ [])
    (hq : Kaia.requiredMessageCount c.valSet ≤ c.current.commits.size) :
    CommitQuorum V.groupSize σ C Auth p.hash := by
  have hvote : ∀ m ∈ c.current.commits.messages, Auth m ∧
      m.decodeSubject = some ⟨c.currentView, p.hash, p.parentHash⟩ ∧ m.address ∈ C := by
    intro m hm
    obtain ⟨p', hp', hauth, hsub, hin⟩ := h.votes.holds .commit m hm
    obtain rfl := Option.some.inj (hp.symm.trans hp')
    exact ⟨hauth, hsub, hin hseq⟩
  refine ⟨(c.current.commits.messages.map Message.address).toFinset, fun a ha => ?_, ?_, ?_,
    fun a ha => ?_⟩
  · obtain ⟨m, hm, rfl⟩ := mem_map.mp (mem_toFinset.mp ha)
    exact (hvote m hm).2.2
  · obtain ⟨m, hm⟩ := exists_mem_of_ne_nil _ hne
    exact ⟨m.address, mem_toFinset.mpr (mem_map_of_mem hm)⟩
  · rw [toFinset_card_of_nodup c.current.commits.nodup, length_map,
      ← h.requiredMessageCount hseq]
    exact hq
  · obtain ⟨m, hm, rfl⟩ := mem_map.mp (mem_toFinset.mp ha)
    obtain ⟨hauth, hsub, -⟩ := hvote m hm
    exact ⟨m, _, hauth, rfl, h.votes.code .commit m hm, hsub, hseq, rfl⟩

section Council

variable (hcouncil : ∀ t lp, lp.number + 1 = σ → ∃ q, (bk t).validators lp = V.setProposer q)

include hcouncil

theorem Move.keeps_council (h : Move bk env ctx c c') (hc : c.Honest env V C σ Auth Cert) :
    c'.current.sequence = σ → ∃ q lastProposer r,
      c'.valSet = (V.setProposer q).withProposer env lastProposer r := by
  intro hseq
  rcases h.council with ⟨hV, hsame⟩ | ⟨lastProposer, r, hV, hsame⟩ | ⟨lp, lastProposer, hV, hnew⟩
  · rw [hV]
    exact hc.council (hsame.symm.trans hseq)
  · obtain ⟨q, lastProposer', r', hold⟩ := hc.council (hsame.symm.trans hseq)
    obtain ⟨q', hq'⟩ := (V.setProposer q).withProposer_eq_setProposer env lastProposer' r'
    rw [V.setProposer_setProposer] at hq'
    exact ⟨q', lastProposer, r, by rw [hV, hold, hq']⟩
  · obtain ⟨q, hq⟩ := hcouncil c.clock lp (hnew.symm.trans hseq)
    exact ⟨q, lastProposer, 0, by rw [hV, hq]⟩

theorem start_honest (address : Address) (node : Bool) :
    (Core.start bk env address node).Honest env V C σ Auth Cert := by
  obtain ⟨-, hstored, hlog⟩ := start_empty bk env address node
  have hcur := start_current bk env address node
  refine ⟨fun hseq => ?_, fun p hp => ?_, ?_, by simp [hstored], start_votesSatisfy _ _ _ _, ?_, ?_⟩
  · rw [hcur] at hseq
    obtain ⟨q, hq⟩ := hcouncil 1 (bk 0).lastProposal.1 hseq
    refine ⟨q, (bk 0).lastProposal.2, 0, ?_⟩
    rw [← hq]
    exact Core.setState_valSet _
  · rw [hcur] at hp
    cases hp
  · rintro d ⟨msg, sub, hmem, -⟩
    simp [hlog] at hmem
  · simp [hlog]
  · simp [hlog]

end Council

section Step

variable (hbad : ∀ t L, (bk t).hasBadProposal L = false)
  (hcommit : ∀ t p seals, (bk t).commit p seals = true)
  (hcouncil : ∀ t lp, lp.number + 1 = σ → ∃ q, (bk t).validators lp = V.setProposer q)
  (hquorum : ∀ d, CommitQuorum V.groupSize σ C Auth d → Cert d)

include hbad

theorem Receive.oneDigest (h : Receive bk env ctx c c') (hc : c.OneDigest σ) :
    c'.OneDigest σ := by
  intro d hd
  obtain ⟨hsame, hne, hlock⟩ := hc d (h.sentCommit hd)
  have hseq : c'.current.sequence = c.current.sequence :=
    congrArg View.sequence h.frame.view
  refine ⟨fun d' hd' => hsame d' (h.sentCommit hd'), hne, ?_⟩
  rw [hseq]
  exact hlock.imp_right (And.imp_right (h.lockedOn hne fun _ => hbad _ _))

theorem Receive.honest (hfixed : FixedCommittee env V σ C) (hctx : ∀ m, ctx = some m → Auth m)
    (hnonzero : ∀ m pp, ctx = some m → m.decodePreprepare = some pp → pp.proposal.hash ≠ 0)
    (hold : ∀ m pp sub, ctx = some m → m.code = .preprepare → m.decodePreprepare = some pp →
      c.checkMessage .preprepare pp.view = some .oldMessage →
      c.oldBlockCommit bk env pp m.address = some sub → sub.view.sequence = σ → Cert sub.digest)
    (h : Receive bk env ctx c c') (hc : c.Honest env V C σ Auth Cert) :
    c'.Honest env V C σ Auth Cert where
  council := by
    intro hseq
    rw [h.frame.valSet]
    exact hc.council ((congrArg View.sequence h.frame.view).symm.trans hseq)
  nonzero p hp := by
    rcases h.proposal hp with hkept | ⟨msg, pp, hmsg, -, hpp, -, rfl⟩
    · exact hc.nonzero p hkept
    · exact hnonzero msg pp hmsg hpp
  once := h.oneDigest hbad hc.once
  stored m hm := hc.stored m (h.frame.stored ▸ hm)
  votes := by
    refine h.votesSatisfy (fun _ _ _ _ _ hQ => hQ) hc.votes fun msg p hmsg hcount =>
      ⟨hctx msg hmsg, hcount.subject, fun hseq => ?_⟩
    obtain ⟨q, lastProposer, r, hV⟩ := hc.council hseq
    obtain ⟨committee, hok, hmem⟩ := (checkInSubList_iff env).mp hcount.committee
    have hview : c.currentView = ⟨c.current.round, σ⟩ := by rw [← hseq]; rfl
    rw [hV, hview] at hok
    exact hfixed.subset q lastProposer r _ _ committee hok _ hmem
  sent := by
    intro origin m hm hcode sub hsub hseq
    rcases h.mem_log hm with hin | _ | _ | ⟨msg, pp, sub', _, hmsg, hpre, hpp, hcheck, hans, hsub'⟩
    · exact hc.sent origin m hin hcode sub hsub hseq
    · obtain rfl := Option.some.inj (hsub.symm.trans hsub')
      exact .inr (hold msg pp sub hmsg hpre hpp hcheck hans hseq)
  decided := by
    intro v p seals hm hseq
    rcases h.mem_log hm with hin | hnew
    · exact hc.decided v p seals hin hseq
    · cases hnew

include hcommit

theorem Move.oneDigest (hne : ∀ p, c.current.proposal = some p → p.hash ≠ 0)
    (h : Move bk env ctx c c') (hc : c.OneDigest σ) : c'.OneDigest σ := by
  -- before the move the core was past the sequence, or locked on a digest it has now sent
  have hbefore : ∀ d, c'.SentCommit σ d → d ≠ 0 ∧
      (σ < c.current.sequence ∧ c.SentCommit σ d ∨
        c.current.sequence = σ ∧ c.current.LockedOn d) := by
    intro d hd
    rcases h.sentCommit hd with hold | ⟨hseq, hlock⟩
    · exact ⟨(hc d hold).2.1, (hc d hold).2.2.imp_left (⟨·, hold⟩)⟩
    · obtain ⟨p, hp, hpd⟩ := hlock.2
      exact ⟨hpd ▸ hne p hp, .inr ⟨hseq, hlock⟩⟩
  intro d hd
  obtain ⟨hd0, hd⟩ := hbefore d hd
  refine ⟨fun d' hd' => ?_, hd0, h.lockedOn hd0 (fun _ => hbad _ _) (fun _ => hcommit _)
    (hd.imp_left And.left)⟩
  rcases hd with ⟨hlater, hold⟩ | ⟨hseq, hlock⟩ <;>
    rcases (hbefore d' hd').2 with ⟨hlater', hold'⟩ | ⟨hseq', hlock'⟩
  · exact (hc d hold).1 d' hold'
  · omega
  · omega
  · exact hlock'.unique hlock

include hcouncil hquorum

theorem Move.honest (hctx : ∀ m, ctx = some m → Auth m) (h : Move bk env ctx c c')
    (hc : c.Honest env V C σ Auth Cert) : c'.Honest env V C σ Auth Cert where
  council := h.keeps_council hcouncil hc
  nonzero p' hp' := by
    obtain ⟨p, hp, hheader, -⟩ := h.proposal hp'
    rw [Proposal.hash, hheader]
    exact hc.nonzero p hp
  once := h.oneDigest hbad hcommit hc.nonzero hc.once
  stored m hm := (h.stored m hm).elim (hc.stored m) (hctx m)
  votes := h.votesSatisfy (fun _ _ _ _ _ hQ => hQ) hc.votes
  sent := by
    intro origin m hm hcode sub hsub hseq
    rcases h.mem_log hm with hold | ⟨_, _, _, hsend⟩
    · exact hc.sent origin m hold hcode sub hsub hseq
    · cases origin with
      | sendCommit => exact .inl rfl
      | sendPrepare | sendPreprepare | sendRoundChange => simp [hcode] at hsend
      | sendCommitForOldBlock => exact hsend.elim
  decided := by
    intro v p seals hm hseq
    rcases h.mem_log hm with hold | _ | ⟨_, hp, hne, hq⟩
    · exact hc.decided v p seals hold hseq
    · exact hquorum _ (hc.commitQuorum hseq hp hne hq)

theorem step_honest {ev : Event} (hfixed : FixedCommittee env V σ C)
    (hctx : ∀ m, ev.handled c = some m → Auth m)
    (hnonzero : ∀ m pp, ev.handled c = some m → m.decodePreprepare = some pp → pp.proposal.hash ≠ 0)
    (hold : ∀ m pp sub, ev.handled c = some m → m.code = .preprepare →
      m.decodePreprepare = some pp → c.checkMessage .preprepare pp.view = some .oldMessage →
      c.oldBlockCommit bk env pp m.address = some sub → sub.view.sequence = σ → Cert sub.digest)
    (h : c.step bk env ev = some c') (hc : c.Honest env V C σ Auth Cert) :
    c'.Honest env V C σ Auth Cert := by
  refine Core.step_induct (P := Core.Honest env V C σ Auth Cert) h (fun posted d hsub hr => ?_)
    fun _ _ hm => hm.honest hbad hcommit hcouncil hquorum hctx
  exact Receive.honest (c := { c with posted := posted }) hbad hfixed hctx hnonzero hold hr
    ⟨hc.council, hc.nonzero, hc.once, fun m hm => hc.stored m (Core.stored_of_posted hsub hm),
      ⟨hc.votes.quiet, hc.votes.code, hc.votes.holds⟩, hc.sent, hc.decided⟩

end Step

end Kaia
