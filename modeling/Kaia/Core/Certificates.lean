import Kaia.Core.Decisions
import Kaia.Core.Seals

/-! # What stands behind a commit

Whatever comes in, a core hands a block to the backend only if a PRE-PREPARE brought it, and with
a quorum of COMMIT messages for it of the council of the sequence.
-/

namespace Kaia

open Foundation List

/-- A PRE-PREPARE message with the block has come in. -/
def Proposed (es : List Event) (header : Header) : Prop :=
  ∃ m pp, Sent es m ∧ m.code = .preprepare ∧ m.decodePreprepare = some pp ∧
    pp.proposal.header = header

/-- A validator's message for a block in a view has come in. -/
structure VoteFor (es : List Event) (V : ValidatorSet) (v : View) (p : Proposal) (m : Message) :
    Prop where
  sent : Sent es m
  subject : m.decodeSubject = some ⟨v, p.hash, p.parentHash⟩
  validator : m.address ∈ addresses V.list

/-- The backend's validators for the sequence, with whatever proposer. -/
def CouncilOf (bk : Backend) (sequence : ℕ) (V : ValidatorSet) : Prop :=
  ∃ t lp q, lp.number + 1 = sequence ∧ V = ((bk t).validators lp).setProposer q

/-- The seals are those of a quorum of COMMIT messages, of different senders. -/
def CommitCertificate (bk : Backend) (es : List Event) (v : View) (p : Proposal)
    (committedSeals : List Bytes) : Prop :=
  ∃ V, CouncilOf bk v.sequence V ∧ ∃ ms : MessageSet, requiredMessageCount V ≤ ms.size ∧
    committedSeals = ms.messages.map (fun m => copySeal m.committedSeal) ∧
    ∀ m ∈ ms.messages, m.code = .commit ∧ VoteFor es V v p m

variable {bk : Backend} {env : ChainEnv} {ctx : Option Message} {c c' : Core} {es : List Event}

theorem Proposed.mono {header : Header} (h : Proposed es header) (fs : List Event) :
    Proposed (es ++ fs) header := by
  obtain ⟨m, pp, hsent, hm⟩ := h
  exact ⟨m, pp, hsent.mono fs, hm⟩

theorem VoteFor.mono {V : ValidatorSet} {v : View} {p : Proposal} {m : Message}
    (h : VoteFor es V v p m) (fs : List Event) : VoteFor (es ++ fs) V v p m :=
  { h with sent := h.sent.mono fs }

/-- What a core holds has come in, and what it committed is certified. -/
structure Core.Certified (bk : Backend) (es : List Event) (c : Core) : Prop where
  stored : ∀ m ∈ c.stored, Sent es m
  council : CouncilOf bk c.current.sequence c.valSet
  proposal : ∀ p, c.current.proposal = some p → Proposed es p.header
  votes : c.VotesSatisfy (VoteFor es)
  log : ∀ v p seals, .commit v p seals ∈ c.log →
    Proposed es p.header ∧ CommitCertificate bk es v p seals

theorem Core.Certified.mono (h : c.Certified bk es) (fs : List Event) :
    c.Certified bk (es ++ fs) where
  stored m hm := (h.stored m hm).mono fs
  council := h.council
  proposal p hp := (h.proposal p hp).mono fs
  votes := h.votes.mono fun _ _ _ _ hv => hv.mono fs
  log v p seals hmem := by
    obtain ⟨hp, V, hV, ms, hq, hseals, hall⟩ := h.log v p seals hmem
    exact ⟨hp.mono fs, V, hV, ms, hq, hseals, fun m hm => (hall m hm).imp_right (·.mono fs)⟩

theorem CouncilOf.withProposer {sequence : ℕ} {V : ValidatorSet} (h : CouncilOf bk sequence V)
    (lastProposer : Address) (round : ℕ) :
    CouncilOf bk sequence (V.withProposer env lastProposer round) := by
  obtain ⟨t, lp, q, hseq, rfl⟩ := h
  obtain ⟨q', hq'⟩ := (((bk t).validators lp).setProposer q).withProposer_eq_setProposer env
    lastProposer round
  exact ⟨t, lp, q', hseq, by rw [hq', ValidatorSet.setProposer_setProposer]⟩

theorem councilOf_validators (t : ℕ) (lp : Proposal) :
    CouncilOf bk (lp.number + 1) ((bk t).validators lp) := by
  refine ⟨t, lp, ((bk t).validators lp).getProposer, rfl, ?_⟩
  cases (bk t).validators lp <;> rfl

section Step

variable (hctx : ∀ m, ctx = some m → Sent es m)

include hctx

theorem Move.certified (h : Move bk env ctx c c') (hc : c.Certified bk es) :
    c'.Certified bk es where
  stored m hm := (h.stored m hm).elim (hc.stored m) (hctx m)
  council := by
    rcases h.council with ⟨hV, hseq⟩ | ⟨lastProposer, r, hV, hseq⟩ | ⟨lp, lastProposer, hV, hseq⟩
    · rw [hV, hseq]
      exact hc.council
    · rw [hV, hseq]
      exact hc.council.withProposer _ _
    · rw [hV, hseq]
      exact (councilOf_validators _ lp).withProposer _ _
  proposal p' hp' := by
    obtain ⟨p, hp, hheader, -⟩ := h.proposal hp'
    rw [hheader]
    exact hc.proposal p hp
  votes := h.votesSatisfy (fun _ _ _ _ _ hv => ⟨hv.sent, hv.subject, hv.validator⟩) hc.votes
  log v p seals hmem := by
    rcases h.mem_log hmem with hold | hnew
    · exact hc.log v p seals hold
    · cases hnew with
      | commit _ hp hne hq =>
        refine ⟨hc.proposal p hp, c.valSet, hc.council, c.current.commits, hq, rfl,
          fun m hm => ?_⟩
        obtain ⟨p', hp', hvote⟩ := hc.votes.holds .commit m hm
        obtain rfl := Option.some.inj (hp.symm.trans hp')
        exact ⟨hc.votes.code .commit m hm, hvote⟩

theorem Receive.certified (h : Receive bk env ctx c c') (hc : c.Certified bk es) :
    c'.Certified bk es where
  stored m hm := hc.stored m (by rwa [h.frame.stored] at hm)
  council := by
    rw [h.frame.valSet, show c'.current.sequence = _ from congrArg View.sequence h.frame.view]
    exact hc.council
  proposal p' hp' := by
    rcases h.proposal hp' with hold | ⟨msg, pp, hmsg, hcode, hdec, -, rfl⟩
    · exact hc.proposal p' hold
    · exact ⟨msg, pp, hctx msg hmsg, hcode, hdec, rfl⟩
  votes := h.votesSatisfy (fun _ _ _ _ _ hv => ⟨hv.sent, hv.subject, hv.validator⟩) hc.votes
    fun msg p hmsg hcount =>
      ⟨hctx msg hmsg, hcount.subject, getByAddress_isSome.mp hcount.validator⟩
  log v p seals hmem := by
    rcases h.mem_log hmem with hold | hnew
    · exact hc.log v p seals hold
    · cases hnew -- a reply is no commit

end Step

theorem step_certified {ev : Event} (h : c.step bk env ev = some c') (hc : c.Certified bk es) :
    c'.Certified bk (es ++ [ev]) := by
  have hctx : ∀ m, ev.handled c = some m → Sent (es ++ [ev]) m :=
    fun m hm => sent_of_handled h hc.stored hm
  refine Core.step_induct (P := Core.Certified bk (es ++ [ev])) h (fun posted d hsub hr => ?_)
    fun _ _ hm => hm.certified hctx
  obtain ⟨hstored, hcouncil, hproposal, hvotes, hlog⟩ := hc.mono [ev]
  exact hr.certified hctx ⟨fun m hm => hstored m (Core.stored_of_posted hsub hm), hcouncil,
    hproposal, ⟨hvotes.quiet, hvotes.code, hvotes.holds⟩, hlog⟩

theorem start_certified (bk : Backend) (env : ChainEnv) (address : Address) (node : Bool) :
    (Core.start bk env address node).Certified bk [] := by
  obtain ⟨-, hstored, hlog⟩ := start_empty bk env address node
  have hcur := start_current bk env address node
  have hV : (Core.start bk env address node).valSet = _ := Core.setState_valSet _
  refine ⟨by simp [hstored], ?_, fun p hp => ?_, start_votesSatisfy _ _ _ _, by simp [hlog]⟩
  · rw [hcur, hV]
    exact (councilOf_validators _ _).withProposer _ _
  · rw [hcur] at hp
    cases hp

/-- A core commits only blocks that were proposed, each with the seals of a quorum for it. -/
theorem committed_blocks_certified (bk : Backend) (env : ChainEnv) (address : Address)
    (node : Bool) {es : List Event} {c : Core}
    (h : CoreRuns bk env (.start bk env address node) es c) {v : View} {p : Proposal}
    {seals : List Bytes} (hmem : .commit v p seals ∈ c.log) :
    Proposed es p.header ∧ CommitCertificate bk es v p seals := by
  have hc : c.Certified bk es := h.history (start_certified bk env address node)
    fun _ _ _ _ _ hstep hd => step_certified hstep hd
  exact hc.log v p seals hmem

theorem three_commits_certify :
    let bk : Backend := fun _ => .genesis (fullCommittee [1, 2, 3, 4])
    ∃ c seals, .commit ⟨0, 1⟩ blockWithExtra seals ∈ Core.log c ∧
      Proposed (proposedAndCommitted [4]) blockWithExtra.header ∧
      CommitCertificate bk (proposedAndCommitted [4]) ⟨0, 1⟩ blockWithExtra seals := by
  intro bk
  obtain ⟨c, hrun, hlog⟩ := Runs.exists_of_exec (Core.step bk .counting)
    (.start bk .counting 3 true) (proposedAndCommitted [4]) Core.committedBlocks
    [(⟨0, 1⟩, blockWithExtra, [copySeal [4], copySeal [2], copySeal [1]])] (by decide +kernel)
  have hmem := Core.mem_committedBlocks (hlog ▸ mem_singleton.mpr rfl)
  exact ⟨c, _, hmem, committed_blocks_certified bk .counting 3 true hrun hmem⟩

end Kaia
