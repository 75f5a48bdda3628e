import Kaia.Core.Moves

/-! # Counted votes

The PREPARE and COMMIT messages that a core holds belong to its proposal and view, so what is
checked of them stays true: the sender is in the committee, if the seed it chose selects that.
-/

namespace Kaia

open Foundation

def RoundState.votes (s : RoundState) : MsgCode → List Message
  | .prepare => s.prepares.messages
  | .commit => s.commits.messages
  | _ => []

/-- A PREPARE or COMMIT that passes every check for being counted. -/
structure Core.Counts (env : ChainEnv) (c : Core) (msg : Message) (p : Proposal) : Prop where
  code : msg.code = .prepare ∨ msg.code = .commit
  proposal : c.current.proposal = some p
  subject : msg.decodeSubject = some ⟨c.currentView, p.hash, p.parentHash⟩
  committee : c.valSet.checkInSubList env msg.hash c.currentView msg.address = true
  validator : (c.valSet.getByAddress msg.address).isSome

theorem Core.Counts.current_subject {env : ChainEnv} {c : Core} {msg : Message} {p : Proposal}
    (h : c.Counts env msg p) :
    c.current.subject = some ⟨c.currentView, p.hash, p.parentHash⟩ := by
  rw [RoundState.subject, h.proposal]
  rfl

/-- Every counted vote has a property; without a proposal of the round there are no votes. -/
structure Core.VotesSatisfy (Q : ValidatorSet → View → Proposal → Message → Prop) (c : Core) :
    Prop where
  quiet : c.state = .acceptRequest ∨ c.waitingForRoundChange = true →
    ∀ code, c.current.votes code = []
  code : ∀ code, ∀ m ∈ c.current.votes code, m.code = code
  holds : ∀ code, ∀ m ∈ c.current.votes code,
    ∃ p, c.current.proposal = some p ∧ Q c.valSet c.currentView p m

variable {bk : Backend} {env : ChainEnv} {ctx : Option Message} {c c' : Core}
  {Q Q' : ValidatorSet → View → Proposal → Message → Prop}

theorem votes_newSequence (sequence : ℕ) (code : MsgCode) :
    (RoundState.newSequence sequence).votes code = [] := by
  cases code <;> rfl

theorem Core.VotesSatisfy.mono (h : c.VotesSatisfy Q)
    (hQ : ∀ V v p m, Q V v p m → Q' V v p m) : c.VotesSatisfy Q' :=
  ⟨h.quiet, h.code, fun code m hm => (h.holds code m hm).imp fun _ => And.imp_right (hQ _ _ _ _)⟩

theorem Core.VotesSatisfy.of_empty (h : ∀ code, c.current.votes code = []) : c.VotesSatisfy Q :=
  ⟨fun _ => h, fun code m hm => by simp [h code] at hm, fun code m hm => by simp [h code] at hm⟩

variable {msg m : Message} {code : MsgCode}

theorem MessageSet.mem_add {V : ValidatorSet} {ms ms' : MessageSet} (h : ms.add V msg = some ms')
    (hm : m ∈ ms'.messages) : m ∈ ms.messages ∨ m = msg ∧ (V.getByAddress msg.address).isSome := by
  obtain ⟨hsrc, rfl⟩ := Option.ite_none_right_eq_some.mp h |>.imp_right Option.some.inj
  rcases List.mem_cons.mp hm with rfl | hm
  · exact .inr ⟨rfl, hsrc⟩
  · exact .inl (List.mem_filter.mp hm).1

theorem Core.acceptPrepare_votes (hm : m ∈ (c.acceptPrepare msg).current.votes code) :
    m ∈ c.current.votes code ∨
      m = msg ∧ code = .prepare ∧ (c.valSet.getByAddress msg.address).isSome := by
  unfold Core.acceptPrepare at hm
  split at hm
  · rename_i prepares hadd
    cases code with
    | prepare =>
      exact (MessageSet.mem_add hadd hm).imp_right fun ⟨heq, hsrc⟩ => ⟨heq, rfl, hsrc⟩
    | preprepare | commit | roundChange | other => exact .inl hm
  · exact .inl hm

theorem Core.acceptCommit_votes (hm : m ∈ (c.acceptCommit msg).current.votes code) :
    m ∈ c.current.votes code ∨
      m = msg ∧ code = .commit ∧ (c.valSet.getByAddress msg.address).isSome := by
  unfold Core.acceptCommit at hm
  split at hm
  · rename_i commits hadd
    cases code with
    | commit =>
      exact (MessageSet.mem_add hadd hm).imp_right fun ⟨heq, hsrc⟩ => ⟨heq, rfl, hsrc⟩
    | preprepare | prepare | roundChange | other => exact .inl hm
  · exact .inl hm

theorem Core.counts_of_checkSubject {sub : Subject}
    (hcode : msg.code = .prepare ∨ msg.code = .commit) (hmsg : msg.decodeSubject = some sub)
    (hcheck : c.checkSubject env msg.code msg sub = none)
    (hsrc : (c.valSet.getByAddress msg.address).isSome) :
    c.state ≠ .acceptRequest ∧ c.waitingForRoundChange = false ∧ ∃ p, c.Counts env msg p := by
  obtain ⟨hsub, hstate, hwait, hin⟩ := Core.checkSubject_none
    (by rcases hcode with h | h <;> simp [h]) (by rcases hcode with h | h <;> simp [h]) hcheck
  obtain ⟨p, hp, rfl⟩ := Core.subject_digest hsub
  exact ⟨hstate, hwait, p, hcode, hp, hmsg, hin, hsrc⟩

theorem Core.VotesSatisfy.count (hc : c.VotesSatisfy Q)
    (hnew : ∀ p, c.Counts env msg p → Q c.valSet c.currentView p msg) (h : c.Counted c')
    (hvotes : ∀ code, ∀ m ∈ c'.current.votes code, m ∈ c.current.votes code ∨
      m = msg ∧ code = msg.code ∧ c.state ≠ .acceptRequest ∧ c.waitingForRoundChange = false ∧
      ∃ p, c.Counts env msg p) : c'.VotesSatisfy Q := by
  obtain ⟨_, _, rfl⟩ := h
  refine ⟨fun hq code => ?_, fun code m hm => ?_, fun code m hm => ?_⟩
  · refine List.eq_nil_iff_forall_not_mem.mpr fun m hm => ?_
    rcases hvotes code m hm with hold | ⟨-, -, hs, hw, -⟩
    · simp [hc.quiet hq code] at hold
    · simp [hs, hw] at hq
  · rcases hvotes code m hm with hold | ⟨rfl, hcode, -⟩
    · exact hc.code code m hold
    · exact hcode.symm
  · rcases hvotes code m hm with hold | ⟨rfl, -, -, -, p, hp⟩
    · exact hc.holds code m hold
    · exact ⟨p, hp.proposal, hnew p hp⟩

section Round

variable (hround : ∀ V v p r m, Q V v p m → Q V v (p.withRound r) m)

include hround

theorem Core.VotesSatisfy.of_same (h : c.VotesSatisfy Q)
    (hquiet : c'.state = .acceptRequest ∨ c'.waitingForRoundChange = true →
      c.state = .acceptRequest ∨ c.waitingForRoundChange = true)
    (hvalSet : c'.valSet = c.valSet) (hvotes : c'.current.votes = c.current.votes)
    (hview : c'.currentView = c.currentView)
    (hproposal : c'.current.proposal = c.current.proposal ∨
      ∃ r, c'.current.proposal = c.current.proposal.map (·.withRound r)) :
    c'.VotesSatisfy Q := by
  refine ⟨fun hq => hvotes ▸ h.quiet (hquiet hq), hvotes ▸ h.code, fun code m hm => ?_⟩
  rw [hvotes] at hm
  obtain ⟨p, hp, hQ⟩ := h.holds code m hm
  rw [hvalSet, hview]
  rcases hproposal with hsame | ⟨r, hr⟩
  · exact ⟨p, hsame.trans hp, hQ⟩
  · exact ⟨p.withRound r, by rw [hr, hp]; rfl, hround _ _ _ _ _ hQ⟩

theorem Move.votesSatisfy (h : Move bk env ctx c c') (hc : c.VotesSatisfy Q) :
    c'.VotesSatisfy Q := by
  cases h with
  | idle h =>
    obtain ⟨hstate, hvalSet, hwait, -⟩ := h.frame
    obtain ⟨request, hcur⟩ := h.current
    refine hc.of_same hround (by rw [hstate, hwait]; exact id) hvalSet ?_ ?_ (.inl ?_)
    · rw [hcur]; rfl
    · rw [Core.currentView, hcur]; rfl
    · rw [hcur]; rfl
  | send => exact hc.of_same hround id rfl rfl rfl (.inl rfl)
  | newSequence => exact .of_empty (votes_newSequence _)
  | newRound | catchUp => exact .of_empty fun code => by cases code <;> rfl
  | reseal =>
    refine hc.of_same hround id rfl rfl rfl (.inr ⟨c.current.round, ?_⟩)
    simp [Core.resealPreprepare, RoundState.proposal, Function.comp_def]
  | lock =>
    refine hc.of_same hround id rfl ?_ (RoundState.lockHash_view _) (.inl ?_)
    all_goals
      unfold RoundState.lockHash
      dsimp only
      split <;> rfl
  | setState state _ hnew =>
    exact hc.of_same hround (Or.imp_left fun hs => absurd hs hnew) rfl rfl rfl (.inl rfl)
  | commit =>
    refine hc.of_same hround id rfl ?_ ?_ (.inl ?_)
    all_goals
      simp only [Core.currentView]
      split <;> rfl

theorem Receive.votesSatisfy (h : Receive bk env ctx c c') (hc : c.VotesSatisfy Q)
    (hnew : ∀ msg p, ctx = some msg → c.Counts env msg p → Q c.valSet c.currentView p msg) :
    c'.VotesSatisfy Q := by
  cases h with
  | accept _ _ _ _ _ _ hstate | acceptLocked _ _ _ _ _ _ hstate =>
    exact .of_empty (hc.quiet (.inl hstate))
  | prepare msg sub hmsg hcode hcheck =>
    refine hc.count (hnew msg · rfl) (Core.counted_acceptPrepare msg) fun code m hm => ?_
    rcases Core.acceptPrepare_votes hm with hold | ⟨rfl, rfl, hsrc⟩
    · exact .inl hold
    · exact .inr ⟨rfl, hcode.symm,
        Core.counts_of_checkSubject (.inl hcode) hmsg (hcode ▸ hcheck) hsrc⟩
  | commit msg sub hmsg hcode hcheck =>
    refine hc.count (hnew msg · rfl) (Core.counted_acceptCommit msg) fun code m hm => ?_
    rcases Core.acceptCommit_votes hm with hold | ⟨rfl, rfl, hsrc⟩
    · exact .inl hold
    · exact .inr ⟨rfl, hcode.symm,
        Core.counts_of_checkSubject (.inr hcode) hmsg (hcode ▸ hcheck) hsrc⟩
  | nothing => exact hc
  | roundChange | startNewRound | sendRoundChange | oldBlock =>
    exact hc.of_same hround id rfl rfl rfl (.inl rfl)

theorem step_votesSatisfy {ev : Event} (h : c.step bk env ev = some c') (hc : c.VotesSatisfy Q)
    (hnew : ∀ msg p, ev.handled c = some msg → c.Counts env msg p →
      Q c.valSet c.currentView p msg) : c'.VotesSatisfy Q :=
  Core.step_induct (P := Core.VotesSatisfy Q) h
    (fun _ _ _ hr => hr.votesSatisfy hround ⟨hc.quiet, hc.code, hc.holds⟩ fun msg p hctx hcount =>
      hnew msg p hctx ⟨hcount.code, hcount.proposal, hcount.subject, hcount.committee,
        hcount.validator⟩)
    fun _ _ hm => hm.votesSatisfy hround

end Round

theorem start_votesSatisfy (bk : Backend) (env : ChainEnv) (address : Address) (node : Bool) :
    (Core.start bk env address node).VotesSatisfy Q :=
  .of_empty fun code => by rw [start_current, votes_newSequence]

/-- Every vote that is held comes from the committee of the proposal's parent. -/
def Core.CountsOnlyCommittee (env : ChainEnv) (c : Core) : Prop :=
  ∀ m ∈ c.current.prepares.messages ++ c.current.commits.messages,
    ∃ p committee, c.current.proposal = some p ∧
      c.valSet.subList env p.parentHash c.currentView = .ok committee ∧
      m.address ∈ addresses committee

/-- The hash of a vote selects the same committee as the parent of the proposal. -/
def HashSelectsCommittee (env : ChainEnv) (c : Core) (ev : Event) : Prop :=
  ∀ m ∈ ev.handled c, m.code = .prepare ∨ m.code = .commit →
    ∀ sub ∈ c.current.subject, m.decodeSubject = some sub →
      c.valSet.subList env m.hash sub.view = c.valSet.subList env sub.prevHash sub.view

instance (env : ChainEnv) (c : Core) (ev : Event) : Decidable (HashSelectsCommittee env c ev) :=
  inferInstanceAs (Decidable (∀ m ∈ ev.handled c, _))

/-- While no vote chooses another committee, only the committee is counted. -/
theorem countsOnlyCommittee_of_hashes (bk : Backend) (env : ChainEnv) (address : Address)
    (node : Bool) {es : List Event} {c : Core}
    (h : Runs (Core.step bk env) (HashSelectsCommittee env) (.start bk env address node) es c) :
    c.CountsOnlyCommittee env := by
  have hvotes : c.VotesSatisfy fun V v p m => V.checkInSubList env p.parentHash v m.address := by
    refine h.invariant (start_votesSatisfy _ _ _ _) fun d ev d' hok hstep hd =>
      step_votesSatisfy (fun _ _ _ _ _ h => h) hstep hd fun msg p hmsg hcount => ?_
    have hsame := hok msg hmsg hcount.code _ hcount.current_subject hcount.subject
    have hin := hcount.committee
    rw [ValidatorSet.checkInSubList_iff] at hin ⊢
    rw [← hsame]
    exact hin
  intro m hm
  have hm' : ∃ code, m ∈ c.current.votes code :=
    (List.mem_append.mp hm).elim (fun h => ⟨.prepare, h⟩) fun h => ⟨.commit, h⟩
  obtain ⟨code, hcode⟩ := hm'
  obtain ⟨p, hp, hin⟩ := hvotes.holds code m hcode
  obtain ⟨committee, hok, hmem⟩ := (ValidatorSet.checkInSubList_iff env).mp hin
  exact ⟨p, committee, hp, hok, hmem⟩

def councilOfFive : ValidatorSet :=
  .default ⟨3, [1, 2, 3, 4, 5].map newValidator, roundRobin, none⟩

def proposedAndPrepared (sender : Address) (hash : Hash) : List Event :=
  [.message (.signed 1 0 .preprepare (.preprepare ⟨⟨0, 1⟩, .block 1 0 1⟩) []),
   .message (.signed sender hash .prepare (.subject ⟨⟨0, 1⟩, 1, 0⟩) [])]

/-- A PREPARE with the hash of the parent is counted for a committee member. -/
theorem member_counted_by_parentHash :
    let bk : Backend := fun _ => .genesis councilOfFive
    ∃ c, Runs (Core.step bk .counting) (HashSelectsCommittee .counting)
        (.start bk .counting 1 true) (proposedAndPrepared 3 0) c ∧
      c.current.prepares.size = 1 ∧ c.CountsOnlyCommittee .counting := by
  intro bk
  obtain ⟨c, hrun, hsize⟩ := Runs.exists_of_exec
    (guarded (Core.step bk .counting) (HashSelectsCommittee .counting))
    (.start bk .counting 1 true) (proposedAndPrepared 3 0)
    (fun c => c.current.prepares.size) 1 (by decide +kernel)
  exact ⟨c, hrun.of_guarded, hsize,
    countsOnlyCommittee_of_hashes bk .counting 1 true hrun.of_guarded⟩

/-- A PREPARE with another hash is counted although its sender is not in the committee
of the parent. -/
theorem stranger_counted_by_own_hash :
    let bk : Backend := fun _ => .genesis councilOfFive
    ∃ c, CoreRuns bk .counting (.start bk .counting 1 true)
        (proposedAndPrepared 4 (2 <<< 196)) c ∧
      c.current.prepares.messages.map Message.address = [4] ∧
      c.current.proposal = some (.block 1 0 1) ∧
      (c.valSet.subList .counting 0 c.currentView).toOption.map addresses = some [1, 2, 3] ∧
      ¬ c.CountsOnlyCommittee .counting := by
  intro bk
  obtain ⟨c, hrun, hseen⟩ := Runs.exists_of_exec (Core.step bk .counting)
    (.start bk .counting 1 true) (proposedAndPrepared 4 (2 <<< 196))
    (fun c => (c.current.prepares.messages.map Message.address, c.current.proposal,
      (c.valSet.subList .counting 0 c.currentView).toOption.map addresses))
    ([4], some (.block 1 0 1), some [1, 2, 3]) (by decide +kernel)
  simp only [Prod.mk.injEq] at hseen
  obtain ⟨hsenders, hproposal, hcommittee⟩ := hseen
  refine ⟨c, hrun, hsenders, hproposal, hcommittee, fun hall => ?_⟩
  obtain ⟨m, hm, hfour⟩ : ∃ m ∈ c.current.prepares.messages, m.address = 4 :=
    List.mem_map.mp (by rw [hsenders]; exact List.mem_singleton.mpr rfl)
  obtain ⟨p, committee, hp, hok, hmem⟩ := hall m (List.mem_append_left _ hm)
  obtain rfl := Option.some.inj (hproposal.symm.trans hp)
  have hparent : c.valSet.subList .counting 0 c.currentView = .ok committee := hok
  rw [hparent] at hcommittee
  rw [hfour, Option.some.inj hcommittee] at hmem
  exact absurd hmem (by decide)

end Kaia
