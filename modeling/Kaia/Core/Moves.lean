import Mathlib
import Kaia.Foundation.HeapOrder
import Kaia.Core.Handlers
import Kaia.Foundation.Runs

/-! # Moves of the consensus core

Whatever event a core handles, its state changes by a short list of moves, for which every
invariant is proved once. This module shows that all handlers are composed of them.
-/

namespace Kaia

open Foundation Relation List Option RoundState

/-- Only the clock, the queues and the pending request change, and no other message is stored. -/
structure Core.Idle (ctx : Option Message) (c c' : Core) : Prop where
  eq : c' = { c with
    backlogs := c'.backlogs
    pendingRequests := c'.pendingRequests
    posted := c'.posted
    clock := c'.clock
    current := { c.current with pendingRequest := c'.current.pendingRequest } }
  clock_le : c.clock ≤ c'.clock
  stored : ∀ m ∈ c'.stored, m ∈ c.stored ∨ ctx = some m

/-- What is known of a message when it is sent. -/
def Core.Sends (c : Core) (origin : Origin) (msg : Message) : Prop :=
  msg.address = c.address ∧
    match origin with
    | .sendPreprepare => msg.code = .preprepare
    | .sendPrepare => msg.code = .prepare ∧ ∃ sub, msg.body = .subject sub ∧
        c.current.subject = some sub
    | .sendCommit => msg.code = .commit ∧ ∃ sub, msg.body = .subject sub ∧
        c.current.subject = some sub ∧ c.current.lockedHash = sub.digest
    | .sendCommitForOldBlock => False
    | .sendRoundChange => msg.code = .roundChange

def RoundState.committedSeals (s : RoundState) : List Bytes :=
  s.commits.messages.map fun m => copySeal m.committedSeal

/-- The ways in which the state changes while a message is handled, if there is one. -/
inductive Move (bk : Backend) (env : ChainEnv) (ctx : Option Message) : Core → Core → Prop
  | idle {c c' : Core} (h : c.Idle ctx c') : Move bk env ctx c c'
  | send {c : Core} (origin : Origin) (msg : Message) (h : c.Sends origin msg) :
      Move bk env ctx c { c with log := .broadcast origin msg :: c.log }
  | newSequence {c : Core} (lp : Proposal) (lastProposer : Address)
      (h : c.current.sequence ≤ lp.number) :
      Move bk env ctx c { c.tick with
        roundChangeSet := []
        current := .newSequence (lp.number + 1)
        valSet := ((bk c.clock).validators lp).withProposer env lastProposer (uint64 0)
        waitingForRoundChange := false
        state := .acceptRequest }
  | newRound {c : Core} (round : ℕ) (lastProposer : Address) (h : c.current.round ≤ round) :
      Move bk env ctx c { c.tick with
        roundChangeSet := []
        current := c.current.nextRound round (c.isHashLocked bk)
        valSet := c.valSet.withProposer env lastProposer (uint64 round)
        waitingForRoundChange := false
        state := .acceptRequest }
  | catchUp {c : Core} (round : ℕ) (h : c.current.round < round) :
      Move bk env ctx c (c.catchUpRound bk round)
  | reseal {c : Core} : Move bk env ctx c c.resealPreprepare
  | lock {c : Core} (hstate : c.state ≠ .acceptRequest) (hwait : c.waitingForRoundChange = false) :
      Move bk env ctx c { c with current := c.current.lockHash }
  | setState {c : Core} (state : State) (hold : c.state ≠ .acceptRequest)
      (hnew : state ≠ .acceptRequest) : Move bk env ctx c { c with state := state }
  | commit {c : Core} (proposal : Proposal) (hp : c.current.proposal = some proposal)
      (hlock : c.current.lockedHash = proposal.hash) (hne : c.current.commits.messages ≠ [])
      (hq : requiredMessageCount c.valSet ≤ c.current.commits.size)
      (hwait : c.waitingForRoundChange = false) :
      Move bk env ctx c { c.tick with
        log := .commit c.currentView proposal c.current.committedSeals :: c.log
        current := if (bk c.clock).commit proposal c.current.committedSeals then c.current
          else c.current.unlockHash }

variable (bk : Backend) (env : ChainEnv)

abbrev Moves (ctx : Option Message) : Core → Core → Prop :=
  ReflTransGen (Move bk env ctx)

/-- What happens to the state when a message is received. -/
inductive Receive (bk : Backend) (env : ChainEnv) : Option Message → Core → Core → Prop
  | nothing {ctx : Option Message} {c : Core} : Receive bk env ctx c c
  | accept {c : Core} (msg : Message) (pp : Preprepare)
      (hmsg : msg.decodePreprepare = some pp) (hcode : msg.code = .preprepare)
      (hcheck : c.checkMessage .preprepare pp.view = none)
      (hproposer : c.valSet.isProposer msg.address = true)
      (hstate : c.state = .acceptRequest) (hunlocked : c.tick.isHashLocked bk = false) :
      Receive bk env (some msg) c { (c.tick.tick.acceptPreprepare pp) with state := .preprepared }
  | acceptLocked {c : Core} (msg : Message) (pp : Preprepare)
      (hmsg : msg.decodePreprepare = some pp) (hcode : msg.code = .preprepare)
      (hcheck : c.checkMessage .preprepare pp.view = none)
      (hproposer : c.valSet.isProposer msg.address = true)
      (hstate : c.state = .acceptRequest) (hhash : pp.proposal.hash = c.current.lockedHash) :
      Receive bk env (some msg) c { (c.tick.tick.acceptPreprepare pp) with state := .prepared }
  | prepare {c : Core} (msg : Message) (sub : Subject) (hmsg : msg.decodeSubject = some sub)
      (hcode : msg.code = .prepare) (hcheck : c.checkSubject env .prepare msg sub = none) :
      Receive bk env (some msg) c (c.acceptPrepare msg)
  | commit {c : Core} (msg : Message) (sub : Subject) (hmsg : msg.decodeSubject = some sub)
      (hcode : msg.code = .commit) (hcheck : c.checkSubject env .commit msg sub = none) :
      Receive bk env (some msg) c (c.acceptCommit msg)
  | roundChange {c : Core} (msg : Message) (rc : Subject) (hmsg : msg.decodeSubject = some rc)
      (hcode : msg.code = .roundChange) (hcheck : c.checkMessage .roundChange rc.view = none) :
      Receive bk env (some msg) c
        { c with roundChangeSet := (c.roundChangeSet.add c.valSet rc.view.round msg).1 }
  | startNewRound {c : Core} (msg : Message) (rc : Subject) (hmsg : msg.decodeSubject = some rc)
      (hcode : msg.code = .roundChange) (hcheck : c.checkMessage .roundChange rc.view = none)
      (hnum : (c.roundChangeSet.add c.valSet rc.view.round msg).2 =
        some (requiredMessageCount c.valSet)) :
      Receive bk env (some msg) c { c with
        roundChangeSet := (c.roundChangeSet.add c.valSet rc.view.round msg).1
        log := .startNewRound c.valSet ⟨rc.view.round, c.current.sequence⟩ :: c.log }
  | sendRoundChange {c : Core} (msg : Message) (rc : Subject) (num : ℕ)
      (hmsg : msg.decodeSubject = some rc) (hcode : msg.code = .roundChange)
      (hcheck : c.checkMessage .roundChange rc.view = none)
      (hadd : (c.roundChangeSet.add c.valSet rc.view.round msg).2 = some num)
      (hnum : (num : ℤ) = c.valSet.f + 1) :
      Receive bk env (some msg) c { c with
        roundChangeSet := (c.roundChangeSet.add c.valSet rc.view.round msg).1
        log := .sendRoundChange c.valSet ⟨rc.view.round, c.current.sequence⟩ :: c.log }
  | oldBlock {c : Core} (msg : Message) (pp : Preprepare) (sub : Subject)
      (hmsg : msg.decodePreprepare = some pp) (hcode : msg.code = .preprepare)
      (hcheck : c.checkMessage .preprepare pp.view = some .oldMessage)
      (hsub : c.oldBlockCommit bk env pp msg.address = some sub) :
      Receive bk env (some msg) c
        (Core.sendCommitForOldBlock bk { c with clock := c.clock + 3 } sub)

namespace Core

variable {bk : Backend} {env : ChainEnv} {ctx : Option Message} {c : Core}

theorem idle_tick : c.Idle ctx c.tick := ⟨rfl, Nat.le_succ _, fun _ h => .inl h⟩

theorem mem_drainBacklog {fuel : ℕ} {q : Prque Message} {msgs : List Message} {m : Message}
    (h : m ∈ (c.drainBacklog fuel q msgs).1.map Prod.fst ∨ m ∈ (c.drainBacklog fuel q msgs).2) :
    m ∈ q.map Prod.fst ∨ m ∈ msgs := by
  induction fuel generalizing q msgs with
  | zero => exact h
  | succ fuel ih =>
    unfold drainBacklog at h
    cases hpop : q.pop with
    | none =>
      simp only [hpop] at h
      exact h
    | some popped =>
      obtain ⟨⟨msg, prio⟩, rest⟩ := popped
      have hperm : ((msg, prio) :: rest).Perm q := Heap.pop_perm hpop
      have hrest : ∀ x ∈ rest.map Prod.fst, x ∈ q.map Prod.fst := fun x hx =>
        (hperm.map Prod.fst).mem_iff.mp (mem_cons_of_mem _ hx)
      have hmsg : msg ∈ q.map Prod.fst := (hperm.map Prod.fst).mem_iff.mp mem_cons_self
      simp only [hpop] at h
      split at h
      · exact (ih h).imp_left (hrest m)
      · split at h
        · rcases h with h | h
          · obtain ⟨x, hx, rfl⟩ := mem_map.mp h
            rcases Heap.mem_push.mp hx with rfl | hx
            · exact .inl hmsg
            · exact .inl (hrest _ (mem_map_of_mem hx))
          · exact .inr h
        · exact (ih h).imp_left (hrest m)
        · rcases ih h with h | h
          · exact .inl (hrest m h)
          · rcases mem_cons.mp h with rfl | h
            · exact .inl hmsg
            · exact .inr h

theorem idle_processBacklog : c.Idle ctx c.processBacklog := by
  refine ⟨rfl, le_rfl, fun m hm => .inl ?_⟩
  have hdrain : ∀ b ∈ c.backlogs, m ∈ (c.drainBacklog b.2.length b.2 []).1.map Prod.fst ∨
      m ∈ (c.drainBacklog b.2.length b.2 []).2 → m ∈ c.stored := by
    intro b hb h
    refine mem_append_left _ (mem_flatMap.mpr ⟨b, hb, ?_⟩)
    rcases mem_drainBacklog h with h | h
    · exact h
    · cases h
  simp only [stored, processBacklog, List.flatMap_map, List.map_map, List.mem_append,
    mem_flatMap] at hm
  rcases hm with ⟨b, hb, hm⟩ | ⟨b, hb, hm⟩ | hm
  · exact hdrain b hb (.inl hm)
  · exact hdrain b hb (.inr hm)
  · exact mem_append_right _ hm

theorem idle_processPendingRequests : c.Idle ctx c.processPendingRequests :=
  ⟨rfl, le_rfl, fun _ h => .inl h⟩

theorem idle_storeBacklog (m : Message) : c.Idle (some m) (c.storeBacklog m) := by
  unfold storeBacklog
  dsimp only
  split
  · exact ⟨rfl, le_rfl, fun _ h => .inl h⟩
  · refine ⟨rfl, le_rfl, fun x hx => ?_⟩
    simp only [stored, flatMap_cons, mem_append, mem_flatMap] at hx
    have hold : ∀ x ∈ ((c.backlogs.lookup m.address).getD []).map Prod.fst, x ∈ c.stored := by
      intro x hx
      cases hlook : c.backlogs.lookup m.address with
      | none => simp [hlook] at hx
      | some q =>
        rw [hlook] at hx
        have hmem : (m.address, q) ∈ c.backlogs := by
          obtain ⟨l₁, l₂, heq, -⟩ := lookup_eq_some_iff.mp hlook
          rw [heq]
          exact mem_append_right _ mem_cons_self
        exact mem_append_left _ (mem_flatMap.mpr ⟨_, hmem, hx⟩)
    rcases hx with (hx | ⟨b, hb, hx⟩) | hx
    · split at hx
      · obtain ⟨y, hy, rfl⟩ := mem_map.mp hx
        rcases Heap.mem_push.mp hy with rfl | hy
        · exact .inr rfl
        · exact .inl (hold _ (mem_map_of_mem hy))
      · exact .inl (hold x hx)
    · exact .inl (mem_append_left _ (mem_flatMap.mpr ⟨b, (mem_filter.mp hb).1, hx⟩))
    · exact .inl (mem_append_right _ hx)

theorem Idle.moves {c' : Core} (h : c.Idle ctx c') : Moves bk env ctx c c' := .single (.idle h)

variable {c₁ : Core} {p : Proposal} {s : RoundState} {sub : Subject}

theorem moves_setState (state : State) (h : Moves bk env ctx c { c₁ with state := state }) :
    Moves bk env ctx c (c₁.setState state) := by
  unfold setState
  split
  · exact (h.trans idle_processPendingRequests.moves).trans idle_processBacklog.moves
  · exact h.trans idle_processBacklog.moves

variable (state : State)

theorem setState_current : (c.setState state).current = c.current := by
  unfold setState
  split <;> rfl

theorem setState_valSet : (c.setState state).valSet = c.valSet := by
  unfold setState
  split <;> rfl

theorem setState_waiting : (c.setState state).waitingForRoundChange = c.waitingForRoundChange := by
  unfold setState
  split <;> rfl

theorem setState_state : (c.setState state).state = state := by
  unfold setState
  split <;> rfl

theorem moves_sendPreprepare (proposal : Proposal) :
    Moves bk env ctx c (c.sendPreprepare bk proposal) := by
  unfold sendPreprepare
  dsimp only
  split
  · exact .single (.send _ _ ⟨rfl, rfl⟩)
  · exact .refl

theorem moves_sendPrepare : Moves bk env ctx c (c.sendPrepare bk env) := by
  unfold sendPrepare sendSubject
  split
  · exact .refl
  · rename_i sub hsub
    split
    · exact .single (.send _ _ ⟨rfl, rfl, sub, rfl, hsub⟩)
    · exact .refl

theorem moves_sendCommit (hlock : ∀ sub, c.current.subject = some sub →
    c.current.lockedHash = sub.digest) : Moves bk env ctx c (c.sendCommit bk env) := by
  unfold sendCommit sendSubject
  split
  · exact .refl
  · rename_i sub hsub
    split
    · exact .single (.send _ _ ⟨rfl, rfl, sub, rfl, hsub, hlock sub hsub⟩)
    · exact .refl

theorem moves_sendRoundChange (round : ℕ) : Moves bk env ctx c (c.sendRoundChange bk round) := by
  unfold sendRoundChange
  split
  · exact .refl
  · rename_i hlt
    have hcatch : Moves bk env ctx c (c.catchUpRound bk round) :=
      .single (.catchUp round (by omega))
    exact (hcatch.trans idle_tick.moves).tail (.send _ _ ⟨rfl, rfl⟩)

theorem moves_sendNextRoundChange : Moves bk env ctx c (c.sendNextRoundChange bk) := by
  unfold sendNextRoundChange
  split
  · exact moves_sendRoundChange _
  · exact .refl

theorem moves_proposeAgain : Moves bk env ctx c (c.proposeAgain bk) := by
  unfold proposeAgain
  split
  · dsimp only
    split
    · split
      · exact idle_tick.moves.trans (moves_sendPreprepare _)
      · exact idle_tick.moves
    · split
      · exact (idle_tick.moves.trans (moves_sendPreprepare _)).tail
          (.idle ⟨rfl, le_rfl, fun _ h => .inl h⟩)
      · exact idle_tick.moves
  · exact .refl

theorem moves_startNewRound (round : ℕ) : Moves bk env ctx c (c.startNewRound bk env round) := by
  unfold startNewRound
  dsimp only
  split
  · rename_i hle
    exact idle_tick.moves.trans (moves_setState _ (.single (.newSequence _ _ hle)))
  · split
    · split
      · exact idle_tick.moves
      · split
        · exact idle_tick.moves
        · rename_i hge
          refine idle_tick.moves.trans (ReflTransGen.trans ?_ moves_proposeAgain)
          exact moves_setState _ (.single (.newRound round _ (by simpa [tick] using hge)))
    · exact idle_tick.moves

theorem moves_commit (hstate : c.state ≠ .acceptRequest) (hwait : c.waitingForRoundChange = false)
    (hp : c.current.proposal = some p) (hlock : c.current.lockedHash = p.hash)
    (hne : c.current.commits.messages ≠ [])
    (hq : requiredMessageCount c.valSet ≤ c.current.commits.size) :
    Moves bk env ctx c (c.commit bk) := by
  have hset : Moves bk env ctx c (c.setState .committed) :=
    moves_setState _ (.single (.setState _ hstate (by simp)))
  rw [← setState_current .committed] at hp hlock hne hq
  rw [← setState_valSet .committed] at hq
  rw [← setState_waiting .committed] at hwait
  unfold commit
  revert hset hp hlock hne hq hwait
  generalize c.setState .committed = d
  intro hwait hp hlock hne hq hset
  have hmove : Move bk env ctx d _ := .commit p hp hlock hne hq hwait
  dsimp only
  rw [hp]
  dsimp only
  split
  · rename_i hins
    rw [committedSeals, if_pos hins] at hmove
    exact hset.tail hmove
  · rename_i hins
    rw [committedSeals, if_neg hins] at hmove
    exact (hset.tail hmove).trans moves_sendNextRoundChange

theorem lockHash_of_proposal (h : s.proposal = some p) :
    s.lockHash = { s with lockedHash := p.hash } := by
  simp [lockHash, h]

theorem subject_digest (h : s.subject = some sub) :
    ∃ p, s.proposal = some p ∧ sub = ⟨s.view, p.hash, p.parentHash⟩ := by
  obtain ⟨p, hp, rfl⟩ := map_eq_some_iff.mp h
  exact ⟨p, hp, rfl⟩

/-- Becoming prepared keeps the proposal, the messages and the validators. -/
structure SameRound (c c' : Core) : Prop where
  proposal : c'.current.proposal = c.current.proposal
  commits : c'.current.commits = c.current.commits
  valSet : c'.valSet = c.valSet
  waiting : c'.waitingForRoundChange = c.waitingForRoundChange
  state : c.state ≠ .acceptRequest → c'.state ≠ .acceptRequest

theorem SameRound.trans {c₂ c₃ : Core} (h : SameRound c₁ c₂) (h' : SameRound c₂ c₃) :
    SameRound c₁ c₃ :=
  ⟨h'.proposal.trans h.proposal, h'.commits.trans h.commits, h'.valSet.trans h.valSet,
    h'.waiting.trans h.waiting, fun hs => h'.state (h.state hs)⟩

theorem sameRound_tick : SameRound c c.tick := ⟨rfl, rfl, rfl, rfl, fun h => h⟩

theorem sameRound_setState {state : State} (h : state ≠ .acceptRequest) :
    SameRound c (c.setState state) :=
  ⟨by rw [setState_current], by rw [setState_current], setState_valSet _, setState_waiting _,
    fun _ => by rw [setState_state]; exact h⟩

theorem sameRound_lockHash : SameRound c { c with current := c.current.lockHash } := by
  refine ⟨?_, ?_, rfl, rfl, fun h => h⟩
  · unfold lockHash
    split <;> rfl
  · unfold lockHash
    split <;> rfl

theorem sameRound_sendCommit : SameRound c (c.sendCommit bk env) := by
  unfold sendCommit sendSubject
  split
  · exact ⟨rfl, rfl, rfl, rfl, fun h => h⟩
  · split <;> exact ⟨rfl, rfl, rfl, rfl, fun h => h⟩

theorem tryPrepared_sameRound (digest : Hash) : SameRound c (c.tryPrepared bk env digest) := by
  have hprep : ∀ d : Core, SameRound d ((d.setState .prepared).sendCommit bk env) := fun d =>
    (sameRound_setState (by simp)).trans sameRound_sendCommit
  unfold tryPrepared
  split
  · dsimp only
    split
    · exact sameRound_tick.trans (hprep _)
    · split
      · exact (sameRound_tick.trans sameRound_lockHash).trans (hprep _)
      · exact sameRound_tick
  · exact ⟨rfl, rfl, rfl, rfl, fun h => h⟩

theorem moves_tryPrepared (hsub : c.current.subject = some sub) (hstate : c.state ≠ .acceptRequest)
    (hwait : c.waitingForRoundChange = false) :
    Moves bk env ctx c (c.tryPrepared bk env sub.digest) := by
  obtain ⟨p, hp, rfl⟩ := subject_digest hsub
  have hprep : ∀ d : Core, d.state ≠ .acceptRequest → d.current.proposal = some p →
      d.current.lockedHash = p.hash →
      Moves bk env ctx d ((d.setState .prepared).sendCommit bk env) := by
    intro d hd hdp hdl
    have hset : Moves bk env ctx d (d.setState .prepared) :=
      moves_setState _ (.single (.setState _ hd (by simp)))
    refine hset.trans (moves_sendCommit fun sub hsub => ?_)
    rw [setState_current] at hsub ⊢
    obtain ⟨q, hq, rfl⟩ := subject_digest hsub
    rw [hdp] at hq
    obtain rfl := some.inj hq
    exact hdl
  unfold tryPrepared
  split
  · dsimp only
    split
    · rename_i hl
      exact idle_tick.moves.trans (hprep _ hstate hp hl.2.symm)
    · split
      · refine (idle_tick.moves.tail (.lock hstate hwait)).trans (hprep _ hstate ?_ ?_)
        · rw [sameRound_lockHash.proposal]
          exact hp
        · have hp' : c.tick.current.proposal = some p := hp
          simp [lockHash_of_proposal hp']
      · exact idle_tick.moves
  · exact .refl

theorem moves_tryCommitted (hp : c.current.proposal = some p) (hstate : c.state ≠ .acceptRequest)
    (hwait : c.waitingForRoundChange = false) (hne : c.current.commits.messages ≠ []) :
    Moves bk env ctx c (c.tryCommitted bk) := by
  unfold tryCommitted
  split
  · rename_i hq
    refine ReflTransGen.head (.lock hstate hwait) (moves_commit (p := p) hstate hwait ?_ ?_ ?_ ?_)
    · rw [sameRound_lockHash.proposal]
      exact hp
    · simp [lockHash_of_proposal hp]
    · rw [sameRound_lockHash.commits]
      exact hne
    · rw [sameRound_lockHash.commits]
      exact hq.2
  · exact .refl

variable {code : MsgCode} {view : View} {msg : Message} {ev : Event} {c' : Core}

theorem checkMessage_none (hcode : code ≠ .roundChange) (h : c.checkMessage code view = none) :
    view = c.currentView ∧ c.waitingForRoundChange = false ∧
      (c.state = .acceptRequest → code = .preprepare) := by
  unfold checkMessage at h
  rw [if_neg hcode] at h
  cases hcmp : view.cmp c.currentView with
  | lt | gt => simp [hcmp] at h
  | eq =>
    refine ⟨View.cmp_eq_eq.mp hcmp, ?_⟩
    cases hwait : c.waitingForRoundChange with
    | true => simp [hcmp, hwait] at h
    | false =>
      refine ⟨rfl, fun hstate => ?_⟩
      by_contra hne
      simp [hcmp, hwait, hstate, hne] at h

theorem checkMessage_roundChange_none (h : c.checkMessage .roundChange view = none) :
    view.sequence = c.current.sequence ∧ c.current.round ≤ view.round := by
  have hfut : ¬ c.current.sequence < view.sequence := fun hlt => by simp [checkMessage, hlt] at h
  have hold : view.cmp c.currentView ≠ .lt := fun hlt => by simp [checkMessage, hfut, hlt] at h
  rw [ne_eq, View.cmp_eq_lt, not_or, not_and] at hold
  have hseq : view.sequence = c.current.sequence := by
    have := hold.1
    simp only [currentView, RoundState.view] at this
    omega
  exact ⟨hseq, Nat.le_of_not_lt (hold.2 hseq)⟩

theorem checkSubject_none (hcode : code ≠ .roundChange) (hpp : code ≠ .preprepare)
    (h : c.checkSubject env code msg sub = none) :
    c.current.subject = some sub ∧ c.state ≠ .acceptRequest ∧ c.waitingForRoundChange = false ∧
      c.valSet.checkInSubList env msg.hash sub.view msg.address = true := by
  unfold checkSubject at h
  cases hcheck : c.checkMessage code sub.view with
  | some err => simp [hcheck] at h
  | none =>
    obtain ⟨_, hwait, hstate⟩ := checkMessage_none hcode hcheck
    by_cases hsub : c.current.subject = some sub
    · by_cases hin : c.valSet.checkInSubList env msg.hash sub.view msg.address = true
      · exact ⟨hsub, fun hs => hpp (hstate hs), hwait, hin⟩
      · simp [hcheck, hsub, hin] at h
    · simp [hcheck, hsub] at h

/-- Only the counted votes are others. -/
def Counted (c c' : Core) : Prop :=
  ∃ prepares commits,
    c' = { c with current := { c.current with prepares := prepares, commits := commits } }

theorem Counted.votable (h : c.Counted c₁) : c₁.current.subject = c.current.subject ∧
    c₁.state = c.state ∧ c₁.waitingForRoundChange = c.waitingForRoundChange := by
  obtain ⟨_, _, rfl⟩ := h
  exact ⟨rfl, rfl, rfl⟩

theorem counted_acceptPrepare (msg : Message) : c.Counted (c.acceptPrepare msg) := by
  unfold acceptPrepare
  split <;> exact ⟨_, _, rfl⟩

theorem counted_acceptCommit (msg : Message) : c.Counted (c.acceptCommit msg) := by
  unfold acceptCommit
  split <;> exact ⟨_, _, rfl⟩

/-- A handler receives the message and then moves. -/
abbrev Handles (bk : Backend) (env : ChainEnv) (ctx : Option Message) (c c' : Core) : Prop :=
  ∃ c₁, Receive bk env ctx c c₁ ∧ Moves bk env ctx c₁ c'

theorem handles_acceptVerified {pp : Preprepare} (hmsg : msg.decodePreprepare = some pp)
    (hcode : msg.code = .preprepare) (hcheck : c.checkMessage .preprepare pp.view = none)
    (hproposer : c.valSet.isProposer msg.address = true) :
    Handles bk env (some msg) c (c.tick.acceptVerified bk env pp) := by
  unfold acceptVerified
  split
  · rename_i hstate
    dsimp only
    split
    · split
      · rename_i hhash
        refine ⟨_, .acceptLocked msg pp hmsg hcode hcheck hproposer hstate hhash, ?_⟩
        refine (moves_setState .prepared .refl).trans (moves_sendCommit fun sub hsub => ?_)
        obtain ⟨q, hq, rfl⟩ := subject_digest hsub
        obtain rfl : pp.proposal = q := some.inj hq
        exact hhash.symm
      · exact ⟨c, .nothing, ((idle_tick.moves.trans idle_tick.moves).tail .reseal).trans
          moves_sendNextRoundChange⟩
    · rename_i hlock
      exact ⟨_, .accept msg pp hmsg hcode hcheck hproposer hstate (by simpa using hlock),
        (moves_setState .preprepared .refl).trans moves_sendPrepare⟩
  · exact ⟨c, .nothing, idle_tick.moves⟩

theorem handles_handlePreprepare (hcode : msg.code = .preprepare) :
    Handles bk env (some msg) c (c.handlePreprepare bk env msg).1 := by
  unfold handlePreprepare
  dsimp only
  split
  · exact ⟨c, .nothing, .refl⟩
  · rename_i pp hmsg
    split
    · rename_i hcheck
      split
      · rename_i sub hsub
        exact ⟨_, .oldBlock msg pp sub hmsg hcode hcheck hsub, .refl⟩
      · exact ⟨c, .nothing, Idle.moves ⟨rfl, Nat.le_add_right _ _, fun _ h => .inl h⟩⟩
    · exact ⟨c, .nothing, .refl⟩
    · rename_i hcheck
      split
      · rename_i hproposer
        split
        · refine ⟨c, .nothing, idle_tick.moves.trans (Idle.moves ⟨rfl, le_rfl, fun m hm => ?_⟩)⟩
          rcases mem_append.mp hm with hm | hm
          · exact .inl (mem_append_left _ hm)
          · rcases mem_cons.mp hm with rfl | hm
            · exact .inr rfl
            · exact .inl (mem_append_right _ hm)
        · exact ⟨c, .nothing, idle_tick.moves.trans moves_sendNextRoundChange⟩
        · exact handles_acceptVerified hmsg hcode hcheck hproposer
      · exact ⟨c, .nothing, .refl⟩

theorem handles_handlePrepare (hcode : msg.code = .prepare) :
    Handles bk env (some msg) c (c.handlePrepare bk env msg).1 := by
  unfold handlePrepare
  split
  · exact ⟨c, .nothing, .refl⟩
  · rename_i sub hmsg
    split
    · exact ⟨c, .nothing, .refl⟩
    · rename_i hcheck
      obtain ⟨hsub, hstate, hwait, -⟩ := checkSubject_none (by simp) (by simp) hcheck
      obtain ⟨h1, h2, h3⟩ := (counted_acceptPrepare (c := c) msg).votable
      exact ⟨_, .prepare msg sub hmsg hcode hcheck,
        moves_tryPrepared (h1.trans hsub) (h2 ▸ hstate) (h3.trans hwait)⟩

theorem handles_handleCommit (hcode : msg.code = .commit)
    (hsrc : (c.valSet.getByAddress msg.address).isSome) :
    Handles bk env (some msg) c (c.handleCommit bk env msg).1 := by
  unfold handleCommit
  split
  · exact ⟨c, .nothing, .refl⟩
  · rename_i sub hmsg
    split
    · exact ⟨c, .nothing, .refl⟩
    · rename_i hcheck
      obtain ⟨hsub, hstate, hwait, -⟩ := checkSubject_none (by simp) (by simp) hcheck
      have hne : (c.acceptCommit msg).current.commits.messages ≠ [] := by
        simp [acceptCommit, MessageSet.add, hsrc, MessageSet.insert]
      obtain ⟨h1, h2, h3⟩ := (counted_acceptCommit (c := c) msg).votable
      have hsame : SameRound (c.acceptCommit msg)
          ((c.acceptCommit msg).tryPrepared bk env sub.digest) := tryPrepared_sameRound _
      obtain ⟨p, hp, -⟩ := subject_digest (h1.trans hsub)
      exact ⟨_, .commit msg sub hmsg hcode hcheck,
        (moves_tryPrepared (h1.trans hsub) (h2 ▸ hstate) (h3.trans hwait)).trans (moves_tryCommitted
          (hsame.proposal.trans hp) (hsame.state (h2 ▸ hstate)) (hsame.waiting.trans (h3.trans hwait))
          (hsame.commits ▸ hne))⟩

theorem handles_handleRoundChange (hcode : msg.code = .roundChange) :
    Handles bk env (some msg) c (c.handleRoundChange bk env msg).1 := by
  unfold handleRoundChange
  split
  · exact ⟨c, .nothing, .refl⟩
  · rename_i rc hmsg
    split
    · exact ⟨c, .nothing, .refl⟩
    · rename_i hcheck
      dsimp only
      split
      · exact ⟨_, .roundChange msg rc hmsg hcode hcheck, .refl⟩
      · rename_i num hnum
        split
        · rename_i hstart
          exact ⟨_, .startNewRound msg rc hmsg hcode hcheck (hstart.1 ▸ hnum),
            moves_startNewRound _⟩
        · split
          · rename_i hcatch
            split
            · exact ⟨_, .sendRoundChange msg rc num hmsg hcode hcheck hnum hcatch.2,
                moves_sendRoundChange _⟩
            · exact ⟨_, .roundChange msg rc hmsg hcode hcheck, .refl⟩
          · split
            · exact ⟨_, .roundChange msg rc hmsg hcode hcheck, .refl⟩
            · exact ⟨_, .roundChange msg rc hmsg hcode hcheck, .refl⟩

theorem Handles.trans_moves {c₂ : Core} (h : Handles bk env ctx c c₁) (h' : Moves bk env ctx c₁ c₂) :
    Handles bk env ctx c c₂ :=
  h.imp fun _ ⟨hr, hm⟩ => ⟨hr, hm.trans h'⟩

theorem handles_handleCheckedMsg (hsrc : (c.valSet.getByAddress msg.address).isSome) :
    Handles bk env (some msg) c (c.handleCheckedMsg bk env msg) := by
  have hstore : ∀ {r : Core × Option Err}, Handles bk env (some msg) c r.1 →
      Handles bk env (some msg) c
        (if r.2 = some .futureMessage then r.1.storeBacklog msg else r.1) := by
    intro r hr
    split
    · exact hr.trans_moves (idle_storeBacklog msg).moves
    · exact hr
  unfold handleCheckedMsg
  cases hcode : msg.code with
  | preprepare => exact hstore (handles_handlePreprepare hcode)
  | prepare => exact hstore (handles_handlePrepare hcode)
  | commit => exact hstore (handles_handleCommit hcode hsrc)
  | roundChange => exact hstore (handles_handleRoundChange hcode)
  | other => exact hstore (r := (c, some .invalidMessage)) ⟨c, .nothing, .refl⟩

theorem moves_handleRequest (proposal : Proposal) :
    Moves bk env ctx c (c.handleRequest bk proposal) := by
  unfold handleRequest
  split
  · exact .refl
  · split
    · exact Idle.moves ⟨rfl, le_rfl, fun _ h => .inl h⟩
    · split
      · exact (moves_sendPreprepare _).tail (.idle ⟨rfl, le_rfl, fun _ h => .inl h⟩)
      · exact Idle.moves ⟨rfl, le_rfl, fun _ h => .inl h⟩

theorem moves_handleTimeoutMsg (nextView : View) :
    Moves bk env ctx c (c.handleTimeoutMsg bk env nextView) := by
  unfold handleTimeoutMsg
  split
  · dsimp only
    split
    · exact idle_tick.moves
    · split
      · exact idle_tick.moves.trans (moves_sendRoundChange _)
      · split
        · exact idle_tick.moves.trans (moves_startNewRound _)
        · exact idle_tick.moves.trans (moves_sendRoundChange _)
  · exact .refl

theorem admits_iff {payload : Payload} : c.admits payload = true ↔
    payload.signer = some payload.msg.address ∧
      (c.valSet.getByAddress payload.msg.address).isSome := by
  unfold admits
  cases payload.signer with
  | none => simp
  | some signer =>
    simp only [Bool.and_eq_true, beq_iff_eq, some.injEq]
    constructor
    · rintro ⟨h, rfl⟩
      exact ⟨rfl, h⟩
    · rintro ⟨rfl, h⟩
      exact ⟨h, rfl⟩

/-- Every step of the event loop is composed of moves. -/
theorem step_handles (h : c.step bk env ev = some c') :
    ∃ posted, (∀ m ∈ posted, m ∈ c.posted) ∧
      Handles bk env (ev.handled c) { c with posted := posted } c' := by
  cases ev with
  | request proposal =>
    obtain rfl := some.inj h
    exact ⟨c.posted, fun _ h => h, c, .nothing, moves_handleRequest _⟩
  | message payload =>
    obtain rfl := some.inj h
    refine ⟨c.posted, fun _ h => h, ?_⟩
    by_cases hadm : c.admits payload = true
    · simp only [handleMsg, Event.handled, hadm, if_true]
      exact handles_handleCheckedMsg (admits_iff.mp hadm).2
    · simp only [handleMsg, Event.handled, hadm, Bool.false_eq_true, if_false]
      exact ⟨c, .nothing, .refl⟩
  | backlog msg =>
    simp only [step] at h
    split at h
    · refine ⟨c.posted.erase msg, fun _ h => mem_of_mem_erase h, ?_⟩
      split at h
      · rename_i hsrc
        obtain rfl := some.inj h
        exact handles_handleCheckedMsg hsrc
      · obtain rfl := some.inj h
        exact ⟨_, .nothing, .refl⟩
    · cases h
  | timeout nextView =>
    obtain rfl := some.inj h
    exact ⟨c.posted, fun _ h => h, c, .nothing, moves_handleTimeoutMsg _⟩
  | finalCommitted =>
    obtain rfl := some.inj h
    exact ⟨c.posted, fun _ h => h, c, .nothing, moves_startNewRound _⟩

theorem step_induct {P : Core → Prop} (h : c.step bk env ev = some c')
    (hreceive : ∀ posted d, (∀ m ∈ posted, m ∈ c.posted) →
      Receive bk env (ev.handled c) { c with posted := posted } d → P d)
    (hmove : ∀ d d', Move bk env (ev.handled c) d d' → P d → P d') : P c' := by
  obtain ⟨posted, hsub, c₁, hr, hm⟩ := step_handles h
  have hc₁ := hreceive posted c₁ hsub hr
  clear h
  induction hm with
  | refl => exact hc₁
  | tail _ hstep ih => exact hmove _ _ hstep ih

end Core

namespace ValidatorSet

variable (V : ValidatorSet) (p : Option Address)

@[simp] theorem setProposer_list : (V.setProposer p).list = V.list := by cases V <;> rfl

@[simp] theorem setProposer_subGroupSize : (V.setProposer p).subGroupSize = V.subGroupSize := by
  cases V <;> rfl

@[simp] theorem setProposer_setProposer (q : Option Address) :
    (V.setProposer p).setProposer q = V.setProposer q := by
  cases V <;> rfl

theorem withProposer_eq_setProposer (env : ChainEnv) (lastProposer : Address) (round : ℕ) :
    ∃ q, V.withProposer env lastProposer round = V.setProposer q := by
  unfold withProposer
  cases V with
  | default s =>
    simp only [calcProposer, DefaultSet.calcProposer]
    split_ifs with hempty
    · exact ⟨s.proposer, rfl⟩
    · cases s.selector lastProposer round with
      | error e => exact ⟨none, rfl⟩
      | ok q => exact ⟨some q, rfl⟩
  | weighted c =>
    simp only [calcProposer, WeightedCouncil.calcProposer]
    cases weightedRandomProposer env c round with
    | error e => exact ⟨none, rfl⟩
    | ok q =>
      cases q with
      | some q => exact ⟨some q, rfl⟩
      | none =>
        split_ifs with hempty
        · exact ⟨some lastProposer, rfl⟩
        · cases c.chooseProposerByRoundRobin lastProposer round with
          | error e => exact ⟨none, rfl⟩
          | ok q => exact ⟨some q, rfl⟩

end ValidatorSet

section Frames

variable {bk : Backend} {env : ChainEnv} {ctx : Option Message} {c c' : Core}

theorem Core.Idle.frame (h : c.Idle ctx c') : c'.state = c.state ∧ c'.valSet = c.valSet ∧
    c'.waitingForRoundChange = c.waitingForRoundChange ∧ c'.roundChangeSet = c.roundChangeSet ∧
    c'.log = c.log ∧ c'.address = c.address := by
  rw [h.eq]
  exact ⟨rfl, rfl, rfl, rfl, rfl, rfl⟩

theorem Core.Idle.current (h : c.Idle ctx c') :
    ∃ request, c'.current = { c.current with pendingRequest := request } := by
  rw [h.eq]
  exact ⟨_, rfl⟩

theorem RoundState.lockHash_view (s : RoundState) : s.lockHash.view = s.view := by
  unfold lockHash
  split <;> rfl

theorem Move.proposal (h : Move bk env ctx c c') {p' : Proposal}
    (hp' : c'.current.proposal = some p') :
    ∃ p, c.current.proposal = some p ∧ p'.header = p.header ∧
      ∃ q, c'.valSet = c.valSet.setProposer q := by
  have hsame : c.valSet = c.valSet.setProposer c.valSet.getProposer := by
    cases c.valSet <;> rfl
  cases h with
  | idle h =>
    obtain ⟨-, hvalSet, -⟩ := h.frame
    obtain ⟨request, hcur⟩ := h.current
    rw [hcur] at hp'
    exact ⟨p', hp', rfl, _, hvalSet.trans hsame⟩
  | newSequence => cases hp'
  | newRound round lastProposer =>
    cases hk : c.isHashLocked bk with
    | true =>
      simp only [hk] at hp'
      exact ⟨p', hp', rfl, c.valSet.withProposer_eq_setProposer env lastProposer (uint64 round)⟩
    | false =>
      simp only [hk] at hp'
      cases hp'
  | catchUp round =>
    cases hk : c.isHashLocked bk with
    | true =>
      simp only [Core.catchUpRound, hk] at hp'
      exact ⟨p', hp', rfl, _, hsame⟩
    | false =>
      simp only [Core.catchUpRound, hk] at hp'
      cases hp'
  | reseal =>
    have hmap : c.current.proposal.map (·.withRound c.current.round) = some p' := by
      rw [← hp']
      simp [Core.resealPreprepare, proposal, Function.comp_def]
    obtain ⟨p, hp, rfl⟩ := map_eq_some_iff.mp hmap
    exact ⟨p, hp, rfl, _, hsame⟩
  | lock =>
    rw [Core.sameRound_lockHash.proposal] at hp'
    exact ⟨p', hp', rfl, _, hsame⟩
  | commit =>
    refine ⟨p', ?_, rfl, _, hsame⟩
    split at hp' <;> exact hp'
  | send | setState => exact ⟨p', hp', rfl, _, hsame⟩

/-- What the handling of a message leaves as it was before any move. -/
structure Receive.Frame (bk : Backend) (c c' : Core) : Prop where
  valSet : c'.valSet = c.valSet
  stored : c'.stored = c.stored
  clock_le : c.clock ≤ c'.clock
  view : c'.current.view = c.current.view
  lockedHash : c'.current.lockedHash = c.current.lockedHash
  preprepare : c'.current.preprepare = c.current.preprepare ∨
    ∃ pp, c'.current.preprepare = some pp ∧ c'.clock = c.clock + 2 ∧
      (pp.proposal.hash = c.current.lockedHash ∨ c.tick.isHashLocked bk = false)

theorem Core.Counted.frame (h : c.Counted c') : Receive.Frame bk c c' := by
  obtain ⟨_, _, rfl⟩ := h
  exact ⟨rfl, rfl, le_rfl, rfl, rfl, .inl rfl⟩

theorem Receive.frame (h : Receive bk env ctx c c') : Receive.Frame bk c c' := by
  cases h with
  | accept msg pp _ _ _ _ _ hunlocked =>
    exact ⟨rfl, rfl, Nat.le_add_right _ 2, rfl, rfl, .inr ⟨pp, rfl, rfl, .inr hunlocked⟩⟩
  | acceptLocked msg pp _ _ _ _ _ hhash =>
    exact ⟨rfl, rfl, Nat.le_add_right _ 2, rfl, rfl, .inr ⟨pp, rfl, rfl, .inl hhash⟩⟩
  | prepare msg => exact (Core.counted_acceptPrepare msg).frame
  | commit msg => exact (Core.counted_acceptCommit msg).frame
  | oldBlock => exact ⟨rfl, rfl, Nat.le_add_right _ _, rfl, rfl, .inl rfl⟩
  | nothing | roundChange | startNewRound | sendRoundChange =>
    exact ⟨rfl, rfl, le_rfl, rfl, rfl, .inl rfl⟩

theorem Receive.proposal (h : Receive bk env ctx c c') {p' : Proposal}
    (hp' : c'.current.proposal = some p') :
    c.current.proposal = some p' ∨ ∃ msg pp, ctx = some msg ∧ msg.code = .preprepare ∧
      msg.decodePreprepare = some pp ∧ pp.view = c.currentView ∧ p' = pp.proposal := by
  cases h with
  | accept msg pp hmsg hcode hcheck | acceptLocked msg pp hmsg hcode hcheck =>
    exact .inr ⟨msg, pp, rfl, hcode, hmsg,
      (Core.checkMessage_none (by simp) hcheck).1, (some.inj hp').symm⟩
  | prepare msg =>
    obtain ⟨_, _, heq⟩ := Core.counted_acceptPrepare (c := c) msg
    exact .inl (by rwa [heq] at hp')
  | commit msg =>
    obtain ⟨_, _, heq⟩ := Core.counted_acceptCommit (c := c) msg
    exact .inl (by rwa [heq] at hp')
  | nothing | roundChange | startNewRound | sendRoundChange | oldBlock => exact .inl hp'

/-- What a move can add to the log. -/
inductive Core.Logs (c : Core) : Effect → Prop
  | send (origin : Origin) (msg : Message) : c.Sends origin msg → Logs c (.broadcast origin msg)
  | commit (p : Proposal) : c.current.proposal = some p → c.current.commits.messages ≠ [] →
      requiredMessageCount c.valSet ≤ c.current.commits.size →
      Logs c (.commit c.currentView p c.current.committedSeals)

theorem Move.log (h : Move bk env ctx c c') :
    ∃ new, c'.log = new ++ c.log ∧ ∀ e ∈ new, c.Logs e := by
  cases h with
  | idle h =>
    obtain ⟨-, -, -, -, hlog, -⟩ := h.frame
    exact ⟨[], hlog, by simp⟩
  | send origin msg hsend => exact ⟨[_], rfl, forall_mem_singleton.mpr (.send origin msg hsend)⟩
  | commit p hp _ hne hq => exact ⟨[_], rfl, forall_mem_singleton.mpr (.commit p hp hne hq)⟩
  | newSequence | newRound | catchUp | reseal | lock | setState => exact ⟨[], rfl, by simp⟩

/-- What the handling of a message can add to the log before any move. -/
inductive Core.Replies (bk : Backend) (env : ChainEnv) (ctx : Option Message) (c : Core) :
    Effect → Prop
  | startNewRound (W : ValidatorSet) (v : View) : Replies bk env ctx c (.startNewRound W v)
  | sendRoundChange (W : ValidatorSet) (v : View) : Replies bk env ctx c (.sendRoundChange W v)
  | oldBlock (msg : Message) (pp : Preprepare) (sub : Subject) (m : Message) : ctx = some msg →
      msg.code = .preprepare → msg.decodePreprepare = some pp →
      c.checkMessage .preprepare pp.view = some .oldMessage →
      c.oldBlockCommit bk env pp msg.address = some sub → m.decodeSubject = some sub →
      Replies bk env ctx c (.broadcast .sendCommitForOldBlock m)

theorem Receive.log (h : Receive bk env ctx c c') :
    ∃ new, c'.log = new ++ c.log ∧ ∀ e ∈ new, c.Replies bk env ctx e := by
  cases h with
  | prepare msg =>
    unfold Core.acceptPrepare
    split <;> exact ⟨[], rfl, by simp⟩
  | commit msg =>
    unfold Core.acceptCommit
    split <;> exact ⟨[], rfl, by simp⟩
  | startNewRound => exact ⟨[_], rfl, forall_mem_singleton.mpr (.startNewRound _ _)⟩
  | sendRoundChange => exact ⟨[_], rfl, forall_mem_singleton.mpr (.sendRoundChange _ _)⟩
  | oldBlock msg pp sub hmsg hcode hcheck hsub =>
    exact ⟨[_], rfl, forall_mem_singleton.mpr
      (.oldBlock msg pp sub _ rfl hcode hmsg hcheck hsub rfl)⟩
  | nothing | accept | acceptLocked | roundChange => exact ⟨[], rfl, by simp⟩

theorem Move.mem_log (h : Move bk env ctx c c') {e : Effect} (he : e ∈ c'.log) :
    e ∈ c.log ∨ c.Logs e := by
  obtain ⟨new, hlog, hnew⟩ := h.log
  rw [hlog] at he
  exact (mem_append.mp he).symm.imp_right (hnew e)

theorem Receive.mem_log (h : Receive bk env ctx c c') {e : Effect} (he : e ∈ c'.log) :
    e ∈ c.log ∨ c.Replies bk env ctx e := by
  obtain ⟨new, hlog, hnew⟩ := h.log
  rw [hlog] at he
  exact (mem_append.mp he).symm.imp_right (hnew e)

end Frames

theorem start_current (address : Address) (node : Bool) :
    (Core.start bk env address node).current = .newSequence ((bk 0).lastProposal.1.number + 1) := by
  simp only [Core.start, Core.enterRound, Core.setState_current]

theorem start_empty (address : Address) (node : Bool) :
    (Core.start bk env address node).roundChangeSet = [] ∧
      (Core.start bk env address node).stored = [] ∧
      (Core.start bk env address node).log = [] :=
  ⟨rfl, rfl, rfl⟩

abbrev CoreRuns : Core → List Event → Core → Prop :=
  Runs (Core.step bk env) fun _ _ => True

variable {bk : Backend} {env : ChainEnv} {ctx : Option Message} {c c' : Core} {ev : Event}

/-- The message came in with the signature of its sender. -/
def Sent (es : List Event) (m : Message) : Prop :=
  ∃ payload, .message payload ∈ es ∧ payload.msg = m ∧ payload.signer = some m.address

variable {es : List Event} {m : Message}

theorem Sent.mono (h : Sent es m) (fs : List Event) : Sent (es ++ fs) m :=
  h.imp fun _ ⟨hmem, hrest⟩ => ⟨mem_append_left _ hmem, hrest⟩

theorem Move.stored (h : Move bk env ctx c c') : ∀ m ∈ c'.stored, m ∈ c.stored ∨ ctx = some m := by
  cases h with
  | idle h => exact h.stored
  | send | newSequence | newRound | catchUp | reseal | lock | setState | commit =>
    exact fun _ hm => .inl hm

theorem Core.stored_of_posted {posted : List Message} (hsub : ∀ m ∈ posted, m ∈ c.posted)
    (hm : m ∈ { c with posted := posted }.stored) : m ∈ c.stored :=
  mem_append.mpr ((mem_append.mp hm).imp_right (hsub m))

theorem handled_cases (h : c.step bk env ev = some c') (hm : ev.handled c = some m) :
    (∃ payload, ev = .message payload ∧ payload.msg = m ∧ payload.signer = some m.address) ∨
      m ∈ c.stored := by
  cases ev with
  | message payload =>
    obtain ⟨hadm, rfl⟩ := ite_none_right_eq_some.mp hm |>.imp_right some.inj
    exact .inl ⟨payload, rfl, rfl, (Core.admits_iff.mp hadm).1⟩
  | backlog msg =>
    obtain rfl := some.inj hm
    obtain ⟨hposted, -⟩ := ite_none_right_eq_some.mp h
    exact .inr (mem_append_right _ hposted)
  | request | timeout | finalCommitted => cases hm

theorem sent_of_handled (h : c.step bk env ev = some c') (hstored : ∀ m ∈ c.stored, Sent es m)
    (hm : ev.handled c = some m) : Sent (es ++ [ev]) m := by
  rcases handled_cases h hm with ⟨payload, rfl, hmsg, hsigner⟩ | hold
  · exact ⟨payload, by simp, hmsg, hsigner⟩
  · exact (hstored m hold).mono _

end Kaia
