import Kaia.Core.State

/-! # Event handlers of the consensus core

The handlers of requests, messages, backlog events, timeouts and final commits. A timeout is an
event like any other, and gossip has no effect on the state.
-/

namespace Kaia

open Foundation

def ValidatorSet.setProposer (V : ValidatorSet) (proposer : Option Address) : ValidatorSet :=
  match V with
  | .default s => .default { s with proposer := proposer }
  | .weighted c => .weighted { c with proposer := proposer }

/-- Select the proposer of a round; a selection that panics leaves no proposer. -/
def ValidatorSet.withProposer (env : ChainEnv) (V : ValidatorSet) (lastProposer : Address)
    (round : ℕ) : ValidatorSet :=
  match V.calcProposer env lastProposer round with
  | .ok V' => V'
  | .error _ => V.setProposer none

def Message.view? (m : Message) : Option View :=
  match m.code with
  | .preprepare => m.decodePreprepare.map Preprepare.view
  | _ => m.decodeSubject.map Subject.view

def msgPriority : MsgCode → ℕ
  | .preprepare => 1
  | .commit => 2
  | .prepare => 3
  | _ => 0

def toPriority (code : MsgCode) (view : View) : ℤ :=
  match code with
  | .roundChange => int64 (-int64 (uint64 view.sequence * 1000))
  | _ => int64 (-int64 (uint64 view.sequence * 1000 + uint64 view.round * 10 + msgPriority code))

def copySeal (sig : Bytes) : Bytes := sig.take 65 ++ List.replicate (65 - sig.length) 0

namespace Core

variable (bk : Backend) (env : ChainEnv)

variable (c : Core)

/-- Why a message of a view cannot be handled now. -/
def checkMessage (code : MsgCode) (view : View) : Option Err :=
  if code = .roundChange then
    if c.current.sequence < view.sequence then some .futureMessage
    else if view.cmp c.currentView = .lt then some .oldMessage
    else none
  else if view.cmp c.currentView = .gt then some .futureMessage
  else if view.cmp c.currentView = .lt then some .oldMessage
  else if c.waitingForRoundChange then some .futureMessage
  else if c.state = .acceptRequest then
    if code ≠ .preprepare then some .futureMessage else none
  else none

/-- Keep a future message in the backlog of its sender. -/
def storeBacklog (msg : Message) : Core :=
  let src := msg.address
  if src = c.address then c
  else
    let backlog := (c.backlogs.lookup src).getD []
    let backlog := match msg.view? with
      | some view => backlog.push msg (toPriority msg.code view)
      | none => backlog
    { c with backlogs := (src, backlog) :: c.backlogs.filter fun b => b.1 ≠ src }

/-- Take messages from a backlog up to the first one in the future. -/
def drainBacklog (c : Core) : ℕ → Prque Message → List Message → Prque Message × List Message
  | 0, backlog, msgs => (backlog, msgs)
  | fuel + 1, backlog, msgs =>
    match backlog.pop with
    | none => (backlog, msgs)
    | some ((msg, prio), rest) =>
      match msg.view? with
      | none => drainBacklog c fuel rest msgs
      | some view =>
        match c.checkMessage msg.code view with
        | some .futureMessage => (rest.push msg prio, msgs)
        | some _ => drainBacklog c fuel rest msgs
        | none => drainBacklog c fuel rest (msg :: msgs)

def processBacklog : Core :=
  let drained := c.backlogs.map fun b => (b.1, c.drainBacklog b.2.length b.2 [])
  { c with
    backlogs := drained.map fun d => (d.1, d.2.1)
    posted := drained.flatMap (fun d => d.2.2) ++ c.posted }

/-- Drop the requests up to the first of a later sequence, and post those of the current one. -/
def drainRequests (sequence : ℕ) : ℕ → Prque Proposal → Prque Proposal
  | 0, q => q
  | fuel + 1, q =>
    match q.pop with
    | none => q
    | some ((proposal, prio), rest) =>
      if sequence < proposal.number then rest.push proposal prio
      else drainRequests sequence fuel rest

def processPendingRequests : Core :=
  { c with pendingRequests :=
      drainRequests c.current.sequence c.pendingRequests.length c.pendingRequests }

def setState (state : State) : Core :=
  let c := { c with state := state }
  let c := if state = .acceptRequest then c.processPendingRequests else c
  c.processBacklog

/-- `finalizeMessage` and `broadcast`; a COMMIT carries the seal of the current proposal. -/
def broadcast (origin : Origin) (hash : Hash) (code : MsgCode) (body : Body) : Core :=
  let committedSeal := match code, c.current.proposal with
    | .commit, some p => (bk c.clock).sign (prepareCommittedSeal p.hash)
    | _, _ => []
  { c with log := .broadcast origin ⟨hash, code, body, c.address, committedSeal⟩ :: c.log }

def sendPreprepare (proposal : Proposal) : Core :=
  let proposal := proposal.withRound c.current.round
  if c.current.sequence = proposal.number ∧ c.isProposer then
    c.broadcast bk .sendPreprepare proposal.parentHash .preprepare
      (.preprepare ⟨c.currentView, proposal⟩)
  else c

/-- Send the current subject, if the node is in the committee of its view. -/
def sendSubject (origin : Origin) (code : MsgCode) : Core :=
  match c.current.subject with
  | none => c
  | some sub =>
    if c.valSet.checkInSubList env sub.prevHash sub.view c.address then
      c.broadcast bk origin sub.prevHash code (.subject sub)
    else c

def sendPrepare : Core := c.sendSubject bk env .sendPrepare .prepare

def sendCommit : Core := c.sendSubject bk env .sendCommit .commit

def sendCommitForOldBlock (sub : Subject) : Core :=
  c.broadcast bk .sendCommitForOldBlock sub.prevHash .commit (.subject sub)

variable (round : ℕ)

def catchUpRound : Core :=
  let locked := c.isHashLocked bk
  { c.tick with
    waitingForRoundChange := true
    current := c.current.nextRound round locked
    roundChangeSet := c.roundChangeSet.clear round }

def sendRoundChange : Core :=
  if round ≤ c.current.round then c
  else
    let c := c.catchUpRound bk round
    let (lastProposal, _) := (bk c.clock).lastProposal
    let c := c.tick
    c.broadcast bk .sendRoundChange lastProposal.hash .roundChange
      (.subject ⟨c.currentView, 0, lastProposal.hash⟩)

def sendNextRoundChange : Core :=
  if c.consensusNode then c.sendRoundChange bk (c.current.round + 1) else c

/-- The part of `startNewRound` that both a new sequence and a new round share. -/
def enterRound (current : RoundState) (valSet : ValidatorSet) (lastProposer : Address) : Core :=
  setState { c with
    roundChangeSet := []
    current := current
    valSet := valSet.withProposer env lastProposer (uint64 current.round)
    waitingForRoundChange := false } .acceptRequest

/-- Propose again after a round change: the locked proposal, or the pending request. -/
def proposeAgain : Core :=
  if c.isProposer then
    let locked := c.isHashLocked bk
    let c := c.tick
    if locked then
      match c.current.proposal with
      | some proposal => c.sendPreprepare bk proposal
      | none => c
    else
      match c.current.pendingRequest with
      | some request =>
        let c := c.sendPreprepare bk request
        { c with current :=
            { c.current with pendingRequest := some (request.withRound c.current.round) } }
      | none => c
  else c

def startNewRound : Core :=
  let (lastProposal, lastProposer) := (bk c.clock).lastProposal
  let c := c.tick
  if c.current.sequence ≤ lastProposal.number then
    let valSet := (bk c.clock).validators lastProposal
    c.tick.enterRound env (.newSequence (lastProposal.number + 1)) valSet lastProposer
  else if (lastProposal.number : ℤ) = int64 (int64 c.current.sequence - 1) then
    if round = 0 then c
    else if round < c.current.round then c
    else
      let locked := c.isHashLocked bk
      let c := c.tick.enterRound env (c.current.nextRound round locked) c.valSet lastProposer
      c.proposeAgain bk
  else c

def commit : Core :=
  let c := c.setState .committed
  match c.current.proposal with
  | some proposal =>
    let committedSeals := c.current.commits.messages.map fun m => copySeal m.committedSeal
    let inserted := (bk c.clock).commit proposal committedSeals
    let c := { c.tick with log := .commit c.currentView proposal committedSeals :: c.log }
    if inserted then c else sendNextRoundChange bk { c with current := c.current.unlockHash }
  | none => sendNextRoundChange bk { c with current := c.current.unlockHash }

variable (msg : Message)

variable (preprepare : Preprepare)

/-- The answer to an old PRE-PREPARE: a COMMIT, if its sender proposed the block that is there. -/
def oldBlockCommit (src : Address) : Option Subject :=
  let proposal := preprepare.proposal
  let valSet := ((bk c.clock).parentValidators proposal).copy env.order
  let previousProposer := (bk (c.clock + 1)).getProposer (sub64 proposal.number 1)
  match valSet.calcProposer env previousProposer (uint64 preprepare.view.round) with
  | .error _ => none
  | .ok valSet =>
    if valSet.isProposer src ∧ (bk (c.clock + 2)).hasProposal proposal.hash proposal.number then
      some ⟨preprepare.view, proposal.hash, proposal.parentHash⟩
    else none

def resealPreprepare : Core :=
  { c with current := { c.current with
      preprepare := c.current.preprepare.map fun kept =>
        { kept with proposal := kept.proposal.withRound c.current.round } } }

def acceptPreprepare : Core :=
  { c with current := { c.current with preprepare := some preprepare } }

/-- The part of `handlePreprepare` after the proposal has been verified. -/
def acceptVerified : Core :=
  if c.state = .acceptRequest then
    let locked := c.isHashLocked bk
    let c := c.tick
    if locked then
      let c := c.resealPreprepare
      if preprepare.proposal.hash = c.current.lockedHash then
        ((c.acceptPreprepare preprepare).setState .prepared).sendCommit bk env
      else c.sendNextRoundChange bk
    else ((c.acceptPreprepare preprepare).setState .preprepared).sendPrepare bk env
  else c

def handlePreprepare : Core × Option Err :=
  let src := msg.address
  match msg.decodePreprepare with
  | none => (c, some .invalidMessage)
  | some preprepare =>
    match c.checkMessage .preprepare preprepare.view with
    | some .oldMessage =>
      match c.oldBlockCommit bk env preprepare src with
      | some sub => (sendCommitForOldBlock bk { c with clock := c.clock + 3 } sub, none)
      | none => ({ c with clock := c.clock + 3 }, some .oldMessage)
    | some err => (c, some err)
    | none =>
      if c.valSet.isProposer src then
        match (bk c.clock).verify preprepare.proposal with
        | .futureBlock =>
          ({ c.tick with posted := msg :: c.posted }, some .futureBlock)
        | .invalid => (c.tick.sendNextRoundChange bk, some .verification)
        | .ok => (c.tick.acceptVerified bk env preprepare, none)
      else (c, some .notFromProposer)

/-- Why a PREPARE or COMMIT is not counted; the hash in the message selects the committee. -/
def checkSubject (code : MsgCode) (msg : Message) (sub : Subject) : Option Err :=
  match c.checkMessage code sub.view with
  | some err => some err
  | none =>
    if c.current.subject ≠ some sub then some .inconsistentSubject
    else if c.valSet.checkInSubList env msg.hash sub.view msg.address then none
    else some .notFromCommittee

def acceptPrepare : Core :=
  match c.current.prepares.add c.valSet msg with
  | some prepares => { c with current := { c.current with prepares := prepares } }
  | none => c

def acceptCommit : Core :=
  match c.current.commits.add c.valSet msg with
  | some commits => { c with current := { c.current with commits := commits } }
  | none => c

/-- Become prepared on the locked digest or on a quorum of PREPARE and COMMIT messages. -/
def tryPrepared (digest : Hash) : Core :=
  if c.state.rank < State.prepared.rank then
    let locked := c.isHashLocked bk
    let c := c.tick
    if locked ∧ digest = c.current.lockedHash then (c.setState .prepared).sendCommit bk env
    else if requiredMessageCount c.valSet ≤ c.current.getPrepareOrCommitSize then
      (setState { c with current := c.current.lockHash } .prepared).sendCommit bk env
    else c
  else c

def handlePrepare : Core × Option Err :=
  match msg.decodeSubject with
  | none => (c, some .invalidMessage)
  | some prepare =>
    match c.checkSubject env .prepare msg prepare with
    | some err => (c, some err)
    | none => ((c.acceptPrepare msg).tryPrepared bk env prepare.digest, none)

def tryCommitted : Core :=
  if c.state.rank < State.committed.rank ∧ requiredMessageCount c.valSet ≤ c.current.commits.size then
    commit bk { c with current := c.current.lockHash }
  else c

def handleCommit : Core × Option Err :=
  match msg.decodeSubject with
  | none => (c, some .invalidMessage)
  | some commit =>
    match c.checkSubject env .commit msg commit with
    | some err => (c, some err)
    | none => (((c.acceptCommit msg).tryPrepared bk env commit.digest).tryCommitted bk, none)

def handleRoundChange : Core × Option Err :=
  match msg.decodeSubject with
  | none => (c, some .invalidMessage)
  | some rc =>
    match c.checkMessage .roundChange rc.view with
    | some err => (c, some err)
    | none =>
      let round := rc.view.round
      let (roundChangeSet, num?) := c.roundChangeSet.add c.valSet round msg
      let c := { c with roundChangeSet := roundChangeSet }
      match num? with
      | none => (c, some .unauthorizedAddress)
      | some num =>
        let behind := c.current.round < round
        if num = requiredMessageCount c.valSet ∧ (c.waitingForRoundChange ∨ behind) then
          let c := { c with log := .startNewRound c.valSet ⟨round, c.current.sequence⟩ :: c.log }
          (c.startNewRound bk env round, none)
        else if c.waitingForRoundChange ∧ (num : ℤ) = c.valSet.f + 1 then
          if behind then
            let c := { c with log := .sendRoundChange c.valSet ⟨round, c.current.sequence⟩ :: c.log }
            (c.sendRoundChange bk round, none)
          else (c, none)
        else if behind then (c, some .ignored)
        else (c, none)

/-- Handle a message of a validator, which is the sender of the message. -/
def handleCheckedMsg : Core :=
  let (c, err) := match msg.code with
    | .preprepare => c.handlePreprepare bk env msg
    | .prepare => c.handlePrepare bk env msg
    | .commit => c.handleCommit bk env msg
    | .roundChange => c.handleRoundChange bk env msg
    | .other => (c, some .invalidMessage)
  if err = some .futureMessage then c.storeBacklog msg else c

/-- `FromPayload`: the payload is signed by a validator, which is its sender. -/
def admits (payload : Payload) : Bool :=
  match payload.signer with
  | none => false
  | some signer =>
    (c.valSet.getByAddress signer).isSome && signer == payload.msg.address

def handleMsg (payload : Payload) : Core :=
  if c.admits payload then c.handleCheckedMsg bk env payload.msg else c

def handleRequest (c : Core) (proposal : Proposal) : Core :=
  if proposal.number < c.current.sequence then c
  else if c.current.sequence < proposal.number then
    { c with pendingRequests := c.pendingRequests.push proposal (int64 (-int64 proposal.number)) }
  else if c.state = .acceptRequest then
    let c := c.sendPreprepare bk proposal
    { c with current :=
        { c.current with pendingRequest := some (proposal.withRound c.current.round) } }
  else { c with current := { c.current with pendingRequest := some proposal } }

def handleTimeoutMsg (c : Core) (nextView : View) : Core :=
  if c.consensusNode then
    let (lastProposal, _) := (bk c.clock).lastProposal
    let c := c.tick
    if nextView.sequence ≤ lastProposal.number then c
    else
      let maxRound := if c.waitingForRoundChange then none
        else (c.roundChangeSet.maxRound (c.valSet.f + 1)).filter fun r => (c.current.round : ℤ) < r
      match maxRound with
      | some r => c.sendRoundChange bk r.toNat
      | none =>
        if c.current.sequence ≤ lastProposal.number then c.startNewRound bk env 0
        else c.sendRoundChange bk nextView.round
  else c

def handleFinalCommitted (c : Core) : Core := c.startNewRound bk env 0

end Core

/-- What the event loop of a core receives. -/
inductive Event
  | request (proposal : Proposal)
  | message (payload : Payload)
  | backlog (msg : Message)
  | timeout (nextView : View)
  | finalCommitted
  deriving DecidableEq

def Event.handled (c : Core) : Event → Option Message
  | .message payload => if c.admits payload then some payload.msg else none
  | .backlog msg => some msg
  | _ => none

namespace Core

variable (bk : Backend) (env : ChainEnv)

/-- One turn of the event loop. A backlog event must have been posted before. -/
def step (c : Core) : Event → Option Core
  | .request proposal => some (c.handleRequest bk proposal)
  | .message payload => some (c.handleMsg bk env payload)
  | .backlog msg =>
    if msg ∈ c.posted then
      let c := { c with posted := c.posted.erase msg }
      if (c.valSet.getByAddress msg.address).isSome then some (c.handleCheckedMsg bk env msg)
      else some c
    else none
  | .timeout nextView => some (c.handleTimeoutMsg bk env nextView)
  | .finalCommitted => some (c.handleFinalCommitted bk env)

/-- `New` and `Start`: a core that enters the sequence after the last proposal. -/
def start (address : Address) (consensusNode : Bool) : Core :=
  let (lastProposal, lastProposer) := (bk 0).lastProposal
  let c : Core :=
    { address := address
      consensusNode := consensusNode
      state := .acceptRequest
      valSet := (bk 1).validators lastProposal
      waitingForRoundChange := false
      backlogs := []
      current := .newSequence (lastProposal.number + 1)
      roundChangeSet := []
      pendingRequests := []
      posted := []
      clock := 2
      log := [] }
  c.enterRound env c.current c.valSet lastProposer

end Core

end Kaia
