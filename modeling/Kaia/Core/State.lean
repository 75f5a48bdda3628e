import Kaia.Foundation.Heap
import Kaia.Validator.Committee

/-! # State of the consensus core

The state between events, and the backend, whose answers may differ at every tick of a clock. The
log records what the node sends out and hands to its backend.
-/

namespace Kaia

open Foundation

inductive State
  | acceptRequest | preprepared | prepared | committed
  deriving DecidableEq

/-- `State.Cmp` compares positions in the order of the constructors. -/
def State.rank : State → ℕ
  | .acceptRequest => 0
  | .preprepared => 1
  | .prepared => 2
  | .committed => 3

/-- The messages of a round or of a round change, one for each sender. -/
structure MessageSet where
  messages : List Message
  nodup : (messages.map Message.address).Nodup

namespace MessageSet

def empty : MessageSet := ⟨[], List.nodup_nil⟩

variable (ms : MessageSet)

def size : ℕ := ms.messages.length

def get (a : Address) : Option Message :=
  ms.messages.find? fun m => m.address == a

/-- `addVerifiedMessage`: a later message of a sender replaces the earlier one. -/
def insert (msg : Message) : MessageSet where
  messages := msg :: ms.messages.filter fun m => m.address ≠ msg.address
  nodup := by
    simp only [List.map_cons, List.nodup_cons, List.mem_map, List.mem_filter]
    refine ⟨?_, ms.nodup.sublist (List.filter_sublist.map _)⟩
    rintro ⟨m, ⟨_, hne⟩, heq⟩
    simp [heq] at hne

def add (valSet : ValidatorSet) (ms : MessageSet) (msg : Message) : Option MessageSet :=
  if (valSet.getByAddress msg.address).isSome then some (ms.insert msg) else none

end MessageSet

/-- The `roundState` of the source. -/
structure RoundState where
  round : ℕ
  sequence : ℕ
  preprepare : Option Preprepare
  prepares : MessageSet
  commits : MessageSet
  lockedHash : Hash
  pendingRequest : Option Proposal

namespace RoundState

variable (s : RoundState)

def view : View := ⟨s.round, s.sequence⟩

def proposal : Option Proposal := s.preprepare.map Preprepare.proposal

def subject : Option Subject :=
  s.proposal.map fun p => ⟨s.view, p.hash, p.parentHash⟩

def getPrepareOrCommitSize : ℕ :=
  s.prepares.size + s.commits.size -
    s.prepares.messages.countP fun m => (s.commits.get m.address).isSome

def lockHash : RoundState :=
  match s.proposal with
  | some p => { s with lockedHash := p.hash }
  | none => s

def unlockHash : RoundState := { s with lockedHash := 0 }

/-- Another round of the sequence. The lock and the proposal are kept or dropped together. -/
def nextRound (round : ℕ) (locked : Bool) : RoundState where
  round := round
  sequence := s.sequence
  preprepare := if locked then s.preprepare else none
  prepares := .empty
  commits := .empty
  lockedHash := if locked then s.lockedHash else 0
  pendingRequest := s.pendingRequest

/-- The state at the start of a sequence. -/
def newSequence (sequence : ℕ) : RoundState where
  round := 0
  sequence := sequence
  preprepare := none
  prepares := .empty
  commits := .empty
  lockedHash := 0
  pendingRequest := none

end RoundState

abbrev Prque (α : Type) := List (α × ℤ)

def prqueLess {α : Type} (a b : α × ℤ) : Bool := 0 < int64 (a.2 - b.2)

def Prque.push {α : Type} (q : Prque α) (a : α) (priority : ℤ) : Prque α :=
  Heap.push prqueLess q (a, priority)

def Prque.pop {α : Type} (q : Prque α) : Option ((α × ℤ) × Prque α) := Heap.pop prqueLess q

abbrev RoundChangeSet := List (ℕ × MessageSet)

namespace RoundChangeSet

variable (rcs : RoundChangeSet)

def get (round : ℕ) : MessageSet := (rcs.lookup round).getD .empty

/-- `Add`: record the message in the bucket of its round, if the sender is a validator. -/
def add (valSet : ValidatorSet) (rcs : RoundChangeSet) (r : ℕ) (msg : Message) :
    RoundChangeSet × Option ℕ :=
  let round := uint64 r
  let others := rcs.filter fun entry => entry.1 ≠ round
  match MessageSet.add valSet (get rcs round) msg with
  | none => ((round, get rcs round) :: others, none)
  | some ms => ((round, ms) :: others, some ms.size)

def clear (round : ℕ) : RoundChangeSet :=
  rcs.filter fun entry => ¬ (entry.2.size = 0 ∨ entry.1 < uint64 round)

/-- The largest bucket with at least `num` messages, read back as a signed word. -/
def maxRound (num : ℤ) : Option ℤ :=
  ((rcs.filter fun entry => ¬ (entry.2.size : ℤ) < num).map fun entry => int64 entry.1).max?

end RoundChangeSet

inductive Verdict
  | ok | futureBlock | invalid
  deriving DecidableEq

/-- The answers of the backend at one moment. -/
structure Host where
  lastProposal : Proposal × Address
  validators : Proposal → ValidatorSet
  parentValidators : Proposal → ValidatorSet
  getProposer : ℕ → Address
  hasProposal : Hash → ℕ → Bool
  hasBadProposal : Hash → Bool
  verify : Proposal → Verdict
  commit : Proposal → List Bytes → Bool
  sign : Bytes → Bytes

abbrev Backend := ℕ → Host

/-- A block with the digests of its parent and of itself. -/
def Proposal.block (number : ℕ) (parentHash hash : Hash) : Proposal :=
  ⟨⟨number, parentHash, hash, hash, none, none, []⟩, 0⟩

/-- A chain that has only its genesis block, a council that stays, and nothing that fails. -/
def Host.genesis (V : ValidatorSet) : Host where
  lastProposal := (.block 0 0 0, 0)
  validators _ := V
  parentValidators _ := V
  getProposer _ := 0
  hasProposal _ _ := false
  hasBadProposal _ := false
  verify _ := .ok
  commit _ _ := true
  sign _ := []

/-- The function of the source that sends a message. -/
inductive Origin
  | sendPreprepare | sendPrepare | sendCommit | sendCommitForOldBlock | sendRoundChange
  deriving DecidableEq

/-- What a node does to the outside, and the rounds that `handleRoundChange` moves to. -/
inductive Effect
  | broadcast (origin : Origin) (msg : Message)
  | commit (view : View) (proposal : Proposal) (committedSeals : List Bytes)
  | startNewRound (valSet : ValidatorSet) (view : View)
  | sendRoundChange (valSet : ValidatorSet) (view : View)

structure Core where
  address : Address
  consensusNode : Bool
  state : State
  valSet : ValidatorSet
  waitingForRoundChange : Bool
  backlogs : List (Address × Prque Message)
  current : RoundState
  roundChangeSet : RoundChangeSet
  pendingRequests : Prque Proposal
  posted : List Message
  clock : ℕ
  log : List Effect

namespace Core

def currentView (c : Core) : View := c.current.view

def isProposer (c : Core) : Bool := c.valSet.isProposer c.address

def tick (c : Core) : Core := { c with clock := c.clock + 1 }

def isHashLocked (bk : Backend) (c : Core) : Bool :=
  !emptyHash c.current.lockedHash && !(bk c.clock).hasBadProposal c.current.lockedHash

def stored (c : Core) : List Message :=
  (c.backlogs.flatMap fun b => b.2.map Prod.fst) ++ c.posted

end Core

end Kaia
