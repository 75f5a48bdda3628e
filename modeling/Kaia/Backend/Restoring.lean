import Mathlib
import Kaia.Backend.SnapshotJson
import Kaia.Foundation.Cache
import Kaia.Foundation.Effects

/-! # Looking up and building snapshots

A snapshot is looked for in memory, at checkpoints on disk, and made at genesis; gathered headers
bring the one that is found forward. The missing checkpoints among them are then built and stored,
under a flag that keeps the builds from starting the same again.
-/

namespace Kaia

open Foundation

/-- The rest of the node, whose state an application with write access changes. -/
structure SnapshotServices (F G : Type) where
  env : G → SnapshotEnv F
  getHeader : G → Hash → ℕ → Option Header
  getHeader_eq : ∀ {g hash number header}, getHeader g hash number = some header →
    header.hash = hash ∧ uint64 header.number = number
  verifyHeader : G → Header → Except ApplyErr Unit
  startEpoch : G → Header → G
  recordVote : G → Snapshot → Header → Address → G
  setVotingPowers : G → Snapshot → G
  writeGovernanceState : G → ℕ → G

def checkpointInterval : ℕ := 1024

def isCheckpointInterval (blockNum : ℕ) : Bool :=
  blockNum ≠ 0 ∧ blockNum % checkpointInterval = 0

variable {F G : Type} (svc : SnapshotServices F G)

/-- The body of the loop of `apply`, which may write to the governance. -/
def applyHeader (policy : ProposerPolicy) (writable : Bool) (snap : Snapshot) (header : Header) :
    EStateM ApplyErr G Snapshot := do
  let number := uint64 header.number
  let validator ← MonadExcept.ofExcept
    ((ecrecover (m := Id) (svc.env (← get)).recover header).mapError .verify)
  if (snap.valSet.getByAddress validator).isNone then throw (.verify .unauthorized)
  else if snap.epoch = 0 then throw (.fault (.panic .divideByZero))
  else
    modify fun g => if writable ∧ number % snap.epoch = 0 then svc.startEpoch g header else g
    let env := svc.env (← get)
    let snap := (snap.turnEpoch number).reload env (uint64 (number + 1))
    let (valSet, votes, tally) ← MonadExcept.ofExcept ((handleGovernanceVote env.chain.order
      env.gov snap.valSet snap.votes snap.tally header validator).mapError .fault)
    modify fun g => if writable then svc.recordVote g snap header validator else g
    let env := svc.env (← get)
    let valSet ← MonadExcept.ofExcept
      (if policy = weightedRandom then Snapshot.refreshCouncil env valSet (uint64 header.number)
      else .ok valSet)
    pure { snap with valSet, votes, tally }

/-- `apply` with or without write access. -/
def applyHeaders (policy : ProposerPolicy) (writable : Bool) (s : Snapshot)
    (headers : List Header) : EStateM ApplyErr G Snapshot :=
  match headers.getLast? with
  | none => pure s
  | some last =>
    if Snapshot.contiguous s.number headers then do
      let start := s.start (svc.env (← get))
      let snap ← headers.foldlM (applyHeader svc policy writable) start
      let snap := snap.finish (svc.env (← get)) headers.length last
      modify fun g => if writable then svc.setVotingPowers g snap else g
      pure snap
    else throw (.verify .invalidVotingChain)

variable {svc} {g : G} {policy : ProposerPolicy}

/-- The snapshots in memory. Each is held under its own hash. -/
structure Recents (C : Cache Hash Snapshot) where
  cache : C.State
  keyed : ∀ {hash s}, C.lookup cache hash = some s → s.hash = hash

namespace Recents

variable {C : Cache Hash Snapshot}

def purge : Recents C := ⟨C.empty, fun h => by simp [C.lookup_empty] at h⟩

def lookup (r : Recents C) (hash : Hash) : Option Snapshot := C.lookup r.cache hash

def get (r : Recents C) (hash : Hash) : Recents C :=
  ⟨C.get r.cache hash, fun h => r.keyed (C.lookup_get r.cache hash _ ▸ h)⟩

def add (r : Recents C) (snap : Snapshot) : Recents C where
  cache := C.add r.cache snap.hash snap
  keyed := by
    intro hash s h
    obtain ⟨rfl, rfl⟩ | ⟨-, h'⟩ := C.lookup_add _ _ _ _ _ h
    · rfl
    · exact r.keyed h'

@[simp] theorem lookup_get (r : Recents C) (hash hash' : Hash) :
    (r.get hash).lookup hash' = r.lookup hash' := C.lookup_get _ _ _

end Recents

/-- The snapshots in memory and on disk, the flag of the restoration, and the rest of the node. -/
structure SnapshotBackend (C : Cache Hash Snapshot) (G : Type) where
  recents : Recents C
  db : Hash → Option SnapshotJSON
  isRestoringSnapshots : Bool
  node : G

namespace SnapshotBackend

variable {C : Cache Hash Snapshot} (svc : SnapshotServices F G)

def onNode {α : Type} (x : EStateM ApplyErr G α) : EStateM ApplyErr (SnapshotBackend C G) α :=
  fun b =>
    match x b.node with
    | .ok a node => .ok a { b with node }
    | .error e node => .error e { b with node }

def store (snap : Snapshot) : EStateM ApplyErr (SnapshotBackend C G) Unit :=
  modify fun b => { b with db := Function.update b.db snap.hash (some snap.toJSONStruct) }

/-- The snapshot on disk, if there is one. A document that does not fit panics. -/
def loadSnapshot (hash : Hash) : EStateM ApplyErr (SnapshotBackend C G) (Option Snapshot) := do
  let b ← get
  match b.db hash with
  | none => pure none
  | some blob =>
    some <$> MonadExcept.ofExcept
      ((Snapshot.unmarshalJSON (svc.env b.node).chain.order blob.decoded).mapError
        (.fault ∘ .panic))

def initSnapshot : EStateM ApplyErr (SnapshotBackend C G) Snapshot := do
  let g := (← get).node
  match (svc.env g).getHeaderByNumber 0 with
  | none => throw (.fault (.panic .nilPointer))
  | some genesis =>
    MonadExcept.ofExcept (svc.verifyHeader g genesis)
    let snap ← MonadExcept.ofExcept (Snapshot.initSnapshot (svc.env g) genesis)
    store snap
    pure snap

/-- The snapshot of a block in memory or, at a checkpoint, on disk. -/
def findSnapshot (number : ℕ) (hash : Hash) :
    EStateM ApplyErr (SnapshotBackend C G) (Option Snapshot) := do
  let b ← get
  modify fun b => { b with recents := b.recents.get hash }
  match b.recents.lookup hash with
  | some snap => pure (some snap)
  | none => if isCheckpointInterval number then loadSnapshot svc hash else pure none

/-- The header of a block, from the end of the given ones as long as there are any. -/
def getPrevHeaderAndUpdateParents (g : G) (number : ℕ) (hash : Hash) (parents : List Header) :
    Option (Header × List Header) :=
  match parents.getLast? with
  | some header =>
    if header.hash ≠ hash ∨ uint64 header.number ≠ number then none
    else some (header, parents.dropLast)
  | none => (svc.getHeader g hash number).map (·, parents)

/-- Go back to the last block with a snapshot, collecting the headers in order. -/
def gather : ℕ → Hash → List Header → List Header →
    EStateM ApplyErr (SnapshotBackend C G) (Snapshot × ℕ × List Header)
  | number, hash, parents, headers => do
    match ← findSnapshot svc number hash with
    | some snap => pure (snap, number, headers)
    | none =>
      match number with
      | 0 => do
        let snap ← initSnapshot svc
        pure (snap, 0, headers)
      | number + 1 =>
        match getPrevHeaderAndUpdateParents svc (← get).node (number + 1) hash parents with
        | none => throw (.verify .unknownAncestor)
        | some (header, parents) => gather number header.parentHash parents (header :: headers)

/-- `snapshot` before the restoration: the snapshot and the headers that were applied for it. -/
def build (number : ℕ) (hash : Hash) (parents : List Header) (writable : Bool) :
    EStateM ApplyErr (SnapshotBackend C G) (Snapshot × List Header) := do
  let (snap, number, headers) ← gather svc number hash parents []
  match (svc.env (← get).node).gov.effectiveParams number with
  | none => throw (.verify .governance)
  | some pset =>
    let snap ← onNode (applyHeaders svc pset.policy writable snap headers)
    if writable ∧ isCheckpointInterval snap.number ∧ 0 < headers.length then
      modify fun b => { b with node := svc.writeGovernanceState b.node snap.number }
      store snap
      pure (snap, headers)
    else pure (snap, headers)

/-- Build and store the snapshot of a checkpoint that is not on disk; errors are only logged. -/
def restore (snapshot : ℕ → Hash → EStateM ApplyErr (SnapshotBackend C G) Snapshot)
    (header : Header) : EStateM ApplyErr (SnapshotBackend C G) Unit := do
  let hn := uint64 header.number
  if isCheckpointInterval hn ∧ ((← get).db header.hash).isNone then
    tryCatch (do store (← snapshot hn header.hash)) fun
      | .verify _ => pure ()
      | .fault f => throw (.fault f)
  else pure ()

/-- The loop over the headers, which is skipped if there is no checkpoint among them. -/
def restoreAll (snapshot : ℕ → Hash → EStateM ApplyErr (SnapshotBackend C G) Snapshot)
    (headers : List Header) : EStateM ApplyErr (SnapshotBackend C G) Unit :=
  match headers.head?, headers.getLast? with
  | some first, some last =>
    let number := uint64 last.number
    if number - number % checkpointInterval < uint64 first.number then pure ()
    else headers.forM (restore snapshot)
  | _, _ => pure ()

/-- The flag is taken before the headers are counted, and given back by a later deferred call. -/
def regen (snapshot : ℕ → Hash → EStateM ApplyErr (SnapshotBackend C G) Snapshot)
    (headers : List Header) : EStateM ApplyErr (SnapshotBackend C G) Unit := do
  if (← get).isRestoringSnapshots then pure ()
  else
    modify fun b => { b with isRestoringSnapshots := true }
    if headers.length ≤ 1 then pure ()
    else deferring (fun b => { b with isRestoringSnapshots := false }) (restoreAll snapshot headers)

/-- `snapshot`, with a bound on how deep the calls that the restoration makes are nested. -/
def snapshot : ℕ → ℕ → Hash → List Header → Bool →
    EStateM ApplyErr (SnapshotBackend C G) Snapshot
  | 0, _, _, _, _ => throw (.fault .diverges)
  | depth + 1, number, hash, parents, writable => do
    let (snap, headers) ← build svc number hash parents writable
    regen (fun hn hh => snapshot depth hn hh [] false) headers
    modify fun b => { b with recents := b.recents.add snap }
    pure snap

end SnapshotBackend

end Kaia
