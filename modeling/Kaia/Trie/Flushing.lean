import Kaia.Foundation.Producers
import Kaia.Trie.Trie

/-! # How the trie database writes

A batch is split over the shards of the disk, and only the write of one part is atomic. `Commit`
lets one goroutine encode what is below each child of the root; `Cap` takes nodes from the front of
the flush list. The process can stop between any two actions.
-/

namespace Kaia.Storage

open Foundation

/-! ## What a node refers to -/

def storageRoots (v : Bytes) : List ExtHash :=
  match StoredAccount.safeDecodeRLP v with
  | some (.smartContract sca) =>
    if emptyExtHash sca.storageRoot ∨ sca.storageRoot.unextend = emptyRoot then []
    else [sca.storageRoot]
  | _ => []

def Node.references : Node → List ExtHash
  | .nil => []
  | .value v => storageRoots v
  | .hash h => [h]
  | .short _ val _ => val.references
  | .full c _ => (List.finRange 17).flatMap fun i => (c i).references

def references (enc : Bytes) : List ExtHash :=
  ((decodeNode enc.length none enc).map Node.references).getD []

namespace Disk

variable (d : Disk)

def Has (h : ExtHash) : Prop := (d.trieNodes h).isSome

instance (h : ExtHash) : Decidable (d.Has h) := inferInstanceAs (Decidable (_ = true))

/-- Every stored node has all the nodes it refers to stored. -/
def Complete : Prop := ∀ h enc, d.trieNodes h = some enc → ∀ r ∈ references enc, d.Has r

end Disk

/-! ## Batches -/

def shardIndexByKey (key : Bytes) (numShards : ℕ) : Option ℕ :=
  match key with
  | [] => none
  | b :: _ => some (b.toNat &&& (numShards - 1))

def trieNodeKey (h : ExtHash) : Bytes := storedHash h

variable (k : ℕ)

/-- The shard of a node on a disk of `2 ^ k` shards. A name is never empty. -/
def shardOf (h : ExtHash) : ℕ := (shardIndexByKey (trieNodeKey h) (2 ^ k)).getD 0

abbrev Batch := ℕ → List (ExtHash × Bytes)

namespace Batch

variable (b : Batch)

def empty : Batch := fun _ => []

def put (h : ExtHash) (enc : Bytes) : Batch :=
  Function.update b (shardOf k h) (b (shardOf k h) ++ [(h, enc)])

def valueSize : ℕ :=
  ((List.range (2 ^ k)).map fun s => ((b s).map fun x => x.2.length).sum).foldr max 0

end Batch

def idealBatchSize : ℕ := 100 * 1024

def allShards : List ℕ := List.range (2 ^ k)

def writeBatchesOverThreshold (b : Batch) : Option (List ℕ) :=
  if idealBatchSize ≤ b.valueSize k then some (allShards k) else none

def writeBatches (b : Batch) : List ℕ :=
  if 0 < b.valueSize k then allShards k else []

/-! ## Calls -/

/-- Where the main goroutine of a call is. -/
inductive Work
  /-- `writeBatchNodes` reads the results of its goroutines. -/
  | commit (root : ExtHash) (results : Producers ExtHash)
  /-- The last batch of `Commit` is being written. -/
  | committed (root : ExtHash)
  /-- `Cap` goes through the flush list. -/
  | cap (limit size : ℤ) (oldest : List ExtHash)
  /-- The last batch of `Cap` is being written. -/
  | capped (oldest : List ExtHash)

structure Call where
  work : Work
  batch : Batch := Batch.empty
  /-- The shards that the write under way has still to be done for. -/
  writing : Option (List ℕ) := none

def Database.putToBatch (db : Database) (h : ExtHash) (b : Batch) : Batch :=
  match db.nodes h with
  | some n => b.put k h n.node.encode
  | none => b

namespace Work

variable (db : Database)

/-- The main goroutine goes on while no write is under way. -/
def next (b : Batch) : Work → Option Call
  | .commit root s =>
    match s.running, s.queue with
    | 0, _ => some ⟨.committed root, db.putToBatch k root b, some (allShards k)⟩
    | _ + 1, [] => none
    | n + 1, none :: queue => some ⟨.commit root { s with running := n, queue := queue }, b, none⟩
    | _ + 1, some h :: queue =>
      let b := db.putToBatch k h b
      some ⟨.commit root { s with queue := queue }, b, writeBatchesOverThreshold k b⟩
  | .cap _ _ [] => some ⟨.capped [], b, some (writeBatches k b)⟩
  | .cap limit size (h :: oldest) =>
    if limit < size then
      -- a name without a node in memory ends the process
      (db.nodes h).map fun n =>
        let b := db.putToBatch k h b
        ⟨.cap limit (size - (3 * 32 + n.size)) oldest, b, writeBatchesOverThreshold k b⟩
    else some ⟨.capped (h :: oldest), b, some (writeBatches k b)⟩
  | _ => none

end Work

/-! ## The process -/

structure Process where
  db : Database
  /-- The call under way. It holds the lock of the database. -/
  call : Option Call

inductive Action
  /-- Anything else that changes what is in memory between two calls. -/
  | mutate (nodes : ExtHash → Option CachedNode) (flushList : List ExtHash) (nodesSize : ℤ)
      (pruningMarks : List PruningMark)
  | commit (root : Hash)
  | cap (limit : ℤ)
  /-- The main goroutine of a call goes on. -/
  | main
  /-- A goroutine of `Commit` goes on; children from outside come in any order. -/
  | concurrentCommit (i : ℕ) (order : List ExtHash)
  /-- A worker writes the part of the batch for one shard. -/
  | writeShard (s : ℕ)
  | crash

namespace Database

variable (db : Database)

def storePruningMarks : Database :=
  { db with disk := { db.disk with pruningMarks := db.disk.pruningMarks ++ db.pruningMarks } }

def commitCall (root : Hash) : Option Call :=
  (db.nodes (.extendZero root)).map fun n =>
    { work := .commit (.extendZero root) (.start n.childs) }

def capCall (limit : ℤ) : Call :=
  { work := .cap limit (db.nodesSize + db.flushList.length * 2 * 32) db.flushList }

/-- What a call forgets when its last batch is written. -/
def finish : Work → Database
  | .committed root => { uncache (db.flushList.length + 1) root db with pruningMarks := [] }
  | .capped oldest =>
    let out := db.flushList.take (db.flushList.length - oldest.length)
    { out.foldl (fun db h =>
        { db.deleteNode h (db.sizeOf h) with flushList := db.flushList.tail }) db with
      pruningMarks := [] }
  | _ => db

def writeShard (b : Batch) (s : ℕ) : Database :=
  (b s).foldl (fun db x => db.putTrieNode x.1 x.2) db

end Database

namespace Process

variable (p : Process)

/-- A write is over when it is done for every shard; the batch is then empty again. -/
def main (c : Call) : Option Process :=
  match c.writing, c.work with
  | some [], .committed root => some ⟨p.db.finish (.committed root), none⟩
  | some [], .capped oldest => some ⟨p.db.finish (.capped oldest), none⟩
  | some [], work => some { p with call := some { work := work } }
  | some (_ :: _), _ => none
  | none, work => (work.next k p.db c.batch).map fun c => { p with call := some c }

def step : Action → Option Process
  | .mutate nodes flushList nodesSize pruningMarks =>
    if p.call.isNone then
      some { p with db := ⟨nodes, flushList, nodesSize, pruningMarks, p.db.disk⟩ }
    else none
  | .commit root =>
    if p.call.isNone then
      -- without the root in memory there is nothing to write
      match p.db.commitCall root with
      | some c => some ⟨p.db.storePruningMarks, some c⟩
      | none => some ⟨p.db.storePruningMarks.finish (.committed (.extendZero root)), none⟩
    else none
  | .cap limit =>
    if p.call.isNone then some ⟨p.db.storePruningMarks, some (p.db.capCall limit)⟩ else none
  | .main => p.call.bind fun c => p.main k c
  | .concurrentCommit i order =>
    match p.call with
    | some ⟨.commit root s, b, writing⟩ =>
      (s.work (fun h => (p.db.nodes h).map CachedNode.childs) i order).map fun s =>
        { p with call := some ⟨.commit root s, b, writing⟩ }
    | _ => none
  | .writeShard s =>
    match p.call with
    | some ⟨work, b, some shards⟩ =>
      if s ∈ shards then some ⟨p.db.writeShard b s, some ⟨work, b, some (shards.erase s)⟩⟩
      else none
    | _ => none
  | .crash => some ⟨.newDatabase p.db.disk, none⟩

end Process

end Kaia.Storage
