import Kaia.Trie.NodeCodec

/-! # The trie database

Nodes are kept in memory with the number of references to them, until they are written to disk: the
oldest ones when there are too many, or all below a root.
-/

namespace Kaia.Storage

open Foundation

/-- A node in memory. A child from outside occurs in `children` as often as it is counted. -/
structure CachedNode where
  node : RawNode
  size : ℕ
  parents : ℕ := 0
  children : List ExtHash := []

/-- The note that a node is not needed from a block on. -/
structure PruningMark where
  number : ℕ
  hash : ExtHash
  deriving DecidableEq

structure Disk where
  trieNodes : ExtHash → Option Bytes
  pruningMarks : List PruningMark
  pruningEnabled : Bool

structure Database where
  nodes : ExtHash → Option CachedNode
  /-- The nodes in memory except the one that stands for the roots, oldest first. -/
  flushList : List ExtHash
  nodesSize : ℤ
  pruningMarks : List PruningMark
  disk : Disk

def emptyExtHash (h : ExtHash) : Bool := h.unextend == 0

def metaRoot : ExtHash := ⟨0, 0⟩

inductive TrieError
  | missingNode (nodeHash : Hash) (path : List Nibble)
  /-- The process ends. -/
  | panic
  deriving DecidableEq

namespace CachedNode

def gatherChildren : RawNode → List ExtHash
  | .short _ val => gatherChildren val
  | .full c => (List.finRange 16).flatMap fun i => gatherChildren (c i.castSucc)
  | .hash h => [h]
  | _ => []

def childs (n : CachedNode) : List ExtHash := n.children.dedup ++ gatherChildren n.node

end CachedNode

namespace Database

def newDatabase (disk : Disk) : Database where
  nodes h := if h = metaRoot then some { node := .nil, size := 0 } else none
  flushList := []
  nodesSize := 0
  pruningMarks := []
  disk := disk

variable (db : Database)

variable (h : ExtHash) (root : Hash)

def setNode (n : Option CachedNode) : Database :=
  { db with nodes := Function.update db.nodes h n }

def addParent (child : ExtHash) : Database :=
  match db.nodes child with
  | some c => db.setNode child (some { c with parents := c.parents + 1 })
  | none => db

/-- The sum of the sizes is taken in sixteen bits. -/
def insert (lenEncoded : ℕ) (node : RawNode) : Database :=
  match db.nodes h with
  | some _ => db
  | none =>
    let entry : CachedNode := { node := node, size := lenEncoded }
    let db := entry.childs.foldl addParent db
    let db := db.setNode h (some entry)
    { db with
      flushList := db.flushList ++ [h]
      nodesSize := db.nodesSize + ((32 + entry.size) % 2 ^ 16 : ℕ) }

def insertPruningMark (blockNum : ℕ) : Database :=
  { db with pruningMarks := db.pruningMarks ++ [⟨blockNum, h⟩] }

/-- The node with the given name. A node on disk that cannot be decoded ends the process. -/
def node (path : List Nibble) : Except TrieError Node :=
  match db.nodes h with
  | some n => .ok (n.node.expandNode (some h))
  | none =>
    match db.disk.trieNodes h with
    | none => .error (.missingNode h.unextend path)
    | some enc =>
      match decodeNode enc.length (some h) enc with
      | some n => .ok n
      | none => .error .panic

/-- `reference`; a parent that is not in memory ends the process. -/
def reference (child parent : ExtHash) : Option Database :=
  match db.nodes child with
  | none => some db
  | some c =>
    match db.nodes parent with
    | none => none
    | some p =>
      if child ∈ p.children ∧ emptyExtHash parent = false then some db
      else
        let db := db.setNode child (some { c with parents := c.parents + 1 })
        -- the parent is read again: it may be the child
        let p := (db.nodes parent).getD p
        some (db.setNode parent (some { p with children := child :: p.children }))

def referenceRoot : Option Database :=
  db.reference (.extendZero root) metaRoot

def removeNodeInFlushList : Database :=
  { db with flushList := db.flushList.erase h }

def deleteNode (size : ℕ) : Database :=
  { db.setNode h none with nodesSize := db.nodesSize - (32 + size) }

def dropChild (child parent : ExtHash) : Database :=
  match db.nodes parent with
  | some p => db.setNode parent (some { p with children := p.children.erase child })
  | none => db

/-- The fuel bounds the length of a chain of nodes in memory. -/
def dereferenceNode : ℕ → ExtHash → ExtHash → Database → Database
  | 0, _, _, db => db
  | fuel + 1, child, parent, db =>
    let db := db.dropChild child parent
    match db.nodes child with
    | none => db
    | some n =>
      let n := { n with parents := n.parents - 1 }
      let db := db.setNode child (some n)
      if n.parents = 0 then
        let db := db.removeNodeInFlushList child
        let db := n.childs.foldl (fun db c => dereferenceNode fuel c child db) db
        db.deleteNode child n.size
      else db

def dereference : Database :=
  if root = 0 then db
  else dereferenceNode (db.flushList.length + 1) (.extendZero root) metaRoot db

/-! ## Writing to disk -/

def putTrieNode (enc : Bytes) : Database :=
  { db with disk := { db.disk with trieNodes := Function.update db.disk.trieNodes h (some enc) } }

def flushNode : Database :=
  match db.nodes h with
  | some n => db.putTrieNode h n.node.encode
  | none => db

def writePruningMarks : Database :=
  { db with
    pruningMarks := []
    disk := { db.disk with pruningMarks := db.disk.pruningMarks ++ db.pruningMarks } }

def sizeOf : ℕ := ((db.nodes h).map CachedNode.size).getD 0

def flushed (limit : ℤ) : ℤ → List ExtHash → List ExtHash
  | _, [] => []
  | size, h :: rest =>
    if limit < size then h :: flushed limit (size - (3 * 32 + db.sizeOf h)) rest else []

/-- `Cap`: write the oldest nodes until the rest is small enough, then forget them. -/
def cap (limit : ℤ) : Database :=
  let size := db.nodesSize + db.flushList.length * 2 * 32
  let out := db.flushed limit size db.flushList
  let db := db.writePruningMarks
  let db := out.foldl flushNode db
  out.foldl (fun db h =>
    { db.deleteNode h (db.sizeOf h) with flushList := db.flushList.tail }) db

def commitNodes : ℕ → ExtHash → List ExtHash
  | 0, _ => []
  | fuel + 1, h =>
    match db.nodes h with
    | none => []
    | some n => n.childs.flatMap (commitNodes fuel) ++ [h]

def uncache : ℕ → ExtHash → Database → Database
  | 0, _, db => db
  | fuel + 1, h, db =>
    match db.nodes h with
    | none => db
    | some n =>
      let db := db.removeNodeInFlushList h
      let db := n.childs.foldl (fun db c => uncache fuel c db) db
      db.deleteNode h n.size

/-- `Commit`: write all the nodes below the root, then forget them. -/
def commit : Database :=
  let h := ExtHash.extendZero root
  let fuel := db.flushList.length + 1
  let written := db.commitNodes fuel h
  let db := db.writePruningMarks
  let db := written.foldl flushNode db
  uncache fuel h db

end Database

end Kaia.Storage
