import Kaia.Trie.Database

/-! # Hashing and storing nodes

The hasher replaces nodes by their hashes where their encoding is not small, caches the hashes and
may put the nodes in the database. With pruning a hash gets a fresh counter.
-/

namespace Kaia.Storage

open Foundation

/-- `UnextendSerializedAccount`. Its encoder does not fail on what was decoded. -/
def unextendValue (v : Bytes) : Bytes := (StoredAccount.unextendSerializedAccount v).getD v

def nodeForHashing : RawNode → RawNode
  | .nil => .nil
  | .value v => .value (unextendValue v)
  | .hash h => .hash (.extendZero h.unextend)
  | .short key val => .short key (nodeForHashing val)
  | .full c => .full fun i => nodeForHashing (c i)

structure HasherOpts where
  pruning : Bool
  storageRoot : Bool
  /-- The leaf callback: the node outside the trie that a value refers to. -/
  onleaf : Option (Bytes → Option ExtHash) := none

/-- The last counter, the database, and for the record the inputs of the hash function. -/
structure HashState where
  lastCounter : BitVec 64
  db : Database
  hashed : List Bytes := []

namespace Node

def isNil : Node → Bool
  | nil => true
  | _ => false

def isValue : Node → Bool
  | value _ => true
  | _ => false

def rawValue : Node → RawNode
  | value v => .value v
  | _ => .nil

end Node

variable (keccak : Bytes → Hash) (opts : HasherOpts)

def hashData (data : Bytes) (onRoot : Bool) (s : HashState) : ExtHash × HashState :=
  let hash := keccak data
  let s := { s with hashed := data :: s.hashed }
  if opts.pruning && (opts.storageRoot || !onRoot) then
    let counter := s.lastCounter + 1
    (⟨hash, counter.setWidth 56⟩, { s with lastCounter := counter })
  else (.extendZero hash, s)

/-- The values of a node that the leaf callback is called with. -/
def leafValues : RawNode → List Bytes
  | .short _ (.value v) => [v]
  | .full c =>
    (List.finRange 16).filterMap fun i =>
      match c i.castSucc with
      | .value v => some v
      | _ => none
  | _ => []

/-- The callback refers to a node from one that has just been inserted. -/
def callOnleaf (h : ExtHash) (n : RawNode) (db : Database) : Database :=
  match opts.onleaf with
  | none => db
  | some onleaf =>
    (leafValues n).foldl (fun db v =>
      match onleaf v with
      | some child => (db.reference child h).getD db
      | none => db) db

def storedLen (n : RawNode) (flags : NodeFlag) : ℕ :=
  if flags.hash.isNone ∨ flags.lenEncoded = 0 then n.encode.length % 2 ^ 16 else flags.lenEncoded

def storedHashOf (n : RawNode) (flags : NodeFlag) (onRoot : Bool) (s : HashState) :
    ExtHash × HashState :=
  match flags.hash with
  | some h => (h, s)
  | none => hashData keccak opts (nodeForHashing n).encode onRoot s

def putNode (commit : Bool) (h : ExtHash) (lenEncoded : ℕ) (n : RawNode) (s : HashState) :
    HashState :=
  if commit then { s with db := callOnleaf opts h n (s.db.insert h lenEncoded n) } else s

/-- `store`: the node or its hash, and the length of its encoding. -/
def store (n : RawNode) (flags : NodeFlag) (commit force onRoot : Bool) (s : HashState) :
    (RawNode × ℕ) × HashState :=
  match n with
  | .nil => ((n, 0), s)
  | .hash _ => ((n, 0), s)
  | n =>
    let lenEncoded := storedLen n flags
    if lenEncoded < 32 ∧ force = false then ((n, lenEncoded), s)
    else
      let (h, s) := storedHashOf keccak opts n flags onRoot s
      ((.hash h, lenEncoded), putNode opts commit h lenEncoded n s)

def hashedFlags (flags : NodeFlag) (commit : Bool) (hashed : RawNode) (lenEncoded : ℕ) : NodeFlag :=
  { hash := match hashed with
      | .hash h => some h
      | _ => none
    dirty := if commit then false else flags.dirty
    lenEncoded := lenEncoded }

def usableHash (flags : NodeFlag) (commit : Bool) : Option ExtHash :=
  if commit && flags.dirty then none else flags.hash

/-- What `hashChildren` has of a branch so far: the children in collapsed and in cached form. -/
abbrev HashedChildren := (Fin 17 → RawNode) × (Fin 17 → Node) × HashState

def hashChild (c : Fin 17 → Node) (hash : Fin 16 → HashState → (RawNode × Node) × HashState)
    (acc : HashedChildren) (i : Fin 16) : HashedChildren :=
  if (c i.castSucc).isNil then acc
  else
    let ((r, n), s) := hash i acc.2.2
    (Function.update acc.1 i.castSucc r, Function.update acc.2.1 i.castSucc n, s)

def hashChildren (c : Fin 17 → Node) (hash : Fin 16 → HashState → (RawNode × Node) × HashState)
    (s : HashState) : HashedChildren :=
  (List.finRange 16).foldl (hashChild c hash)
    (fun i => if i = 16 then (c 16).rawValue else .nil, c, s)

def hashNode (commit : Bool) : Node → Bool → Bool → HashState → (RawNode × Node) × HashState
  | .nil, _, _, s => ((.nil, .nil), s)
  | .value v, force, onRoot, s =>
    let ((hashed, _), s) := store keccak opts (.value v) {} commit force onRoot s
    ((hashed, .value v), s)
  | .hash h, _, _, s => ((.hash h, .hash h), s)
  | .short key val flags, force, onRoot, s =>
    match usableHash flags commit with
    | some h => ((.hash h, if commit then .hash h else .short key val flags), s)
    | none =>
      let ((collapsed, cached), s) :=
        if val.isValue then ((val.rawValue, val), s) else hashNode commit val false false s
      let ((hashed, lenEncoded), s) :=
        store keccak opts (.short (hexToCompact key) collapsed) flags commit force onRoot s
      ((hashed, .short key cached (hashedFlags flags commit hashed lenEncoded)), s)
  | .full c flags, force, onRoot, s =>
    match usableHash flags commit with
    | some h => ((.hash h, if commit then .hash h else .full c flags), s)
    | none =>
      let (collapsed, cached, s) :=
        hashChildren c (fun i s => hashNode commit (c i.castSucc) false false s) s
      let ((hashed, lenEncoded), s) :=
        store keccak opts (.full collapsed) flags commit force onRoot s
      ((hashed, .full cached (hashedFlags flags commit hashed lenEncoded)), s)

end Kaia.Storage
