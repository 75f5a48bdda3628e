import Kaia.Trie.Hasher
import Kaia.Foundation.Patricia

/-! # The trie

Reading, updating and deleting below a root whose nodes are loaded from the database when
they are met. The fuel counts the nodes that are met: at most two for each nibble, one that
is loaded and one that goes on.
-/

namespace Kaia.Storage

open Foundation

def emptyRoot : Hash := 0x56e81f171bcc55a6ff8345e692c0f86e5b48e01b996cadc001622fb5e363b421#256

structure TrieOpts where
  pruning : Bool
  storage : Bool
  pruningBlockNumber : ℕ

def walkFuel (key : List Nibble) : ℕ := 2 * key.length + 2

section Walks

variable (db : Database)

/-- `tryGet`: the value, the node with what was loaded in it, and whether any was. -/
def tryGet : ℕ → Node → List Nibble → List Nibble → Except TrieError (Option Bytes × Node × Bool)
  | 0, _, _, _ => .error .panic
  | fuel + 1, n, path, key =>
    match n with
    | .nil => .ok (none, .nil, false)
    | .value v => .ok (some v, .value v, false)
    | .short nkey val flags =>
      if nkey <+: key then do
        let (v, newnode, didResolve) ← tryGet fuel val (path ++ nkey) (key.drop nkey.length)
        .ok (v, .short nkey (if didResolve then newnode else val) flags, didResolve)
      else .ok (none, .short nkey val flags, false)
    | .full c flags =>
      match key with
      | [] => .error .panic
      | i :: rest => do
        let (v, newnode, didResolve) ← tryGet fuel (c i) (path ++ [i]) rest
        .ok (v, .full (if didResolve then Function.update c i newnode else c) flags, didResolve)
    | .hash h => do
      let child ← db.node h path
      let (v, newnode, _) ← tryGet fuel child path key
      .ok (v, newnode, true)

/-- Whether there was a change, the new node, and the nodes that are not needed any more. -/
structure Edit where
  dirty : Bool
  node : Node
  marks : List ExtHash := []

abbrev EditResult := Except (TrieError × List ExtHash) Edit

def newFlag : NodeFlag := { dirty := true }

variable (opts : TrieOpts)

/-- `markPrunableNode`: the name of a node that has one. -/
def markPrunableNode (n : Node) : List ExtHash :=
  if opts.pruning = false ∨ opts.pruningBlockNumber = 0 then []
  else
    match n with
    | .hash h => [h]
    | .short _ _ flags => flags.hash.toList
    | .full _ flags => flags.hash.toList
    | _ => []

/-- Go on below a loaded node. -/
def withResolved (h : ExtHash) (path : List Nibble) (f : Node → EditResult) : EditResult :=
  match db.node h path with
  | .error e => .error (e, [])
  | .ok rn =>
    match f rn with
    | .error e => .error e
    | .ok r => .ok { r with node := if r.dirty then r.node else rn }

def around (n : Node) (r : EditResult) (f : Node → Node) : EditResult :=
  match r with
  | .error e => .error e
  | .ok r =>
    if r.dirty then .ok ⟨true, f r.node, r.marks ++ markPrunableNode opts n⟩
    else .ok ⟨false, n, r.marks⟩

def insert : ℕ → Node → List Nibble → List Nibble → Node → EditResult
  | 0, _, _, _, _ => .error (.panic, [])
  | fuel + 1, n, path, key, value =>
    match key with
    | [] =>
      match n, value with
      | .value v, .value u => .ok { dirty := v ≠ u, node := value }
      | _, _ => .ok { dirty := true, node := value }
    | k :: rest =>
      match n with
      | .short nkey val _ =>
        let matchlen := Tree.prefixLen (k :: rest) nkey
        if matchlen = nkey.length then
          around opts n
            (insert fuel val (path ++ (k :: rest).take matchlen) ((k :: rest).drop matchlen) value)
            fun nn => .short nkey nn newFlag
        else
          match nkey.drop matchlen, (k :: rest).drop matchlen with
          | j :: nkey', i :: key' => do
            let b₁ ← insert fuel .nil (path ++ nkey.take (matchlen + 1)) nkey' val
            let b₂ ← insert fuel .nil (path ++ (k :: rest).take (matchlen + 1)) key' value
            let branch := Node.full
              (Function.update (Function.update (fun _ => .nil) j b₁.node) i b₂.node) newFlag
            .ok
              { dirty := true
                node := if matchlen = 0 then branch
                  else .short ((k :: rest).take matchlen) branch newFlag
                marks := markPrunableNode opts n }
          | _, _ => .error (.panic, [])
      | .full c _ =>
        around opts n (insert fuel (c k) (path ++ [k]) rest value) fun nn =>
          .full (Function.update c k nn) newFlag
      | .nil => .ok { dirty := true, node := .short (k :: rest) value newFlag }
      | .hash h => withResolved db h path fun rn => insert fuel rn path (k :: rest) value
      | .value _ => .error (.panic, [])

def remaining (c : Fin 17 → Node) : List (Fin 17) :=
  (List.finRange 17).filter fun i => !(c i).isNil

/-- A branch with one child left becomes a short node; the child is loaded to see its key. -/
def reduceBranch (c : Fin 17 → Node) (path : List Nibble) : Except TrieError Node :=
  match remaining c with
  | [pos] =>
    if pos ≠ 16 then do
      let cnode ← match c pos with
        | .hash h => db.node h path
        | n => .ok n
      match cnode with
      | .short key val _ => .ok (.short (pos :: key) val newFlag)
      | _ => .ok (.short [pos] (c pos) newFlag)
    else .ok (.short [pos] (c pos) newFlag)
  | _ => .ok (.full c newFlag)

def mergeShort (key : List Nibble) : Node → Node
  | .short key' val _ => .short (key ++ key') val newFlag
  | child => .short key child newFlag

def delete : ℕ → Node → List Nibble → List Nibble → EditResult
  | 0, _, _, _ => .error (.panic, [])
  | fuel + 1, n, path, key =>
    match n with
    | .short nkey val _ =>
      let matchlen := Tree.prefixLen key nkey
      if matchlen < nkey.length then .ok { dirty := false, node := n }
      else if matchlen = key.length then
        .ok { dirty := true, node := .nil, marks := markPrunableNode opts n }
      else
        around opts n
          (delete fuel val (path ++ key.take nkey.length) (key.drop nkey.length))
          (mergeShort nkey)
    | .full c _ =>
      match key with
      | [] => .error (.panic, [])
      | k :: rest =>
        match delete fuel (c k) (path ++ [k]) rest with
        | .error e => .error e
        | .ok r =>
          if r.dirty = false then .ok { dirty := false, node := n, marks := r.marks }
          else
            let marks := r.marks ++ markPrunableNode opts n
            match reduceBranch db (Function.update c k r.node) path with
            | .error e => .error (e, marks)
            | .ok n' => .ok ⟨true, n', marks⟩
    | .value _ => .ok { dirty := true, node := .nil }
    | .nil => .ok { dirty := false, node := .nil }
    | .hash h => withResolved db h path fun rn => delete fuel rn path key

end Walks

/-! ## The trie as an object -/

structure Trie where
  opts : TrieOpts
  root : Node
  pruningMarksCache : List ExtHash := []

namespace Trie

inductive NewTrieError
  | pruningDisabled
  | trie (e : TrieError)

/-- `newTrie`: the root is loaded unless it is that of an empty trie. -/
def newTrie (root : ExtHash) (db : Database) (pruningBlockNumber : ℕ) (storage : Bool) :
    Except NewTrieError Trie :=
  let opts : TrieOpts := ⟨db.disk.pruningEnabled, storage, pruningBlockNumber⟩
  if opts.pruning = false ∧ pruningBlockNumber ≠ 0 then .error .pruningDisabled
  else if emptyExtHash root ∨ root.unextend = emptyRoot then .ok ⟨opts, .nil, []⟩
  else
    match db.node root [] with
    | .error e => .error (.trie e)
    | .ok n => .ok ⟨opts, n, []⟩

variable (t : Trie)

variable (db : Database)

def tryGet (key : Bytes) : Except TrieError (Option Bytes) × Trie :=
  let key := keybytesToHex key
  match Kaia.Storage.tryGet db (walkFuel key) t.root [] key with
  | .error e => (.error e, t)
  | .ok (v, newroot, didResolve) => (.ok v, if didResolve then { t with root := newroot } else t)

def addMarks (marks : List ExtHash) : Trie :=
  { t with
    pruningMarksCache :=
      marks.foldl (fun c h => if h ∈ c then c else c ++ [h]) t.pruningMarksCache }

def applyEdit (r : EditResult) : Option TrieError × Trie :=
  match r with
  | .error (e, marks) => (some e, t.addMarks marks)
  | .ok r => (none, { t.addMarks r.marks with root := r.node })

def tryUpdate (key value : Bytes) : Option TrieError × Trie :=
  let hexKey := keybytesToHex key
  if value ≠ [] then
    t.applyEdit (insert db t.opts (walkFuel hexKey) t.root [] hexKey (.value value))
  else t.applyEdit (delete db t.opts (walkFuel hexKey) t.root [] hexKey)

def tryDelete (key : Bytes) : Option TrieError × Trie :=
  let k := keybytesToHex key
  t.applyEdit (delete db t.opts (walkFuel k) t.root [] k)

variable (keccak : Bytes → Hash)

def hashRoot (commit : Bool) (onleaf : Option (Bytes → Option ExtHash)) (s : HashState) :
    ExtHash × Trie × HashState :=
  match t.root with
  | .nil => (.extendZero emptyRoot, t, s)
  | root =>
    let ((hashed, cached), s) :=
      hashNode keccak ⟨t.opts.pruning, t.opts.storage, onleaf⟩ commit root true true s
    let hash := match hashed with
      | .hash h => h
      -- the root is always hashed
      | _ => metaRoot
    (hash, { t with root := cached }, s)

def hashExt (s : HashState) : ExtHash × Trie × HashState := t.hashRoot keccak false none s

def commitPruningMarks : Trie × Database :=
  ({ t with pruningMarksCache := [] },
    t.pruningMarksCache.foldl (fun db h => db.insertPruningMark h t.opts.pruningBlockNumber) db)

def commitExt (onleaf : Option (Bytes → Option ExtHash)) (s : HashState) :
    ExtHash × Trie × HashState :=
  let (t, db) := t.commitPruningMarks s.db
  t.hashRoot keccak true onleaf { s with db := db }

end Trie

end Kaia.Storage
