import Kaia.Foundation.Words
import Kaia.Trie.Trie

/-! # Range proofs

Consecutive entries are checked against the root hash with the nodes on the paths to the two edges:
everything between the paths is cut away, the entries are inserted, and the hash is compared.
-/

namespace Kaia.Storage

open Foundation

inductive RangeProofError
  | inconsistentData (keys values : ℕ)
  | notIncreasing
  | missingNode (hash : ExtHash)
  | badNode
  | notContained
  | emptyRange
  | moreEntries
  | invalidKey
  | invalidData
  | invalidEdgeKeys
  | inconsistentEdgeKeys
  | invalidProof (want got : Hash)
  /-- The process ends. -/
  | panic
  deriving DecidableEq

abbrev ProofDB := ExtHash → Option Bytes

/-! ## Paths -/

variable (proof : ProofDB)

def resolveNode (h : ExtHash) : Except RangeProofError Node :=
  match proof h with
  | none => .error (.missingNode h)
  | some buf =>
    match decodeNode buf.length (some h) buf with
    | none => .error .badNode
    | some n => .ok n

/-- The walk of `proofToPath` below a node; the fuel is that of any walk along a key. -/
def followPath (allowNonExistent : Bool) :
    ℕ → Node → List Nibble → Except RangeProofError (Node × Option Bytes)
  | 0, _, _ => .error .panic
  | fuel + 1, n, key =>
    let absent := if allowNonExistent then .ok (n, none) else .error .notContained
    match n with
    | .nil => absent
    | .value v => if v = [] then .error .panic else .ok (n, some v)
    | .hash h => do
      let n ← resolveNode proof h
      followPath allowNonExistent fuel n key
    | .short nkey val flags =>
      if nkey <+: key then do
        let (child, v) ← followPath allowNonExistent fuel val (key.drop nkey.length)
        .ok (.short nkey child flags, v)
      else absent
    | .full c flags =>
      match key with
      | [] => .error .panic
      | i :: rest => do
        let (child, v) ← followPath allowNonExistent fuel (c i) rest
        .ok (.full (Function.update c i child) flags, v)

/-- `proofToPath` from a root that is there already. -/
def extendPath (root : Node) (key : Bytes) (allowNonExistent : Bool) :
    Except RangeProofError (Node × Option Bytes) :=
  let key := keybytesToHex key
  followPath proof allowNonExistent (walkFuel key) root key

def proofToPath (rootHash : Hash) (key : Bytes) (allowNonExistent : Bool) :
    Except RangeProofError (Node × Option Bytes) := do
  let root ← resolveNode proof (.extendZero rootHash)
  extendPath proof root key allowNonExistent

/-! ## Cutting away -/

/-- `unset` one side of the path; a child is taken out only of a branch. -/
def unset (removeLeft : Bool) : Bool → Node → List Nibble → Except RangeProofError Node
  | _, .full c _, key =>
    match key with
    | [] => .error .panic
    | i :: rest => do
      let c' : Fin 17 → Node := fun j =>
        if (if removeLeft then j < i else i < j ∧ j < 16) then .nil else c j
      let child ← unset removeLeft true (c i) rest
      .ok (.full (Function.update c' i child) newFlag)
  | inBranch, .short nkey val flags, key =>
    let remove := if inBranch then .ok .nil else .error .panic
    if ¬ nkey <+: key then
      if (if removeLeft then nkey < key else key < nkey) then remove
      else .ok (.short nkey val flags)
    else if val.isValue then remove
    else do
      let child ← unset removeLeft false val (key.drop nkey.length)
      .ok (.short nkey child newFlag)
  | _, .nil, _ => .ok .nil
  | _, _, _ => .error .panic

/-- A child that has been cut down, in its parent; `none` if it is to be taken out. -/
def putBack (inBranch : Bool) (child : Option Node) : Except RangeProofError Node :=
  match child with
  | some n => .ok n
  | none => if inBranch then .ok .nil else .error .panic

/-- `unsetInternal` between two paths; `none` if nothing is left of the node. -/
def unsetInternal : Node → List Nibble → List Nibble → Except RangeProofError (Option Node)
  | .short nkey val _, left, right =>
    let forkLeft := left.take nkey.length
    let forkRight := right.take nkey.length
    if forkLeft = nkey ∧ forkRight = nkey then do
      let child ← unsetInternal val (left.drop nkey.length) (right.drop nkey.length)
      let child ← putBack false child
      .ok (some (.short nkey child newFlag))
    else if (forkLeft < nkey ∧ forkRight < nkey) ∨ (nkey < forkLeft ∧ nkey < forkRight) then
      .error .emptyRange
    else if forkLeft ≠ nkey ∧ forkRight ≠ nkey then .ok none
    else if val.isValue then .ok none
    else do
      let child ← if forkRight ≠ nkey then unset false false val (left.drop nkey.length)
        else unset true false val (right.drop nkey.length)
      .ok (some (.short nkey child newFlag))
  | .full c _, left, right =>
    match left, right with
    | i :: left, j :: right =>
      if (c i).isNil ∨ (c j).isNil ∨ i ≠ j then do
        let c₁ : Fin 17 → Node := fun m => if i < m ∧ m < j then .nil else c m
        let l ← unset false true (c₁ i) left
        let c₂ := Function.update c₁ i l
        let r ← unset true true (c₂ j) right
        .ok (some (.full (Function.update c₂ j r) newFlag))
      else do
        let child ← unsetInternal (c i) left right
        let child ← putBack true child
        .ok (some (.full (Function.update c i child) newFlag))
    | _, _ => .error .panic
  | _, _, _ => .error .panic

/-- `hasRightElement` on a key with terminator. -/
def hasRightElement : Node → List Nibble → Except RangeProofError Bool
  | .nil, _ => .ok false
  | .value _, _ => .ok false
  | .full c _, key =>
    match key with
    | [] => .error .panic
    | i :: rest =>
      if (List.finRange 17).any fun j => decide (i < j ∧ j < 16) && !(c j).isNil then .ok true
      else hasRightElement (c i) rest
  | .short nkey val _, key =>
    if nkey <+: key then hasRightElement val (key.drop nkey.length) else .ok (decide (key < nkey))
  | .hash _, _ => .error .panic

/-! ## The check -/

def emptyDatabase : Database := .newDatabase ⟨fun _ => none, [], false⟩

def plainOpts : TrieOpts := ⟨false, false, 0⟩

def updateAll (t : Trie) : List (Bytes × Bytes) → Except RangeProofError Trie
  | [] => .ok t
  | (key, value) :: entries =>
    match t.tryUpdate emptyDatabase key value with
    | (some .panic, _) => .error .panic
    | (_, t) => updateAll t entries

def increasing : List Bytes → Bool
  | a :: b :: keys => decide (a < b) && increasing (b :: keys)
  | _ => true

variable (keccak : Bytes → Hash)

def Trie.hash (t : Trie) : Hash := (t.hashExt keccak ⟨0, emptyDatabase, []⟩).1.unextend

/-- The node that is looked at for more entries, and the one the entries are put into. -/
def edgePaths (proof : ProofDB) (rootHash : Hash) (firstKey lastKey : Bytes) :
    Except RangeProofError (Node × Node) := do
  let (root, _) ← proofToPath proof rootHash firstKey true
  let (root, _) ← extendPath proof root lastKey true
  match ← unsetInternal root (keybytesToHex firstKey) (keybytesToHex lastKey) with
  | some root => .ok (root, root)
  | none => .ok (root, .nil)

def rebuild (proof : ProofDB) (rootHash : Hash) (firstKey lastKey : Bytes)
    (entries : List (Bytes × Bytes)) : Except RangeProofError (Node × Trie) := do
  let (root, inner) ← edgePaths proof rootHash firstKey lastKey
  let t ← updateAll ⟨plainOpts, inner, []⟩ entries
  .ok (root, t)

def checkHash (t : Trie) (rootHash : Hash) : Except RangeProofError Unit :=
  if t.hash keccak = rootHash then .ok () else .error (.invalidProof rootHash (t.hash keccak))

def verifyRangeProof (rootHash : Hash) (firstKey lastKey : Bytes) (keys values : List Bytes)
    (proof : Option ProofDB) : Except RangeProofError Bool :=
  if keys.length ≠ values.length then .error (.inconsistentData keys.length values.length)
  else if increasing keys = false then .error .notIncreasing
  else
    match proof with
    | none => do
      let t ← updateAll ⟨plainOpts, .nil, []⟩ (keys.zip values)
      checkHash keccak t rootHash
      .ok false
    | some proof =>
      match keys, values with
      | [], _ => do
        let (root, val) ← proofToPath proof rootHash firstKey true
        if val.isSome then .error .moreEntries
        else do
          let more ← hasRightElement root (keybytesToHex firstKey)
          if more then .error .moreEntries else .ok more
      | key :: keys, values =>
        if keys = [] ∧ firstKey = lastKey then do
          let (root, val) ← proofToPath proof rootHash firstKey false
          if firstKey ≠ key then .error .invalidKey
          else if val ≠ values.head? then .error .invalidData
          else hasRightElement root (keybytesToHex firstKey)
        else if ¬ firstKey < lastKey then .error .invalidEdgeKeys
        else if firstKey.length ≠ lastKey.length then .error .inconsistentEdgeKeys
        else do
          let (root, t) ← rebuild proof rootHash firstKey lastKey ((key :: keys).zip values)
          checkHash keccak t rootHash
          hasRightElement root (keybytesToHex ((key :: keys).getLastD []))

end Kaia.Storage
