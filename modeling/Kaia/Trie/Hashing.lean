import Kaia.Trie.Values

/-! # Hashing a node step by step

What hashing does at a node, given what it does at the children: a node that is small is kept
in its parent, and else it is hashed and stored.
-/

namespace Kaia.Storage

open Foundation Rlp

def Node.IsNode : Node → Prop
  | .short _ _ _ => True
  | .full _ _ => True
  | _ => False

def Node.steps : Node → ℕ
  | .hash _ => 2
  | _ => 1

theorem Node.steps_le (n : Node) : n.steps ≤ 2 := by
  cases n <;> simp [Node.steps]

theorem node_of_isNode {n : Node} (h : n.IsNode) : n.steps = 1 := by
  cases n with
  | short | full => rfl
  | _ => cases h

variable {keccak : Bytes → Hash} {opts : HasherOpts} {commit : Bool} {s : HashState}

theorem store_node {r : RawNode} (hr : r.IsNode) (flags : NodeFlag) (force onRoot : Bool) :
    store keccak opts r flags commit force onRoot s =
      if storedLen r flags < 32 ∧ force = false then ((r, storedLen r flags), s)
      else
        ((.hash (storedHashOf keccak opts r flags onRoot s).1, storedLen r flags),
          putNode opts commit (storedHashOf keccak opts r flags onRoot s).1 (storedLen r flags) r
            (storedHashOf keccak opts r flags onRoot s).2) := by
  cases r with
  | short | full => rfl
  | _ => cases hr

variable {c : Fin 17 → Node} {flags : NodeFlag}

theorem hashChildren_rule {hash : Fin 16 → HashState → (RawNode × Node) × HashState}
    (I : List (Fin 16) → HashedChildren → Prop)
    (hinit : I [] (fun i => if i = 16 then (c 16).rawValue else .nil, c, s))
    (hstep : ∀ done i acc, i ∉ done → I done acc → I (done ++ [i]) (hashChild c hash acc i)) :
    I (List.finRange 16) (hashChildren c hash s) := by
  have hfold : ∀ (l done : List (Fin 16)) acc, (done ++ l).Nodup → I done acc →
      I (done ++ l) (l.foldl (hashChild c hash) acc) := by
    intro l
    induction l with
    | nil => intro done acc _ h; simpa using h
    | cons i l ih =>
      intro done acc hnodup h
      rw [List.foldl_cons]
      have := ih (done ++ [i]) (hashChild c hash acc i) (by simpa using hnodup)
        (hstep done i acc (fun hi => (List.nodup_append.mp hnodup).2.2 i hi i List.mem_cons_self rfl) h)
      simpa using this
  exact hfold (List.finRange 16) [] _ (List.nodup_finRange 16) hinit

theorem isNil_iff {n : Node} : n.isNil = true ↔ n = .nil := by
  cases n <;> simp [Node.isNil]

def hashValue (keccak : Bytes → Hash) (opts : HasherOpts) (commit : Bool) (val : Node)
    (s : HashState) : (RawNode × Node) × HashState :=
  if val.isValue then ((val.rawValue, val), s) else hashNode keccak opts commit val false false s

theorem hashNode_short {key : List Nibble} {val : Node} (huse : usableHash flags commit = none)
    (force onRoot : Bool) :
    hashNode keccak opts commit (.short key val flags) force onRoot s =
      let child := hashValue keccak opts commit val s
      let out := store keccak opts (.short (hexToCompact key) child.1.1) flags commit force onRoot
        child.2
      ((out.1.1, .short key child.1.2 (hashedFlags flags commit out.1.1 out.1.2)), out.2) := by
  rw [hashNode, huse]
  rfl

theorem hashNode_full (huse : usableHash flags commit = none) (force onRoot : Bool) :
    hashNode keccak opts commit (.full c flags) force onRoot s =
      let child := hashChildren c (fun i s => hashNode keccak opts commit (c i.castSucc) false false s) s
      let out := store keccak opts (.full child.1) flags commit force onRoot child.2.2
      ((out.1.1, .full child.2.1 (hashedFlags flags commit out.1.1 out.1.2)), out.2) := by
  rw [hashNode, huse]

end Kaia.Storage
