import Kaia.Trie.Encoding
import Kaia.Trie.Hashing

/-! # Tries of which parts are missing

A node shows a tree when it is that tree with some parts replaced by their hashes. Nodes that hash
to one value show the same, unless the function collides. Lengths are taken in sixteen bits, so
that a large node may be held by its parent.
-/

namespace Kaia.Storage

open Foundation Rlp Node

/-! ## What is hashed for a node -/

namespace Node

def cachedHash : Node → Option ExtHash
  | .short _ _ flags => flags.hash
  | .full _ flags => flags.hash
  | _ => none

/-- The place of a value: behind a key that has ended, and at the end of a branch. -/
def Formed : Node → Prop
  | .nil => True
  | .value _ => False
  | .hash h => h.unextend ≠ 0
  | .short key val _ =>
    (Tree.IsKey 16 key ∧ ∃ v, val = .value v ∧ v ≠ []) ∨ (key ≠ [] ∧ 16 ∉ key ∧ val.Formed)
  | .full c _ =>
    (∀ i ≠ 16, (c i).Formed) ∧ (c 16 = .nil ∨ ∃ v, c 16 = .value v ∧ v ≠ [])

variable (keccak : Bytes → Hash)

/-- The hash, unless the length in sixteen bits is small and the hash is not asked for. -/
def heldAs (force : Bool) : RawNode → RawNode
  | .short key val =>
    let n := RawNode.short key val
    if n.encode.length % 2 ^ 16 < 32 ∧ force = false then n
    else .hash (.extendZero (keccak (nodeForHashing n).encode))
  | .full c =>
    let n := RawNode.full c
    if n.encode.length % 2 ^ 16 < 32 ∧ force = false then n
    else .hash (.extendZero (keccak (nodeForHashing n).encode))
  | n => n

def refWith (force : Bool) (cached : Option ExtHash) (r : RawNode) : RawNode :=
  match cached with
  | some h => .hash h
  | none => heldAs keccak force r

/-- The node with references in the place of the nodes below it. -/
def collapsed : Node → RawNode
  | .nil => .nil
  | .value v => .value v
  | .hash h => .hash h
  | .short key val _ =>
    .short (hexToCompact key) (refWith keccak false val.cachedHash val.collapsed)
  | .full c _ => .full fun i => refWith keccak false (c i).cachedHash (c i).collapsed

def ref (force : Bool) (n : Node) : RawNode :=
  refWith keccak force n.cachedHash (n.collapsed keccak)

def form (n : Node) : RawNode := nodeForHashing (n.collapsed keccak)

def bytes (n : Node) : Bytes := (n.form keccak).encode

end Node

variable {keccak : Bytes → Hash} {opts : HasherOpts} {s : HashState} {n : Node} {r : RawNode}

theorem heldAs_node (h : r.IsNode) (force : Bool) :
    heldAs keccak force r = if r.encode.length % 2 ^ 16 < 32 ∧ force = false then r
      else .hash (.extendZero (keccak (nodeForHashing r).encode)) := by
  cases r with
  | short | full => rfl
  | _ => cases h

theorem store_unhashed {flags : NodeFlag} (hopts : opts.pruning = false) (hr : r.IsNode)
    (hflags : flags.hash = none) (force onRoot : Bool) :
    (store keccak opts r flags false force onRoot s).1.1 = heldAs keccak force r := by
  have hhash : (storedHashOf keccak opts r flags onRoot s).1 =
      .extendZero (keccak (nodeForHashing r).encode) := by
    simp [storedHashOf, hflags, hashData, hopts]
  have hlen : storedLen r flags = r.encode.length % 2 ^ 16 := by
    simp [storedLen, hflags]
  rw [store_node hr, heldAs_node hr, hlen]
  split
  · rfl
  · rw [hhash]

theorem hashValue_eq {val : Node}
    (hval : (∃ v, val = .value v) ∨
      ∀ s, (hashNode keccak opts false val false false s).1.1 = val.ref keccak false) :
    (hashValue keccak opts false val s).1.1 = val.ref keccak false := by
  unfold hashValue
  split
  · next h =>
    cases val with
    | value v => rfl
    | _ => cases h
  · next h =>
    obtain ⟨v, rfl⟩ | hval := hval
    · exact absurd rfl h
    · exact hval s

theorem hashChildren_eq {c : Fin 17 → Node}
    (hc : ∀ i ≠ 16, ∀ s,
      (hashNode keccak opts false (c i) false false s).1.1 = (c i).ref keccak false)
    (hlast : c 16 = .nil ∨ ∃ v, c 16 = .value v) :
    (hashChildren c (fun i s => hashNode keccak opts false (c i.castSucc) false false s) s).1 =
      fun i => (c i).ref keccak false := by
  let hash : Fin 16 → HashState → (RawNode × Node) × HashState :=
    fun i s => hashNode keccak opts false (c i.castSucc) false false s
  -- the children that are done have their references, the others nothing
  let I : List (Fin 16) → HashedChildren → Prop := fun done acc =>
    acc.1 16 = (c 16).ref keccak false ∧
      ∀ i : Fin 16, acc.1 i.castSucc = if i ∈ done then (c i.castSucc).ref keccak false else .nil
  have hdone : I (List.finRange 16) (hashChildren c hash s) := by
    refine hashChildren_rule I ⟨?_, fun i => ?_⟩ ?_
    · dsimp only
      obtain hnil | ⟨v, hv⟩ := hlast
      · rw [hnil]
        rfl
      · rw [hv]
        rfl
    · dsimp only
      rw [if_neg (RawNode.castSucc_ne_term i), if_neg List.not_mem_nil]
    · rintro done i acc - ⟨h16, hacc⟩
      unfold hashChild
      split
      · next hnil =>
        refine ⟨h16, fun j => ?_⟩
        rw [hacc j]
        by_cases hj : j = i
        · subst hj
          rw [isNil_iff.mp hnil]
          simp [ref, refWith, cachedHash, collapsed, heldAs]
        · simp [hj]
      · refine ⟨?_, fun j => ?_⟩
        · exact (Function.update_of_ne (RawNode.castSucc_ne_term i).symm _ _).trans h16
        · by_cases hj : j = i
          · subst hj
            simp [hash, hc _ (RawNode.castSucc_ne_term j)]
          · simp [hacc j, hj]
  funext i
  refine Fin.lastCases hdone.1 (fun i => ?_) i
  rw [hdone.2 i, if_pos (List.mem_finRange i)]

theorem hashNode_eq (hopts : opts.pruning = false) (hf : n.Formed) (force onRoot : Bool) :
    (hashNode keccak opts false n force onRoot s).1.1 = n.ref keccak force := by
  induction n generalizing s force onRoot with
  | nil | hash => rfl
  | value v => cases hf
  | short key val flags ih =>
    have hval : (∃ v, val = .value v) ∨
        ∀ s, (hashNode keccak opts false val false false s).1.1 = val.ref keccak false := by
      obtain ⟨-, v, rfl, -⟩ | ⟨-, -, hval⟩ := hf
      · exact .inl ⟨v, rfl⟩
      · exact .inr fun s => ih hval false false
    cases hflags : flags.hash with
    | some h => simp [hashNode, usableHash, ref, refWith, cachedHash, hflags]
    | none =>
      rw [hashNode_short (by simp [usableHash, hflags])]
      simp only [store_unhashed hopts (r := .short _ _) trivial hflags, hashValue_eq hval, ref,
        refWith, cachedHash, hflags]
      rfl
  | full c flags ih =>
    cases hflags : flags.hash with
    | some h => simp [hashNode, usableHash, ref, refWith, cachedHash, hflags]
    | none =>
      have hchildren := hashChildren_eq (s := s)
        (fun i hi s => ih i (s := s) (hf.1 i hi) false false)
        (hf.2.imp_right fun h => h.imp fun _ hv => hv.1)
      rw [hashNode_full (by simp [usableHash, hflags])]
      simp only [hchildren, store_unhashed hopts (r := .full _) trivial hflags, ref,
        refWith, cachedHash, hflags]
      rfl

/-! ## Trees as nodes -/

namespace Node

def ofTree : ValueTree → Node
  | .nil => .nil
  | .value v => .value v
  | .short key t => .short key (ofTree t) {}
  | .full c => .full (fun i => ofTree (c i)) {}

@[simp] theorem cachedHash_ofTree (t : ValueTree) : (ofTree t).cachedHash = none := by
  cases t <;> rfl

theorem ofTree_eq_nil {t : ValueTree} : ofTree t = .nil ↔ t = .nil := by
  cases t <;> simp [ofTree]

theorem ofTree_eq_value {t : ValueTree} {v : Bytes} : ofTree t = .value v ↔ t = .value v := by
  cases t <;> simp [ofTree]

variable (keccak : Bytes → Hash) (L : Set Bytes)

/-- The hashed bytes are among the given ones, and lengths in them have eight bytes. -/
def Noted (n : Node) : Prop := n.bytes keccak ∈ L ∧ (n.form keccak).Measured

def Recorded : Node → Prop
  | .short key val flags =>
    flags.hash = none → (Node.short key val flags).Noted keccak L ∧ val.Recorded
  | .full c flags => flags.hash = none → (Node.full c flags).Noted keccak L ∧ ∀ i, (c i).Recorded
  | _ => True

end Node

/-- A tree whose hash can be compared. -/
structure Known (keccak : Bytes → Hash) (L : Set Bytes) (t : ValueTree) : Prop where
  formed : (Node.ofTree t).Formed
  recorded : (Node.ofTree t).Recorded keccak L

variable {L : Set Bytes} {n' : Node} {t t' : ValueTree} {force : Bool}

variable (keccak) in
theorem form_isNode (h : n.IsNode) : (n.collapsed keccak).IsNode ∧ (n.form keccak).IsNode := by
  cases n with
  | short | full => exact ⟨trivial, trivial⟩
  | _ => cases h

variable (keccak) in
theorem ref_cases (h : n.IsNode) (hc : n.cachedHash = none) (force : Bool) :
    nodeForHashing (n.ref keccak force) = n.form keccak ∨
      nodeForHashing (n.ref keccak force) = .hash (.extendZero (keccak (n.bytes keccak))) := by
  rw [ref, hc, refWith, heldAs_node (form_isNode keccak h).1]
  split
  · exact .inl rfl
  · exact .inr rfl

theorem ref_forced (h : n.IsNode) (hc : n.cachedHash = none) :
    nodeForHashing (n.ref keccak true) = .hash (.extendZero (keccak (n.bytes keccak))) := by
  rw [ref, hc, refWith, heldAs_node (form_isNode keccak h).1, if_neg (by simp)]
  rfl

theorem ref_cached {h : ExtHash} (hc : n.cachedHash = some h) (force : Bool) :
    nodeForHashing (n.ref keccak force) = .hash (.extendZero h.unextend) := by
  rw [ref, hc]
  rfl

theorem ref_formed (hform : (n.form keccak).Formed) (hn : ∀ v, n ≠ .value v) (force : Bool) :
    (nodeForHashing (n.ref keccak force)).Formed := by
  cases hc : n.cachedHash with
  | some h =>
    rw [ref_cached hc]
    rfl
  | none =>
    by_cases hnode : n.IsNode
    · obtain heq | heq := ref_cases keccak hnode hc force
      · rwa [heq]
      · rw [heq]
        rfl
    · cases n with
      | nil => exact trivial
      | value v => exact absurd rfl (hn v)
      | hash h => exact rfl
      | _ => exact absurd trivial hnode

theorem Node.Formed.not_value (h : n.Formed) (v : Bytes) : n ≠ .value v := by
  rintro rfl
  exact h

variable {v : Bytes} {key : List Nibble}

theorem unextendValue_ne_nil (h : v ≠ []) : unextendValue v ≠ [] := by
  intro hnil
  rw [unextendValue_of_length (.inr (by rw [hnil]; simp))] at hnil
  exact h hnil

theorem Node.Formed.form (hf : n.Formed) : (n.form keccak).Formed := by
  induction n with
  | nil => exact trivial
  | value v => cases hf
  | hash h => exact rfl
  | short key val flags ih =>
    obtain ⟨hkey, v, rfl, hv⟩ | ⟨-, hkey, hval⟩ := hf
    · obtain ⟨w, hw, rfl⟩ := hkey.exists_word
      exact ⟨w, hw, .inl ⟨rfl, _, rfl⟩⟩
    · exact ⟨key, hkey, .inr ⟨rfl, ref_formed (ih hval) hval.not_value false⟩⟩
  | full c flags ih =>
    refine ⟨fun i hi => ref_formed (ih i (hf.1 i hi)) (hf.1 i hi).not_value false, ?_⟩
    obtain hnil | ⟨v, hv, hne⟩ := hf.2
    · left
      simp only [hnil]
      rfl
    · right
      simp only [hv]
      exact ⟨_, rfl, unextendValue_ne_nil hne⟩

section

variable (hL : CollisionFree keccak L) (hf : n.Formed) (hf' : n'.Formed) (hn : n.Noted keccak L)
    (hn' : n'.Noted keccak L)

include hL hf hf' hn hn'

theorem form_eq_of_keccak
    (h : keccak (n.bytes keccak) = keccak (n'.bytes keccak)) : n.form keccak = n'.form keccak :=
  RawNode.encode_inj hf.form hf'.form hn.2 hn'.2 (hL.inj _ hn.1 _ hn'.1 h)

theorem form_eq_of_ref (hnode : n.IsNode) (hnode' : n'.IsNode)
    (hc : n.cachedHash = none) (hc' : n'.cachedHash = none)
    (h : nodeForHashing (n.ref keccak force) = nodeForHashing (n'.ref keccak force)) :
    n.form keccak = n'.form keccak := by
  have hisNode := (form_isNode keccak hnode).2
  have hisNode' := (form_isNode keccak hnode').2
  obtain heq | heq := ref_cases keccak hnode hc force
  · obtain heq' | heq' := ref_cases keccak hnode' hc' force
    · exact heq.symm.trans (h.trans heq')
    · rw [heq, heq'] at h
      rw [h] at hisNode
      cases hisNode
  · obtain heq' | heq' := ref_cases keccak hnode' hc' force
    · rw [heq, heq'] at h
      rw [← h] at hisNode'
      cases hisNode'
    · rw [heq, heq'] at h
      simp only [RawNode.hash.injEq, ExtHash.extendZero, ExtHash.mk.injEq, and_true] at h
      exact form_eq_of_keccak hL hf hf' hn hn' h

end

theorem Node.Recorded.noted (h : n.Recorded keccak L) (hnode : n.IsNode)
    (hc : n.cachedHash = none) : n.Noted keccak L := by
  cases n with
  | short | full => exact (h hc).1
  | _ => cases hnode

/-! ## Parts of trees -/

/-- A tree below another one may be a value. -/
def Below (keccak : Bytes → Hash) (L : Set Bytes) (t : ValueTree) : Prop :=
  Known keccak L t ∨ ∃ v, t = .value v ∧ v ≠ []

theorem known_nil : Known keccak L .nil := ⟨trivial, trivial⟩

theorem Known.noted (h : Known keccak L t) (hnode : (ofTree t).IsNode) :
    (ofTree t).Noted keccak L := h.recorded.noted hnode (Node.cachedHash_ofTree t)

theorem Known.of_short (h : Known keccak L (.short key t)) :
    compactToHex (hexToCompact key) = key ∧ Below keccak L t := by
  obtain ⟨hkey, v, hv, hne⟩ | ⟨-, hkey, hval⟩ := h.formed
  · exact ⟨compactToHex_key hkey, .inr ⟨v, ofTree_eq_value.mp hv, hne⟩⟩
  · exact ⟨compactToHex_word hkey, .inl ⟨hval, (h.recorded rfl).2⟩⟩

theorem Known.leaf_ne_nil (h : Known keccak L (.short key (.value v))) : v ≠ [] := by
  obtain ⟨-, w, hw, hne⟩ | ⟨-, -, hval⟩ := h.formed
  · cases hw
    exact hne
  · cases hval

theorem Known.of_full {c : Nibble → ValueTree} (h : Known keccak L (.full c)) (i : Nibble) :
    Below keccak L (c i) := by
  by_cases hi : i = 16
  · subst hi
    obtain hnil | ⟨v, hv, hne⟩ := h.formed.2
    · rw [ofTree_eq_nil.mp hnil]
      exact .inl known_nil
    · exact .inr ⟨v, ofTree_eq_value.mp hv, hne⟩
  · exact .inl ⟨h.formed.1 i hi, (h.recorded rfl).2 i⟩

section

variable (h : Below keccak L t)

include h

/-- What the tree is can be read off its reference. -/
theorem Below.of_ref (force : Bool) :
    match nodeForHashing ((ofTree t).ref keccak force) with
    | .nil => t = .nil
    | .value v => ∃ u, t = .value u ∧ unextendValue u = v
    | .hash eh => Known keccak L t ∧ (ofTree t).IsNode ∧
        eh.unextend = keccak ((ofTree t).bytes keccak)
    | _ => Known keccak L t ∧ (ofTree t).IsNode := by
  obtain hk | ⟨v, rfl, -⟩ := h
  · by_cases hnode : (ofTree t).IsNode
    · obtain heq | heq := ref_cases keccak hnode (cachedHash_ofTree t) force
      · have hform := (form_isNode keccak hnode).2
        rw [heq]
        revert hform
        cases (ofTree t).form keccak with
        | short | full => exact fun _ => ⟨hk, hnode⟩
        | _ => exact nofun
      · rw [heq]
        exact ⟨hk, hnode, rfl⟩
    · cases t with
      | nil => exact rfl
      | value v => cases hk.formed
      | _ => exact absurd trivial hnode
  · exact ⟨v, rfl, rfl⟩

theorem Below.of_node (hnode : (ofTree t).IsNode) : Known keccak L t := by
  obtain hk | ⟨v, rfl, -⟩ := h
  · exact hk
  · cases hnode

theorem Below.eq_nil
    (href : nodeForHashing ((ofTree t).ref keccak force) = .nil) : t = .nil := by
  have ht := h.of_ref force
  rwa [href] at ht

theorem Below.eq_value
    (href : nodeForHashing ((ofTree t).ref keccak force) = .value v) :
    ∃ u, t = .value u ∧ unextendValue u = v := by
  have ht := h.of_ref force
  rwa [href] at ht

theorem Below.eq_hash {eh : ExtHash}
    (href : nodeForHashing ((ofTree t).ref keccak force) = .hash eh) :
    Known keccak L t ∧ (ofTree t).IsNode ∧
      eh.unextend = keccak ((ofTree t).bytes keccak) := by
  have ht := h.of_ref force
  rwa [href] at ht

end

theorem Below.form_eq (hL : CollisionFree keccak L) (hf : n.Formed) (hn : n.Noted keccak L)
    (hnode : n.IsNode) (hc : n.cachedHash = none) (ht : Below keccak L t)
    (h : nodeForHashing (n.ref keccak force) = nodeForHashing ((ofTree t).ref keccak force)) :
    Known keccak L t ∧ (ofTree t).IsNode ∧
      n.form keccak = (ofTree t).form keccak := by
  have hknown : Known keccak L t ∧ (ofTree t).IsNode := by
    have hof := ht.of_ref force
    obtain heq | heq := ref_cases keccak hnode hc force
    · have hisNode := (form_isNode keccak hnode).2
      rw [← h, heq] at hof
      revert hof hisNode
      cases n.form keccak with
      | short | full => exact fun hof _ => hof
      | _ => exact nofun
    · rw [← h, heq] at hof
      exact ⟨hof.1, hof.2.1⟩
  obtain ⟨hk, hnode'⟩ := hknown
  exact ⟨hk, hnode', form_eq_of_ref hL hf hk.formed hn (hk.noted hnode') hnode hnode' hc
    (cachedHash_ofTree t) h⟩

theorem Known.eq_short (h : Known keccak L t) (hkey : compactToHex (hexToCompact key) = key)
    (hform : (ofTree t).form keccak = .short (hexToCompact key) r) :
    ∃ s, t = .short key s ∧ r = nodeForHashing ((ofTree s).ref keccak false) := by
  cases t with
  | short key' s =>
    obtain ⟨hkeys, rfl⟩ := RawNode.short.inj hform
    have hkey' := h.of_short.1
    rw [hkeys, hkey] at hkey'
    exact ⟨s, by rw [hkey'], rfl⟩
  | _ => cases hform

theorem eq_full_of_form {r : Fin 17 → RawNode} (hform : (ofTree t).form keccak = .full r) :
    ∃ u, t = .full u ∧ ∀ i, r i = nodeForHashing ((ofTree (u i)).ref keccak false) := by
  cases t with
  | full u =>
    obtain rfl := RawNode.full.inj hform
    exact ⟨u, rfl, fun i => rfl⟩
  | _ => cases hform

/-! ## What a node shows -/

/-- The node is the tree, up to counters, with the hashes of some parts in their places. -/
inductive Shows (keccak : Bytes → Hash) : Node → ValueTree → Prop
  | nil : Shows keccak .nil .nil
  | value {v u : Bytes} (h : unextendValue v = unextendValue u) : Shows keccak (.value v) (.value u)
  | short {key : List Nibble} {val : Node} {flags : NodeFlag} {t : ValueTree}
      (h : Shows keccak val t) : Shows keccak (.short key val flags) (.short key t)
  | full {c : Fin 17 → Node} {flags : NodeFlag} {u : Nibble → ValueTree}
      (h : ∀ i, Shows keccak (c i) (u i)) : Shows keccak (.full c flags) (.full u)
  | hash {h : ExtHash} {t : ValueTree} (hnode : (Node.ofTree t).IsNode)
      (hhash : h.unextend = keccak ((Node.ofTree t).bytes keccak)) : Shows keccak (.hash h) t

/-- The cached hashes in a node are those of the parts of the tree. -/
def Node.Marked (keccak : Bytes → Hash) : Node → ValueTree → Prop
  | .short _ val flags, .short key t =>
    (∀ h, flags.hash = some h →
      h.unextend = keccak ((Node.ofTree (.short key t)).bytes keccak)) ∧ val.Marked keccak t
  | .full c flags, .full u =>
    (∀ h, flags.hash = some h → h.unextend = keccak ((Node.ofTree (.full u)).bytes keccak)) ∧
      ∀ i, (c i).Marked keccak (u i)
  | _, _ => True

/-- The node shows the tree, with the hashes of its own parts cached. -/
structure Opens (keccak : Bytes → Hash) (n : Node) (t : ValueTree) : Prop where
  shows : Shows keccak n t
  marked : n.Marked keccak t

/-- The hash that is cached for a node is that of a tree it shows. -/
def CachedFor (keccak : Bytes → Hash) (L : Set Bytes) (n : Node) (h : ExtHash) : Prop :=
  ∃ t, Known keccak L t ∧ Shows keccak n t ∧ h.unextend = keccak ((Node.ofTree t).bytes keccak)

/-- All the hashes that are cached are right. -/
def Node.Flagged (keccak : Bytes → Hash) (L : Set Bytes) : Node → Prop
  | .short key val flags =>
    (∀ h, flags.hash = some h → CachedFor keccak L (.short key val flags) h) ∧ val.Flagged keccak L
  | .full c flags =>
    (∀ h, flags.hash = some h → CachedFor keccak L (.full c flags) h) ∧ ∀ i, (c i).Flagged keccak L
  | _ => True

theorem Shows.isNode (h : Shows keccak n t) (hn : n.IsNode) : (ofTree t).IsNode := by
  cases h with
  | short | full => exact trivial
  | _ => cases hn

variable {h : ExtHash} {u : Bytes}

theorem Node.Flagged.cachedFor (hn : n.Flagged keccak L) (hc : n.cachedHash = some h) :
    CachedFor keccak L n h := by
  cases n with
  | short | full => exact hn.1 h hc
  | _ => cases hc

theorem Shows.of_ref (hL : CollisionFree keccak L) (hs : Shows keccak n t)
    (ht : Below keccak L t) (ht' : Below keccak L t')
    (h : nodeForHashing ((ofTree t).ref keccak force) =
      nodeForHashing ((ofTree t').ref keccak force)) : Shows keccak n t' := by
  induction hs generalizing t' force with
  | nil =>
    rw [ht'.eq_nil h.symm]
    exact .nil
  | @value v u hv =>
    obtain ⟨u', rfl, hu'⟩ := ht'.eq_value h.symm
    exact .value (hv.trans hu'.symm)
  | @short key val flags t hs ih =>
    have hk := ht.of_node trivial
    obtain ⟨ht', -, hform⟩ := ht'.form_eq hL hk.formed (hk.noted trivial) trivial rfl h
    obtain ⟨hkey, hbelow⟩ := hk.of_short
    obtain ⟨s, rfl, href⟩ := ht'.eq_short hkey hform.symm
    exact .short (ih hbelow ht'.of_short.2 href)
  | @full c flags u hs ih =>
    have hk := ht.of_node trivial
    obtain ⟨ht', -, hform⟩ := ht'.form_eq hL hk.formed (hk.noted trivial) trivial rfl h
    obtain ⟨u', rfl, href⟩ := eq_full_of_form hform.symm
    exact .full fun i => ih i (hk.of_full i) (ht'.of_full i) (href i)
  | hash hnode hhash =>
    have hk := ht.of_node hnode
    obtain ⟨-, hnode', hform⟩ := ht'.form_eq hL hk.formed (hk.noted hnode) hnode
      (cachedHash_ofTree _) h
    exact .hash hnode' (by rw [hhash, bytes, bytes, hform])

theorem CachedFor.shows (hL : CollisionFree keccak L) (hc : CachedFor keccak L n h) (hn : n.IsNode)
    (ht : Known keccak L t) (hnode : (ofTree t).IsNode)
    (hhash : h.unextend = keccak ((ofTree t).bytes keccak)) : Shows keccak n t := by
  obtain ⟨t₀, hk₀, hs₀, hhash₀⟩ := hc
  have href : nodeForHashing ((ofTree t₀).ref keccak true) =
      nodeForHashing ((ofTree t).ref keccak true) := by
    rw [ref_forced (hs₀.isNode hn) (cachedHash_ofTree t₀),
      ref_forced hnode (cachedHash_ofTree t), ← hhash₀, hhash]
  exact hs₀.of_ref hL (.inl hk₀) (.inl ht) href

theorem shows_of_ref_end (ht : Below keccak L t) (hn : n = .nil ∨ ∃ v, n = .value v ∧ v ≠ [])
    (h : nodeForHashing (n.ref keccak force) = nodeForHashing ((ofTree t).ref keccak force)) :
    Shows keccak n t := by
  obtain rfl | ⟨v, rfl, -⟩ := hn
  · rw [ht.eq_nil h.symm]
    exact .nil
  · obtain ⟨u, rfl, hu⟩ := ht.eq_value h.symm
    exact .value hu.symm

theorem shows_of_ref (hL : CollisionFree keccak L) (ht : Below keccak L t) (hf : n.Formed)
    (hflag : n.Flagged keccak L) (hrec : n.Recorded keccak L)
    (h : nodeForHashing (n.ref keccak force) = nodeForHashing ((ofTree t).ref keccak force)) :
    Shows keccak n t := by
  induction n generalizing t force with
  | nil =>
    rw [ht.eq_nil h.symm]
    exact .nil
  | value v => cases hf
  | hash eh =>
    obtain ⟨-, hnode, hhash⟩ := ht.eq_hash h.symm
    exact .hash hnode hhash
  | short key val flags ih =>
    cases hc : flags.hash with
    | some eh =>
      obtain ⟨hk, hnode, hhash⟩ := ht.eq_hash (h.symm.trans (ref_cached (by exact hc) force))
      exact (hflag.1 eh hc).shows hL trivial hk hnode hhash
    | none =>
      obtain ⟨hnoted, hval⟩ := hrec hc
      obtain ⟨hk, -, hform⟩ := ht.form_eq hL hf hnoted trivial hc h
      obtain ⟨hkey, v, rfl, hv⟩ | ⟨-, hkey, hvalf⟩ := hf
      · obtain ⟨s, rfl, href⟩ := hk.eq_short (compactToHex_key hkey) hform.symm
        exact .short (shows_of_ref_end hk.of_short.2 (.inr ⟨v, rfl, hv⟩) href)
      · obtain ⟨s, rfl, href⟩ := hk.eq_short (compactToHex_word hkey) hform.symm
        exact .short (ih hk.of_short.2 hvalf hflag.2 hval href)
  | full c flags ih =>
    cases hc : flags.hash with
    | some eh =>
      obtain ⟨hk, hnode, hhash⟩ := ht.eq_hash (h.symm.trans (ref_cached (by exact hc) force))
      exact (hflag.1 eh hc).shows hL trivial hk hnode hhash
    | none =>
      obtain ⟨hnoted, hvals⟩ := hrec hc
      obtain ⟨hk, -, hform⟩ := ht.form_eq hL hf hnoted trivial hc h
      obtain ⟨u, rfl, href⟩ := eq_full_of_form hform.symm
      refine .full fun i => ?_
      by_cases hi : i = 16
      · subst hi
        exact shows_of_ref_end (hk.of_full 16) hf.2 (href 16)
      · exact ih i (hk.of_full i) (hf.1 i hi) (hflag.2 i) (hvals i) (href i)

theorem Shows.eq_nil (h : Shows keccak n .nil) : n = .nil := by
  cases h with
  | nil => rfl
  | hash hnode => cases hnode

theorem Shows.tree_nil (h : Shows keccak .nil t) : t = .nil := by
  cases h
  rfl

theorem Shows.eq_value (h : Shows keccak n (.value u)) :
    ∃ v, n = .value v ∧ unextendValue v = unextendValue u := by
  cases h with
  | value h => exact ⟨_, rfl, h⟩
  | hash hnode => cases hnode

theorem ne_nil_of_unextend (h : unextendValue v = unextendValue u) (hu : u ≠ []) : v ≠ [] := by
  rintro rfl
  exact unextendValue_ne_nil hu h.symm

theorem Shows.formed (hL : CollisionFree keccak L) (hs : Shows keccak n t)
    (hk : Known keccak L t) : n.Formed := by
  induction hs with
  | nil => exact trivial
  | value h => cases hk.formed
  | @short key val flags t hs ih =>
    obtain ⟨hkey, v, hv, hne⟩ | ⟨hpos, hkey, hval⟩ := hk.formed
    · rw [ofTree_eq_value] at hv
      subst hv
      obtain ⟨v', rfl, hv'⟩ := hs.eq_value
      exact .inl ⟨hkey, v', rfl, ne_nil_of_unextend hv' hne⟩
    · exact .inr ⟨hpos, hkey, ih ⟨hval, (hk.recorded rfl).2⟩⟩
  | @full c flags u hs ih =>
    refine ⟨fun i hi => ih i ⟨hk.formed.1 i hi, (hk.recorded rfl).2 i⟩, ?_⟩
    have hlast := hs 16
    obtain hnil | ⟨v, hv, hne⟩ := hk.formed.2
    · rw [ofTree_eq_nil.mp hnil] at hlast
      exact .inl hlast.eq_nil
    · rw [ofTree_eq_value.mp hv] at hlast
      obtain ⟨v', hv', hu⟩ := hlast.eq_value
      exact .inr ⟨v', hv', ne_nil_of_unextend hu hne⟩
  | hash hnode hhash =>
    rw [Node.Formed, hhash]
    exact hL.ne_zero _ (hk.noted hnode).1

/-! ## Nodes that are read back -/

theorem shows_expand_ref
    (h : ∀ flag, Shows keccak (((ofTree t).form keccak).expandNode flag) t)
    (force : Bool) (flag : Option ExtHash) :
    Shows keccak ((nodeForHashing ((ofTree t).ref keccak force)).expandNode flag) t := by
  by_cases hnode : (ofTree t).IsNode
  · obtain heq | heq := ref_cases keccak hnode (cachedHash_ofTree t) force
    · rw [heq]
      exact h flag
    · rw [heq]
      exact .hash hnode rfl
  · cases t with
    | nil => exact .nil
    | value v => exact .value (unextendValue_idem v)
    | _ => exact absurd trivial hnode

theorem shows_expand_form (ht : Below keccak L t) (flag : Option ExtHash) :
    Shows keccak (((ofTree t).form keccak).expandNode flag) t := by
  induction t generalizing flag with
  | nil => exact .nil
  | value v => exact .value (unextendValue_idem v)
  | short key t ih =>
    obtain ⟨hkey, hbelow⟩ := (ht.of_node trivial).of_short
    show Shows keccak (.short (compactToHex (hexToCompact key)) _ _) _
    rw [hkey]
    exact .short (shows_expand_ref (ih hbelow) false none)
  | full c ih =>
    exact .full fun i => shows_expand_ref (ih i ((ht.of_node trivial).of_full i)) false none

theorem marked_expandNode (r : RawNode) (t : ValueTree) : (r.expandNode none).Marked keccak t := by
  induction r generalizing t with
  | short key val ih =>
    cases t with
    | short key' t => exact ⟨fun h hh => (by cases hh), ih t⟩
    | _ => exact trivial
  | full c ih =>
    cases t with
    | full u => exact ⟨fun h hh => (by cases hh), fun i => ih i (u i)⟩
    | _ => exact trivial
  | _ => exact trivial

theorem Opens.flagged (h : Opens keccak n t) (ht : Below keccak L t) : n.Flagged keccak L := by
  obtain ⟨hs, hm⟩ := h
  induction hs with
  | short hs ih =>
    have hk := ht.of_node trivial
    exact ⟨fun h hh => ⟨_, hk, .short hs, hm.1 h hh⟩, ih hk.of_short.2 hm.2⟩
  | full hs ih =>
    have hk := ht.of_node trivial
    exact ⟨fun h hh => ⟨_, hk, .full hs, hm.1 h hh⟩, fun i => ih i (hk.of_full i) (hm.2 i)⟩
  | _ => exact trivial

theorem decodeNode_bytes (ht : Known keccak L t) (hnode : (ofTree t).IsNode) {fuel : ℕ}
    (hh : h.unextend = keccak ((ofTree t).bytes keccak))
    (hn : decodeNode fuel (some h) ((ofTree t).bytes keccak) = some n) :
    n.IsNode ∧ Opens keccak n t := by
  rw [← List.append_nil ((ofTree t).bytes keccak)] at hn
  obtain rfl := RawNode.decodeNode_of_encode ht.formed.form (ht.noted hnode).2
    (form_isNode keccak hnode).2 hn
  have hshows := shows_expand_form (.inl ht) (some h)
  cases t with
  | short key t =>
    exact ⟨trivial, hshows, fun _ heq => Option.some.inj heq ▸ hh, marked_expandNode _ _⟩
  | full c =>
    exact ⟨trivial, hshows, fun _ heq => Option.some.inj heq ▸ hh, fun i => marked_expandNode _ _⟩
  | _ => cases hnode

end Kaia.Storage
