import Kaia.Foundation.Folds
import Kaia.Foundation.Outcomes
import Kaia.Trie.Partial
import Kaia.Trie.RangeProof

/-! # Following paths and cutting between them

At the ends of the paths of a node are values, and hashes of missing parts. Following a key resolves
the hashes on its way. Cutting leaves what is left of the first key or right of the last one.
-/

namespace Kaia.Storage

open Foundation List Function Tree Node

/-! ## Ends of paths -/

namespace Node

def At : Node → List Nibble → Node → Prop
  | .nil, _, _ => False
  | .value v, p, m => p = [] ∧ m = .value v
  | .hash h, p, m => p = [] ∧ m = .hash h
  | .short key val _, p, m => ∃ q, p = key ++ q ∧ val.At q m
  | .full c _, p, m => ∃ i q, p = i :: q ∧ (c i).At q m

/-- Nothing is missing on the way of a key. -/
def Clear (n : Node) (key : List Nibble) : Prop := ∀ q h, q <+: key → ¬ n.At q (.hash h)

variable {n n' val : Node} {c : Fin 17 → Node} {key nkey : List Nibble} {flags : NodeFlag}

theorem not_clear_hash {h : ExtHash} : ¬ (hash h).Clear key := fun hc =>
  hc [] h nil_prefix ⟨rfl, rfl⟩

theorem clear_short_append : (short nkey val flags).Clear (nkey ++ key) ↔ val.Clear key := by
  constructor
  · intro h q eh hq hat
    exact h (nkey ++ q) eh ((prefix_append_right_inj nkey).mpr hq) ⟨q, rfl, hat⟩
  · rintro h _ eh hq ⟨q, rfl, hat⟩
    exact h q eh ((prefix_append_right_inj nkey).mp hq) hat

theorem clear_short_of_not_front (h : ¬ nkey <+: key) : (short nkey val flags).Clear key := by
  rintro _ eh hq ⟨q, rfl, -⟩
  exact h ((prefix_append nkey q).trans hq)

variable {i : Nibble} {flags' : NodeFlag}

theorem clear_full_cons : (full c flags).Clear (i :: key) ↔ (c i).Clear key := by
  constructor
  · intro h q eh hq hat
    exact h (i :: q) eh (cons_prefix_cons.mpr ⟨rfl, hq⟩) ⟨i, q, rfl, hat⟩
  · rintro h _ eh hq ⟨j, q, rfl, hat⟩
    obtain ⟨rfl, hfront⟩ := cons_prefix_cons.mp hq
    exact h q eh hfront hat

/-- The second node is the first one with hashes on the way of the key replaced. -/
def OpenedTo (n n' : Node) (key : List Nibble) : Prop :=
  ∀ p m, n'.At p m → n.At p m ∨ ∃ q h, q <+: p ∧ q <+: key ∧ n.At q (.hash h)

theorem OpenedTo.refl (n : Node) (key : List Nibble) : n.OpenedTo n key := fun _ _ h => .inl h

theorem OpenedTo.of_hash (h : ExtHash) (n : Node) (key : List Nibble) :
    (hash h).OpenedTo n key :=
  fun _ _ _ => .inr ⟨[], h, nil_prefix, nil_prefix, rfl, rfl⟩

theorem OpenedTo.clear {k : List Nibble} (h : n.OpenedTo n' key) (hc : n.Clear k) : n'.Clear k := by
  intro q eh hq hat
  obtain hat | ⟨r, eh', hr, -, hat⟩ := h q _ hat
  · exact hc q eh hq hat
  · exact hc r eh' (hr.trans hq) hat

theorem OpenedTo.short (h : val.OpenedTo n' key) :
    (short nkey val flags).OpenedTo (.short nkey n' flags') (nkey ++ key) := by
  rintro _ m ⟨q, rfl, hat⟩
  obtain hat | ⟨r, eh, hr, hk, hat⟩ := h q m hat
  · exact .inl ⟨q, rfl, hat⟩
  · exact .inr ⟨nkey ++ r, eh, (prefix_append_right_inj nkey).mpr hr,
      (prefix_append_right_inj nkey).mpr hk, r, rfl, hat⟩

theorem OpenedTo.full (h : (c i).OpenedTo n' key) :
    (full c flags).OpenedTo (.full (update c i n') flags') (i :: key) := by
  rintro _ m ⟨j, q, rfl, hat⟩
  by_cases hj : j = i
  · subst hj
    rw [update_self] at hat
    obtain hat | ⟨r, eh, hr, hk, hat⟩ := h q m hat
    · exact .inl ⟨j, q, rfl, hat⟩
    · exact .inr ⟨j :: r, eh, cons_prefix_cons.mpr ⟨rfl, hr⟩,
        cons_prefix_cons.mpr ⟨rfl, hk⟩, j, r, rfl, hat⟩
  · rw [update_of_ne hj] at hat
    exact .inl ⟨j, q, rfl, hat⟩

end Node

variable {keccak : Bytes → Hash} {L : Set Bytes} {n : Node} {t : ValueTree} {p : List Nibble}
  {v : Bytes} {val : Node} {u : Nibble → ValueTree}

theorem Shows.get_of_at (hs : Shows keccak n t) (h : n.At p (.value v)) :
    ∃ u, t.get p = some u ∧ unextendValue v = unextendValue u := by
  induction hs generalizing p with
  | nil => cases h
  | @value v' u hv =>
    obtain ⟨rfl, heq⟩ := h
    cases heq
    exact ⟨u, rfl, hv⟩
  | short hs ih =>
    obtain ⟨q, rfl, hat⟩ := h
    obtain ⟨u, hu, hv⟩ := ih hat
    exact ⟨u, by simpa using hu, hv⟩
  | full hs ih =>
    obtain ⟨i, q, rfl, hat⟩ := h
    exact ih i hat
  | hash hnode hhash => cases h.2

theorem Shows.at_of_get {u : Bytes} (hs : Shows keccak n t) (h : t.get p = some u) :
    (∃ v, n.At p (.value v) ∧ unextendValue v = unextendValue u) ∨
      ∃ q eh, q <+: p ∧ n.At q (.hash eh) := by
  induction hs generalizing p with
  | nil => cases h
  | @value v u' hv =>
    rw [get_value] at h
    split at h
    · next hp =>
      cases h
      exact .inl ⟨v, ⟨hp, rfl⟩, hv⟩
    · cases h
  | @short key val flags t hs ih =>
    obtain ⟨q, rfl, hq⟩ := short_get_eq_some.mp h
    obtain ⟨v, hat, hv⟩ | ⟨r, eh, hr, hat⟩ := ih hq
    · exact .inl ⟨v, ⟨q, rfl, hat⟩, hv⟩
    · exact .inr ⟨key ++ r, eh, (prefix_append_right_inj key).mpr hr, r, rfl, hat⟩
  | full hs ih =>
    cases p with
    | nil => cases h
    | cons i p =>
      obtain ⟨v, hat, hv⟩ | ⟨r, eh, hr, hat⟩ := ih i h
      · exact .inl ⟨v, ⟨i, p, rfl, hat⟩, hv⟩
      · exact .inr ⟨i :: r, eh, cons_prefix_cons.mpr ⟨rfl, hr⟩, i, r, rfl, hat⟩
  | @hash eh t hnode hhash => exact .inr ⟨[], eh, nil_prefix, rfl, rfl⟩

/-! ## Following a path -/

/-- Each node of a proof is under its own hash; the encoding of nothing may be there too. -/
def Genuine (keccak : Bytes → Hash) (L : Set Bytes) (proof : ProofDB) : Prop :=
  ∀ h b, proof h = some b → h = .extendZero (keccak b) ∧ (b ∈ L ∨ b = [0x80])

/-- The check goes on or is refused, without a panic, and what is returned has the property. -/
abbrev Returns {α : Type} (Q : α → Prop) (x : Except RangeProofError α) : Prop :=
  Outcome (· ≠ RangeProofError.panic) Q x

/-- What following a key gives. -/
structure Followed (keccak : Bytes → Hash) (t : ValueTree) (allowNonExistent : Bool) (n : Node)
    (key : List Nibble) (r : Node × Option Bytes) : Prop where
  opens : Opens keccak r.1 t
  clear : r.1.Clear key
  opened : n.OpenedTo r.1 key
  value : r.2.map unextendValue = (t.get key).map unextendValue
  present : allowNonExistent = false → r.2.isSome

variable {proof : ProofDB} {key : List Nibble}

theorem resolveNode_spec (hL : CollisionFree keccak L) (hp : Genuine keccak L proof)
    (ht : Known keccak L t) (hnode : (ofTree t).IsNode) {h : ExtHash}
    (hh : h.unextend = keccak ((ofTree t).bytes keccak)) :
    Returns (fun n => n.IsNode ∧ Opens keccak n t) (resolveNode proof h) := by
  unfold resolveNode
  split
  · exact nofun
  · next buf hproof =>
    split
    · exact nofun
    · next n hdec =>
      obtain ⟨rfl, hbuf | rfl⟩ := hp h buf hproof
      · obtain rfl := hL.inj _ hbuf _ (ht.noted hnode).1 hh
        exact decodeNode_bytes ht hnode hh hdec
      · rw [RawNode.decodeNode_empty] at hdec
        cases hdec

variable {allowNonExistent : Bool} {flags : NodeFlag} {r : Node × Option Bytes}

theorem Followed.absent (ho : Opens keccak n t) (hc : n.Clear key) (hget : t.get key = none) :
    Returns (Followed keccak t allowNonExistent n key)
      (if allowNonExistent then .ok (n, none) else .error .notContained) := by
  cases allowNonExistent with
  | true => exact ⟨ho, hc, .refl n key, by rw [hget], nofun⟩
  | false => exact nofun

theorem Followed.short {nkey : List Nibble}
    (ho : Opens keccak (.short nkey val flags) (.short nkey t))
    (h : Followed keccak t allowNonExistent val key r) :
    Followed keccak (.short nkey t) allowNonExistent (.short nkey val flags) (nkey ++ key)
      (.short nkey r.1 flags, r.2) where
  opens := ⟨.short h.opens.shows, ho.marked.1, h.opens.marked⟩
  clear := Node.clear_short_append.mpr h.clear
  opened := h.opened.short
  value := by
    rw [get_short_append]
    exact h.value
  present := h.present

theorem Followed.full {c : Fin 17 → Node} {i : Nibble} (ho : Opens keccak (.full c flags) (.full u))
    (hs : ∀ i, Shows keccak (c i) (u i)) (h : Followed keccak (u i) allowNonExistent (c i) key r) :
    Followed keccak (.full u) allowNonExistent (.full c flags) (i :: key)
      (.full (update c i r.1) flags, r.2) where
  opens := by
    refine ⟨.full fun j => ?_, ho.marked.1, fun j => ?_⟩
    · by_cases hj : j = i
      · subst hj
        simpa using h.opens.shows
      · simpa [hj] using hs j
    · by_cases hj : j = i
      · subst hj
        simpa using h.opens.marked
      · simpa [hj] using ho.marked.2 j
  clear := clear_full_cons.mpr (by simpa using h.clear)
  opened := h.opened.full
  value := h.value
  present := h.present

theorem followPath_value {u : Bytes} (hu : u ≠ []) (hv : unextendValue v = unextendValue u)
    (allowNonExistent : Bool) (fuel : ℕ) :
    Returns (Followed keccak (.value u) allowNonExistent (.value v) [])
      (followPath proof allowNonExistent (fuel + 1) (.value v) []) := by
  rw [followPath, if_neg (ne_nil_of_unextend hv hu)]
  refine ⟨⟨.value hv, trivial⟩, ?_, .refl _ _, ?_, fun _ => rfl⟩
  · rintro q h - ⟨-, heq⟩
    cases heq
  · simp [get_value, hv]

theorem followPath_spec (hL : CollisionFree keccak L) (hp : Genuine keccak L proof)
    (ho : Opens keccak n t) (ht : Below keccak L t) (hflat : Flat 16 t)
    (hkey : t ≠ .nil → IsKey 16 key) {fuel : ℕ} (hfuel : 2 * key.length + n.steps ≤ fuel)
    (allowNonExistent : Bool) :
    Returns (Followed keccak t allowNonExistent n key)
      (followPath proof allowNonExistent fuel n key) := by
  induction fuel generalizing n t key with
  | zero => cases n <;> simp [steps] at hfuel
  | succ fuel ih =>
    have hs := ho.shows
    cases hs with
    | nil => exact Followed.absent ho (fun _ _ _ h => h) rfl
    | value hv => cases hflat
    | @short nkey val flags t hs =>
      have hlong := hkey (by simp)
      rw [followPath]
      by_cases hfront : nkey <+: key
      · obtain ⟨key, rfl⟩ := hfront
        rw [if_pos (prefix_append _ _), drop_left]
        simp only [steps, length_append] at hfuel
        refine Outcome.bind (Q := Followed keccak t allowNonExistent val key) ?_
          fun r hr => Followed.short ho hr
        have hsteps := val.steps_le
        cases hflat with
        | @leaf _ u hnkey =>
          obtain ⟨v, rfl, hv⟩ := hs.eq_value
          obtain rfl := hnkey.eq_nil_of_append hlong
          have hpos := length_pos_iff.mpr hnkey.ne_nil
          obtain ⟨fuel, rfl⟩ := Nat.exists_eq_succ_of_ne_zero (n := fuel) (by omega)
          exact followPath_value ((ht.of_node trivial).leaf_ne_nil) hv allowNonExistent fuel
        | ext hne hnkey hc =>
          have hpos := length_pos_iff.mpr hne
          exact ih ⟨hs, ho.marked.2⟩ (ht.of_node trivial).of_short.2 hc
            (fun _ => (isKey_append hnkey).mp hlong) (by omega)
      · rw [if_neg hfront]
        exact Followed.absent ho (clear_short_of_not_front hfront)
          (by simp [get_short, hfront])
    | @full c flags u hs =>
      have hlong := hkey (by simp)
      cases hflat with
      | branch hc hstop htwo =>
        cases key with
        | nil => cases hlong
        | cons i key =>
          have hsteps := (c i).steps_le
          simp only [steps, length_cons] at hfuel
          refine Outcome.bind (Q := Followed keccak (u i) allowNonExistent (c i) key) ?_
            fun r hr => Followed.full ho hs hr
          refine ih ⟨hs i, ho.marked.2 i⟩ ((ht.of_node trivial).of_full i) (hc i) (fun hne => ?_)
            (by omega)
          exact (isKey_cons (by rintro rfl; exact hne hstop)).mp hlong
    | @hash h t hnode hh =>
      have hk := ht.of_node hnode
      simp only [steps] at hfuel
      refine (resolveNode_spec hL hp hk hnode hh).bind fun n' hn' => ?_
      refine (ih hn'.2 ht hflat hkey (by rw [node_of_isNode hn'.1]; omega)).mono fun r hr => ?_
      exact ⟨hr.opens, hr.clear, .of_hash h r.1 key, hr.value, hr.present⟩

theorem isKey_keybytesToHex (key : Bytes) : IsKey 16 (keybytesToHex key) :=
  isKey_word (term_notMem_nibbles key)

theorem extendPath_spec (hL : CollisionFree keccak L) (hp : Genuine keccak L proof)
    (ho : Opens keccak n t) (ht : Below keccak L t) (hflat : Flat 16 t) (key : Bytes)
    (allowNonExistent : Bool) :
    Returns (Followed keccak t allowNonExistent n (keybytesToHex key))
      (extendPath proof n key allowNonExistent) := by
  have hsteps := n.steps_le
  exact followPath_spec hL hp ho ht hflat (fun _ => isKey_keybytesToHex key)
    (by rw [walkFuel]; omega) allowNonExistent

theorem proofToPath_spec (hL : CollisionFree keccak L) (hp : Genuine keccak L proof)
    (ht : Known keccak L t) (hnode : (ofTree t).IsNode) (hflat : Flat 16 t)
    {rootHash : Hash} (hroot : rootHash = keccak ((ofTree t).bytes keccak)) (key : Bytes)
    (allowNonExistent : Bool) :
    Returns (Followed keccak t allowNonExistent (.hash (.extendZero rootHash)) (keybytesToHex key))
      (proofToPath proof rootHash key allowNonExistent) := by
  refine (resolveNode_spec (h := .extendZero rootHash) hL hp ht hnode hroot).bind fun n hn => ?_
  refine (extendPath_spec hL hp hn.2 (.inl ht) hflat key allowNonExistent).mono fun r hr => ?_
  exact ⟨hr.opens, hr.clear, .of_hash _ _ _, hr.value, hr.present⟩

/-! ## Cutting -/

/-- The second node is what is left of the first one on the paths that are kept. -/
structure CutTo (keccak : Bytes → Hash) (L : Set Bytes) (Keep : List Nibble → Prop)
    (n n' : Node) : Prop where
  formed : n'.Formed
  flagged : n'.Flagged keccak L
  at_imp : ∀ p m, n'.At p m → n.At p m ∧ Keep p
  empty : n = .nil → n' = .nil

/-- The side of a key that is kept. -/
def Beside (removeLeft : Bool) (key p : List Nibble) : Prop :=
  if removeLeft then LeftOf key p else LeftOf p key

variable {Keep : List Nibble → Prop} {n' : Node} {nkey : List Nibble} {c c' : Fin 17 → Node}
  {removeLeft inBranch : Bool}

theorem CutTo.nil : CutTo keccak L Keep n .nil := ⟨trivial, trivial, nofun, fun _ => rfl⟩

theorem CutTo.refl (hf : n.Formed) (hflag : n.Flagged keccak L)
    (hkeep : ∀ p m, n.At p m → Keep p) : CutTo keccak L Keep n n :=
  ⟨hf, hflag, fun p m h => ⟨h, hkeep p m h⟩, id⟩

theorem CutTo.imp {Keep' : List Nibble → Prop} (h : CutTo keccak L Keep n n')
    (hkeep : ∀ p, Keep p → Keep' p) : CutTo keccak L Keep' n n' :=
  ⟨h.formed, h.flagged, fun p m hat => (h.at_imp p m hat).imp_right (hkeep p), h.empty⟩

theorem CutTo.short (hpos : nkey ≠ []) (hkey : 16 ∉ nkey) (h : CutTo keccak L (fun q => Keep (nkey ++ q)) n n') :
    CutTo keccak L Keep (.short nkey n flags) (.short nkey n' newFlag) where
  formed := .inr ⟨hpos, hkey, h.formed⟩
  flagged := ⟨nofun, h.flagged⟩
  at_imp := by
    rintro _ m ⟨q, rfl, hat⟩
    exact ⟨⟨q, rfl, (h.at_imp q m hat).1⟩, (h.at_imp q m hat).2⟩
  empty := nofun

theorem CutTo.full (h : ∀ i, CutTo keccak L (fun q => Keep (i :: q)) (c i) (c' i))
    (hlast : c 16 = .nil) : CutTo keccak L Keep (.full c flags) (.full c' newFlag) where
  formed := ⟨fun i _ => (h i).formed, .inl ((h 16).empty hlast)⟩
  flagged := ⟨nofun, fun i => (h i).flagged⟩
  at_imp := by
    rintro _ m ⟨i, q, rfl, hat⟩
    exact ⟨⟨i, q, rfl, ((h i).at_imp q m hat).1⟩, ((h i).at_imp q m hat).2⟩
  empty := nofun

theorem Node.Formed.children (h : (full c flags).Formed) (hlast : c 16 = .nil) (i : Nibble) :
    (c i).Formed := by
  by_cases hi : i = 16
  · rw [hi, hlast]
    exact trivial
  · exact h.1 i hi

variable {i j : Nibble} {p x y : List Nibble} {l : Node}

theorem lt_term (h : i ≠ 16) : i < 16 := by
  revert i
  decide

theorem beside_append : Beside removeLeft (nkey ++ key) (nkey ++ p) ↔ Beside removeLeft key p := by
  cases removeLeft <;> simp [Beside]

theorem beside_cons : Beside removeLeft (i :: key) (i :: p) ↔ Beside removeLeft key p := by
  cases removeLeft <;> simp [Beside]

theorem Node.Formed.eq_of_front (hf : (short nkey n flags).Formed)
    (hkey : IsKey 16 key) (h : key <+: nkey) : key = nkey := by
  obtain ⟨s, rfl⟩ := h
  obtain ⟨hnkey, -⟩ | ⟨-, hnkey, -⟩ := hf
  · rw [hkey.eq_nil_of_append hnkey, append_nil]
  · obtain ⟨w, -, rfl⟩ := hkey.exists_word
    simp at hnkey

theorem part_of_short (hf : (short nkey n flags).Formed) (hkey : IsKey 16 key)
    (h : ¬ nkey <+: key) : LeftOf key nkey ∨ LeftOf nkey key := by
  obtain hp | hp | hl | hl := leftOf_cases key nkey
  · exact absurd (hf.eq_of_front hkey hp ▸ prefix_refl _) h
  · exact absurd hp h
  · exact .inl hl
  · exact .inr hl

theorem lt_iff_leftOf_of_part (h : LeftOf x y ∨ LeftOf y x) : x < y ↔ LeftOf x y := by
  constructor
  · intro hlt
    exact h.resolve_right fun h' => lt_asymm hlt h'.lt
  · exact LeftOf.lt

theorem Shows.below_short (hs : Shows keccak n (.full u)) (hf : (Node.short nkey n flags).Formed) :
    n.Formed ∧ n.isValue = false := by
  obtain ⟨-, v, rfl, -⟩ | ⟨-, -, hval⟩ := hf
  · cases hs
  · refine ⟨hval, ?_⟩
    cases hs with
    | full | hash => rfl

variable {flags' : NodeFlag}

theorem any_right_iff :
    ((finRange 17).any fun j => decide (i < j ∧ j < 16) && !(c j).isNil) = true ↔
      ∃ j, i < j ∧ j < 16 ∧ c j ≠ .nil := by
  simp [isNil_iff, and_assoc, ← Bool.not_eq_true]

theorem hasRightElement_full_of_child (hij : i < j) (hj : j < 16) (hc : c j ≠ .nil) :
    hasRightElement (.full c flags) (i :: key) = .ok true := by
  rw [hasRightElement, if_pos (any_right_iff.mpr ⟨j, hij, hj, hc⟩)]

theorem hasRightElement_full_below (h : ∀ j, i < j → j < 16 → c j = .nil) :
    hasRightElement (.full c flags) (i :: key) = hasRightElement (c i) key := by
  rw [hasRightElement, if_neg]
  rintro hany
  obtain ⟨j, hij, hj, hc⟩ := any_right_iff.mp hany
  exact hc (h j hij hj)

theorem hasRightElement_full_congr (hc : ∀ j, i < j → c' j = c j)
    (h : hasRightElement (c' i) key = hasRightElement (c i) key) :
    hasRightElement (.full c' flags') (i :: key) = hasRightElement (.full c flags) (i :: key) := by
  by_cases hr : ∃ j, i < j ∧ j < 16 ∧ c j ≠ .nil
  · obtain ⟨j, hij, hj, hne⟩ := hr
    rw [hasRightElement_full_of_child hij hj hne,
      hasRightElement_full_of_child hij hj (by rwa [hc j hij])]
  · push Not at hr
    rw [hasRightElement_full_below hr, hasRightElement_full_below fun j hij hj => ?_, h]
    rw [hc j hij, hr j hij hj]

theorem hasRightElement_short_append (val : Node) :
    hasRightElement (.short nkey val flags) (nkey ++ key) = hasRightElement val key := by
  rw [hasRightElement, if_pos (prefix_append _ _), drop_left]

theorem hasRightElement_short_part (val : Node) (h : ¬ nkey <+: key) :
    hasRightElement (.short nkey val flags) key = .ok (decide (key < nkey)) := by
  rw [hasRightElement, if_neg h]

theorem unset_spec (hs : Shows keccak n t) (hflat : Flat 16 t) (hf : n.Formed)
    (hflag : n.Flagged keccak L) (hkey : t ≠ .nil → IsKey 16 key) (hclear : n.Clear key)
    (hin : inBranch = true ∨ ∃ u, t = .full u) :
    Returns (fun n' => CutTo keccak L (Beside removeLeft key) n n' ∧
        (removeLeft = true → hasRightElement n' key = hasRightElement n key))
      (unset removeLeft inBranch n key) := by
  induction n generalizing t key inBranch with
  | nil => exact ⟨.nil, fun _ => rfl⟩
  | value v => cases hf
  | hash h => exact absurd hclear not_clear_hash
  | short nkey val flags ih =>
    cases hs with
    | @short _ _ _ t hs =>
      obtain rfl := hin.resolve_right (by simp)
      have hlong := hkey (by simp)
      rw [unset]
      by_cases hfront : nkey <+: key
      · obtain ⟨key, rfl⟩ := hfront
        simp only [prefix_append, not_true_eq_false, if_false, drop_left, if_true]
        cases hflat with
        | leaf hnkey =>
          obtain ⟨v, rfl, -⟩ := hs.eq_value
          refine ⟨.nil, fun _ => ?_⟩
          rw [hasRightElement_short_append]
          rfl
        | ext hne hnkey hc =>
          obtain ⟨hval, hisValue⟩ := hs.below_short hf
          rw [if_neg (by simp [hisValue])]
          refine (ih hs hc hval hflag.2 (fun _ => (isKey_append hnkey).mp hlong)
            (clear_short_append.mp hclear) (.inr ⟨_, rfl⟩)).bind fun child hchild => ?_
          refine ⟨.short hne hnkey (hchild.1.imp fun q => beside_append.mpr), fun hr => ?_⟩
          rw [hasRightElement_short_append, hasRightElement_short_append, hchild.2 hr]
      · simp only [hfront, not_false_eq_true, if_true]
        have hpart := part_of_short hf hlong hfront
        have hkept : ¬ (if removeLeft = true then nkey < key else key < nkey) →
            ∀ p m, (short nkey val flags).At p m → Beside removeLeft key p := by
          rintro hkeep _ m ⟨q, rfl, -⟩
          cases removeLeft with
          | true =>
            have hl := hpart.resolve_right fun h => hkeep h.lt
            exact hl.of_front_right (prefix_append nkey q)
          | false =>
            have hl := hpart.resolve_left fun h => hkeep h.lt
            exact hl.of_front_left (prefix_append nkey q)
        by_cases hremove : if removeLeft = true then nkey < key else key < nkey
        · rw [if_pos hremove]
          refine ⟨.nil, ?_⟩
          rintro rfl
          rw [hasRightElement_short_part val hfront, decide_eq_false (lt_asymm hremove)]
          rfl
        · rw [if_neg hremove]
          exact ⟨.refl hf hflag (hkept hremove), fun _ => rfl⟩
  | full c flags ih =>
    cases hs with
    | @full _ _ u hs =>
      have hlong := hkey (by simp)
      cases hflat with
      | branch hc hstop htwo =>
        have hlast : c 16 = .nil := Shows.eq_nil (hstop ▸ hs 16)
        have hformed : ∀ i, (c i).Formed := hf.children hlast
        cases key with
        | nil => cases hlong
        | cons i rest =>
          refine (ih i (hs i) (hc i) (hformed i) (hflag.2 i) (fun hne => ?_)
            (clear_full_cons.mp hclear) (.inl rfl)).bind fun child hchild => ?_
          · exact (isKey_cons (by rintro rfl; exact hne hstop)).mp hlong
          · refine ⟨.full (fun j => ?_) hlast, ?_⟩
            rotate_left
            · rintro rfl
              refine hasRightElement_full_congr (fun j hij => ?_) ?_
              · rw [update_of_ne (ne_of_gt hij)]
                exact if_neg (lt_asymm hij)
              · rw [update_self, hchild.2 rfl]
            by_cases hj : j = i
            · subst hj
              rw [update_self]
              exact hchild.1.imp fun q => beside_cons.mpr
            · rw [update_of_ne hj]
              by_cases hkeep : if removeLeft = true then j < i else i < j ∧ j < 16
              · rw [if_pos hkeep]
                exact .nil
              · rw [if_neg hkeep]
                refine .refl (hformed j) (hflag.2 j) fun q m hat => ?_
                cases removeLeft with
                | true => exact .inl (lt_of_le_of_ne (not_lt.mp hkeep) (Ne.symm hj))
                | false =>
                  refine .inl (lt_of_le_of_ne (not_lt.mp fun hlt => ?_) hj)
                  by_cases h16 : j = 16
                  · rw [h16, hlast] at hat
                    exact hat
                  · exact hkeep ⟨hlt, lt_term h16⟩

/-- Outside of a range. -/
def Outside (left right p : List Nibble) : Prop := LeftOf p left ∨ LeftOf right p

def Trimmed (keccak : Bytes → Hash) (L : Set Bytes) (left right : List Nibble) (n : Node) :
    Option Node → Prop
  | some n' => CutTo keccak L (Outside left right) n n' ∧
      hasRightElement n' right = hasRightElement n right
  | none => (∃ key val flags, n = .short key val flags) ∧ hasRightElement n right = .ok false

theorem take_eq_iff : x.take y.length = y ↔ y <+: x := by
  rw [prefix_iff_eq_take, eq_comm]

variable {left right : List Nibble}

theorem outside_cons : Outside (i :: left) (i :: right) (i :: p) ↔ Outside left right p := by
  simp [Outside]

theorem unsetInternal_short (hs : Shows keccak n t) (hflat : Flat 16 (.short nkey t))
    (hf : (short nkey n flags).Formed) (hflag : n.Flagged keccak L)
    (hleft : IsKey 16 left) (hright : IsKey 16 right)
    (hcl : (short nkey n flags).Clear left) (hcr : (short nkey n flags).Clear right)
    (hlr : LeftOf left right)
    (ih : ∀ left right, IsKey 16 left → IsKey 16 right → n.Clear left → n.Clear right →
      LeftOf left right → n.Formed → t ≠ .nil → Flat 16 t →
      Returns (Trimmed keccak L left right n) (unsetInternal n left right)) :
    Returns (Trimmed keccak L left right (.short nkey n flags))
      (unsetInternal (.short nkey n flags) left right) := by
  rw [unsetInternal]
  by_cases hl : nkey <+: left
  · obtain ⟨left, rfl⟩ := hl
    by_cases hr : nkey <+: right
    · obtain ⟨right, rfl⟩ := hr
      simp only [take_left, and_self, if_true, drop_left]
      cases hflat with
      | leaf hnkey =>
        obtain rfl := hnkey.eq_nil_of_append hleft
        obtain rfl := hnkey.eq_nil_of_append hright
        exact absurd hlr (not_leftOf_self _)
      | ext hne hnkey hc =>
        obtain ⟨hval, -⟩ := hs.below_short hf
        refine (ih left right ((isKey_append hnkey).mp hleft)
          ((isKey_append hnkey).mp hright) (clear_short_append.mp hcl)
          (clear_short_append.mp hcr) (leftOf_append.mp hlr) hval (by simp) hc).bind
          fun r hr => ?_
        cases r with
        | some child =>
          refine ⟨.short hne hnkey (hr.1.imp (by simp [Outside])), ?_⟩
          rw [hasRightElement_short_append, hasRightElement_short_append, hr.2]
        | none =>
          obtain ⟨⟨key, val, fl, rfl⟩, -⟩ := hr
          cases hs
    · have hne : ¬ right.take nkey.length = nkey := fun h => hr (take_eq_iff.mp h)
      simp only [take_left, hne, and_false, if_false, lt_irrefl, false_and, or_self, ne_eq,
        not_true_eq_false, not_false_eq_true, if_true, drop_left]
      cases hflat with
      | leaf hnkey =>
        obtain ⟨v, rfl, -⟩ := hs.eq_value
        refine ⟨⟨nkey, _, flags, rfl⟩, ?_⟩
        rw [hasRightElement_short_part _ hr, decide_eq_false]
        intro hlt
        exact absurd (hlr.lt.trans hlt) (not_lt_of_ge (le_append nkey left))
      | ext hne hnkey hc =>
        obtain ⟨hval, hisValue⟩ := hs.below_short hf
        rw [if_neg (by simp [hisValue])]
        refine (unset_spec hs hc hval hflag (fun _ => (isKey_append hnkey).mp hleft)
          (clear_short_append.mp hcl) (.inr ⟨_, rfl⟩)).bind fun child hchild => ?_
        refine ⟨.short hne hnkey (hchild.1.imp fun q hq => .inl (leftOf_append.mpr hq)), ?_⟩
        rw [hasRightElement_short_part _ hr, hasRightElement_short_part _ hr]
  · have hne : ¬ left.take nkey.length = nkey := fun h => hl (take_eq_iff.mp h)
    by_cases hr : nkey <+: right
    · obtain ⟨right, rfl⟩ := hr
      simp only [take_left, hne, and_true, if_false, lt_irrefl, and_false, or_self, ne_eq,
        not_true_eq_false, drop_left]
      cases hflat with
      | leaf hnkey =>
        obtain ⟨v, rfl, -⟩ := hs.eq_value
        exact ⟨⟨nkey, _, flags, rfl⟩, hasRightElement_short_append _⟩
      | ext hne hnkey hc =>
        obtain ⟨hval, hisValue⟩ := hs.below_short hf
        rw [if_neg (by simp [hisValue])]
        refine (unset_spec hs hc hval hflag (fun _ => (isKey_append hnkey).mp hright)
          (clear_short_append.mp hcr) (.inr ⟨_, rfl⟩)).bind fun child hchild => ?_
        refine ⟨.short hne hnkey (hchild.1.imp fun q hq => .inr (leftOf_append.mpr hq)), ?_⟩
        rw [hasRightElement_short_append, hasRightElement_short_append, hchild.2 rfl]
    · simp only [take_eq_iff, hl, hr, and_self, if_false, ne_eq, not_false_eq_true, if_true]
      split
      · exact nofun
      · next hout =>
        refine ⟨⟨nkey, n, flags, rfl⟩, ?_⟩
        rw [hasRightElement_short_part _ hr, decide_eq_false]
        intro hlt
        -- the first key would be on the same side
        have hpr := (lt_iff_leftOf_of_part (part_of_short hf hright hr)).mp hlt
        obtain hpl | hpl := part_of_short hf hleft hl
        · exact hout (.inl ⟨hpl.take_left.lt, hpr.take_left.lt⟩)
        · exact lt_irrefl _ (hpl.lt.trans (hlr.lt.trans hpr.lt))

/-- What is left between paths that part is left of the one child or right of the other. -/
theorem CutTo.fork {r : Node} (hf : ∀ m, (c m).Formed) (hflag : ∀ m, (c m).Flagged keccak L)
    (hlast : c 16 = .nil) (hl : CutTo keccak L (fun q => LeftOf q left) (c i) l)
    (hr : CutTo keccak L (fun q => LeftOf right q) (c j) r) :
    CutTo keccak L (Outside (i :: left) (j :: right)) (.full c flags)
      (.full (update (update
        (fun m => if i < m ∧ m < j then .nil else c m) i l) j r) newFlag) := by
  refine .full (fun m => ?_) hlast
  by_cases hmj : m = j
  · subst hmj
    rw [update_self]
    exact hr.imp fun q hq => .inr (.inr ⟨rfl, hq⟩)
  · rw [update_of_ne hmj]
    by_cases hmi : m = i
    · subst hmi
      rw [update_self]
      exact hl.imp fun q hq => .inl (.inr ⟨rfl, hq⟩)
    · rw [update_of_ne hmi]
      split
      · exact .nil
      · next hout =>
        refine .refl (hf m) (hflag m) fun q _ _ => ?_
        obtain hlt | hgt := lt_or_gt_of_ne hmi
        · exact .inl (.inl hlt)
        · exact .inr (.inl (lt_of_le_of_ne (not_lt.mp fun h => hout ⟨hgt, h⟩) (Ne.symm hmj)))

theorem second_of_fork (hfork : (c i).isNil ∨ (c j).isNil ∨ i ≠ j) (hl : c i = .nil → l = .nil) :
    Function.update (fun m => if i < m ∧ m < j then Node.nil else c m) i l j = c j := by
  by_cases hij : j = i
  · subst hij
    have hnil : c j = .nil := isNil_iff.mp (by simpa using hfork)
    rw [update_self, hl hnil, hnil]
  · rw [update_of_ne hij, if_neg fun h => lt_irrefl j h.2]

theorem unsetInternal_spec (hs : Shows keccak n t) (hflat : Flat 16 t) (hne : t ≠ .nil)
    (hf : n.Formed) (hflag : n.Flagged keccak L) (hleft : IsKey 16 left)
    (hright : IsKey 16 right) (hcl : n.Clear left) (hcr : n.Clear right)
    (hlr : LeftOf left right) :
    Returns (Trimmed keccak L left right n) (unsetInternal n left right) := by
  induction n generalizing t left right with
  | nil =>
    cases hs
    exact absurd rfl hne
  | value v => cases hf
  | hash h => exact absurd hcl not_clear_hash
  | short nkey val flags ih =>
    cases hs with
    | short hs =>
      exact unsetInternal_short hs hflat hf hflag.2 hleft hright hcl hcr hlr
        fun left right hl hr hcl hcr hlr hval hne hc =>
          ih hs hc hne hval hflag.2 hl hr hcl hcr hlr
  | full c flags ih =>
    cases hs with
    | @full _ _ u hs =>
      cases hflat with
      | branch hc hstop htwo =>
        have hlast : c 16 = .nil := Shows.eq_nil (hstop ▸ hs 16)
        have hformed := hf.children hlast
        rcases left with _ | ⟨i, left⟩
        · cases hleft
        rcases right with _ | ⟨j, right⟩
        · cases hright
        have hkey : ∀ {i : Nibble} {k : List Nibble}, Tree.IsKey 16 (i :: k) → u i ≠ .nil →
            Tree.IsKey 16 k := fun hk hi =>
          (isKey_cons (by rintro rfl; exact hi hstop)).mp hk
        have hcl' := clear_full_cons.mp hcl
        have hcr' := clear_full_cons.mp hcr
        rw [unsetInternal]
        by_cases hfork : (c i).isNil ∨ (c j).isNil ∨ i ≠ j
        · rw [if_pos hfork]
          dsimp only
          rw [if_neg (fun h => lt_irrefl i h.1)]
          refine (unset_spec (hs i) (hc i) (hformed i) (hflag.2 i) (hkey hleft) hcl'
            (.inl rfl)).bind fun l hl => ?_
          rw [second_of_fork hfork hl.1.empty]
          refine (unset_spec (hs j) (hc j) (hformed j) (hflag.2 j) (hkey hright) hcr'
            (.inl rfl)).bind fun r hr => ?_
          refine ⟨CutTo.fork hformed hflag.2 hlast hl.1 hr.1, ?_⟩
          have hle : i ≤ j := (leftOf_cons.mp hlr).elim le_of_lt fun h => le_of_eq h.1
          refine hasRightElement_full_congr (fun m hjm => ?_) (by rw [update_self, hr.2 rfl])
          rw [update_of_ne (ne_of_gt hjm), update_of_ne (ne_of_gt (lt_of_le_of_lt hle hjm)),
            if_neg fun h => lt_asymm h.2 hjm]
        · rw [if_neg hfork]
          simp only [not_or, not_not] at hfork
          obtain ⟨hi, -, rfl⟩ := hfork
          have hne : u i ≠ .nil := fun h => hi (isNil_iff.mpr (Shows.eq_nil (h ▸ hs i)))
          have hlr' := (leftOf_cons.mp hlr).resolve_left (lt_irrefl i)
          refine (ih i (hs i) (hc i) hne (hformed i) (hflag.2 i) (hkey hleft hne)
            (hkey hright hne) hcl' hcr' hlr'.2).bind fun r hr => ?_
          have hput : Returns (fun child => Trimmed keccak L left right (c i) (some child))
              (putBack true r) := by
            cases r with
            | some child => exact hr
            | none => exact ⟨.nil, hr.2.symm⟩
          refine hput.bind fun child hchild => ⟨.full (fun m => ?_) hlast,
            hasRightElement_full_congr (fun m him => by rw [update_of_ne (ne_of_gt him)])
              (by rw [update_self, hchild.2])⟩
          by_cases hm : m = i
          · subst hm
            rw [update_self]
            exact hchild.1.imp fun q => outside_cons.mpr
          · rw [update_of_ne hm]
            refine .refl (hformed m) (hflag.2 m) fun q _ _ => ?_
            exact (lt_or_gt_of_ne hm).imp .inl .inl

/-! ## More entries -/

theorem hasRightElement_spec (hs : Shows keccak n t) (hflat : Flat 16 t) (hf : n.Formed)
    (hkey : t ≠ .nil → IsKey 16 key) (hclear : n.Clear key) :
    Returns (fun b => b = true ↔ ∃ w u, t.get w = some u ∧ LeftOf key w)
      (hasRightElement n key) := by
  induction n generalizing t key with
  | nil =>
    cases hs
    simp [hasRightElement]
  | value v => cases hf
  | hash h => exact absurd hclear not_clear_hash
  | short nkey val flags ih =>
    cases hs with
    | @short _ _ _ t hs =>
      have hlong := hkey (by simp)
      by_cases hfront : nkey <+: key
      · obtain ⟨key, rfl⟩ := hfront
        rw [hasRightElement_short_append]
        have hshift : (∃ w u, (short nkey t).get w = some u ∧ LeftOf (nkey ++ key) w) ↔
            ∃ w u, t.get w = some u ∧ LeftOf key w := by
          constructor
          · rintro ⟨w, u, hw, hl⟩
            obtain ⟨q, rfl, hq⟩ := short_get_eq_some.mp hw
            exact ⟨q, u, hq, leftOf_append.mp hl⟩
          · rintro ⟨w, u, hw, hl⟩
            exact ⟨nkey ++ w, u, by simpa using hw, leftOf_append.mpr hl⟩
        rw [hshift]
        cases hflat with
        | leaf hnkey =>
          obtain ⟨v, rfl, -⟩ := hs.eq_value
          obtain rfl := hnkey.eq_nil_of_append hlong
          simp [hasRightElement]
        | ext hne hnkey hc =>
          exact ih hs hc (hs.below_short hf).1 (fun _ => (isKey_append hnkey).mp hlong)
            (clear_short_append.mp hclear)
      · rw [hasRightElement_short_part val hfront]
        have hpart := part_of_short hf hlong hfront
        show decide (key < nkey) = true ↔ _
        rw [decide_eq_true_iff, lt_iff_leftOf_of_part hpart]
        constructor
        · intro hl
          obtain ⟨w, u, hw⟩ := hflat.exists_get (by simp)
          obtain ⟨q, rfl, -⟩ := short_get_eq_some.mp hw
          exact ⟨_, u, hw, hl.of_front_right (prefix_append _ _)⟩
        · rintro ⟨w, u, hw, hl⟩
          obtain ⟨q, rfl, -⟩ := short_get_eq_some.mp hw
          exact hpart.resolve_right fun h =>
            hl.asymm (h.of_front_left (prefix_append _ _))
  | full c flags ih =>
    cases hs with
    | @full _ _ u hs =>
      have hlong := hkey (by simp)
      cases hflat with
      | branch hc hstop htwo =>
        rcases key with _ | ⟨i, key⟩
        · cases hlong
        by_cases hr : ∃ j, i < j ∧ j < 16 ∧ c j ≠ .nil
        · obtain ⟨j, hij, hj, hne⟩ := hr
          rw [hasRightElement_full_of_child hij hj hne]
          have hu : u j ≠ .nil := fun h => hne (Shows.eq_nil (h ▸ hs j))
          obtain ⟨w, v, hw⟩ := (hc j).exists_get hu
          exact iff_of_true rfl ⟨j :: w, v, hw, .inl hij⟩
        · push Not at hr
          rw [hasRightElement_full_below hr]
          have hlast : c 16 = .nil := Shows.eq_nil (hstop ▸ hs 16)
          refine (ih i (hs i) (hc i) (hf.children hlast i) (fun hne => ?_)
            (clear_full_cons.mp hclear)).mono fun b hb => hb.trans ?_
          · exact (isKey_cons (by rintro rfl; exact hne hstop)).mp hlong
          · constructor
            · rintro ⟨w, v, hw, hl⟩
              exact ⟨i :: w, v, hw, .inr ⟨rfl, hl⟩⟩
            · rintro ⟨w, v, hw, hl⟩
              rcases w with _ | ⟨j, w⟩
              · cases hw
              obtain hij | ⟨rfl, hl⟩ := hl
              · have hu : u j ≠ .nil := fun h => by
                  rw [get_full_cons, h] at hw
                  cases hw
                have hj := lt_term (i := j) (by rintro rfl; exact hu hstop)
                exact absurd (Shows.tree_nil (hr j hij hj ▸ hs j)) hu
              · exact ⟨w, v, hw, hl⟩

end Kaia.Storage
