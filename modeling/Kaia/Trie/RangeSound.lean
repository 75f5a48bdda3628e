import Kaia.Trie.Filling

/-! # Range proofs are sound for entries in the range

An accepted list that keeps to the range and has no empty value is exactly what the trie has there.
Entries outside of the range and empty values escape the comparison.
-/

namespace Kaia.Storage

open Foundation List Tree Node

/-! ## Keys and their nibbles -/

variable {a b : Bytes} {q : List Nibble}

theorem nibbles_cons (x : UInt8) (a : Bytes) :
    nibbles (x :: a) = highNibble x :: lowNibble x :: nibbles a := rfl

theorem byte_lt_iff (x y : UInt8) :
    x < y ↔ highNibble x < highNibble y ∨
      (highNibble x = highNibble y ∧ lowNibble x < lowNibble y) := by
  have hx := x.toNat_lt
  have hy := y.toNat_lt
  rw [UInt8.lt_iff_toNat_lt]
  simp only [highNibble, lowNibble, Fin.lt_def, Fin.ext_iff, Fin.val_ofNat]
  omega

theorem byte_eq_iff (x y : UInt8) :
    x = y ↔ highNibble x = highNibble y ∧ lowNibble x = lowNibble y := by
  have hx := x.toNat_lt
  have hy := y.toNat_lt
  rw [← UInt8.toNat_inj]
  simp only [highNibble, lowNibble, Fin.ext_iff, Fin.val_ofNat]
  omega

theorem nibbles_lt_iff : nibbles a < nibbles b ↔ a < b := by
  induction a generalizing b with
  | nil =>
    cases b with
    | nil | cons => simp [nibbles]
  | cons x a ih =>
    cases b with
    | nil => simp [nibbles]
    | cons y b =>
      rw [nibbles_cons, nibbles_cons, cons_lt_cons_iff, cons_lt_cons_iff,
        cons_lt_cons_iff, ih, byte_lt_iff, byte_eq_iff]
      tauto

theorem front_of_nibbles (h : nibbles a <+: nibbles b) : a <+: b := by
  induction a generalizing b with
  | nil => exact nil_prefix
  | cons x a ih =>
    cases b with
    | nil => simp [nibbles] at h
    | cons y b =>
      simp only [nibbles_cons, cons_prefix_cons] at h
      exact cons_prefix_cons.mpr ⟨(byte_eq_iff x y).mpr ⟨h.1, h.2.1⟩, ih h.2.2⟩

theorem nibbles_inj (h : nibbles a = nibbles b) : a = b := by
  have hlen := congrArg length h
  rw [length_nibbles, length_nibbles] at hlen
  exact (front_of_nibbles (h ▸ prefix_rfl)).eq_of_length (by omega)

theorem keybytesToHex_inj (h : keybytesToHex a = keybytesToHex b) : a = b :=
  nibbles_inj (append_cancel_right h)

theorem length_keybytesToHex (a : Bytes) : (keybytesToHex a).length = 2 * a.length + 1 := by
  rw [keybytesToHex, length_append, length_nibbles, length_singleton]

theorem leftOf_hex_iff (h : a.length = b.length) :
    LeftOf (keybytesToHex a) (keybytesToHex b) ↔ a < b := by
  have hlen : (nibbles a).length = (nibbles b).length := by simp [length_nibbles, h]
  rw [← nibbles_lt_iff, lt_iff_leftOf_of_length hlen]
  constructor
  · intro hl
    obtain hp | hp | hab | hba := leftOf_cases (nibbles a) (nibbles b)
    · rw [nibbles_inj (hp.eq_of_length hlen)] at hl
      exact absurd hl (not_leftOf_self _)
    · rw [nibbles_inj (hp.eq_of_length hlen.symm)] at hl
      exact absurd hl (not_leftOf_self _)
    · exact hab
    · exact absurd (hba.extend _ _) hl.asymm
  · intro hl
    exact hl.extend _ _

theorem front_nibbles (hq : q <+: keybytesToHex a) (h16 : 16 ∉ q) : q <+: nibbles a := by
  obtain rfl | hq := prefix_concat_iff.mp hq
  · simp at h16
  · exact hq

theorem take_hex (hlen : q.length < (keybytesToHex b).length) :
    (keybytesToHex b).take q.length <+: nibbles b := by
  rw [length_keybytesToHex] at hlen
  rw [keybytesToHex, take_append_of_le_length (by rw [length_nibbles]; omega)]
  exact take_prefix _ _

theorem lt_of_path_leftOf (hq : q <+: keybytesToHex a) (h16 : 16 ∉ q)
    (hlen : q.length < (keybytesToHex b).length) (h : LeftOf q (keybytesToHex b)) : a < b := by
  have hl := (h.take_right.of_front_right (take_hex hlen)).of_front_left (front_nibbles hq h16)
  exact nibbles_lt_iff.mp hl.lt

theorem lt_of_leftOf_path (hq : q <+: keybytesToHex a) (h16 : 16 ∉ q)
    (hlen : q.length < (keybytesToHex b).length) (h : LeftOf (keybytesToHex b) q) : b < a := by
  have hl := (h.take_left.of_front_left (take_hex hlen)).of_front_right (front_nibbles hq h16)
  exact nibbles_lt_iff.mp hl.lt

theorem leftOf_hex_of_lt (h : a < b) (hp : ¬ a <+: b) :
    LeftOf (keybytesToHex a) (keybytesToHex b) := by
  obtain hl | ⟨hfront, -⟩ := lt_iff_leftOf.mp (nibbles_lt_iff.mpr h)
  · exact hl.extend _ _
  · exact absurd (front_of_nibbles hfront) hp

/-! ## The trie of a root hash -/

variable (keccak : Bytes → Hash) (L : Set Bytes)

def rootOf (t : ValueTree) : Hash := Trie.hash keccak ⟨plainOpts, .ofTree t, []⟩

/-- A trie with keys of one length and without empty values, whose hash can be compared. -/
structure Uniform (t : ValueTree) : Prop where
  normal : t = .nil ∨ Tree.Normal 16 t
  keys : ∃ len, ∀ w v, t.get w = some v → ∃ k : Bytes, w = keybytesToHex k ∧ k.length = len
  values : Holds (· ≠ []) t
  recorded : (Node.ofTree t).Recorded keccak L

variable {keccak L} {t : ValueTree}

theorem formed_ofTree (h : Normal 16 t) (hv : Holds (· ≠ []) t) :
    (ofTree t).Formed := by
  induction h with
  | @leaf key v hkey =>
    have hne : (fun v : Bytes => v ≠ []) v := hv.leaf
    exact .inl ⟨hkey, v, rfl, hne⟩
  | ext hne hkey h ih => exact .inr ⟨hne, hkey, ih (Holds.short hv)⟩
  | @branch c hc hstop htwo ih =>
    constructor
    · intro i hi
      by_cases hnil : c i = .nil
      · simp only [hnil]
        exact trivial
      · exact ih i hi hnil (Holds.full hv i)
    · by_cases hnil : c 16 = .nil
      · exact .inl (by simp only [hnil]; rfl)
      · obtain ⟨v, hv'⟩ := hstop hnil
        refine .inr ⟨v, by simp only [hv']; rfl, hv [16] v ?_⟩
        simp [hv', get_value]

theorem Uniform.known (h : Uniform keccak L t) : Known keccak L t := by
  refine ⟨?_, h.recorded⟩
  obtain rfl | hn := h.normal
  · exact trivial
  · exact formed_ofTree hn h.values

theorem Uniform.flat (h : Uniform keccak L t) : Flat 16 t := by
  obtain rfl | hn := h.normal
  · exact .nil
  · obtain ⟨len, hkeys⟩ := h.keys
    refine hn.flat (hn.level (n := 2 * len + 1) fun w v hw => ?_)
    obtain ⟨k, rfl, rfl⟩ := hkeys w v hw
    exact length_keybytesToHex k

theorem Uniform.isNode (h : Uniform keccak L t) (hne : t ≠ .nil) : (ofTree t).IsNode := by
  obtain rfl | hn := h.normal
  · exact absurd rfl hne
  · cases hn <;> exact trivial

variable {tr : Trie} {more : Bool}

theorem hash_of_isNode (h : Ready keccak L tr) (hnode : tr.root.IsNode) :
    ∃ eh, tr.root.ref keccak true = .hash eh ∧ tr.hash keccak = eh.unextend := by
  obtain ⟨opts, root, marks⟩ := tr
  obtain rfl := h.opts
  have href : ∃ eh, root.ref keccak true = .hash eh := by
    cases hc : root.cachedHash with
    | some eh => exact ⟨eh, by rw [ref, hc, refWith]⟩
    | none =>
      refine ⟨.extendZero (keccak (root.bytes keccak)), ?_⟩
      rw [ref, hc, refWith, heldAs_node (form_isNode keccak hnode).1, if_neg (by simp)]
      rfl
  obtain ⟨eh, href⟩ := href
  refine ⟨eh, href, ?_⟩
  have hhash : (hashNode keccak ⟨false, false, none⟩ false root true true
      ⟨0, emptyDatabase, []⟩).1.1 = .hash eh := (hashNode_eq rfl h.formed true true).trans href
  cases root with
  | short | full => simp only [Trie.hash, Trie.hashExt, Trie.hashRoot, plainOpts, hhash]
  | _ => cases hnode

theorem ready_ofTree (h : Known keccak L t) : Ready keccak L ⟨plainOpts, .ofTree t, []⟩ := by
  refine ⟨rfl, h.formed, ?_⟩
  generalize t = t
  induction t with
  | short key t ih => exact ⟨nofun, ih⟩
  | full c ih => exact ⟨nofun, ih⟩
  | _ => exact trivial

theorem rootOf_node (h : Known keccak L t) (hnode : (ofTree t).IsNode) :
    rootOf keccak t = keccak ((ofTree t).bytes keccak) := by
  obtain ⟨eh, href, hhash⟩ := hash_of_isNode (ready_ofTree h) hnode
  have hforced : nodeForHashing (.hash eh) = _ :=
    href ▸ ref_forced hnode (cachedHash_ofTree t)
  rw [rootOf, hhash]
  exact congrArg ExtHash.unextend (RawNode.hash.inj hforced)

theorem rootOf_ne_emptyRoot (hL : CollisionFree keccak L) (h : Known keccak L t)
    (hnode : (ofTree t).IsNode) : rootOf keccak t ≠ emptyRoot := by
  rw [rootOf_node h hnode]
  exact hL.ne_emptyRoot _ (h.noted hnode).1

theorem hash_ne_emptyRoot (hL : CollisionFree keccak L) (h : Ready keccak L tr)
    (hrec : tr.root.Recorded keccak L) (hnode : tr.root.IsNode) : tr.hash keccak ≠ emptyRoot := by
  obtain ⟨eh, href, hhash⟩ := hash_of_isNode h hnode
  rw [hhash]
  cases hc : tr.root.cachedHash with
  | some eh' =>
    rw [ref, hc] at href
    obtain rfl := RawNode.hash.inj href
    obtain ⟨t, hk, hs, heq⟩ := h.flagged.cachedFor hc
    rw [heq]
    exact hL.ne_emptyRoot _ (hk.noted (hs.isNode hnode)).1
  | none =>
    have hforced : nodeForHashing (.hash eh) = _ := href ▸ ref_forced hnode hc
    have heq : eh.unextend = keccak (tr.root.bytes keccak) :=
      congrArg ExtHash.unextend (RawNode.hash.inj hforced)
    rw [heq]
    exact hL.ne_emptyRoot _ (hrec.noted hnode hc).1

theorem shows_of_hash (hL : CollisionFree keccak L) (ht : Uniform keccak L t)
    (h : Ready keccak L tr) (hrec : tr.root.Recorded keccak L)
    (hroot : tr.root = .nil ∨ tr.root.IsNode) (hhash : tr.hash keccak = rootOf keccak t) :
    Shows keccak tr.root t := by
  by_cases hnil : t = .nil
  · subst hnil
    obtain hr | hr := hroot
    · rw [hr]
      exact .nil
    · exact absurd hhash (hash_ne_emptyRoot hL h hrec hr)
  · have hnode := ht.isNode hnil
    obtain hr | hr := hroot
    · have hempty : tr.hash keccak = emptyRoot := by
        rw [Trie.hash, Trie.hashExt, Trie.hashRoot, hr]
        rfl
      exact absurd (hhash.symm.trans hempty) (rootOf_ne_emptyRoot hL ht.known hnode)
    · obtain ⟨eh, href, hh⟩ := hash_of_isNode h hr
      obtain ⟨eh', href', hh'⟩ := hash_of_isNode (ready_ofTree ht.known) hnode
      have heq : eh.unextend = eh'.unextend := hh.symm.trans (hhash.trans hh')
      have hrefs : nodeForHashing (tr.root.ref keccak true) =
          nodeForHashing ((ofTree t).ref keccak true) := by
        rw [href, show (ofTree t).ref keccak true = .hash eh' from href', nodeForHashing,
          nodeForHashing, heq]
      exact shows_of_ref hL (.inl ht.known) h.formed h.flagged hrec hrefs

/-! ## What is accepted -/

/-- The keys that a list is checked for. -/
def InRange (proof : Option ProofDB) (firstKey : Bytes) (keys : List Bytes) (k : Bytes) : Prop :=
  proof.isSome → firstKey ≤ k ∧ (keys ≠ [] → k ≤ keys.getLastD [])

/-- The keys that there may be more of. -/
def Above (firstKey : Bytes) (keys : List Bytes) (k : Bytes) : Prop :=
  if keys = [] then firstKey ≤ k else keys.getLastD [] < k

/-- The list is what the trie has in the range, up to counters, and the flag tells whether it
has more. -/
structure RangeHolds (t : ValueTree) (proof : Option ProofDB) (firstKey : Bytes)
    (keys values : List Bytes) (more : Bool) : Prop where
  entries : ∀ k u, (∃ v, (k, v) ∈ keys.zip values ∧ unextendValue v = u) ↔
    InRange proof firstKey keys k ∧ ∃ v, t.get (keybytesToHex k) = some v ∧ unextendValue v = u
  more : more = true ↔ ∃ k v, t.get (keybytesToHex k) = some v ∧ Above firstKey keys k

/-- No empty values, no keys before the range, and no empty list from the front of other keys. -/
structure KeepsRange (t : ValueTree) (proof : Option ProofDB) (firstKey : Bytes)
    (keys values : List Bytes) : Prop where
  nonempty : ∀ v ∈ values, v ≠ []
  within : proof.isSome → ∀ k ∈ keys, firstKey ≤ k
  apart : proof.isSome → keys = [] → ∀ k v, t.get (keybytesToHex k) = some v →
    firstKey <+: k → firstKey = k

variable {n n' : Node} {entries : List (Bytes × Bytes)}

theorem Filled.listed_iff (h : Filled n n' entries) (hs : Shows keccak n' t) {R : Bytes → Prop}
    (hin : ∀ e ∈ entries, R e.1)
    (hout : ∀ k v, R k → t.get (keybytesToHex k) = some v →
      ∀ q m, q <+: keybytesToHex k → ¬ n.At q m) (k u : Bytes) :
    (∃ v, (k, v) ∈ entries ∧ unextendValue v = u) ↔
      R k ∧ ∃ v, t.get (keybytesToHex k) = some v ∧ unextendValue v = u := by
  constructor
  · rintro ⟨v, hv, rfl⟩
    obtain ⟨u, hu, heq⟩ := hs.get_of_at ((h _ _).mpr (.inl ⟨_, hv, rfl, rfl⟩))
    exact ⟨hin _ hv, u, hu, heq.symm⟩
  · rintro ⟨hk, v, hv, rfl⟩
    obtain ⟨v', hat, heq⟩ | ⟨q, eh, hq, hat⟩ := hs.at_of_get hv
    · obtain ⟨e, he, hkey, hval⟩ | ⟨-, hat⟩ := (h _ _).mp hat
      · obtain rfl := keybytesToHex_inj hkey
        obtain rfl := value.inj hval
        exact ⟨e.2, he, heq⟩
      · exact absurd hat (hout k v hk hv _ _ (prefix_refl _))
    · obtain ⟨_, _, _, hval⟩ | ⟨-, hat⟩ := (h _ _).mp hat
      · cases hval
      · exact absurd hat (hout k v hk hv q _ hq)

theorem RangeHolds.keepsRange {proof : Option ProofDB} {firstKey : Bytes} {keys values : List Bytes}
    (hlen : keys.length = values.length) (ht : Uniform keccak L t)
    (h : RangeHolds t proof firstKey keys values more) :
    KeepsRange t proof firstKey keys values where
  nonempty := by
    intro v hv
    rw [← map_snd_zip hlen.ge] at hv
    obtain ⟨⟨k, _⟩, hkv, rfl⟩ := mem_map.mp hv
    obtain ⟨-, u, hu, heq⟩ := (h.entries k _).mp ⟨_, hkv, rfl⟩
    exact ne_nil_of_unextend heq.symm (ht.values _ u hu)
  within := by
    intro hp k hk
    rw [← map_fst_zip hlen.le] at hk
    obtain ⟨⟨_, v⟩, hkv, rfl⟩ := mem_map.mp hk
    exact (((h.entries _ _).mp ⟨v, hkv, rfl⟩).1 hp).1
  apart := by
    rintro hp rfl k v hv hfront
    obtain ⟨v', hmem, -⟩ := (h.entries k _).mpr
      ⟨fun _ => ⟨hfront.le, fun hne => absurd rfl hne⟩, v, hv, rfl⟩
    simp at hmem

/-! ## Lists of keys -/

variable {keys values : List Bytes} {k : Bytes}

theorem increasing_pairwise (h : increasing keys = true) : keys.Pairwise (· < ·) := by
  induction keys with
  | nil => exact .nil
  | cons a keys ih =>
    cases keys with
    | nil => simp
    | cons b keys =>
      rw [increasing, Bool.and_eq_true, decide_eq_true_iff] at h
      have hrest := ih h.2
      refine pairwise_cons.mpr ⟨fun c hc => ?_, hrest⟩
      obtain rfl | hc := mem_cons.mp hc
      · exact h.1
      · exact List.lt_trans h.1 ((pairwise_cons.mp hrest).1 c hc)

theorem le_last (h : increasing keys = true) (hk : k ∈ keys) : k ≤ keys.getLastD [] := by
  have hne : keys ≠ [] := ne_nil_of_mem hk
  have hlast : keys.getLastD [] = keys.getLast hne := by
    rw [getLastD_eq_getLast?, getLast?_eq_some_getLast hne, Option.getD_some]
  have hpair := increasing_pairwise h
  rw [← dropLast_append_getLast hne, pairwise_append] at hpair
  rw [← dropLast_append_getLast hne, mem_append, mem_singleton] at hk
  rw [hlast]
  intro hlt
  obtain hk | rfl := hk
  · exact List.lt_irrefl _ (List.lt_trans hlt (hpair.2.2 k hk _ (mem_singleton.mpr rfl)))
  · exact List.lt_irrefl _ hlt

theorem zip_distinct (hlen : keys.length = values.length) (h : increasing keys = true) :
    (keys.zip values).Pairwise fun a b => keybytesToHex a.1 ≠ keybytesToHex b.1 := by
  have hpair := increasing_pairwise h
  rw [← map_fst_zip (le_of_eq hlen), pairwise_map] at hpair
  refine hpair.imp fun {a b} hlt heq => ?_
  rw [keybytesToHex_inj heq] at hlt
  exact List.lt_irrefl _ hlt

/-! ## The check -/

def compared (rootHash : Hash) (firstKey lastKey : Bytes) (entries : List (Bytes × Bytes))
    (proof : Option ProofDB) : Except RangeProofError Trie :=
  match proof with
  | none => updateAll ⟨plainOpts, .nil, []⟩ entries
  | some proof => (·.2) <$> rebuild proof rootHash firstKey lastKey entries

variable {firstKey : Bytes} {proof : ProofDB} {key last first : Bytes} {r : Node × Node}

theorem Filled.root (h : Filled n tr.root entries) (hr : Ready keccak L tr) (hn : ∀ m, ¬ n.At [] m) :
    tr.root = .nil ∨ tr.root.IsNode := by
  cases hroot : tr.root with
  | nil => exact .inl rfl
  | value v => exact absurd hroot (hr.formed.not_value v)
  | hash eh =>
    have hat : tr.root.At [] (.hash eh) := by
      rw [hroot]
      exact ⟨rfl, rfl⟩
    obtain ⟨_, _, _, hval⟩ | ⟨-, hat⟩ := (h _ _).mp hat
    · cases hval
    · exact absurd hat (hn _)
  | short | full => exact .inr trivial

theorem proofToPath_nil (hL : CollisionFree keccak L) (hp : Genuine keccak L proof) (key : Bytes)
    (allowNonExistent : Bool) :
    Returns (fun _ => False) (proofToPath proof (rootOf keccak .nil) key allowNonExistent) := by
  have hres : Returns (fun _ => False) (resolveNode proof (.extendZero (rootOf keccak .nil))) := by
    unfold resolveNode
    split
    · exact nofun
    · next buf hproof =>
      split
      · exact nofun
      · next n hdec =>
        obtain ⟨heq, hbuf | rfl⟩ := hp _ buf hproof
        · exact hL.ne_emptyRoot buf hbuf (congrArg ExtHash.unextend heq).symm
        · rw [RawNode.decodeNode_empty] at hdec
          cases hdec
  exact hres.bind fun _ h => h.elim

theorem Uniform.right_iff (ht : Uniform keccak L t) {u : Bytes}
    (hkey : t.get (keybytesToHex key) = some u) :
    (∃ w v, t.get w = some v ∧ LeftOf (keybytesToHex key) w) ↔
      ∃ k v, t.get (keybytesToHex k) = some v ∧ key < k := by
  obtain ⟨len, hkeys⟩ := ht.keys
  obtain ⟨key', hhex, hlen⟩ := hkeys _ u hkey
  obtain rfl := keybytesToHex_inj hhex
  constructor
  · rintro ⟨w, v, hw, hl⟩
    obtain ⟨k, rfl, hk⟩ := hkeys w v hw
    exact ⟨k, v, hw, (leftOf_hex_iff (hlen.trans hk.symm)).mp hl⟩
  · rintro ⟨k, v, hv, hlt⟩
    obtain ⟨k', hhex', hk⟩ := hkeys _ v hv
    obtain rfl := keybytesToHex_inj hhex'
    exact ⟨_, v, hv, (leftOf_hex_iff (hlen.trans hk.symm)).mpr hlt⟩

theorem Shows.get_of_hash {eh : ExtHash} (hs : Shows keccak n t) (hflat : Flat 16 t)
    (h : n.At q (.hash eh)) : ∃ w u, w ≠ [] ∧ t.get (q ++ w) = some u := by
  induction hs generalizing q with
  | nil => cases h
  | value hv => cases h.2
  | short hs ih =>
    obtain ⟨q, rfl, hat⟩ := h
    cases hflat with
    | leaf hkey =>
      obtain ⟨v, rfl, -⟩ := hs.eq_value
      cases hat.2
    | ext hne hkey hc =>
      obtain ⟨w, u, hw, hu⟩ := ih hc hat
      exact ⟨w, u, hw, by rwa [append_assoc, get_short_append]⟩
  | full hs ih =>
    obtain ⟨i, q, rfl, hat⟩ := h
    cases hflat with
    | branch hc hstop htwo =>
      obtain ⟨w, u, hw, hu⟩ := ih i (hc i) hat
      exact ⟨w, u, hw, hu⟩
  | @hash _ t hnode hh =>
    obtain ⟨rfl, -⟩ := h
    obtain ⟨w, u, hu⟩ := hflat.exists_get (by rintro rfl; cases hnode)
    refine ⟨w, u, ?_, hu⟩
    rintro rfl
    cases hflat with
    | nil => cases hnode
    | leaf hkey =>
      obtain ⟨q, hq, -⟩ := short_get_eq_some.mp hu
      exact hkey.ne_nil (append_eq_nil_iff.mp hq.symm).1
    | ext hne hkey hc =>
      obtain ⟨q, hq, -⟩ := short_get_eq_some.mp hu
      exact hne (append_eq_nil_iff.mp hq.symm).1
    | branch hc hstop htwo => cases hu

/-- What is known of the two paths when what is between them has been cut away. -/
structure Edges (keccak : Bytes → Hash) (L : Set Bytes) (t : ValueTree) (first last : Bytes)
    (r : Node × Node) : Prop where
  formed : r.2.Formed
  flagged : r.2.Flagged keccak L
  outside : ∀ p m, r.2.At p m → Outside (keybytesToHex first) (keybytesToHex last) p
  behind : ∀ q eh, r.2.At q (.hash eh) → ∃ w u, w ≠ [] ∧ t.get (q ++ w) = some u
  more : Returns (fun more => more = true ↔
      ∃ w u, t.get w = some u ∧ LeftOf (keybytesToHex last) w)
    (hasRightElement r.1 (keybytesToHex last))

theorem Edges.clear (h : Edges keccak L t first last r) {len : ℕ}
    (hkeys : ∀ w v, t.get w = some v → ∃ k : Bytes, w = keybytesToHex k ∧ k.length = len)
    (hfirst : first.length = len) (hlast : last.length = len) (hle : first ≤ k) (hge : k ≤ last) :
    r.2.Clear (keybytesToHex k) := by
  intro q eh hq hat
  obtain ⟨w, u, hw, hu⟩ := h.behind q eh hat
  obtain ⟨k₀, hk₀, hlen⟩ := hkeys _ u hu
  have hisKey := isKey_keybytesToHex k₀
  rw [← hk₀] at hisKey
  have h16 := hisKey.append_left hw
  have hpos := length_pos_iff.mpr hw
  have hshort : q.length < 2 * len + 1 := by
    have := congrArg length hk₀
    rw [length_append, length_keybytesToHex] at this
    omega
  obtain hl | hl := h.outside q _ hat
  · exact hle (lt_of_path_leftOf hq h16 (by rw [length_keybytesToHex]; omega) hl)
  · exact hge (lt_of_leftOf_path hq h16 (by rw [length_keybytesToHex]; omega) hl)

theorem Edges.clear_last (h : Edges keccak L t first last r)
    (hlr : LeftOf (keybytesToHex first) (keybytesToHex last)) : r.2.Clear (keybytesToHex last) := by
  intro q eh hq hat
  obtain hl | hl := h.outside q _ hat
  · exact hlr.asymm (hl.of_front_left hq)
  · exact not_leftOf_self _ (hl.of_front_right hq)

theorem zip_last (hne : keys ≠ []) (hlen : keys.length = values.length) :
    ∃ v, (keys.zip values).getLast? = some (keys.getLastD [], v) := by
  have hvne : values ≠ [] := by
    rintro rfl
    exact hne (length_eq_zero_iff.mp hlen)
  obtain ⟨ks, k, rfl⟩ := (eq_nil_or_concat' keys).resolve_left hne
  obtain ⟨vs, v, rfl⟩ := (eq_nil_or_concat' values).resolve_left hvne
  simp only [length_append, length_singleton, Nat.add_right_cancel_iff] at hlen
  refine ⟨v, ?_⟩
  rw [zip_append hlen]
  simp

section

variable (hL : CollisionFree keccak L) (ht : Uniform keccak L t)

include hL ht

theorem verify_all
    (hlen : keys.length = values.length) (hinc : increasing keys = true)
    (hrec : ∀ tr, updateAll ⟨plainOpts, .nil, []⟩ (keys.zip values) = .ok tr →
      tr.root.Recorded keccak L)
    (hkeeps : KeepsRange t none firstKey keys values) :
    Returns (RangeHolds t none firstKey keys values) (do
      let tr ← updateAll ⟨plainOpts, .nil, []⟩ (keys.zip values)
      checkHash keccak tr (rootOf keccak t)
      .ok false) := by
  have hready : Ready keccak L ⟨plainOpts, .nil, []⟩ := ⟨rfl, trivial, trivial⟩
  obtain ⟨tr, heq, hr, -, hfilled⟩ := updateAll_spec hready
    (fun e he => hkeeps.nonempty _ (of_mem_zip he).2)
  have hfilled := hfilled (fun e _ q eh _ hat => hat) (zip_distinct hlen hinc)
  rw [heq]
  show Returns _ (checkHash keccak tr (rootOf keccak t) >>= fun _ => .ok false)
  unfold checkHash
  split
  · next hhash =>
    have hs := shows_of_hash hL ht hr (hrec tr heq) (hfilled.root hr fun _ h => h) hhash
    have hlisted := hfilled.listed_iff hs (R := InRange none firstKey keys)
      (fun _ _ => nofun) (fun _ _ _ _ _ _ _ h => h)
    refine ⟨hlisted, iff_of_false nofun ?_⟩
    rintro ⟨k, v, hv, habove⟩
    obtain ⟨v', hmem, -⟩ := (hlisted k _).mpr ⟨nofun, v, hv, rfl⟩
    have hk := (of_mem_zip hmem).1
    rw [Above, if_neg (ne_nil_of_mem hk)] at habove
    exact le_last hinc hk habove
  · exact nofun

theorem proofToPath_uniform
    (hp : Genuine keccak L proof) (key : Bytes) (allowNonExistent : Bool) :
    Returns (fun r => t ≠ .nil ∧
        Followed keccak t allowNonExistent (.hash (.extendZero (rootOf keccak t)))
          (keybytesToHex key) r)
      (proofToPath proof (rootOf keccak t) key allowNonExistent) := by
  by_cases hnil : t = .nil
  · subst hnil
    exact (proofToPath_nil hL hp key allowNonExistent).mono fun _ h => h.elim
  · have hnode := ht.isNode hnil
    exact (proofToPath_spec hL hp ht.known hnode ht.flat (rootOf_node ht.known hnode) key
      allowNonExistent).mono fun r hr => ⟨hnil, hr⟩

theorem hasRight_path
    (hs : Shows keccak n t) (hclear : n.Clear (keybytesToHex key)) :
    Returns (fun more => more = true ↔ ∃ w u, t.get w = some u ∧ LeftOf (keybytesToHex key) w)
      (hasRightElement n (keybytesToHex key)) :=
  hasRightElement_spec hs ht.flat (hs.formed hL ht.known) (fun _ => isKey_keybytesToHex key) hclear

theorem verify_none
    (hp : Genuine keccak L proof) (hkeeps : KeepsRange t (some proof) firstKey [] values) :
    Returns (RangeHolds t (some proof) firstKey [] values) (do
      let (root, val) ← proofToPath proof (rootOf keccak t) firstKey true
      if val.isSome then .error .moreEntries
      else do
        let more ← hasRightElement root (keybytesToHex firstKey)
        if more then .error .moreEntries else .ok more) := by
  refine (proofToPath_uniform hL ht hp firstKey true).bind fun r hr => ?_
  obtain ⟨root, val⟩ := r
  obtain ⟨-, hr⟩ := hr
  dsimp only
  split
  · exact nofun
  · next hval =>
    refine (hasRight_path hL ht hr.opens.shows hr.clear).bind fun more hmore => ?_
    split
    · exact nofun
    · next hno =>
      have hnone : ∀ k v, t.get (keybytesToHex k) = some v → ¬ firstKey ≤ k := by
        intro k v hv hle
        obtain hlt | rfl | hlt := Std.lt_trichotomy firstKey k
        · by_cases hfront : firstKey <+: k
          · rw [hkeeps.apart rfl rfl k v hv hfront] at hlt
            exact List.lt_irrefl _ hlt
          · exact hno (hmore.mpr ⟨_, v, hv, leftOf_hex_of_lt hlt hfront⟩)
        · have hvalue := hr.value
          rw [hv] at hvalue
          cases val with
          | none => cases hvalue
          | some u => exact hval rfl
        · exact hle hlt
      refine ⟨fun k u => iff_of_false (by simp) ?_, iff_of_false hno ?_⟩
      · rintro ⟨hin, v, hv, -⟩
        exact hnone k v hv (hin rfl).1
      · rintro ⟨k, v, hv, habove⟩
        exact hnone k v hv habove

theorem verify_one
    (hp : Genuine keccak L proof) {value : Bytes} :
    Returns (RangeHolds t (some proof) key [key] [value]) (do
      let (root, val) ← proofToPath proof (rootOf keccak t) key false
      if key ≠ key then .error .invalidKey
      else if val ≠ [value].head? then .error .invalidData
      else hasRightElement root (keybytesToHex key)) := by
  refine (proofToPath_uniform hL ht hp key false).bind fun r hr => ?_
  obtain ⟨root, val⟩ := r
  obtain ⟨-, hr⟩ := hr
  dsimp only
  rw [if_neg (fun h => h rfl)]
  split
  · exact nofun
  · next hval =>
    have hvalue := hr.value
    simp only [head?_cons, ne_eq, not_not] at hval
    subst hval
    obtain ⟨u, hu, heq⟩ := Option.map_eq_some_iff.mp hvalue.symm
    refine (hasRight_path hL ht hr.opens.shows hr.clear).mono fun more hmore => ⟨fun k w => ?_, ?_⟩
    · constructor
      · rintro ⟨v, hmem, rfl⟩
        obtain ⟨rfl, rfl⟩ : k = key ∧ v = value := by simpa using hmem
        exact ⟨fun _ => ⟨List.lt_irrefl k, fun _ => List.lt_irrefl k⟩, u, hu, heq⟩
      · rintro ⟨hin, v, hv, rfl⟩
        obtain ⟨hle, hge⟩ := hin rfl
        obtain rfl : k = key := Std.le_antisymm (hge (by simp)) hle
        rw [hu] at hv
        cases hv
        exact ⟨value, by simp, heq.symm⟩
    · rw [hmore, ht.right_iff hu]
      simp [Above]

section

variable (hp : Genuine keccak L proof) (hlt : firstKey < last) (hlen : firstKey.length = last.length)

include hp hlt hlen

theorem edgePaths_spec :
    Returns (Edges keccak L t firstKey last)
      (edgePaths proof (rootOf keccak t) firstKey last) := by
  refine (proofToPath_uniform hL ht hp firstKey true).bind fun r hr => ?_
  obtain ⟨hne, hr⟩ := hr
  refine (extendPath_spec hL hp hr.opens (.inl ht.known) ht.flat last true).bind fun r' hr' => ?_
  obtain ⟨root', val'⟩ := r'
  have hs := hr'.opens.shows
  have hf := hs.formed hL ht.known
  have hclear := hr'.opened.clear hr.clear
  have hlr := (leftOf_hex_iff hlen).mpr hlt
  have hmore := hasRight_path hL ht hs hr'.clear
  have hcut := unsetInternal_spec hs ht.flat hne hf (hr'.opens.flagged (.inl ht.known))
    (isKey_keybytesToHex firstKey) (isKey_keybytesToHex last) hclear hr'.clear hlr
  refine hcut.bind ?_
  rintro (_ | cut) htrim
  · exact ⟨trivial, trivial, nofun, nofun, hmore⟩
  · obtain ⟨htrim, hright⟩ := htrim
    refine ⟨htrim.formed, htrim.flagged, fun p m h => (htrim.at_imp p m h).2, fun q eh h => ?_, ?_⟩
    · exact hs.get_of_hash ht.flat (htrim.at_imp q _ h).1
    · rwa [hright]

theorem rebuild_spec
    (hv : ∀ e ∈ entries, e.2 ≠ []) :
    Returns (fun r => ∃ inner, Edges keccak L t firstKey last (r.1, inner) ∧
        Ready keccak L r.2 ∧ updateAll ⟨plainOpts, inner, []⟩ entries = .ok r.2)
      (rebuild proof (rootOf keccak t) firstKey last entries) := by
  refine (edgePaths_spec hL ht hp hlt hlen).bind fun r hr => ?_
  obtain ⟨root, inner⟩ := r
  have hready : Ready keccak L ⟨plainOpts, inner, []⟩ := ⟨rfl, hr.formed, hr.flagged⟩
  obtain ⟨tr, heq, htr, -⟩ := updateAll_spec hready hv
  dsimp only
  rw [heq]
  exact ⟨inner, hr, htr, heq⟩

end

theorem verify_between
    (hp : Genuine keccak L proof) (hne : keys ≠ []) (hkv : keys.length = values.length)
    (hinc : increasing keys = true) (hlt : firstKey < keys.getLastD [])
    (hlen : firstKey.length = (keys.getLastD []).length)
    (hrec : ∀ r, rebuild proof (rootOf keccak t) firstKey (keys.getLastD []) (keys.zip values) =
      .ok r → r.2.root.Recorded keccak L)
    (hkeeps : KeepsRange t (some proof) firstKey keys values) :
    Returns (RangeHolds t (some proof) firstKey keys values) (do
      let (root, tr) ← rebuild proof (rootOf keccak t) firstKey (keys.getLastD [])
        (keys.zip values)
      checkHash keccak tr (rootOf keccak t)
      hasRightElement root (keybytesToHex (keys.getLastD []))) := by
  have hv : ∀ e ∈ keys.zip values, e.2 ≠ [] := fun e he =>
    hkeeps.nonempty _ (of_mem_zip he).2
  have hspec := rebuild_spec hL ht hp hlt hlen hv
  refine hspec.with_eq.bind ?_
  rintro ⟨root, tr⟩ ⟨⟨inner, hedges, hready, heq⟩, hok⟩
  have hrecorded := hrec _ hok
  dsimp only at hready heq hrecorded ⊢
  unfold checkHash
  split
  · next hhash =>
    have hlr := (leftOf_hex_iff hlen).mpr hlt
    have hready₀ : Ready keccak L ⟨plainOpts, inner, []⟩ := ⟨rfl, hedges.formed, hedges.flagged⟩
    obtain ⟨tr', heq', -, hlast, hfilled⟩ := updateAll_spec hready₀ hv
    rw [heq] at heq'
    cases heq'
    -- the last entry is in the trie, so its keys are as long
    obtain ⟨v, hzip⟩ := zip_last hne hkv
    have hat : tr.root.At (keybytesToHex (keys.getLastD [])) (.value v) :=
      hlast _ hzip (hedges.clear_last hlr)
    have hroot : tr.root.IsNode := by
      cases hr : tr.root with
      | nil =>
        rw [hr] at hat
        cases hat
      | value u => exact absurd hr (hready.formed.not_value u)
      | hash eh =>
        rw [hr] at hat
        cases hat.2
      | short | full => exact trivial
    have hs := shows_of_hash hL ht hready hrecorded (.inr hroot) hhash
    obtain ⟨u, hu, -⟩ := hs.get_of_at hat
    obtain ⟨len, hkeys⟩ := ht.keys
    have hlastlen : (keys.getLastD []).length = len := by
      obtain ⟨k, hk, rfl⟩ := hkeys _ u hu
      rw [keybytesToHex_inj hk]
    have hfirstlen := hlen.trans hlastlen
    have hwithin : ∀ e ∈ keys.zip values, InRange (some proof) firstKey keys e.1 := fun e he _ =>
      ⟨hkeeps.within rfl _ (of_mem_zip he).1, fun _ => le_last hinc (of_mem_zip he).1⟩
    have hfilled := hfilled (fun e he =>
      hedges.clear hkeys hfirstlen hlastlen (hwithin e he rfl).1 ((hwithin e he rfl).2 hne))
      (zip_distinct hkv hinc)
    refine hedges.more.mono fun more hmore => ⟨hfilled.listed_iff hs hwithin ?_, ?_⟩
    · intro k v hin hv q m hq hat
      obtain ⟨k', hk', hklen⟩ := hkeys _ v hv
      obtain rfl := keybytesToHex_inj hk'
      obtain ⟨hle, hge⟩ := hin rfl
      obtain hl | hl := hedges.outside q m hat
      · exact hle ((leftOf_hex_iff (hklen.trans hfirstlen.symm)).mp (hl.of_front_left hq))
      · exact hge hne ((leftOf_hex_iff (hlastlen.trans hklen.symm)).mp (hl.of_front_right hq))
    · rw [hmore, ht.right_iff hu]
      simp only [Above, if_neg hne]
  · rintro ⟨⟩

/-- A list that keeps to its range is refused, or is what the trie has there. -/
theorem verifyRangeProof_spec
    {proof : Option ProofDB} (hp : ∀ p, proof = some p → Genuine keccak L p)
    (hrec : ∀ tr, compared (rootOf keccak t) firstKey (keys.getLastD []) (keys.zip values) proof =
      .ok tr → tr.root.Recorded keccak L)
    (hkeeps : KeepsRange t proof firstKey keys values) :
    Returns (RangeHolds t proof firstKey keys values)
      (verifyRangeProof keccak (rootOf keccak t) firstKey (keys.getLastD []) keys values proof) := by
  unfold verifyRangeProof
  split
  · exact nofun
  next hlen =>
  rw [ne_eq, not_not] at hlen
  split
  · exact nofun
  next hinc =>
  rw [Bool.not_eq_false] at hinc
  cases proof with
  | none => exact verify_all hL ht hlen hinc hrec hkeeps
  | some proof =>
    have hp := hp proof rfl
    rcases keys with _ | ⟨key, keys⟩
    · exact verify_none hL ht hp hkeeps
    dsimp only
    split
    · next hone =>
      obtain ⟨rfl, rfl⟩ := hone
      obtain ⟨value, rfl⟩ := length_eq_one_iff.mp hlen.symm
      exact verify_one hL ht hp
    · split
      · exact nofun
      next hlt =>
      split
      · exact nofun
      next heq =>
      rw [not_not] at hlt
      rw [ne_eq, not_not] at heq
      refine verify_between hL ht hp (by simp) hlen hinc hlt heq (fun r hr => hrec r.2 ?_) hkeeps
      rw [compared, hr]
      rfl

end

theorem length_of_verified {rootHash : Hash} {lastKey : Bytes} {proof : Option ProofDB}
    (h : verifyRangeProof keccak rootHash firstKey lastKey keys values proof =
      .ok more) : keys.length = values.length := by
  by_contra hne
  unfold verifyRangeProof at h
  rw [if_pos hne] at h
  cases h

/-- An accepted list is what the trie has in the range exactly if the range is kept. -/
theorem verified_range_iff (hL : CollisionFree keccak L) (ht : Uniform keccak L t)
    {proof : Option ProofDB} (hp : ∀ p, proof = some p → Genuine keccak L p)
    (hrec : ∀ tr, compared (rootOf keccak t) firstKey (keys.getLastD []) (keys.zip values) proof =
      .ok tr → tr.root.Recorded keccak L) {more : Bool}
    (h : verifyRangeProof keccak (rootOf keccak t) firstKey (keys.getLastD []) keys values proof =
      .ok more) :
    RangeHolds t proof firstKey keys values more ↔ KeepsRange t proof firstKey keys values := by
  constructor
  · exact RangeHolds.keepsRange (length_of_verified h) ht
  · intro hkeeps
    exact (verifyRangeProof_spec hL ht hp hrec hkeeps).of_ok h

/-! ## One entry -/

def leafTree : ValueTree := .short [0, 1, 16] (.value [7])

theorem get_leafTree {w : List Nibble} {v : Bytes} (h : leafTree.get w = some v) :
    w = keybytesToHex [1] ∧ v = [7] := by
  obtain ⟨q, rfl, hv⟩ := short_get_eq_some.mp h
  rw [get_value] at hv
  split at hv
  · next hnil =>
    rw [hnil]
    exact ⟨rfl, (Option.some.inj hv).symm⟩
  · cases hv

/-- A deletion of a key that is not there goes unnoticed, whatever the hash function. -/
theorem empty_value_escapes :
    (∀ keccak : Bytes → Hash, verifyRangeProof keccak (rootOf keccak leafTree) [] [2] [[1], [2]]
      [[7], []] none = .ok false) ∧
      ¬ RangeHolds leafTree none [] [[1], [2]] [[7], []] false := by
  constructor
  · intro keccak
    have hup : updateAll ⟨plainOpts, .nil, []⟩ ([[1], [2]].zip [[7], []]) =
        .ok ⟨plainOpts, .short [0, 1, 16] (.value [7]) newFlag, []⟩ := rfl
    have hhash : Trie.hash keccak ⟨plainOpts, .short [0, 1, 16] (.value [7]) newFlag, []⟩ =
      rootOf keccak leafTree := rfl
    unfold verifyRangeProof
    rw [hup]
    show (checkHash keccak _ _ >>= fun _ => _) = _
    rw [checkHash, if_pos hhash]
    rfl
  · intro h
    obtain ⟨-, v, hv, -⟩ := (h.entries [2] _).mp ⟨[], by simp, rfl⟩
    exact absurd (keybytesToHex_inj (get_leafTree hv).1) (by decide)

/-! ## Three entries -/

instance decidableMeasured : (r : RawNode) → Decidable r.Measured
  | .nil | .hash _ => .isTrue trivial
  | .value v => inferInstanceAs (Decidable (v.length < 2 ^ 64))
  | .short _ val =>
    have := decidableMeasured val
    inferInstanceAs (Decidable (_ ∧ _ ∧ val.Measured))
  | .full c =>
    have := fun i => decidableMeasured (c i)
    inferInstanceAs (Decidable (_ ∧ ∀ i, (c i).Measured))

instance decidableRecorded (keccak : Bytes → Hash) (nodes : List Bytes) :
    (n : Node) → Decidable (n.Recorded keccak {b | b ∈ nodes})
  | .nil | .value _ | .hash _ => .isTrue trivial
  | .short key val flags =>
    have := decidableRecorded keccak nodes val
    have := decidableMeasured ((Node.short key val flags).form keccak)
    inferInstanceAs (Decidable (flags.hash = none → (_ ∈ nodes ∧ _) ∧ val.Recorded keccak _))
  | .full c flags =>
    have := fun i => decidableRecorded keccak nodes (c i)
    have := decidableMeasured ((Node.full c flags).form keccak)
    inferInstanceAs (Decidable (flags.hash = none → (_ ∈ nodes ∧ _) ∧ ∀ i, (c i).Recorded keccak _))

def wideLeaf (i : Nibble) : ValueTree := .short [0, 16] (.value (replicate 32 (UInt8.ofNat i)))

def wideTree : ValueTree := .full fun i => if i ∈ [1, 2, 3] then wideLeaf i else .nil

def wideHash (b : Bytes) : Hash := BitVec.ofNat 256 (Rlp.ofBytes b)

def wideNodes : List Bytes :=
  [wideTree, wideLeaf 1, wideLeaf 2, wideLeaf 3].map fun t => (ofTree t).bytes wideHash

/-- The nodes on the paths to the first two leaves. -/
def wideProof : ProofDB := fun h =>
  (wideNodes.take 3).find? fun b => h = .extendZero (wideHash b)

theorem get_wideTree {w : List Nibble} {v : Bytes} (h : wideTree.get w = some v) :
    ∃ i ∈ [1, 2, 3], w = [i, 0, 16] ∧ v = replicate 32 (UInt8.ofNat i) := by
  cases w with
  | nil => cases h
  | cons i w =>
    rw [wideTree, get_full_cons] at h
    split at h
    · next hi =>
      obtain ⟨q, rfl, hv⟩ := short_get_eq_some.mp h
      rw [get_value] at hv
      split at hv
      · next hnil =>
        subst hnil
        exact ⟨i, hi, rfl, (Option.some.inj hv).symm⟩
      · cases hv
    · cases h

theorem wide_uniform : Uniform wideHash {b | b ∈ wideNodes} wideTree where
  normal := by
    refine .inr (.branch (fun i _ hi => ?_) (fun h => absurd rfl h)
      ⟨1, 2, by decide, by simp [wideLeaf], by simp [wideLeaf]⟩)
    split at hi
    · next hmem =>
      rw [if_pos hmem]
      exact .leaf rfl
    · exact absurd rfl hi
  keys := by
    refine ⟨1, fun w v hw => ?_⟩
    obtain ⟨i, hi, rfl, -⟩ := get_wideTree hw
    have hkey : ∀ i ∈ ([1, 2, 3] : List Nibble),
        [i, 0, 16] = keybytesToHex [UInt8.ofNat (16 * i)] := by decide
    exact ⟨_, hkey i hi, rfl⟩
  values := by
    intro w v hw
    obtain ⟨i, -, -, rfl⟩ := get_wideTree hw
    simp
  recorded := by decide +kernel

/-- The first two of three leaves, with the paths to both. -/
theorem two_of_three_verified :
    verifyRangeProof wideHash (rootOf wideHash wideTree) [16] [32] [[16], [32]]
        [replicate 32 1, replicate 32 2] (some wideProof) = .ok true ∧
      RangeHolds wideTree (some wideProof) [16] [[16], [32]]
        [replicate 32 1, replicate 32 2] true := by
  have hverified : verifyRangeProof wideHash (rootOf wideHash wideTree) [16] [32] [[16], [32]]
      [replicate 32 1, replicate 32 2] (some wideProof) = .ok true := by decide +kernel
  have hkeeps : KeepsRange wideTree (some wideProof) [16] [[16], [32]]
    [replicate 32 1, replicate 32 2] := ⟨by decide, fun _ => by decide, by simp⟩
  refine ⟨hverified, Iff.mpr ?_ hkeeps⟩
  refine verified_range_iff (L := {b | b ∈ wideNodes}) ?_ wide_uniform ?_ ?_ hverified
  · have hfree : (∀ a ∈ wideNodes, ∀ b ∈ wideNodes, wideHash a = wideHash b → a = b) ∧
        (∀ a ∈ wideNodes, wideHash a ≠ emptyRoot) ∧ ∀ a ∈ wideNodes, wideHash a ≠ 0 := by
      decide +kernel
    exact ⟨hfree.1, hfree.2.1, hfree.2.2⟩
  · rintro p hp h b hb
    obtain rfl := Option.some.inj hp
    unfold wideProof at hb
    exact ⟨of_decide_eq_true (find?_some hb :), .inl (mem_of_mem_take (mem_of_find?_eq_some hb))⟩
  · intro tr htr
    have hrec : (compared (rootOf wideHash wideTree) [16] [32]
        ([[16], [32]].zip [replicate 32 1, replicate 32 2]) (some wideProof)).toOption.all
        (fun tr => tr.root.Recorded wideHash {b | b ∈ wideNodes}) = true := by decide +kernel
    rw [show compared (rootOf wideHash wideTree) [16] [32]
      ([[16], [32]].zip [replicate 32 1, replicate 32 2]) (some wideProof) = .ok tr from htr] at hrec
    exact of_decide_eq_true hrec

end Kaia.Storage
