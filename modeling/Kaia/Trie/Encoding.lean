import Kaia.Trie.NodeCodec

/-! # Encodings of nodes that are hashed

A node in the form that is hashed can be told from its encoding, however large the nodes are
that it holds. The decoder refuses large ones; what it accepts it reads back.
-/

namespace Kaia.Storage

open Foundation Rlp List Option

/-! ## Values in a row -/

variable {e e' x x' : Bytes}

theorem OneValue.append_inj (he : OneValue e) (he' : OneValue e') (h : e ++ x = e' ++ x') :
    e = e' ∧ x = x' := by
  obtain ⟨-, i, hi⟩ := he
  obtain ⟨-, i', hi'⟩ := he'
  have heq := hi x
  rw [h, hi'] at heq
  obtain rfl : x' = x := (Prod.mk.inj (some.inj heq)).2
  exact ⟨append_cancel_right h, rfl⟩

theorem OneValue.flatten_inj {es es' : List Bytes} (hes : ∀ e ∈ es, OneValue e)
    (hes' : ∀ e ∈ es', OneValue e) (h : es.flatten = es'.flatten) : es = es' := by
  have hne : ∀ {e : Bytes} {es : List Bytes}, OneValue e → (e :: es).flatten ≠ [] := by
    rintro e es ⟨hpos, -⟩ hnil
    rw [flatten_cons, append_eq_nil_iff] at hnil
    simp [hnil.1] at hpos
  induction es generalizing es' with
  | nil =>
    cases es' with
    | nil => rfl
    | cons e' es' => exact absurd h.symm (hne (hes' e' mem_cons_self))
  | cons e es ih =>
    cases es' with
    | nil => exact absurd h (hne (hes e mem_cons_self))
    | cons e' es' =>
      obtain ⟨rfl, hrest⟩ := (hes e mem_cons_self).append_inj (hes' e' mem_cons_self) h
      rw [ih (fun e he => hes e (mem_cons_of_mem _ he))
        (fun e he => hes' e (mem_cons_of_mem _ he)) hrest]

variable {b b' : Bytes}

theorem writeBytes_inj (hb : b.length < 2 ^ 64) (hb' : b'.length < 2 ^ 64)
    (h : writeBytes b = writeBytes b') : b = b' := by
  have h₁ := decode_writeBytes hb []
  rw [h, decode_writeBytes hb' []] at h₁
  exact (Prod.mk.inj (some.inj h₁)).1.symm

/-! ## Formed nodes -/

theorem withTerm_inj {w w' : List Nibble} {b b' : Bool} (hw : 16 ∉ w) (hw' : 16 ∉ w')
    (h : withTerm b w = withTerm b' w') : b = b' ∧ w = w' := by
  obtain rfl : b = b' := by
    rw [← hasTerm_withTerm hw b, h, hasTerm_withTerm hw']
  refine ⟨rfl, ?_⟩
  cases b with
  | false => exact h
  | true => exact append_cancel_right h

namespace RawNode

/-- A value is behind a terminator or at the end of a branch, and hashes have no counters. -/
def Formed : RawNode → Prop
  | nil => True
  | value _ => False
  | hash h => h.counter = 0
  | short key val =>
    ∃ w, 16 ∉ w ∧
      ((key = hexToCompact (withTerm true w) ∧ ∃ v, val = value v) ∨
        (key = hexToCompact (withTerm false w) ∧ val.Formed))
  | full c => (∀ i ≠ 16, (c i).Formed) ∧ (c 16 = nil ∨ ∃ v, c 16 = value v ∧ v ≠ [])

/-- All that is written into an encoding has a length of eight bytes. -/
def Measured : RawNode → Prop
  | nil => True
  | value v => v.length < 2 ^ 64
  | hash _ => True
  | short key val =>
    key.length < 2 ^ 64 ∧ (writeBytes key ++ val.encode).length < 2 ^ 64 ∧ val.Measured
  | full c =>
    ((List.finRange 17).flatMap fun i => (c i).encode).length < 2 ^ 64 ∧ ∀ i, (c i).Measured

variable {r r' : RawNode} {c c' : Fin 17 → RawNode}

/-- The value that the encoding is split into. -/
def item : RawNode → Item
  | nil => .string []
  | value v => stringItem v
  | hash h => .string (storedHash h)
  | short key val => .list (writeBytes key ++ val.encode)
  | full c => .list ((finRange 17).flatMap fun i => (c i).encode)

theorem Measured.splitRaw_encode (h : r.Measured) (rest : Bytes) :
    splitRaw (r.encode ++ rest) = some (r.item, rest) := by
  cases r with
  | nil => exact splitRaw_writeBytes (b := []) (by norm_num) rest
  | value v => exact splitRaw_writeBytes h rest
  | hash eh =>
    have hlen := length_storedHash_bounds eh
    rw [item, ← stringItem_of_length (by omega)]
    exact splitRaw_writeBytes (by omega) rest
  | short key val => exact splitRaw_writeList h.2.1 rest
  | full c => exact splitRaw_writeList h.1 rest

theorem Measured.item_eq (h : r.Measured) (h' : r'.Measured) (heq : r.encode = r'.encode) :
    r.item = r'.item := by
  have hsplit := h.splitRaw_encode []
  rw [heq, h'.splitRaw_encode] at hsplit
  exact (Prod.mk.inj (some.inj hsplit)).1.symm

theorem Measured.oneValue (h : r.Measured) : OneValue r.encode := by
  refine ⟨length_pos_of_ne_nil fun hnil => ?_, _, h.splitRaw_encode⟩
  have hsplit := h.splitRaw_encode []
  rw [hnil] at hsplit
  cases hsplit

theorem full_payload_eq (c : Fin 17 → RawNode) :
    ((finRange 17).flatMap fun i => (c i).encode) =
      ((finRange 17).map fun i => (c i).encode).flatten := List.flatMap_def ..

theorem Measured.oneValue_children (h : (full c).Measured) :
    ∀ e ∈ (finRange 17).map fun i => (c i).encode, OneValue e := by
  intro e he
  obtain ⟨i, -, rfl⟩ := mem_map.mp he
  exact (h.2 i).oneValue

variable {key : Bytes} {val : RawNode}

theorem short_payload_ne (h : (short key val).Measured) (hc : (full c).Measured) :
    writeBytes key ++ val.encode ≠ (finRange 17).flatMap fun i => (c i).encode := by
  intro heq
  have hflat : [writeBytes key, val.encode].flatten =
      ((finRange 17).map fun i => (c i).encode).flatten := by
    rw [← full_payload_eq, ← heq]
    simp
  have hones : ∀ e ∈ [writeBytes key, val.encode], OneValue e := by
    simp [oneValue_writeBytes h.1, h.2.2.oneValue]
  have hlen := congrArg length (OneValue.flatten_inj hones hc.oneValue_children hflat)
  simp at hlen

theorem storedHash_ne_nil (h : ExtHash) : storedHash h ≠ [] := fun hnil => by
  have := length_storedHash_bounds h
  simp [hnil] at this

theorem eq_of_encode_last (hl : r = nil ∨ ∃ v, r = value v ∧ v ≠ [])
    (hl' : r' = nil ∨ ∃ v, r' = value v ∧ v ≠ []) (hm : r.Measured) (hm' : r'.Measured)
    (h : r.encode = r'.encode) : r = r' := by
  have hstring : ∀ {r : RawNode}, (r = nil ∨ ∃ v, r = value v ∧ v ≠ []) → r.Measured →
      ∃ v : Bytes, v.length < 2 ^ 64 ∧ r.encode = writeBytes v ∧
        r = if v = [] then nil else value v := by
    rintro r (rfl | ⟨v, rfl, hne⟩) hm
    · exact ⟨[], by norm_num, rfl, rfl⟩
    · exact ⟨v, hm, rfl, (if_neg hne).symm⟩
  obtain ⟨v, hv, henc, hr⟩ := hstring hl hm
  obtain ⟨v', hv', henc', hr'⟩ := hstring hl' hm'
  rw [henc, henc'] at h
  rw [hr, hr', writeBytes_inj hv hv' h]

theorem encode_inj (hf : r.Formed) (hf' : r'.Formed) (hm : r.Measured) (hm' : r'.Measured)
    (h : r.encode = r'.encode) : r = r' := by
  have hitem := hm.item_eq hm' h
  induction r generalizing r' with
  | nil =>
    cases r' with
    | nil => rfl
    | hash eh => exact absurd (Item.string.inj hitem).symm (storedHash_ne_nil eh)
    | value v => cases hf'
    | short | full => cases hitem
  | value v => cases hf
  | hash eh =>
    cases r' with
    | nil => exact absurd (Item.string.inj hitem) (storedHash_ne_nil eh)
    | hash eh' =>
      have hback := bytesToExtHash_storedHash eh
      rw [Item.string.inj hitem, bytesToExtHash_storedHash] at hback
      rw [some.inj hback]
    | value v => cases hf'
    | short | full => cases hitem
  | short key val ih =>
    cases r' with
    | nil | hash => cases hitem
    | value v => cases hf'
    | short key' val' =>
      have hparts := (oneValue_writeBytes hm.1).append_inj (oneValue_writeBytes hm'.1)
        (Item.list.inj hitem)
      obtain ⟨hkey, hval⟩ := hparts
      obtain rfl := writeBytes_inj hm.1 hm'.1 hkey
      obtain ⟨w, hw, hcases⟩ := hf
      obtain ⟨w', hw', hcases'⟩ := hf'
      -- the flag in the key tells a value from a reference
      have hflag {b b' : Bool} (hkey : key = hexToCompact (withTerm b w))
          (hkey' : key = hexToCompact (withTerm b' w')) : b = b' :=
        (withTerm_inj hw hw' (hexToCompact_inj hw hw' (hkey.symm.trans hkey'))).1
      obtain ⟨hkey, v, rfl⟩ | ⟨hkey, hval'⟩ := hcases
      · obtain ⟨-, v', rfl⟩ | ⟨hkey', -⟩ := hcases'
        · rw [writeBytes_inj hm.2.2 hm'.2.2 hval]
        · cases hflag hkey hkey'
      · obtain ⟨hkey', -⟩ | ⟨-, hval''⟩ := hcases'
        · cases hflag hkey hkey'
        · rw [ih hval' hval'' hm.2.2 hm'.2.2 hval (hm.2.2.item_eq hm'.2.2 hval)]
    | full c' => exact absurd (Item.list.inj hitem) (short_payload_ne hm hm')
  | full c ih =>
    cases r' with
    | nil | hash => cases hitem
    | value v => cases hf'
    | short key' val' => exact absurd (Item.list.inj hitem).symm (short_payload_ne hm' hm)
    | full c' =>
      have hmap := OneValue.flatten_inj hm.oneValue_children hm'.oneValue_children
        (Item.list.inj hitem)
      congr
      funext i
      have hi : (c i).encode = (c' i).encode :=
        map_inj_left.mp hmap i (mem_finRange i)
      by_cases h16 : i = 16
      · subst h16
        exact eq_of_encode_last hf.2 hf'.2 (hm.2 16) (hm'.2 16) hi
      · exact ih i (hf.1 i h16) (hf'.1 i h16) (hm.2 i) (hm'.2 i) hi
          ((hm.2 i).item_eq (hm'.2 i) hi)

/-! ## Decoding -/

/-- A decoder that reads the node back if it reads anything. -/
def ReadsBack (embedded : Bytes → Option Node) (r : RawNode) : Prop :=
  r.IsNode → ∀ rest n, embedded (r.encode ++ rest) = some n → n = r.expandNode none

variable {embedded : Bytes → Option Node} {n : Node} {rest rest' : Bytes} {flag : Option ExtHash}

theorem decodeRef_of_encode (hf : r.Formed) (hm : r.Measured) (hread : r.ReadsBack embedded)
    (h : decodeRef embedded (r.encode ++ rest) = some (n, rest')) :
    n = r.expandNode none ∧ rest' = rest := by
  rw [decodeRef, hm.splitRaw_encode, bind_eq_bind, bind_some] at h
  cases r with
  | nil =>
    cases h
    exact ⟨rfl, rfl⟩
  | value v => cases hf
  | hash eh =>
    have hlen := length_storedHash_bounds eh
    have hback := bytesToExtHash_storedHash eh
    simp only [item] at h
    cases hstored : storedHash eh with
    | nil => exact absurd hstored (storedHash_ne_nil eh)
    | cons x b =>
      rw [hstored] at hlen hback h
      simp only [if_pos hlen, hback, bind_eq_bind, bind_some] at h
      cases h
      exact ⟨rfl, rfl⟩
  | short | full =>
    simp only [item] at h
    split at h
    · cases h
    · obtain ⟨n', hn', heq⟩ := bind_eq_some_iff.mp h
      obtain ⟨rfl, rfl⟩ := Prod.mk.inj (some.inj heq)
      exact ⟨hread trivial rest n' hn', rfl⟩

theorem decodeRefs_of_encode {rs : List RawNode} {ns : List Node}
    (hrs : ∀ r ∈ rs, r.Formed ∧ r.Measured ∧ r.ReadsBack embedded)
    (h : decodeRefs embedded rs.length ((rs.map encode).flatten ++ rest) = some (ns, rest')) :
    ns = rs.map (expandNode none) ∧ rest' = rest := by
  induction rs generalizing ns rest' with
  | nil =>
    obtain ⟨rfl, rfl⟩ := Prod.mk.inj (some.inj h)
    exact ⟨rfl, rfl⟩
  | cons r rs ih =>
    obtain ⟨hf, hm, hread⟩ := hrs r mem_cons_self
    rw [map_cons, flatten_cons, append_assoc, length_cons, decodeRefs] at h
    obtain ⟨⟨cld, mid⟩, hcld, hrest⟩ := bind_eq_some_iff.mp h
    obtain ⟨rfl, rfl⟩ := decodeRef_of_encode hf hm hread hcld
    obtain ⟨⟨clds, last⟩, hclds, hboth⟩ := bind_eq_some_iff.mp hrest
    obtain ⟨rfl, rfl⟩ := ih (fun r hr => hrs r (mem_cons_of_mem _ hr)) hclds
    obtain ⟨rfl, rfl⟩ := Prod.mk.inj (some.inj hboth)
    exact ⟨rfl, rfl⟩

theorem decodeShort_of_encode (hf : (short key val).Formed) (hm : (short key val).Measured)
    (hread : val.ReadsBack embedded)
    (h : decodeShort embedded flag (writeBytes key ++ val.encode) = some n) :
    n = (short key val).expandNode flag := by
  rw [decodeShort, decode_writeBytes hm.1] at h
  obtain ⟨w, hw, ⟨rfl, v, rfl⟩ | ⟨rfl, hval⟩⟩ := hf
  · have hdec := decode_writeBytes hm.2.2 []
    rw [append_nil] at hdec
    simp only [Option.bind_eq_bind, Option.bind_some, compactToHex_hexToCompact hw,
      hasTerm_withTerm hw, if_true, encode, hdec, Option.pure_def, Option.some.injEq] at h
    rw [← h, expandNode, compactToHex_hexToCompact hw, expandNode]
  · simp only [Option.bind_eq_bind, Option.bind_some, compactToHex_hexToCompact hw,
      hasTerm_withTerm hw, Bool.false_eq_true, if_false, Option.pure_def] at h
    obtain ⟨⟨r, last⟩, hr, h⟩ := Option.bind_eq_some_iff.mp h
    rw [← append_nil val.encode] at hr
    obtain ⟨rfl, -⟩ := decodeRef_of_encode hval hm.2.2 hread hr
    rw [← Option.some.inj h, expandNode, compactToHex_hexToCompact hw]

theorem decodeFull_of_encode (hf : (full c).Formed) (hm : (full c).Measured)
    (hread : ∀ i, (c i).ReadsBack embedded)
    (h : decodeFull embedded flag ((finRange 17).flatMap fun i => (c i).encode) = some n) :
    n = (full c).expandNode flag := by
  obtain ⟨hc, hlast⟩ := hf
  rw [full_payload, decodeFull] at h
  obtain ⟨⟨clds, last⟩, hclds, hlist⟩ := bind_eq_some_iff.mp h
  obtain ⟨⟨val, rest⟩, hval, hbody⟩ := bind_eq_some_iff.mp hlist
  have hrefs : decodeRefs embedded ((finRange 16).map fun i => c i.castSucc).length
      ((((finRange 16).map fun i => c i.castSucc).map encode).flatten ++ (c 16).encode) =
        some (clds, last) := by
    simpa [Function.comp_def] using hclds
  obtain ⟨rfl, rfl⟩ := decodeRefs_of_encode (fun r hr => by
    obtain ⟨i, -, rfl⟩ := mem_map.mp hr
    exact ⟨hc _ (castSucc_ne_term i), hm.2 _, hread _⟩) hrefs
  have hexp : (if val = [] then Node.nil else .value val) = (c 16).expandNode none := by
    have hdec : ∀ {v : Bytes}, v.length < 2 ^ 64 → Codec.bytes.decode (writeBytes v) =
        some (val, rest) → val = v := by
      intro v hv hd
      have := decode_writeBytes hv []
      rw [append_nil, hd] at this
      exact (Prod.mk.inj (some.inj this)).1
    have hm16 := hm.2 16
    obtain hnil | ⟨v, hv, hne⟩ := hlast
    · rw [hnil] at hval
      obtain rfl := hdec (v := []) (by norm_num) hval
      rw [hnil]
      rfl
    · rw [hv] at hval hm16
      obtain rfl := hdec hm16 hval
      rw [hv, if_neg hne]
      rfl
  rw [← some.inj hbody, hexp]
  simp only [expandNode, Node.full.injEq, and_true]
  funext i
  refine Fin.lastCases ?_ (fun i => ?_) i
  · simp [getD_eq_getElem?_getD]
  · simp [getD_eq_getElem?_getD, getElem?_append]

theorem decodeNode_of_encode (hf : r.Formed) (hm : r.Measured) (hnode : r.IsNode) {fuel : ℕ}
    (h : decodeNode fuel flag (r.encode ++ rest) = some n) : n = r.expandNode flag := by
  induction r generalizing fuel flag rest n with
  | nil | value | hash => cases hnode
  | short key val ih =>
    cases fuel with
    | zero => cases h
    | succ fuel =>
      have hread : val.ReadsBack (decodeNode fuel none) := by
        intro hval rest n hn
        obtain ⟨w, hw, ⟨-, v, rfl⟩ | ⟨-, hf'⟩⟩ := hf
        · cases hval
        · exact ih hf' hm.2.2 hval hn
      have hcount : countValues (writeBytes key ++ val.encode).length
          (writeBytes key ++ val.encode) = some 2 := by
        have := countValues_flatten [writeBytes key, val.encode]
          (by simp [oneValue_writeBytes hm.1, hm.2.2.oneValue])
          (writeBytes key ++ val.encode).length (by simp)
        simpa using this
      rw [encode, decodeNode, split_writeList hm.2.1] at h
      simp only [hcount, getD_some] at h
      exact decodeShort_of_encode hf hm hread h
  | full c ih =>
    cases fuel with
    | zero => cases h
    | succ fuel =>
      have hread : ∀ i, (c i).ReadsBack (decodeNode fuel none) := by
        intro i hi rest n hn
        by_cases h16 : i = 16
        · subst h16
          obtain hnil | ⟨v, hv, -⟩ := hf.2
          · rw [hnil] at hi
            cases hi
          · rw [hv] at hi
            cases hi
        · exact ih i (hf.1 i h16) (hm.2 i) hi hn
      have hcount : countValues ((finRange 17).flatMap fun i => (c i).encode).length
          ((finRange 17).flatMap fun i => (c i).encode) = some 17 := by
        rw [full_payload_eq]
        have := countValues_flatten ((finRange 17).map fun i => (c i).encode)
          hm.oneValue_children _ le_rfl
        simpa using this
      rw [encode, decodeNode, split_writeList hm.1] at h
      simp only [hcount, getD_some] at h
      exact decodeFull_of_encode hf hm hread h

theorem decodeNode_empty (fuel : ℕ) : decodeNode fuel flag [0x80] = none := by
  cases fuel with
  | zero | succ => rfl

end RawNode

end Kaia.Storage
