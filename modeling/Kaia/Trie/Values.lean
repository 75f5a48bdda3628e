import Kaia.Trie.Trie
import Kaia.Account.Unextend

/-! # The values of a trie

A value is hashed without its counter, which only long values have. A trie holds a tree of
values under the nibbles of their keys.
-/

namespace Kaia.Storage

open Foundation Rlp

/-! ## Values without counters -/

theorem unextendValue_idem (v : Bytes) : unextendValue (unextendValue v) = unextendValue v := by
  obtain ⟨u, hu, huu⟩ := StoredAccount.unextend_idempotent v
  simp [unextendValue, hu, huu]

variable {m n : ℕ} {key : List Nibble}

theorem toBytes_length_mono (h : m ≤ n) : (toBytes m).length ≤ (toBytes n).length := by
  rw [length_toBytes_le_iff]
  exact h.trans_lt (length_toBytes_le_iff.mp le_rfl)

theorem headSize_mono (h : m ≤ n) : headSize m ≤ headSize n := by
  have hlen := toBytes_length_mono h
  unfold headSize
  split
  · split <;> omega
  · rw [if_neg (by omega)]
    omega

theorem length_join_list {payload e : Bytes} (h : join (.list payload) = some e) :
    e.length = headSize payload.length + payload.length := by
  obtain ⟨hd, hhead, rfl⟩ := Option.map_eq_some_iff.mp h
  rw [List.length_append, length_head hhead]

theorem length_serializes {sca : SmartContractAccount} {d p : Bytes} (hd : sca.Serializes d)
    (hp : sca.encodeRLP = some p) : 33 ≤ p.length ∧ p.length ≤ d.length := by
  obtain ⟨ce, re, de, ie, hce, hre, hde, hie, hjoin⟩ :=
    SmartContractAccount.encode_serializable.mp hp
  obtain ⟨s, hs, hroot⟩ := rootLength_hash.encode sca.storageRoot.unextend
  cases hre.symm.trans hroot
  have hlen := length_join_list hjoin
  simp only [List.length_append, List.length_cons] at hlen
  refine ⟨by omega, ?_⟩
  rcases hd with hd | hd
  · obtain ⟨ce', re', de', ie', hce', hre', hde', hie', hjoin'⟩ :=
      SmartContractAccount.encode_serializable.mp hd
    obtain ⟨s', hs', hroot'⟩ := rootLength_extHash.encode sca.storageRoot
    cases hre'.symm.trans hroot'
    cases hce.symm.trans hce'
    cases hde.symm.trans hde'
    cases hie.symm.trans hie'
    have hlen' := length_join_list hjoin'
    simp only [List.length_append, List.length_cons] at hlen'
    have := headSize_mono (m := ce.length + (s.length + 1 + (de.length + ie.length)))
      (n := ce.length + (s'.length + 1 + (de.length + ie.length))) (by omega)
    omega
  · cases hd.symm.trans hp
    exact le_rfl

theorem unextendValue_cases (v : Bytes) :
    (unextendValue v = v ∨ (33 ≤ v.length ∧ 33 ≤ (unextendValue v).length)) ∧
      (unextendValue v).length ≤ v.length := by
  by_cases hsca : ∃ sca, StoredAccount.decodeBytes v = .ok (.smartContract sca)
  · obtain ⟨sca, hok⟩ := hsca
    obtain ⟨-, d, hd, rfl⟩ := StoredAccount.isSerializedContract_of_decodeBytes hok
    obtain ⟨p, hp⟩ := hd.encodeRLP
    have hlen := length_serializes hd hp
    have henc := StoredAccount.encodeRLP_smartContract (x := false).mpr ⟨p, hp, rfl⟩
    have hu : unextendValue (2 :: d) = 2 :: p := by
      rw [unextendValue, StoredAccount.unextend_of_decodeBytes hok, henc, Option.getD_some]
    rw [hu]
    simp only [List.length_cons]
    exact ⟨.inr ⟨by omega, by omega⟩, by omega⟩
  · have hu : unextendValue v = v := by
      rw [unextendValue, StoredAccount.unextend_of_ne fun sca h => hsca ⟨sca, h⟩, Option.getD_some]
    exact ⟨.inl hu, by rw [hu]⟩

theorem unextendValue_of_length {v : Bytes} (h : v.length < 33 ∨ (unextendValue v).length < 33) :
    unextendValue v = v := by
  obtain ⟨heq | ⟨h₁, h₂⟩, -⟩ := unextendValue_cases v
  · exact heq
  · omega

/-! ## Trees of values -/

abbrev ValueTree := Tree Nibble Bytes

/-- The values of a tree have a property. -/
def Holds (p : Bytes → Prop) (t : ValueTree) : Prop := ∀ k v, t.get k = some v → p v

variable {p : Bytes → Prop} {t : ValueTree} {c : Nibble → ValueTree}

theorem Holds.short (h : Holds p (.short key t)) : Holds p t := fun k v hv =>
  h (key ++ k) v (by simpa using hv)

theorem Holds.full (h : Holds p (.full c)) (i : Nibble) : Holds p (c i) := fun k v hv =>
  h (i :: k) v hv

theorem Holds.leaf {v : Bytes} (h : Holds p (.short key (.value v))) : p v :=
  h key v (Tree.short_get_eq_some.mpr ⟨[], by simp, rfl⟩)

theorem compactToHex_key (h : Tree.IsKey 16 key) : compactToHex (hexToCompact key) = key := by
  obtain ⟨w, hw, rfl⟩ := h.exists_word
  exact compactToHex_hexToCompact hw true

theorem compactToHex_word (h : 16 ∉ key) :
    compactToHex (hexToCompact key) = key := compactToHex_hexToCompact h false

/-- No two of the given inputs have one hash, and none has a hash that stands for an empty
trie. -/
structure CollisionFree (keccak : Bytes → Hash) (L : Set Bytes) : Prop where
  inj : ∀ a ∈ L, ∀ b ∈ L, keccak a = keccak b → a = b
  ne_emptyRoot : ∀ a ∈ L, keccak a ≠ emptyRoot
  ne_zero : ∀ a ∈ L, keccak a ≠ 0

end Kaia.Storage
