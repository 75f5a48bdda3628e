import Kaia.Trie.Node

/-! # Values in the encoding of a node

Names and byte strings are read back wherever they are in front, and values in a row are counted.
-/

namespace Kaia.Storage

open Foundation Rlp List

/-! ## Hashes -/

theorem length_storedHash (h : ExtHash) :
    (storedHash h).length = if h.isZeroExtended then 32 else 39 := by
  unfold storedHash
  split <;> exact length_fixedBytes _ _

theorem length_storedHash_bounds (h : ExtHash) :
    ((storedHash h).length = 32 ∨ (storedHash h).length = 39) := by
  rw [length_storedHash]
  split
  · exact .inl rfl
  · exact .inr rfl

theorem ofNat_fixedBytes {w n : ℕ} (hw : w = 8 * n) (v : BitVec w) :
    BitVec.ofNat w (ofBytes (fixedBytes n v.toNat)) = v := by
  have h := (Codec.ofNat_ofBytes_eq_some hw (fixedBytes n v.toNat) v).mpr rfl
  rw [if_pos (length_fixedBytes n _)] at h
  exact Option.some.inj h

theorem bytesToExtHash_storedHash (h : ExtHash) : bytesToExtHash (storedHash h) = some h := by
  have hlen := length_storedHash h
  by_cases hz : h.isZeroExtended
  · rw [if_pos hz] at hlen
    rw [bytesToExtHash, if_pos (.inr hlen), storedHash, if_pos hz,
      ofNat_fixedBytes (show 256 = 8 * 32 from rfl)]
    obtain ⟨hash, counter⟩ := h
    simp only [ExtHash.isZeroExtended, beq_iff_eq] at hz
    subst hz
    rfl
  · rw [if_neg hz] at hlen
    rw [bytesToExtHash, if_neg (by omega), if_pos hlen, storedHash, if_neg hz,
      ofNat_fixedBytes (show 312 = 8 * 39 from rfl), ExtHash.ofBits_toBits]

/-! ## Values in front -/

def stringItem : Bytes → Item
  | [b] => if b.toNat < 0x80 then .byte b else .string [b]
  | payload => .string payload

theorem toString_eq (b : Bytes) : Codec.toString b = some (stringItem b) := by
  rcases b with _ | ⟨x, _ | ⟨y, r⟩⟩
  · rfl
  · simp only [Codec.toString, stringItem]
    split <;> rfl
  · rfl

variable {b payload : Bytes}

theorem stringItem_of_length (h : b.length ≠ 1) : stringItem b = .string b := by
  rcases b with _ | ⟨x, _ | ⟨y, r⟩⟩
  · rfl
  · exact absurd rfl h
  · rfl

theorem splitRaw_writeBytes (h : b.length < 2 ^ 64) (rest : Bytes) :
    splitRaw (writeBytes b ++ rest) = some (stringItem b, rest) := by
  have henc := encode_bytes_eq h
  rw [Codec.bytes, Codec.encode_refine, toString_eq, Option.bind_some] at henc
  have hsplit := split_join henc rest
  rw [splitRaw, hsplit]
  rcases b with _ | ⟨x, _ | ⟨y, r⟩⟩
  · rfl
  · by_cases hx : x.toNat < 0x80 <;> simp [stringItem, hx]
  · rfl

theorem splitRaw_writeList (h : payload.length < 2 ^ 64) (rest : Bytes) :
    splitRaw (writeList payload ++ rest) = some (.list payload, rest) := by
  rw [splitRaw, split_writeList h]

/-- The bytes hold one value, whatever follows. -/
def OneValue (e : Bytes) : Prop :=
  0 < e.length ∧ ∃ i, ∀ rest, splitRaw (e ++ rest) = some (i, rest)

theorem oneValue_writeBytes (h : b.length < 2 ^ 64) : OneValue (writeBytes b) :=
  ⟨length_pos_of_ne_nil (writeBytes_ne_nil h), _, splitRaw_writeBytes h⟩

theorem countValues_flatten (es : List Bytes) (hes : ∀ e ∈ es, OneValue e) (fuel : ℕ)
    (hfuel : es.flatten.length ≤ fuel) : countValues fuel es.flatten = some es.length := by
  induction es generalizing fuel with
  | nil => cases fuel <;> rfl
  | cons e es ih =>
    obtain ⟨hpos, i, hi⟩ := hes e mem_cons_self
    rw [flatten_cons, length_append] at hfuel
    cases fuel with
    | zero => omega
    | succ fuel =>
      have hrest := ih (fun e he => hes e (mem_cons_of_mem _ he)) fuel (by omega)
      cases e with
      | nil => simp at hpos
      | cons b e =>
        rw [flatten_cons, cons_append, countValues, ← cons_append, hi]
        simp [hrest]

/-! ## Nodes -/

namespace RawNode

theorem full_payload (c : Fin 17 → RawNode) :
    ((finRange 17).flatMap fun i => (c i).encode) =
      (((finRange 16).map fun i => (c i.castSucc).encode).flatten ++ (c 16).encode) := by
  rw [finRange_succ_last, flatMap_append, flatMap_map, ← flatMap_def]
  simp

theorem castSucc_ne_term (i : Fin 16) : (i.castSucc : Nibble) ≠ 16 := by
  have := i.isLt
  intro h
  have := congrArg Fin.val h
  simp at this
  omega

def IsNode : RawNode → Prop
  | short _ _ => True
  | full _ => True
  | _ => False

end RawNode

end Kaia.Storage
