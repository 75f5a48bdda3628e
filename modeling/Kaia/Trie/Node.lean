import Mathlib
import Kaia.Account.Format

/-! # Nodes of the trie and their encodings

Keys are used as nibbles with a terminator, and stored two nibbles to a byte behind a flag.
A stored node refers to another one by its hash, or holds it when its encoding is shorter
than a hash.
-/

namespace Kaia.Storage

open Foundation Rlp List

/-! ## Keys -/

abbrev Nibble := Fin 17

/-- One proof for all literals. -/
instance : NeZero 17 := inferInstance

def highNibble (b : UInt8) : Nibble := Fin.ofNat 17 (b.toNat / 16)

def lowNibble (b : UInt8) : Nibble := Fin.ofNat 17 (b.toNat % 16)

variable (str : Bytes)

def nibbles : List Nibble := str.flatMap fun b => [highNibble b, lowNibble b]

def keybytesToHex : List Nibble := nibbles str ++ [16]

def hasTerm (s : List Nibble) : Bool := s.getLast? == some 16

def pack (a b : Nibble) : UInt8 := UInt8.ofNat a.val <<< 4 ||| UInt8.ofNat b.val

def decodeNibbles : List Nibble → Bytes
  | a :: b :: r => pack a b :: decodeNibbles r
  | _ => []

variable (embedded : Bytes → Option Node) (term : Bool)

def keyFlag : UInt8 := if term then 0x20 else 0

def oddFlag : UInt8 := 0x10

def packKey (hex : List Nibble) : Bytes :=
  match hex with
  | a :: r =>
    if hex.length % 2 = 1 then (keyFlag term ||| oddFlag ||| UInt8.ofNat a.val) :: decodeNibbles r
    else keyFlag term :: decodeNibbles hex
  | [] => [keyFlag term]

def hexToCompact (hex : List Nibble) : Bytes :=
  packKey (hasTerm hex) (if hasTerm hex then hex.dropLast else hex)

def compactToHex : Bytes → List Nibble
  | [] => []
  | f :: r =>
    let base := nibbles (f :: r)
    let base := if 2 ≤ highNibble f then base ++ [16] else base
    base.drop (2 - (highNibble f).val % 2)

variable {a : Nibble} {w r : List Nibble}

theorem pack_nibbles {b : Nibble} (ha : a ≠ 16) (hb : b ≠ 16) :
    highNibble (pack a b) = a ∧ lowNibble (pack a b) = b := by
  revert a b
  decide +kernel

theorem nibbles_decodeNibbles (hw : 16 ∉ w) (heven : w.length % 2 = 0) :
    nibbles (decodeNibbles w) = w := by
  induction w using decodeNibbles.induct with
  | case1 a b r ih =>
    simp only [mem_cons, not_or] at hw
    obtain ⟨ha, hb, hr⟩ := hw
    have hpack := pack_nibbles (Ne.symm ha) (Ne.symm hb)
    rw [decodeNibbles, nibbles, flatMap_cons, hpack.1, hpack.2]
    exact congrArg (fun l => a :: b :: l) (ih hr (by simp at heven; omega))
  | case2 w hne =>
    rcases w with _ | ⟨a, _ | ⟨b, r⟩⟩
    · rfl
    · simp at heven
    · exact absurd rfl (hne a b r)

theorem highNibble_flag : highNibble (keyFlag term) = if term then 2 else 0 := by
  revert term
  decide

theorem nibbles_flag (ha : a ≠ 16) :
    highNibble (keyFlag term ||| oddFlag ||| UInt8.ofNat a.val) = (if term then 3 else 1) ∧
      lowNibble (keyFlag term ||| oddFlag ||| UInt8.ofNat a.val) = a := by
  revert term a
  decide +kernel

def withTerm (w : List Nibble) : List Nibble := if term then w ++ [16] else w

theorem hasTerm_withTerm (hw : 16 ∉ w) (term : Bool) : hasTerm (withTerm term w) = term := by
  cases term with
  | true => simp [hasTerm, withTerm]
  | false =>
    simp only [hasTerm, withTerm, Bool.false_eq_true, if_false, beq_eq_false_iff_ne, ne_eq]
    intro h
    exact hw (mem_of_getLast? h)

theorem hexToCompact_withTerm (hw : 16 ∉ w) (term : Bool) :
    hexToCompact (withTerm term w) = packKey term w := by
  rw [hexToCompact, hasTerm_withTerm hw]
  cases term <;> simp [withTerm]

theorem packKey_odd (term : Bool) (h : r.length % 2 = 0) :
    packKey term (a :: r) = (keyFlag term ||| oddFlag ||| UInt8.ofNat a.val) :: decodeNibbles r :=
  if_pos (by rw [length_cons]; omega)

theorem packKey_even (term : Bool) (h : r.length % 2 = 1) :
    packKey term (a :: r) = keyFlag term :: decodeNibbles (a :: r) :=
  if_neg (by rw [length_cons]; omega)

theorem compactToHex_hexToCompact (hw : 16 ∉ w) (term : Bool) :
    compactToHex (hexToCompact (withTerm term w)) = withTerm term w := by
  rw [hexToCompact_withTerm hw]
  cases w with
  | nil => cases term <;> decide
  | cons a r =>
    simp only [mem_cons, not_or] at hw
    obtain heven | hodd := Nat.mod_two_eq_zero_or_one r.length
    · obtain ⟨hhigh, hlow⟩ := nibbles_flag term (Ne.symm hw.1)
      rw [packKey_odd term heven, compactToHex, nibbles, flatMap_cons, hhigh, hlow, ← nibbles,
        nibbles_decodeNibbles hw.2 heven]
      cases term <;> simp [withTerm]
    · rw [packKey_even term hodd, compactToHex, nibbles, flatMap_cons, highNibble_flag,
        ← nibbles, nibbles_decodeNibbles (by simp [hw.1, hw.2]) (by simp; omega)]
      cases term <;> simp [withTerm]

theorem hexToCompact_inj {w' : List Nibble} (hw : 16 ∉ w) (hw' : 16 ∉ w') {term term' : Bool}
    (h : hexToCompact (withTerm term w) = hexToCompact (withTerm term' w')) :
    withTerm term w = withTerm term' w' := by
  rw [← compactToHex_hexToCompact hw, h, compactToHex_hexToCompact hw']

theorem nibble_ne_term (b : UInt8) : highNibble b ≠ 16 ∧ lowNibble b ≠ 16 := by
  have hb := b.toNat_lt
  simp only [highNibble, lowNibble, ne_eq, Fin.ext_iff, Fin.val_ofNat]
  have h16 : ((16 : Nibble) : ℕ) = 16 := rfl
  omega

theorem term_notMem_nibbles : 16 ∉ nibbles str := by
  simp only [nibbles, mem_flatMap, not_exists, not_and]
  rintro b -
  simp [Ne.symm (nibble_ne_term b).1, Ne.symm (nibble_ne_term b).2]

theorem length_nibbles : (nibbles str).length = 2 * str.length := by
  induction str with
  | nil => rfl
  | cons b str ih =>
    rw [nibbles, flatMap_cons, ← nibbles, length_append, ih, length_cons]
    simp
    omega

/-! ## Nodes -/

/-- A node as the database keeps it: keys in stored form, no flags. -/
inductive RawNode
  | nil
  | value (v : Bytes)
  | hash (h : ExtHash)
  | short (key : Bytes) (val : RawNode)
  | full (children : Fin 17 → RawNode)

/-- What is cached about a node. -/
structure NodeFlag where
  hash : Option ExtHash := none
  dirty : Bool := false
  lenEncoded : ℕ := 0

/-- A node of a trie that is in use. -/
inductive Node
  | nil
  | value (v : Bytes)
  | hash (h : ExtHash)
  | short (key : List Nibble) (val : Node) (flags : NodeFlag)
  | full (children : Fin 17 → Node) (flags : NodeFlag)

def storedHash (h : ExtHash) : Bytes :=
  if h.isZeroExtended then fixedBytes 32 h.unextend.toNat else fixedBytes 39 h.toBits.toNat

def bytesToExtHash (b : Bytes) : Option ExtHash :=
  if b.length = 0 ∨ b.length = 32 then some (.extendZero (BitVec.ofNat 256 (ofBytes b)))
  else if b.length = 39 then some (.ofBits (BitVec.ofNat 312 (ofBytes b)))
  else none

namespace RawNode

def encode : RawNode → Bytes
  | nil => [0x80]
  | value v => writeBytes v
  | hash h => writeBytes (storedHash h)
  | short key val => writeList (writeBytes key ++ val.encode)
  | full c => writeList ((List.finRange 17).flatMap fun i => (c i).encode)

def expandNode : Option ExtHash → RawNode → Node
  | _, nil => .nil
  | _, value v => .value v
  | _, hash h => .hash h
  | flag, short key val => .short (compactToHex key) (expandNode none val) { hash := flag }
  | flag, full c => .full (fun i => expandNode none (c i)) { hash := flag }

end RawNode

/-! ## Decoding -/

/-- `Split`: a small byte must not be written as a string. -/
def splitRaw (b : Bytes) : Option (Item × Bytes) :=
  match split b with
  | some (.string [x], rest) => if x.toNat < 0x80 then none else some (.string [x], rest)
  | r => r

def countValues : ℕ → Bytes → Option ℕ
  | _, [] => some 0
  | 0, _ :: _ => none
  | fuel + 1, x :: b => do
    let (_, rest) ← splitRaw (x :: b)
    let n ← countValues fuel rest
    return n + 1

/-- Read a reference to a node, with the given decoder for a node in its place. -/
def decodeRef (buf : Bytes) : Option (Node × Bytes) := do
  let (item, rest) ← splitRaw buf
  match item with
  | .list _ =>
    if 32 < buf.length - rest.length then none
    else
      let n ← embedded buf
      return (n, rest)
  | .string [] => return (.nil, rest)
  | .string val =>
    if val.length = 32 ∨ val.length = 39 then
      let h ← bytesToExtHash val
      return (.hash h, rest)
    else none
  | .byte _ => none

def decodeShort (flag : Option ExtHash) (elems : Bytes) :
    Option Node := do
  let (kbuf, rest) ← Codec.bytes.decode elems
  let key := compactToHex kbuf
  if hasTerm key then
    let (val, _) ← Codec.bytes.decode rest
    return .short key (.value val) { hash := flag }
  else
    let (r, _) ← decodeRef embedded rest
    return .short key r { hash := flag }

def decodeRefs (embedded : Bytes → Option Node) : ℕ → Bytes → Option (List Node × Bytes)
  | 0, elems => some ([], elems)
  | n + 1, elems => do
    let (cld, rest) ← decodeRef embedded elems
    let (clds, rest) ← decodeRefs embedded n rest
    return (cld :: clds, rest)

def decodeFull (flag : Option ExtHash) (elems : Bytes) :
    Option Node := do
  let (clds, rest) ← decodeRefs embedded 16 elems
  let (val, _) ← Codec.bytes.decode rest
  let last := if val = [] then .nil else .value val
  return .full (fun i => (clds ++ [last]).getD i .nil) { hash := flag }

/-- The fuel bounds how deep nodes are held in each other. -/
def decodeNode : ℕ → Option ExtHash → Bytes → Option Node
  | 0, _, _ => none
  | fuel + 1, flag, buf =>
    match split buf with
    | some (.list elems, _) =>
      match (countValues elems.length elems).getD 0 with
      | 2 => decodeShort (decodeNode fuel none) flag elems
      | 17 => decodeFull (decodeNode fuel none) flag elems
      | _ => none
    | _ => none

end Kaia.Storage
