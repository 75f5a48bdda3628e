import Mathlib
import Kaia.Backend.HeaderHash
import Kaia.Foundation.Maps
import Kaia.Governance.Faults
import Kaia.Governance.Json

/-! # Votes of the node

A node puts one vote that it has not cast yet into each header it proposes. The value comes from
JSON and gets the type of its key; RLP keeps no types, and every node reads it back by its key.
-/

namespace Kaia

open Foundation Foundation.Rlp List
open Codec hiding none

/-- A value of a request. -/
inductive JsonValue
  | text (t : Bytes)
  | number (q : ℚ)
  | bool (b : Bool)

def JsonValue.size : JsonValue → ℕ
  | .text t => t.length
  | .number _ | .bool _ => 0

/-- The arguments of `AddVote`. -/
structure VoteRequest where
  key : Bytes
  value : JsonValue
  key_size : key.length ≤ maxAlloc
  value_size : value.size ≤ maxAlloc

variable (t : Bytes) (lib : TextLib)

/-- Bytes that `strings.ToLower` keeps. -/
def Plain : Prop := ∀ c ∈ t, c < 128 ∧ ¬ (65 ≤ c ∧ c ≤ 90)

/-- Go functions on texts and numbers. What does not fit into a word is converted as the machine
does. -/
structure TextLib where
  toLower : Bytes → Bytes
  toUint64 : ℚ → UInt64
  toLower_plain : ∀ t, Plain t → toLower t = t
  length_toLower : ∀ t, (toLower t).length ≤ 3 * t.length

def trimBlanks : Bytes := (t.dropWhile (· = 32)).rdropWhile (· = 32)

def GovKey.nameBytes (k : GovKey) : Bytes := k.name.toUTF8.data.toList

def textString (b : Bytes) : Option String := String.fromUTF8? ⟨b.toArray⟩

def keyOf (b : Bytes) : Option GovKey := (textString b).bind governanceKeyMap

def trimmedAddress : Option Address :=
  if isHexAddress (trimBlanks t) then some (hexToAddress (trimBlanks t)) else none

def adjustAddress : VoteValue :=
  match t.splitOn 44 with
  | [] | [_] => ((trimmedAddress t).map .address).getD (.text t)
  | addresses => ((addresses.mapM trimmedAddress).map .addresses).getD (.text t)

namespace TextLib

def getKey (k : Bytes) : Bytes := trimBlanks (lib.toLower k)

/-- `adjustValueType`; an unknown key counts as the key with number zero. -/
def adjustValueType (key : Bytes) (val : JsonValue) : Option VoteValue :=
  match ((keyOf key).getD .governanceMode).type, val with
  | .uint64, .number q =>
    if (nearestFloat64 (lib.toUint64 q).toNat : ℚ) = q then some (.uint64 (lib.toUint64 q).toNat)
    else none
  | .uint64, .text t => some (.text t)
  | .address, .text t => some (adjustAddress t)
  | _, .text t => some (.text (lib.toLower t))
  | _, .number _ => none
  | _, .bool b => some (.bool b)

/-- The value that `ValidateVote` accepts. -/
def validate (key : Bytes) (val : JsonValue) : Option VoteValue :=
  let key := lib.getKey key
  (lib.adjustValueType key val).filter (checkValue ((keyOf key).getD .governanceMode))

end TextLib

abbrev VoteMap := AList fun _ : Bytes => VoteStatus

namespace VoteMap

variable (m : VoteMap)

def addVote (lib : TextLib) (r : VoteRequest) : Option VoteMap :=
  let key := lib.getKey r.key
  if (keyOf key).any GovKey.forbidden then none
  else (lib.validate key r.value).map fun v => m.insert key ⟨v, false, 0⟩

def removeVote (key : Bytes) (value : VoteValue) (number : ℕ) : VoteMap :=
  match m.lookup key with
  | none => m
  | some status =>
    if isEqualValue ((keyOf key).getD .governanceMode) status.value value then
      m.insert key ⟨value, true, number⟩
    else m

def clear : VoteMap where
  entries := m.entries.filter fun e => !e.2.casted
  nodupKeys := m.nodupKeys.sublist List.filter_sublist

end VoteMap

/-- What happens to the votes of a node. -/
inductive VoteEvent
  | add (r : VoteRequest)
  | remove (key : Bytes) (value : VoteValue) (number : ℕ)
  | clear

def VoteMap.step (m : VoteMap) : VoteEvent → VoteMap
  | .add r => (m.addVote lib r).getD m
  | .remove key value number => m.removeVote key value number
  | .clear => m.clear

def VoteMap.after (es : List VoteEvent) : VoteMap := es.foldl (step lib) ∅

/-- The encoding of a value by its type. Other types have none. -/
def VoteValue.encode : VoteValue → Option Bytes
  | .text t => Codec.bytes.encode t
  | .address a => addressFormat.encode a
  | .addresses as => (addressFormat.listOf addressFormat_ne_nil).encode as
  | .uint64 n => (Codec.uint 8).encode n
  | .bool b => Codec.bool.encode b
  | .float64 _ | .texts _ => none

/-- `rlp.EncodeToBytes` of a vote. -/
def encodeVote (validator : Address) (key : Bytes) (value : VoteValue) : Option Bytes := do
  let v ← addressFormat.encode validator
  let k ← Codec.bytes.encode key
  let x ← value.encode
  join (.list (v ++ (k ++ x)))

def VoteMap.getEncodedVote (order : MapOrder Bytes VoteStatus) (m : VoteMap) (addr : Address) :
    Option Bytes :=
  (order.visit m.entries).findSome? fun e =>
    if e.2.casted then none else encodeVote addr e.1 e.2.value

/-- The RLP decoder for an empty interface, with a bound on the depth. -/
def decodeInterface : ℕ → Bytes → Option (RlpItem × Bytes)
  | 0, _ => none
  | n + 1, b =>
    match split b with
    | none => none
    | some (.list payload, rest) =>
      (Codec.decodeMany (decodeInterface n) payload.length payload).map (.list ·, rest)
    | some (i, rest) => (Codec.ofString i).map (.bytes ·, rest)

/-- `rlp.DecodeBytes` of a vote. A value is not deeper than it is long. -/
def decodeVote (b : Bytes) : Option RawVote :=
  match split b with
  | some (.list payload, []) => do
    let (validator, rest) ← addressFormat.decode payload
    let (key, rest) ← Codec.bytes.decode rest
    let (value, rest) ← decodeInterface (rest.length + 2) rest
    if rest = [] then (textString key).map (⟨validator, ·, value⟩) else none
  | _ => none

/-- What a node makes of the vote in a header: decoded, parsed and validated. -/
def receiveVote (b : Bytes) : Except GoPanic (Option GovernanceVote) :=
  match decodeVote b with
  | none => .ok none
  | some raw => do
    match ← parseVoteValue raw with
    | .error _ => .ok none
    | .ok vote => .ok (validateVote lib.toLower vote)

variable {lib : TextLib} {b : Bytes} {k : GovKey}

theorem textString_toUTF8 (s : String) : textString s.toUTF8.data.toList = some s := by
  exact dif_pos s.isValidUTF8

theorem textString_eq_some {s : String} (h : textString b = some s) : b = s.toUTF8.data.toList := by
  unfold textString String.fromUTF8? at h
  split at h
  · cases h
    exact (toList_toArray).symm
  · cases h

theorem keyOf_eq_some : keyOf b = some k ↔ b = k.nameBytes := by
  constructor
  · intro h
    obtain ⟨s, hs, hk⟩ := Option.bind_eq_some_iff.mp h
    rw [governanceKeyMap_eq_some] at hk
    rw [textString_eq_some hs, hk]
    rfl
  · rintro rfl
    rw [keyOf, GovKey.nameBytes, textString_toUTF8, Option.bind_some, governanceKeyMap_name]

theorem nameBytes_plain (k : GovKey) : ∀ c ∈ k.nameBytes, (c < 128 ∧ ¬ (65 ≤ c ∧ c ≤ 90)) ∧ c ≠ 32 := by
  have hall : ∀ k ∈ GovKey.all,
      ∀ c ∈ k.nameBytes, (c < 128 ∧ ¬ (65 ≤ c ∧ c ≤ 90)) ∧ c ≠ 32 := by decide +kernel
  exact hall k k.mem_all

theorem dropWhile_blank {t : Bytes} (h : ∀ c ∈ t, c ≠ 32) : t.dropWhile (· = 32) = t := by
  cases t with
  | nil => rfl
  | cons c t =>
    simpa using h c mem_cons_self

theorem trimBlanks_eq {t : Bytes} (h : ∀ c ∈ t, c ≠ 32) : trimBlanks t = t := by
  rw [trimBlanks, dropWhile_blank h, rdropWhile, dropWhile_blank, reverse_reverse]
  intro c hc
  exact h c (mem_reverse.mp hc)

theorem length_trimBlanks_le (t : Bytes) : (trimBlanks t).length ≤ t.length := by
  have hdrop : ∀ t : Bytes, (t.dropWhile (· = 32)).length ≤ t.length := fun t =>
    (dropWhile_suffix _).length_le
  unfold trimBlanks
  rw [rdropWhile, length_reverse]
  have h₁ := hdrop (t.dropWhile (· = 32)).reverse
  have h₂ := hdrop t
  rw [length_reverse] at h₁
  omega

variable (lib) in
theorem getKey_nameBytes (k : GovKey) : lib.getKey k.nameBytes = k.nameBytes := by
  rw [TextLib.getKey, lib.toLower_plain _ fun c hc => (nameBytes_plain k c hc).1,
    trimBlanks_eq fun c hc => (nameBytes_plain k c hc).2]

variable {t : Bytes} {v : VoteValue}

theorem plain_of_digits (h : ∀ c ∈ t, c = 43 ∨ c = 45 ∨ c = 47 ∨ isDigit c = true) : Plain t := by
  intro c hc
  obtain rfl | rfl | rfl | hdigit := h c hc
  · decide
  · decide
  · decide
  · simp only [isDigit, decide_eq_true_eq, UInt8.le_iff_toNat_le] at hdigit
    simp only [UInt8.lt_iff_toNat_lt, UInt8.le_iff_toNat_le]
    have h₁ : (57 : UInt8).toNat = 57 := rfl
    have h₂ : (65 : UInt8).toNat = 65 := rfl
    have h₃ : (128 : UInt8).toNat = 128 := rfl
    omega

theorem plain_of_checkBigInt (h : checkBigInt t = true) : Plain t := by
  apply plain_of_digits
  unfold checkBigInt at h
  split at h
  · next digits =>
    obtain ⟨-, hall⟩ := of_decide_eq_true h
    intro c hc
    rcases mem_cons.mp hc with rfl | hc
    · exact .inl rfl
    · exact .inr (.inr (.inr (all_eq_true.mp hall c hc)))
  · next digits =>
    obtain ⟨-, hall, -⟩ := of_decide_eq_true h
    intro c hc
    rcases mem_cons.mp hc with rfl | hc
    · exact .inr (.inl rfl)
    · exact .inr (.inr (.inr (all_eq_true.mp hall c hc)))
  · obtain ⟨-, hall⟩ := of_decide_eq_true h
    intro c hc
    exact .inr (.inr (.inr (all_eq_true.mp hall c hc)))

variable {α : Type} {x c : α}

theorem intercalate_cons (x : α) (p q : List α) (ls : List (List α)) :
    [x].intercalate (p :: q :: ls) = p ++ x :: [x].intercalate (q :: ls) := by
  simp [intercalate]

theorem mem_intercalate {ls : List (List α)} (h : c ∈ [x].intercalate ls) :
    c = x ∨ ∃ p ∈ ls, c ∈ p := by
  induction ls with
  | nil => simp at h
  | cons p ls ih =>
    cases ls with
    | nil => exact .inr ⟨p, mem_cons_self, by simpa [intercalate] using h⟩
    | cons q ls =>
      rw [intercalate_cons, mem_append, mem_cons] at h
      rcases h with hp | rfl | hrest
      · exact .inr ⟨p, mem_cons_self, hp⟩
      · exact .inl rfl
      · exact (ih hrest).imp_right fun ⟨r, hr, hc⟩ => ⟨r, mem_cons_of_mem p hr, hc⟩

theorem length_le_intercalate (x : α) (ls : List (List α)) :
    ls.length ≤ ([x].intercalate ls).length + 1 := by
  induction ls with
  | nil => simp
  | cons p ls ih =>
    cases ls with
    | nil => simp
    | cons q ls =>
      rw [intercalate_cons]
      simp only [length_append, length_cons] at ih ⊢
      omega

theorem isDigit_of_parseUint {s : Bytes} {n : ℕ} (h : parseUint s = some n) :
    ∀ c ∈ s, isDigit c = true := by
  obtain ⟨⟨-, hall, -⟩, -⟩ := Option.ite_none_right_eq_some.mp h
  exact all_eq_true.mp hall

theorem exists_of_mapM_eq_some {α β : Type} {f : α → Option β} {as : List α} {bs : List β}
    (h : as.mapM f = some bs) : as.length = bs.length ∧ ∀ a ∈ as, ∃ b, f a = some b := by
  rw [mapM_eq_some] at h
  refine ⟨h.length_eq, ?_⟩
  induction h with
  | nil => exact nofun
  | cons hb _ ih => exact forall_mem_cons.mpr ⟨⟨_, hb⟩, ih⟩

theorem plain_of_checkShares {count : ℕ} (h : checkShares count t = true) : Plain t := by
  apply plain_of_digits
  unfold checkShares at h
  split at h
  · next shares hshares =>
    intro c hc
    have hparts : [47].intercalate (t.splitOn 47) = t := intercalate_splitOn 47
    rw [← hparts] at hc
    rcases mem_intercalate hc with rfl | ⟨part, hpart, hc⟩
    · exact .inr (.inr (.inl rfl))
    · obtain ⟨n, hn⟩ := (exists_of_mapM_eq_some hshares).2 part hpart
      exact .inr (.inr (.inr (isDigit_of_parseUint hn c hc)))
  · cases h

theorem plain_of_checkText (h : checkValue k (.text t) = true) : Plain t := by
  cases k
  case mintingAmount | minimumStake => exact plain_of_checkBigInt h
  case ratio | kip82Ratio => exact plain_of_checkShares h
  case governanceMode =>
    have hall : ∀ t ∈ governanceModeMap, ∀ c ∈ t, c < 128 ∧ ¬ (65 ≤ c ∧ c ≤ 90) := by
      decide +kernel
    exact hall t (of_decide_eq_true h)
  all_goals cases h

def VoteValue.Fits : VoteValue → Prop
  | .text t => t.length ≤ 3 * maxAlloc
  | .addresses as => as ≠ [] ∧ as.length ≤ maxAlloc + 1
  | .uint64 n => n < 2 ^ 64
  | .address _ | .bool _ => True
  | .float64 _ | .texts _ => False

theorem adjustAddress_fits (h : t.length ≤ maxAlloc) : (adjustAddress t).Fits := by
  have htext : (VoteValue.text t).Fits := h.trans (Nat.le_mul_of_pos_left _ (by norm_num))
  have hlen := length_le_intercalate 44 (t.splitOn 44)
  rw [intercalate_splitOn] at hlen
  have hsingle : ∀ o : Option Address, ((o.map .address).getD (.text t) : VoteValue).Fits := by
    intro o
    cases o with
    | none => exact htext
    | some a => trivial
  unfold adjustAddress
  split
  · exact hsingle _
  · exact hsingle _
  · next hnone hone =>
    cases hm : (t.splitOn 44).mapM trimmedAddress with
    | none => exact htext
    | some as =>
      have has := (exists_of_mapM_eq_some hm).1
      refine ⟨?_, by omega⟩
      rintro rfl
      exact hnone (length_eq_zero_iff.mp has)

theorem validate_fits {key : Bytes} {val : JsonValue} (hval : val.size ≤ maxAlloc)
    (h : lib.validate key val = some v) : v.Fits := by
  obtain ⟨h, -⟩ := Option.filter_eq_some_iff.mp h
  unfold TextLib.adjustValueType at h
  split at h
  · obtain ⟨-, heq⟩ := Option.ite_none_right_eq_some.mp h
    cases heq
    exact UInt64.toNat_lt _
  · cases h
    exact hval.trans (Nat.le_mul_of_pos_left _ (by norm_num))
  · cases h
    exact adjustAddress_fits hval
  · cases h
    exact (lib.length_toLower _).trans (Nat.mul_le_mul_left 3 hval)
  · cases h
  · cases h
    trivial

theorem encode_of_fits (h : v.Fits) : ∃ e, v.encode = some e ∧ e.length ≤ 40 * maxAlloc := by
  have hmax : maxAlloc = 281474976710656 := rfl
  cases v with
  | text t =>
    have hlen : t.length ≤ 3 * maxAlloc := h
    exact (sized_bytes (b := t) (by omega)).mono (by omega)
  | address a => exact (sized_address a).mono (by omega)
  | addresses as =>
    obtain ⟨-, hlen⟩ := h
    have hsized : (addressFormat.listOf addressFormat_ne_nil).Sized as
        (as.length * 29 + 9) :=
      Codec.Sized.listOf (fun a _ => sized_address a) (by omega)
    exact hsized.mono (by omega)
  | uint64 n =>
    have hlt : n < 256 ^ 8 := h
    exact (sized_uint le_rfl hlt).mono (by omega)
  | bool b => exact (sized_bool b).mono (by omega)
  | float64 _ | texts _ => cases h

variable {e rest key : Bytes} {addr : Address} {n : ℕ}

/-- What the decoder makes of an encoded value. -/
def VoteValue.item : VoteValue → RlpItem
  | .text t => .bytes t
  | .address a => .bytes (fixedBytes 20 a.toNat)
  | .addresses as => .list (as.map fun a => .bytes (fixedBytes 20 a.toNat))
  | .uint64 n => .bytes (toBytes n)
  | .bool b => .bytes (if b then [1] else [])
  | .float64 _ | .texts _ => .bytes []

theorem decodeInterface_bytes {t : Bytes} (h : bytes.encode t = some e) (rest : Bytes) :
    decodeInterface (n + 1) (e ++ rest) = some (.bytes t, rest) := by
  obtain ⟨i, hi, he⟩ := Option.bind_eq_some_iff.mp h
  have hstring := (ofString_eq_some i t).mpr hi
  rw [decodeInterface, split_join he rest]
  cases i with
  | list payload => cases hstring
  | byte | string =>
    dsimp only
    rw [hstring]
    rfl

theorem encode_address (a : Address) :
    addressFormat.encode a = bytes.encode (fixedBytes 20 a.toNat) := by
  rw [addressFormat, array, encode_refine, Option.bind_some]

theorem bytes_of_uint {k : ℕ} (h : (uint n).encode k = some e) :
    bytes.encode (toBytes k) = some e := by
  rw [encode_uint] at h
  exact (Option.ite_none_right_eq_some.mp h).2

theorem decodeInterface_encode (h : v.encode = some e) (rest : Bytes) :
    decodeInterface (n + 2) (e ++ rest) = some (v.item, rest) := by
  cases v with
  | text t => exact decodeInterface_bytes (t := t) h rest
  | address a =>
    rw [VoteValue.encode, encode_address] at h
    exact decodeInterface_bytes h rest
  | addresses as =>
    obtain ⟨payload, hpayload, hjoin⟩ := Option.bind_eq_some_iff.mp h
    rw [decodeInterface, split_join hjoin rest]
    dsimp only
    have hmany : decodeMany (decodeInterface (n + 1)) payload.length payload =
        some (as.map fun a => RlpItem.bytes (fixedBytes 20 a.toNat)) :=
      decodeMany_map addressFormat_ne_nil
        (fun a _ e rest he => decodeInterface_bytes ((encode_address a).symm.trans he) rest) hpayload
        le_rfl
    rw [hmany]
    rfl
  | uint64 k =>
    have hk : (uint 8).encode k = some e := h
    exact decodeInterface_bytes (bytes_of_uint hk) rest
  | bool b =>
    have hb : (uint 1).encode (if b then 1 else 0) = some e := h
    rw [decodeInterface_bytes (bytes_of_uint hb) rest]
    cases b <;> rfl
  | float64 _ | texts _ => cases h

theorem decodeVote_encodeVote (h : encodeVote addr key v = some b) :
    decodeVote b = (textString key).map (⟨addr, ·, v.item⟩) := by
  unfold encodeVote at h
  simp only [bind, Option.bind_eq_some_iff] at h
  obtain ⟨e₁, h₁, e₂, h₂, e₃, h₃, h⟩ := h
  have hsplit := split_join h []
  have h₁' : addressFormat.decode (e₁ ++ (e₂ ++ e₃)) = some (addr, e₂ ++ e₃) :=
    addressFormat.decode_encode (total_array 160 20 rfl addr) h₁ _
  have h₂' : bytes.decode (e₂ ++ e₃) = some (key, e₃) :=
    bytes.decode_encode (total_bytes key) h₂ _
  have h₃' := decodeInterface_encode (n := e₃.length) h₃ []
  rw [append_nil] at hsplit h₃'
  rw [decodeVote, hsplit]
  simp only [bind, h₁', h₂', h₃', Option.bind_some, if_true]

theorem bigEndian_eq_ofBytes (b : Bytes) : bigEndian b = ofBytes b := by
  induction b using reverseRecOn with
  | nil => rfl
  | append_singleton b x ih =>
    rw [bigEndian, foldl_append, ofBytes_append_singleton, ← ih]
    show bigEndian b * 256 + x.toNat = _
    omega

theorem bytesToAddress_fixedBytes (a : Address) : bytesToAddress (fixedBytes 20 a.toNat) = a := by
  rw [bytesToAddress, bigEndian_eq_ofBytes, ofBytes_fixedBytes, BitVec.ofNat_toNat,
    BitVec.setWidth_eq]
  exact a.isLt

theorem parseVoteValue_item (hv : v.Fits) (hcheck : checkValue k v = true) :
    parseVoteValue ⟨addr, k.name, v.item⟩ = .ok (.ok ⟨addr, k, v⟩) := by
  unfold parseVoteValue
  rw [governanceKeyMap_name]
  cases v with
  | text t =>
    have htype : k.type = .string := by cases k <;> first | rfl | cases hcheck
    simp only [htype, VoteValue.item]
  | address a =>
    have htype : k.type = .address := by cases k <;> first | rfl | cases hcheck
    simp only [htype, VoteValue.item, bytesToAddress_fixedBytes]
  | addresses as =>
    have hkey : k = .addValidator ∨ k = .removeValidator := by
      cases k <;> first | exact .inl rfl | exact .inr rfl | cases hcheck
    have htype : k.type = .address := by rcases hkey with rfl | rfl <;> rfl
    have hne : as.map (fun a => RlpItem.bytes (fixedBytes 20 a.toNat)) ≠ [] := by
      simpa using hv.1
    have hmap : (as.map fun a => RlpItem.bytes (fixedBytes 20 a.toNat)).mapM RlpItem.toAddress =
        some as := by
      rw [mapM_eq_some, forall₂_map_left_iff, forall₂_same]
      intro a _
      rw [RlpItem.toAddress, length_fixedBytes, bytesToAddress_fixedBytes]
      rfl
    simp only [htype, VoteValue.item, if_pos hkey, if_neg hne, hmap]
  | uint64 n =>
    have htype : k.type = .uint64 := by cases k <;> first | rfl | cases hcheck
    have hpad : paddedUint64 (toBytes n) = .ok n := by
      rw [paddedUint64, if_neg (Nat.not_lt.mpr (length_toBytes_le_iff.mpr hv)),
        bigEndian_eq_ofBytes, ofBytes_toBytes]
    simp only [htype, VoteValue.item, hpad, bind, Except.bind]
  | bool x =>
    have htype : k.type = .bool := by cases k <;> first | rfl | cases hcheck
    simp only [htype, VoteValue.item]
    cases x <;> rfl
  | float64 _ | texts _ => cases hv

theorem receiveVote_of_known (hv : v.Fits) (hcheck : checkValue k v = true)
    (h : encodeVote addr k.nameBytes v = some b) : receiveVote lib b = .ok (some ⟨addr, k, v⟩) := by
  have hdec := decodeVote_encodeVote h
  rw [GovKey.nameBytes, textString_toUTF8, Option.map_some] at hdec
  have hvalid : validateVote lib.toLower ⟨addr, k, v⟩ = some ⟨addr, k, v⟩ := by
    unfold validateVote
    cases v with
    | text t =>
      dsimp only
      rw [lib.toLower_plain t (plain_of_checkText hcheck), if_pos hcheck]
    | _ => exact if_pos hcheck
  simp only [receiveVote, hdec, parseVoteValue_item hv hcheck, bind, Except.bind, hvalid]

theorem receiveVote_of_unknown (hkey : keyOf key = none) (h : encodeVote addr key v = some b) :
    receiveVote lib b = .ok none := by
  have hdec := decodeVote_encodeVote h
  cases htext : textString key with
  | none =>
    rw [htext, Option.map_none] at hdec
    rw [receiveVote, hdec]
  | some s =>
    rw [htext, Option.map_some] at hdec
    rw [keyOf, htext, Option.bind_some] at hkey
    simp only [receiveVote, hdec, parseVoteValue, hkey, bind, Except.bind]

variable {m : VoteMap}

/-- A value that `AddVote` has accepted under the key. -/
def TextLib.Accepts (lib : TextLib) (key : Bytes) (v : VoteValue) : Prop :=
  ∃ r : VoteRequest, key = lib.getKey r.key ∧ lib.validate key r.value = some v

namespace VoteMap

/-- Every vote that has not been cast was accepted. -/
def Inv (lib : TextLib) (m : VoteMap) : Prop :=
  ∀ key status, m.lookup key = some status → status.casted = false → lib.Accepts key status.value

variable {r : VoteRequest} {m' : VoteMap}

theorem addVote_eq_some (h : m.addVote lib r = some m') :
    ∃ v, lib.Accepts (lib.getKey r.key) v ∧ m' = m.insert (lib.getKey r.key) ⟨v, false, 0⟩ := by
  unfold addVote at h
  dsimp only at h
  split at h
  · cases h
  · obtain ⟨v, hv, rfl⟩ := Option.map_eq_some_iff.mp h
    exact ⟨v, ⟨r, rfl, hv⟩, rfl⟩

theorem Inv.insert {status : VoteStatus} (hm : m.Inv lib)
    (h : status.casted = false → lib.Accepts key status.value) :
    Inv lib (AList.insert key status m) := by
  intro key' status' hlookup hcasted
  by_cases hkey : key' = key
  · subst hkey
    rw [AList.lookup_insert] at hlookup
    cases hlookup
    exact h hcasted
  · rw [AList.lookup_insert_ne hkey] at hlookup
    exact hm key' status' hlookup hcasted

theorem Inv.addVote (hm : m.Inv lib) (h : m.addVote lib r = some m') : m'.Inv lib := by
  obtain ⟨v, hv, rfl⟩ := addVote_eq_some h
  exact hm.insert fun _ => hv

theorem Inv.step (hm : m.Inv lib) (e : VoteEvent) : (m.step lib e).Inv lib := by
  cases e with
  | add r =>
    rw [VoteMap.step]
    cases h : m.addVote lib r with
    | none => exact hm
    | some m' => exact hm.addVote h
  | remove key value number =>
    rw [VoteMap.step, removeVote]
    split
    · exact hm
    · split
      · exact hm.insert nofun
      · exact hm
  | clear =>
    intro key status hlookup
    refine hm key status ?_
    have hmem := (mem_filter.mp (AList.mem_lookup_iff.mp hlookup)).1
    exact AList.mem_lookup_iff.mpr hmem

theorem inv_after (lib : TextLib) (es : List VoteEvent) : (after lib es).Inv lib := by
  apply foldlRecOn
  · intro key status h
    cases h
  · intro m hm e _
    exact hm.step e

end VoteMap

theorem TextLib.Accepts.fits (h : lib.Accepts key v) : v.Fits := by
  obtain ⟨r, -, hv⟩ := h
  exact validate_fits r.value_size hv

theorem TextLib.Accepts.checkValue (h : lib.Accepts k.nameBytes v) : checkValue k v = true := by
  obtain ⟨r, -, hv⟩ := h
  obtain ⟨-, hcheck⟩ := Option.filter_eq_some_iff.mp hv
  rwa [getKey_nameBytes, keyOf_eq_some.mpr rfl] at hcheck

theorem TextLib.Accepts.encodeVote (h : lib.Accepts key v) (addr : Address) :
    ∃ b, encodeVote addr key v = some b := by
  have hmax : maxAlloc = 281474976710656 := rfl
  obtain ⟨x, hx, hxlen⟩ := encode_of_fits h.fits
  obtain ⟨a, ha, halen⟩ := sized_address addr
  have hkey : key.length ≤ 3 * maxAlloc := by
    obtain ⟨r, rfl, -⟩ := h
    have h₁ := length_trimBlanks_le (lib.toLower r.key)
    have h₂ := lib.length_toLower r.key
    have h₃ := r.key_size
    rw [TextLib.getKey]
    omega
  obtain ⟨k, hk, hklen⟩ := sized_bytes (b := key) (by omega)
  obtain ⟨b, hb, -⟩ := join_list_sized (a ++ (k ++ x)) (by
    simp only [length_append]
    omega)
  exact ⟨b, by simp only [Kaia.encodeVote, ha, hk, hx, hb, bind, Option.bind_some]⟩

namespace VoteMap

/-- The bytes are read as an accepted vote that is among those not cast yet. -/
def Returns (lib : TextLib) (m : VoteMap) (addr : Address) (b : Bytes) : Prop :=
  ∃ k : GovKey, ∃ status, m.lookup k.nameBytes = some status ∧ status.casted = false ∧
    receiveVote lib b = .ok (some ⟨addr, k, status.value⟩)

variable {status : VoteStatus}

theorem getEncodedVote_eq_some {order : MapOrder Bytes VoteStatus}
    (h : m.getEncodedVote order addr = some b) : ∃ key status, m.lookup key = some status ∧
      status.casted = false ∧ encodeVote addr key status.value = some b := by
  obtain ⟨e, he, heq⟩ := exists_of_findSome?_eq_some h
  obtain ⟨hcasted, heq⟩ := Option.ite_none_left_eq_some.mp heq
  exact ⟨e.1, e.2, MapOrder.mem_visit.mp he, by simpa using hcasted, heq⟩

theorem Inv.getEncodedVote (hm : m.Inv lib) (h : m.lookup key = some status)
    (hcasted : status.casted = false) (order : MapOrder Bytes VoteStatus) (addr : Address) :
    ∃ b, m.getEncodedVote order addr = some b := by
  obtain ⟨b, hb⟩ := (hm key status h hcasted).encodeVote addr
  apply Option.isSome_iff_exists.mp
  refine findSome?_isSome_iff.mpr ⟨⟨key, status⟩, MapOrder.mem_visit.mpr h, ?_⟩
  simp [hcasted, hb]

def firstKey (key : Bytes) : MapOrder Bytes VoteStatus where
  visit l := l.filter (·.1 = key) ++ l.filter fun e => !decide (e.1 = key)
  perm l := List.filter_append_perm _ l

theorem getEncodedVote_firstKey (h : m.lookup key = some status) (hcasted : status.casted = false)
    (hb : encodeVote addr key status.value = some b) :
    m.getEncodedVote (firstKey key) addr = some b := by
  have hmem : (⟨key, status⟩ : Σ _ : Bytes, VoteStatus) ∈ m.entries.filter (·.1 = key) :=
    mem_filter.mpr ⟨AList.mem_lookup_iff.mp h, by simp⟩
  show ((m.entries.filter (·.1 = key)) ++ _).findSome? _ = some b
  cases hfirst : m.entries.filter (·.1 = key) with
  | nil =>
    rw [hfirst] at hmem
    cases hmem
  | cons e rest =>
    -- the entry in front has the key, so it is the entry
    have he : e ∈ m.entries.filter (·.1 = key) := by
      rw [hfirst]
      exact mem_cons_self
    obtain ⟨hmem', hkey⟩ := mem_filter.mp he
    obtain ⟨key', status'⟩ := e
    obtain rfl : key' = key := of_decide_eq_true hkey
    cases h.symm.trans (AList.mem_lookup_iff.mpr hmem')
    simp [hcasted, hb]

end VoteMap

/-- The votes of a node come back from headers when all keys that wait to be cast are known. -/
theorem emitted_votes_return_iff (lib : TextLib) (es : List VoteEvent) (r : VoteRequest)
    (m : VoteMap) (addr : Address) (h : (VoteMap.after lib es).addVote lib r = some m) :
    (∀ order, ∃ b, m.getEncodedVote order addr = some b ∧ m.Returns lib addr b) ↔
      ∀ key status, m.lookup key = some status → status.casted = false → (keyOf key).isSome := by
  have hm : m.Inv lib := (VoteMap.inv_after lib es).addVote h
  constructor
  · intro hall key status hlookup hcasted
    obtain ⟨b, hb⟩ := (hm key status hlookup hcasted).encodeVote addr
    obtain ⟨b', hb', k, status', -, -, hreceive⟩ := hall (VoteMap.firstKey key)
    rw [VoteMap.getEncodedVote_firstKey hlookup hcasted hb] at hb'
    cases hb'
    by_contra hunknown
    rw [receiveVote_of_unknown (Option.not_isSome_iff_eq_none.mp hunknown) hb] at hreceive
    cases hreceive
  · intro hknown order
    obtain ⟨v, -, rfl⟩ := VoteMap.addVote_eq_some h
    obtain ⟨b, hb⟩ := hm.getEncodedVote (AList.lookup_insert _) rfl order addr
    refine ⟨b, hb, ?_⟩
    obtain ⟨key, status, hlookup, hcasted, hencode⟩ := VoteMap.getEncodedVote_eq_some hb
    obtain ⟨k, hk⟩ := Option.isSome_iff_exists.mp (hknown key status hlookup hcasted)
    obtain rfl := keyOf_eq_some.mp hk
    have haccepts := hm _ status hlookup hcasted
    exact ⟨k, status, hlookup, hcasted, receiveVote_of_known haccepts.fits haccepts.checkValue hencode⟩

/-- Texts in ASCII, and numbers that are whole. -/
def TextLib.ascii : TextLib where
  toLower t := t.map fun c => if 65 ≤ c ∧ c ≤ 90 then c + 32 else c
  toUint64 q := UInt64.ofNat q.num.toNat
  toLower_plain t h := by
    refine (List.map_congr_left fun c hc => ?_).trans (List.map_id t)
    exact if_neg (h c hc).2
  length_toLower t := by
    rw [List.length_map]
    omega

def singleMode (key : Bytes) (h : key.length ≤ 48) : VoteRequest where
  key
  value := .text [115, 105, 110, 103, 108, 101]
  key_size := h.trans (by decide)
  value_size := by decide

theorem VoteMap.lookup_first {r : VoteRequest} {status : VoteStatus}
    (h : (VoteMap.after lib []).addVote lib r = some m) (hlookup : m.lookup key = some status) :
    key = lib.getKey r.key := by
  obtain ⟨v, -, rfl⟩ := VoteMap.addVote_eq_some h
  by_contra hne
  rw [AList.lookup_insert_ne hne] at hlookup
  cases hlookup

/-- The key "governance.governancemode". -/
theorem emitted_votes_return_mode : ∃ m,
    (VoteMap.after .ascii []).addVote .ascii
      (singleMode GovKey.governanceMode.nameBytes (by decide +kernel)) = some m ∧
    ∀ order, ∃ b, m.getEncodedVote order 7 = some b ∧ m.Returns .ascii 7 b := by
  have hsome : ((VoteMap.after .ascii []).addVote .ascii
      (singleMode GovKey.governanceMode.nameBytes (by decide +kernel))).isSome := by decide +kernel
  obtain ⟨m, hm⟩ := Option.isSome_iff_exists.mp hsome
  refine ⟨m, hm, (emitted_votes_return_iff .ascii [] _ m 7 hm).mpr fun key status hlookup _ => ?_⟩
  rw [VoteMap.lookup_first hm hlookup]
  exact Option.isSome_iff_exists.mpr ⟨.governanceMode, keyOf_eq_some.mpr (getKey_nameBytes _ _)⟩

/-- The key "mode" is accepted with a mode as its value, and then unknown to everyone. -/
theorem unknown_key_not_returned : ∃ m b,
    (VoteMap.after .ascii []).addVote .ascii (singleMode [109, 111, 100, 101] (by decide)) = some m ∧
    m.getEncodedVote (.plain _ _) 7 = some b ∧ receiveVote .ascii b = .ok none := by
  have hsome : ((VoteMap.after .ascii []).addVote .ascii
      (singleMode [109, 111, 100, 101] (by decide))).isSome := by decide +kernel
  obtain ⟨m, hm⟩ := Option.isSome_iff_exists.mp hsome
  obtain ⟨v, -, rfl⟩ := VoteMap.addVote_eq_some hm
  have hinv := (VoteMap.inv_after .ascii []).addVote hm
  obtain ⟨b, hb⟩ := hinv.getEncodedVote (AList.lookup_insert _) rfl (.plain _ _) 7
  obtain ⟨key, status, hlookup, -, hencode⟩ := VoteMap.getEncodedVote_eq_some hb
  have hunknown : keyOf (TextLib.ascii.getKey [109, 111, 100, 101]) = none := by decide +kernel
  rw [VoteMap.lookup_first hm hlookup] at hencode
  exact ⟨_, b, hm, hb, receiveVote_of_unknown hunknown hencode⟩

end Kaia
