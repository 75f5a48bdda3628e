import Kaia.Account.Keys
import Kaia.Foundation.Rlp

/-! # The format of account keys

A key is written as its type and then the data of that type, as two values that are not
wrapped in a list. The nil key has no data at all. A role-based key holds the whole
encodings of its members as strings.
-/

namespace Kaia

open Foundation Rlp List Option
open Codec hiding none

namespace AccountKey

/-! ## Public keys -/

namespace PublicKey

def compressPubkey (p : PublicKey) : Bytes :=
  UInt8.ofNat (2 + p.compress.1) :: fixedBytes 32 p.compress.2

def decompressPubkey : Bytes → Option PublicKey
  | [] => none
  | t :: b => if b.length = 32 ∧ (t = 2 ∨ t = 3) then decompress (t.toNat - 2, ofBytes b) else none

variable {p : PublicKey} {b : Bytes}

theorem curveP_lt : curveP < 256 ^ 32 := by decide +kernel

theorem tag_ofNat {n : ℕ} (h : n < 2) :
    (UInt8.ofNat (2 + n) = 2 ∨ UInt8.ofNat (2 + n) = 3) ∧ (UInt8.ofNat (2 + n)).toNat - 2 = n := by
  obtain rfl | rfl : n = 0 ∨ n = 1 := by omega
  · decide
  · decide

theorem decompressPubkey_compressPubkey (hp : p.Valid) :
    decompressPubkey p.compressPubkey = some p := by
  have hx : p.compress.2 < 256 ^ 32 := hp.x_lt.trans curveP_lt
  obtain ⟨htag, htoNat⟩ := tag_ofNat (n := p.compress.1) (Nat.mod_lt _ (by norm_num))
  rw [compressPubkey, decompressPubkey, if_pos ⟨length_fixedBytes _ _, htag⟩, htoNat,
    ofBytes_fixedBytes hx]
  exact decompress_compress hp

theorem compressPubkey_of_decompressPubkey (h : decompressPubkey b = some p) :
    p.Valid ∧ p.compressPubkey = b := by
  cases b with
  | nil => cases h
  | cons t b =>
    simp only [decompressPubkey] at h
    split at h
    · next hcond =>
      obtain ⟨hlen, htag⟩ := hcond
      obtain ⟨hvalid, hcompress⟩ := valid_of_decompress h
      have htoNat : t.toNat - 2 < 2 := by rcases htag with rfl | rfl <;> decide
      have hcompress := hcompress htoNat
      refine ⟨hvalid, ?_⟩
      unfold compressPubkey
      rw [hcompress, ← hlen, (fixedBytes_ofBytes b).2]
      rcases htag with rfl | rfl <;> rfl
    · cases h

/-- `EncodeRLP` and `DecodeRLP` of a public key. -/
def format : Codec PublicKey :=
  Codec.bytes.refineOn PublicKey.Valid decompressPubkey
    (fun p => if p.isOnCurve then some p.compressPubkey else none)
    (fun b p h => by
      obtain ⟨hp, rfl⟩ := compressPubkey_of_decompressPubkey h
      exact ⟨hp, if_pos hp.isOnCurve⟩)
    fun b p hp h => by
      rw [if_pos hp.isOnCurve] at h
      cases h
      exact decompressPubkey_compressPubkey hp

end PublicKey

/-! ## The data of each type -/

def emptyStruct : Codec Unit := Codec.none.wrap

def weightedPublicKey : Codec WeightedPublicKey :=
  ((Codec.uint 8).pair PublicKey.format).wrap.refine (fun x => some ⟨x.1, x.2⟩)
    (fun k => some (k.weight, k.key)) fun x k => by
      obtain ⟨_, _⟩ := x
      obtain ⟨_, _⟩ := k
      simp [eq_comm]

def weightedPublicKeys : Codec (List WeightedPublicKey) :=
  Codec.listOf weightedPublicKey (by
    unfold weightedPublicKey Codec.refine
    exact Codec.refineOn_ne_nil Codec.wrap_ne_nil)

def multiSig : Codec (ℕ × List WeightedPublicKey) := ((Codec.uint 8).pair weightedPublicKeys).wrap

variable {threshold : ℕ} {d : Bytes}

theorem multiSig_dom {keys : List WeightedPublicKey} :
    multiSig.Dom (threshold, keys) ↔ ∀ k ∈ keys, k.key.Valid := by
  have hkey (k : WeightedPublicKey) : weightedPublicKey.Dom k ↔ k.key.Valid := by
    constructor
    · intro h
      exact (h.2 _ rfl).2.1
    · intro h
      refine ⟨trivial, fun x hx => ?_⟩
      cases hx
      exact ⟨total_uint 8 _, h, fun _ _ => total_bytes _⟩
  constructor
  · intro h k hk
    exact (hkey k).mp (h.2 k hk)
  · intro h
    exact ⟨total_uint 8 _, fun k hk => (hkey k).mpr (h k hk)⟩

def roles : Codec (List Bytes) := Codec.listOf Codec.bytes Codec.bytes_ne_nil

def KeyType.code : KeyType → ℕ
  | .nil => 0
  | .legacy => 1
  | .publicKey => 2
  | .fail => 3
  | .weightedMultiSig => 4
  | .roleBased => 5

/-- The type a number stands for; `NewAccountKey` refuses the others. -/
def KeyType.ofCode : ℕ → Option KeyType
  | 0 => some .nil
  | 1 => some .legacy
  | 2 => some .publicKey
  | 3 => some .fail
  | 4 => some .weightedMultiSig
  | 5 => some .roleBased
  | _ => none

/-! ## Keys -/

def withType (t : KeyType) (data : Option Bytes) : Option Bytes :=
  ((Codec.uint 1).encode t.code).bind fun e => data.map (e ++ ·)

mutual

/-- `EncodeRLP` of a key and its type. -/
def encode : AccountKey → Option Bytes
  | .nil => withType .nil (some [])
  | .legacy => withType .legacy (emptyStruct.encode ())
  | .publicKey key => withType .publicKey (PublicKey.format.encode key)
  | .fail => withType .fail (emptyStruct.encode ())
  | .weightedMultiSig threshold keys => withType .weightedMultiSig (multiSig.encode (threshold, keys))
  | .roleBased keys => withType .roleBased (roles.encode (encodeMembers keys))

def encodeMembers : List AccountKey → List Bytes
  | [] => []
  | k :: ks => (encode k).getD [] :: encodeMembers ks

end

/-- `DecodeRLP` of a key; the members of a role-based key are decoded from their own strings. -/
def decodeData (member : Bytes → Option AccountKey) (b : Bytes) :
    KeyType → Option (AccountKey × Bytes)
  | .nil => some (.nil, b)
  | .legacy => (emptyStruct.decode b).map fun (_, rest) => (.legacy, rest)
  | .publicKey => (PublicKey.format.decode b).map fun (key, rest) => (.publicKey key, rest)
  | .fail => (emptyStruct.decode b).map fun (_, rest) => (.fail, rest)
  | .weightedMultiSig =>
    (multiSig.decode b).map fun (x, rest) => (.weightedMultiSig x.1 x.2, rest)
  | .roleBased => do
    let (enc, rest) ← roles.decode b
    let keys ← enc.mapM member
    return (.roleBased keys, rest)

/-- `DecodeRLP` of a type and a key, by depth of nesting. A member has to use up its string. -/
def decode : ℕ → Bytes → Option (AccountKey × Bytes)
  | 0, _ => none
  | n + 1, b => do
    let (code, rest) ← (Codec.uint 1).decode b
    let t ← KeyType.ofCode code
    decodeData (fun b => do
      let (key, rest) ← decode n b
      if rest = [] then some key else none) rest t

/-- The keys whose encoding can be read again. -/
inductive Encodable : AccountKey → Prop
  | nil : Encodable .nil
  | legacy : Encodable .legacy
  | publicKey {key : PublicKey} : key.Valid → Encodable (.publicKey key)
  | fail : Encodable .fail
  | weightedMultiSig {threshold : ℕ} {keys : List WeightedPublicKey} :
      (∀ k ∈ keys, k.key.Valid) → Encodable (.weightedMultiSig threshold keys)
  | roleBased {keys : List AccountKey} : (∀ k ∈ keys, Encodable k) →
      (∀ k ∈ keys, k.encode ≠ none) → Encodable (.roleBased keys)

variable {k : AccountKey} {keys : List AccountKey} {b rest e : Bytes} {n : ℕ} {t : KeyType}
  {te : Bytes} {enc : List Bytes}

theorem ofCode_eq_some {code : ℕ} : KeyType.ofCode code = some t ↔ t.code = code := by
  constructor
  · intro h
    unfold KeyType.ofCode at h
    split at h <;> cases h <;> rfl
  · rintro rfl
    cases t <;> rfl

theorem withType_eq_some {data : Option Bytes} (h : withType t data = some e) :
    ∃ te d, (uint 1).encode t.code = some te ∧ data = some d ∧ e = te ++ d := by
  obtain ⟨te, ht, hmap⟩ := bind_eq_some_iff.mp h
  obtain ⟨d, hd, rfl⟩ := map_eq_some_iff.mp hmap
  exact ⟨te, d, ht, hd, rfl⟩

theorem withType_of_eq_some (h : (uint 1).encode t.code = some te) :
    withType t (some d) = some (te ++ d) := by
  rw [withType, h, bind_some, map_some]

theorem encodeMembers_eq (keys : List AccountKey) :
    encodeMembers keys = keys.map fun k => k.encode.getD [] := by
  induction keys with
  | nil => rfl
  | cons k ks ih => rw [encodeMembers, ih, map_cons]

theorem mem_encodeMembers : b ∈ encodeMembers keys ↔ ∃ k ∈ keys, k.encode.getD [] = b := by
  rw [encodeMembers_eq, List.mem_map]

def decodeMember (n : ℕ) (b : Bytes) : Option AccountKey := do
  let (key, rest) ← decode n b
  if rest = [] then some key else none

theorem decodeMember_eq_some : decodeMember n b = some k ↔ decode n b = some (k, []) := by
  unfold decodeMember
  rcases hdec : decode n b with _ | ⟨k', rest⟩
  · simp
  · by_cases hrest : rest = [] <;> simp [hrest]

theorem decode_succ (h : (uint 1).encode t.code = some te) (b : Bytes) :
    decode (n + 1) (te ++ b) = decodeData (decodeMember n) b t := by
  have htype := (uint 1).decode_encode (total_uint 1 _) h b
  have hcode : KeyType.ofCode t.code = some t := ofCode_eq_some.mpr rfl
  simp only [decode, htype, bind_eq_bind, bind_some, hcode]
  rfl

theorem decode_eq_some (h : decode (n + 1) b = some (k, rest)) :
    ∃ t te b', (uint 1).encode t.code = some te ∧ b = te ++ b' ∧
      decodeData (decodeMember n) b' t = some (k, rest) := by
  obtain ⟨⟨code, b'⟩, htype, h₁⟩ := bind_eq_some_iff.mp h
  obtain ⟨t, hcode, hdata⟩ := bind_eq_some_iff.mp h₁
  obtain rfl := ofCode_eq_some.mp hcode
  obtain ⟨-, te, hte, rfl⟩ := (uint 1).encode_decode htype
  exact ⟨t, te, b', hte, rfl, hdata⟩

theorem length_le_of_roles (h : roles.encode enc = some e) {m : Bytes} (hm : m ∈ enc) :
    m.length ≤ e.length := by
  obtain ⟨e', he', hlen⟩ := listOf_mem h hm
  exact (length_le_of_bytes he').trans hlen

theorem encode_ne_nil (k : AccountKey) : k.encode ≠ some [] := by
  intro h
  have htype : ∃ data, k.encode = withType k.type data := by cases k <;> exact ⟨_, rfl⟩
  obtain ⟨data, hdata⟩ := htype
  obtain ⟨te, d, hte, -, hnil⟩ := withType_eq_some (hdata ▸ h)
  obtain ⟨rfl, -⟩ := append_eq_nil_iff.mp hnil.symm
  exact uint_ne_nil 1 _ hte

theorem mapM_decodeMember (hdec : ∀ k ∈ keys, ∀ e, k.encode = some e →
      decode n e = some (k, [])) (hne : ∀ k ∈ keys, k.encode ≠ none) :
    (encodeMembers keys).mapM (decodeMember n) = some keys := by
  induction keys with
  | nil => rfl
  | cons k ks ih =>
    obtain ⟨e, he⟩ := ne_none_iff_exists'.mp (hne k mem_cons_self)
    have htail := ih (fun k' hk' => hdec k' (mem_cons_of_mem k hk'))
      fun k' hk' => hne k' (mem_cons_of_mem k hk')
    have hhead := decodeMember_eq_some.mpr (hdec k mem_cons_self e he)
    simp [encodeMembers, he, hhead, htail]

theorem decode_encode (hk : k.Encodable) (h : k.encode = some e) (hn : e.length ≤ n)
    (rest : Bytes) : decode n (e ++ rest) = some (k, rest) := by
  induction n generalizing k e rest with
  | zero => exact absurd (eq_nil_of_length_eq_zero (Nat.le_zero.mp hn) ▸ h) (encode_ne_nil k)
  | succ n ih =>
    cases hk with
    | nil =>
      obtain ⟨te, d, hte, hd, rfl⟩ := withType_eq_some h
      cases hd
      rw [append_nil, decode_succ hte]
      rfl
    | legacy | fail =>
      obtain ⟨te, d, hte, hd, rfl⟩ := withType_eq_some h
      rw [append_assoc, decode_succ hte, decodeData, emptyStruct.decode_encode trivial hd]
      rfl
    | publicKey hkey =>
      obtain ⟨te, d, hte, hd, rfl⟩ := withType_eq_some h
      rw [append_assoc, decode_succ hte, decodeData,
        PublicKey.format.decode_encode ⟨hkey, fun _ _ => total_bytes _⟩ hd]
      rfl
    | weightedMultiSig hkeys =>
      obtain ⟨te, d, hte, hd, rfl⟩ := withType_eq_some h
      rw [append_assoc, decode_succ hte, decodeData,
        multiSig.decode_encode (multiSig_dom.mpr hkeys) hd]
      rfl
    | roleBased hkeys hne =>
      obtain ⟨te, d, hte, hd, rfl⟩ := withType_eq_some h
      rw [append_assoc, decode_succ hte, decodeData,
        roles.decode_encode (fun _ _ => total_bytes _) hd]
      have hpos : 0 < te.length := length_pos_of_ne_nil fun hnil =>
        uint_ne_nil 1 _ (hnil ▸ hte)
      have hmembers := mapM_decodeMember (n := n) (fun k hk e' he' => by
        have hmem := mem_encodeMembers.mpr ⟨k, hk, by rw [he', getD_some]⟩
        have hlen := length_le_of_roles hd hmem
        rw [length_append] at hn
        simpa using ih (hkeys k hk) he' (by omega) []) hne
      simp [hmembers]

theorem encodeMembers_of_mapM
    (henc : ∀ b k, decode n b = some (k, []) → k.Encodable ∧ k.encode = some b)
    (h : enc.mapM (decodeMember n) = some keys) :
    (∀ k ∈ keys, k.Encodable ∧ k.encode ≠ none) ∧ encodeMembers keys = enc := by
  induction enc generalizing keys with
  | nil => cases h; exact ⟨by simp, rfl⟩
  | cons b enc ih =>
    rw [mapM_cons] at h
    obtain ⟨k, hk, h₁⟩ := bind_eq_some_iff.mp h
    obtain ⟨ks, hks, heq⟩ := bind_eq_some_iff.mp h₁
    cases heq
    obtain ⟨hdom, he⟩ := henc b k (decodeMember_eq_some.mp hk)
    obtain ⟨htail, rfl⟩ := ih hks
    refine ⟨forall_mem_cons.mpr ⟨⟨hdom, by simp [he]⟩, htail⟩, ?_⟩
    rw [encodeMembers, he, getD_some]

theorem encode_decode (h : decode n b = some (k, rest)) :
    k.Encodable ∧ ∃ e, k.encode = some e ∧ b = e ++ rest := by
  induction n generalizing k b rest with
  | zero => cases h
  | succ n ih =>
    obtain ⟨t, te, b', hte, rfl, hdata⟩ := decode_eq_some h
    -- it is enough to encode the data of the type
    suffices hsuff : k.Encodable ∧ ∃ d, k.encode = withType t (some d) ∧ b' = d ++ rest by
      obtain ⟨hk, d, hd, rfl⟩ := hsuff
      exact ⟨hk, te ++ d, by rw [hd, withType_of_eq_some hte], (append_assoc ..).symm⟩
    -- data that is one value
    have hone {α : Type} (c : Codec α) (f : α → AccountKey)
        (hdec : (c.decode b').map (fun x => (f x.1, x.2)) = some (k, rest)) :
        ∃ x d, k = f x ∧ c.Dom x ∧ c.encode x = some d ∧ b' = d ++ rest := by
      obtain ⟨⟨x, rest'⟩, hx, heq⟩ := map_eq_some_iff.mp hdec
      cases heq
      obtain ⟨hdom, d, hd, hb⟩ := c.encode_decode hx
      exact ⟨x, d, rfl, hdom, hd, hb⟩
    cases t with
    | nil =>
      cases hdata
      exact ⟨.nil, [], rfl, rfl⟩
    | legacy =>
      obtain ⟨_, d, rfl, -, hd, hb⟩ := hone emptyStruct (fun _ => .legacy) hdata
      exact ⟨.legacy, d, by rw [encode, hd], hb⟩
    | publicKey =>
      obtain ⟨_, d, rfl, hkey, hd, hb⟩ := hone PublicKey.format .publicKey hdata
      exact ⟨.publicKey hkey.1, d, by rw [encode, hd], hb⟩
    | fail =>
      obtain ⟨_, d, rfl, -, hd, hb⟩ := hone emptyStruct (fun _ => .fail) hdata
      exact ⟨.fail, d, by rw [encode, hd], hb⟩
    | weightedMultiSig =>
      obtain ⟨_, d, rfl, hdom, hd, hb⟩ := hone multiSig (fun x => .weightedMultiSig x.1 x.2) hdata
      exact ⟨.weightedMultiSig (multiSig_dom.mp hdom), d, by rw [encode, hd], hb⟩
    | roleBased =>
      obtain ⟨⟨enc, rest'⟩, hdec, hkeys⟩ := bind_eq_some_iff.mp hdata
      obtain ⟨keys, hmapM, heq⟩ := bind_eq_some_iff.mp hkeys
      cases heq
      obtain ⟨-, d, hd, rfl⟩ := roles.encode_decode hdec
      obtain ⟨hmembers, henc⟩ := encodeMembers_of_mapM (fun b k hbk => by
        obtain ⟨hk, e, he, hb⟩ := ih hbk
        rw [append_nil] at hb
        exact ⟨hk, hb ▸ he⟩) hmapM
      exact ⟨.roleBased (fun k hk => (hmembers k hk).1) fun k hk => (hmembers k hk).2, d,
        by rw [encode, henc, hd], rfl⟩

def format : Codec AccountKey where
  encode := encode
  decode b := decode b.length b
  Dom := Encodable
  decode_encode hk h rest := decode_encode hk h (by simp) rest
  encode_decode h := encode_decode h

/-! ## Keys of an account have an encoding -/

theorem sized_publicKey {p : PublicKey} (hp : p.Valid) : PublicKey.format.Sized p 42 := by
  have hlen : p.compressPubkey.length = 33 := by simp [PublicKey.compressPubkey]
  exact ((sized_bytes (b := p.compressPubkey) (by omega)).mono (by omega)).refineOn
    (if_pos hp.isOnCurve)

theorem sized_weightedPublicKey {w : WeightedPublicKey} (hw : w.weight < 2 ^ 64)
    (hkey : w.key.Valid) : weightedPublicKey.Sized w 68 := by
  have hsized := ((sized_uint (n := 8) le_rfl (by omega)).pair (sized_publicKey hkey)).wrap
    (by norm_num)
  unfold weightedPublicKey refine
  exact hsized.refineOn (b := w) rfl

theorem sized_multiSig {keys : List WeightedPublicKey} (ht : threshold < 2 ^ 64)
    (hkeys : ∀ k ∈ keys, k.weight < 2 ^ 64 ∧ k.key.Valid) (hlen : keys.length ≤ 10) :
    multiSig.Sized (threshold, keys) 1000 := by
  have hlist : weightedPublicKeys.Sized keys (keys.length * 68 + 9) :=
    .listOf (fun k hk => sized_weightedPublicKey (hkeys k hk).1 (hkeys k hk).2) (by omega)
  have hthreshold := sized_uint (n := 8) (k := threshold) le_rfl (by omega)
  exact ((hthreshold.pair hlist).wrap (by omega)).mono (by omega)

theorem sized_of_encode {data : Option Bytes} {m : ℕ} (hk : k.encode = withType t data)
    (hd : ∃ d, data = some d ∧ d.length ≤ n) (hm : n + 10 ≤ m) : format.Sized k m := by
  obtain ⟨d, rfl, hd⟩ := hd
  obtain ⟨te, hte, hlen⟩ := sized_uint (n := 1) (k := t.code) (by norm_num)
    (by cases t <;> decide)
  exact ⟨te ++ d, hk.trans (withType_of_eq_some hte), by rw [length_append]; omega⟩

theorem sized_emptyStruct : emptyStruct.Sized () 9 :=
  Codec.Sized.wrap (c := Codec.none) (n := 0) ⟨[], rfl, le_rfl⟩ (by norm_num)

theorem SingleWf.sized (hk : k.Decoded) (h : k.SingleWf) : k.Encodable ∧ format.Sized k 1010 := by
  cases hk with
  | nil | roleBased => cases h
  | legacy => exact ⟨.legacy, sized_of_encode rfl sized_emptyStruct (by norm_num)⟩
  | publicKey hkey => exact ⟨.publicKey hkey, sized_of_encode rfl (sized_publicKey hkey) (by norm_num)⟩
  | fail => exact ⟨.fail, sized_of_encode rfl sized_emptyStruct (by norm_num)⟩
  | weightedMultiSig ht hkeys =>
    exact ⟨.weightedMultiSig fun k hk => (hkeys k hk).2,
      sized_of_encode rfl (sized_multiSig ht hkeys h.length_le) (by norm_num)⟩

theorem Wf.sized (hk : k.Decoded) (h : k.Wf) : k.Encodable ∧ format.Sized k 4000 := by
  by_cases hrole : k.type = .roleBased
  · obtain ⟨keys, rfl⟩ : ∃ keys, k = .roleBased keys := by cases k <;> simp [type] at hrole ⊢
    obtain ⟨-, hlen, hmembers⟩ := h
    cases hk with
    | roleBased hdec =>
      have hsized k (hk : k ∈ keys) := (hmembers k hk).sized (hdec k hk)
      have hbytes : ∀ b ∈ encodeMembers keys, bytes.Sized b 1019 := by
        intro b hb
        obtain ⟨k, hk, rfl⟩ := mem_encodeMembers.mp hb
        obtain ⟨e, he, hle⟩ := (hsized k hk).2
        have he : k.encode = some e := he
        rw [he, getD_some]
        exact (sized_bytes (by omega)).mono (by omega)
      have hroles : (encodeMembers keys).length ≤ 3 := by
        rw [encodeMembers_eq, length_map]
        exact hlen
      have hlist : roles.Sized (encodeMembers keys) ((encodeMembers keys).length * 1019 + 9) :=
        .listOf hbytes (by omega)
      refine ⟨.roleBased (fun k hk => (hsized k hk).1) fun k hk => ?_,
        sized_of_encode rfl hlist (by omega)⟩
      obtain ⟨e', he', -⟩ := (hsized k hk).2
      have he' : k.encode = some e' := he'
      simp [he']
  · obtain ⟨henc, hsized⟩ := (h.single hrole).sized hk
    exact ⟨henc, hsized.mono (by omega)⟩

end AccountKey

end Kaia
