import Kaia.Account.Format
import Kaia.Backend.CommittedSeals

/-! # The digest of a header

The digest is taken over a header whose extra data is cleared of the committed seals and the
round, and for the signature of the proposer of its seal. Everything else is hashed.
-/

namespace Kaia

open Foundation Foundation.Rlp List Option
open Codec hiding none

/-- `types.Header`. Integers are pointers that may be nil, and so may the bytes of optional
fields. -/
structure FullHeader where
  parentHash : Hash
  rewardbase : Address
  root : Hash
  txHash : Hash
  receiptHash : Hash
  bloom : BitVec 2048
  blockScore : Option ℤ
  number : Option ℤ
  gasUsed : UInt64
  time : Option ℤ
  timeFoS : UInt8
  extra : Bytes
  governance : Bytes
  vote : Bytes
  baseFee : Option ℤ
  randomReveal : Option Bytes
  mixHash : Option Bytes
  deriving DecidableEq

/-- The fields of `IstanbulExtra`. -/
def extraFormat : Codec (List Address × Bytes × List Bytes) :=
  ((addressFormat.listOf addressFormat_ne_nil).pair
    (Codec.bytes.pair (Codec.bytes.listOf Codec.bytes_ne_nil))).wrap

/-- `IstanbulExtra` in RLP. -/
def extraCodec : Codec IstanbulExtra :=
  extraFormat.refine (fun x => some ⟨x.1, x.2.1, x.2.2⟩)
    (fun e => some (e.validators, e.proposerSeal, e.committedSeal)) fun x e => by
      constructor
      · rintro ⟨⟩
        rfl
      · rintro ⟨⟩
        rfl

abbrev RequiredFields := Hash × Address × Hash × Hash × Hash × BitVec 2048 × ℤ × ℤ × ℕ × ℤ × ℕ ×
  Bytes × Bytes × Bytes

def requiredFormat : Codec RequiredFields :=
  hashFormat.pair (addressFormat.pair (hashFormat.pair (hashFormat.pair (hashFormat.pair
    ((Codec.array 2048 256 rfl).pair (Codec.int.pair (Codec.int.pair ((Codec.uint 8).pair
      (Codec.int.pair ((Codec.uint 1).pair (Codec.bytes.pair
        (Codec.bytes.pair Codec.bytes))))))))))))

/-- Optional fields are written up to the last one that is not nil. -/
def encodeOptional : Option ℤ → Option Bytes → Option Bytes → Option Bytes
  | none, none, none => some []
  | some baseFee, none, none => Codec.int.encode baseFee
  | baseFee, some randomReveal, none =>
    (Codec.int.pair Codec.bytes).encode (baseFee.getD 0, randomReveal)
  | baseFee, randomReveal, some mixHash =>
    (Codec.int.pair (Codec.bytes.pair Codec.bytes)).encode
      (baseFee.getD 0, randomReveal.getD [], mixHash)

namespace FullHeader

variable (h : FullHeader)

def required : RequiredFields :=
  (h.parentHash, h.rewardbase, h.root, h.txHash, h.receiptHash, h.bloom, h.blockScore.getD 0,
    h.number.getD 0, h.gasUsed.toNat, h.time.getD 0, h.timeFoS.toNat, h.extra, h.governance, h.vote)

def encode : Option Bytes := do
  let required ← requiredFormat.encode h.required
  let optional ← encodeOptional h.baseFee h.randomReveal h.mixHash
  join (.list (required ++ optional))

def copyHeader : FullHeader :=
  { h with
    time := some (h.time.getD 0)
    blockScore := some (h.blockScore.getD 0)
    number := some (h.number.getD 0) }

def extractIstanbulExtra : Option IstanbulExtra :=
  if h.extra.length < 32 then none else extraCodec.decodeBytes (h.extra.drop 32)

def setRoundToHeader (r : ℤ) : Except GoPanic FullHeader :=
  if 31 < h.extra.length then .ok { h with extra := h.extra.set 31 (UInt8.ofInt r) }
  else .error .indexOutOfRange

def withExtra (payload : Bytes) : FullHeader := { h with extra := h.extra.take 32 ++ payload }

def clean (keepSeal : Bool) (e : IstanbulExtra) : IstanbulExtra :=
  { e with proposerSeal := if keepSeal then e.proposerSeal else [], committedSeal := [] }

def istanbulFilteredHeader (keepSeal : Bool) : Option FullHeader := do
  let newHeader := h.copyHeader
  let istanbulExtra ← newHeader.extractIstanbulExtra
  let payload ← extraCodec.encode (clean keepSeal istanbulExtra)
  let newHeader ← (newHeader.setRoundToHeader 0).toOption
  some (newHeader.withExtra payload)

/-- The bytes that `Hash` feeds to the hash function; an encoder that fails has written nothing. -/
def hashInput : Bytes := (((h.istanbulFilteredHeader true).getD h).encode).getD []

def hash (keccak : Bytes → Hash) : Hash := keccak h.hashInput

/-- The input of `sigHash`. A nil header is an empty list. -/
def sigInput : Bytes :=
  match h.istanbulFilteredHeader false with
  | none => [0xC0]
  | some newHeader => newHeader.encode.getD []

def sigHash (keccak : Bytes → Hash) : Hash := keccak h.sigInput

/-- The end of `writeSeal` and of `writeCommittedSeals`. -/
def writeExtra (update : IstanbulExtra → IstanbulExtra) : Except VerifyErr FullHeader :=
  match h.extractIstanbulExtra with
  | none => .error .invalidExtraDataFormat
  | some istanbulExtra =>
    match extraCodec.encode (update istanbulExtra) with
    | none => .error .invalidExtraDataFormat
    | some payload => .ok (h.withExtra payload)

def writeSeal (sig : Bytes) : Except VerifyErr FullHeader :=
  if sig.length % 65 ≠ 0 then .error .invalidSignature
  else h.writeExtra ({ · with proposerSeal := sig })

def writeCommittedSeals (committedSeals : List Bytes) : Except VerifyErr FullHeader :=
  if committedSeals = [] then .error .invalidCommittedSeals
  else if committedSeals.any fun sig => sig.length ≠ 65 then .error .invalidCommittedSeals
  else h.writeExtra ({ · with committedSeal := committedSeals })

end FullHeader

theorem sized_hash (x : Hash) : hashFormat.Sized x 41 :=
  sized_array (w := 256) (n := 32) rfl (by norm_num) x

theorem sized_address (a : Address) : addressFormat.Sized a 29 :=
  sized_array (w := 160) (n := 20) rfl (by norm_num) a

theorem total_extraFormat : extraFormat.Total := fun _ =>
  ⟨fun _ _ => total_array 160 20 rfl _, total_bytes _, fun _ _ => total_bytes _⟩

theorem total_extraCodec : extraCodec.Total := Codec.total_refine total_extraFormat _

theorem total_requiredFormat : requiredFormat.Total := fun _ =>
  ⟨total_array 256 32 rfl _, total_array 160 20 rfl _, total_array 256 32 rfl _,
    total_array 256 32 rfl _, total_array 256 32 rfl _, total_array 2048 256 rfl _,
    total_int _, total_int _, total_uint 8 _, total_int _,
    total_uint 1 _, total_bytes _, total_bytes _, total_bytes _⟩

variable {e : IstanbulExtra} {b : Bytes}

theorem encode_extraCodec : extraCodec.encode e = some b ↔
    ∃ v p c, (addressFormat.listOf addressFormat_ne_nil).encode e.validators = some v ∧
      bytes.encode e.proposerSeal = some p ∧
      (bytes.listOf bytes_ne_nil).encode e.committedSeal = some c ∧
      join (.list (v ++ (p ++ c))) = some b := by
  rw [extraCodec, encode_refine, bind_some, extraFormat, encode_wrap,
    encode_pair, encode_pair]
  simp only [bind_eq_some_iff, map_eq_some_iff]
  constructor
  · rintro ⟨_, ⟨v, hv, _, ⟨p, hp, c, hc, rfl⟩, rfl⟩, hjoin⟩
    exact ⟨v, p, c, hv, hp, hc, hjoin⟩
  · rintro ⟨v, p, c, hv, hp, hc, hjoin⟩
    exact ⟨_, ⟨v, hv, _, ⟨p, hp, c, hc, rfl⟩, rfl⟩, hjoin⟩

theorem encode_clean (h : extraCodec.encode e = some b) (keepSeal : Bool) :
    ∃ payload, extraCodec.encode (FullHeader.clean keepSeal e) = some payload ∧
      payload.length ≤ b.length + 9 := by
  obtain ⟨v, p, c, hv, hp, hc, hjoin⟩ := encode_extraCodec.mp h
  have hlt := length_lt_of_join_list hjoin
  have hle := length_le_of_join_list hjoin
  have hcpos : 0 < c.length := by
    rw [length_pos_iff]
    rintro rfl
    obtain ⟨payload, -, hnil⟩ := bind_eq_some_iff.mp hc
    exact join_ne_nil _ hnil
  have hppos : 0 < p.length := by
    rw [length_pos_iff]
    rintro rfl
    exact bytes_ne_nil _ hp
  have hempty : bytes.encode [] = some [0x80] := rfl
  obtain ⟨p', hp', hlen⟩ : ∃ p', bytes.encode (FullHeader.clean keepSeal e).proposerSeal =
      some p' ∧ p'.length ≤ p.length := by
    cases keepSeal with
    | true => exact ⟨p, hp, le_rfl⟩
    | false => exact ⟨_, hempty, hppos⟩
  simp only [length_append] at hlt hle
  obtain ⟨payload, hpayload, hlen'⟩ := join_list_sized (v ++ (p' ++ [0xC0])) (by
    simp only [length_append, length_singleton]
    omega)
  simp only [length_append, length_singleton] at hlen'
  exact ⟨payload, encode_extraCodec.mpr ⟨v, p', [0xC0], hv, hp', rfl, hpayload⟩, by omega⟩

/-- The optional fields as they are written: what is nil before the last one that is set becomes
zero. -/
def filled : Option ℤ → Option Bytes → Option Bytes → Option ℤ × Option Bytes × Option Bytes
  | baseFee, none, none => (baseFee, none, none)
  | baseFee, some randomReveal, none => (some (baseFee.getD 0), some randomReveal, none)
  | baseFee, randomReveal, some mixHash =>
    (some (baseFee.getD 0), some (randomReveal.getD []), some mixHash)

def readOptional {α : Type} (c : Codec α) (b : Bytes) : Option (Option α × Bytes) :=
  if b = [] then some (none, []) else (c.decode b).map fun x => (some x.1, x.2)

def readOptionals (b : Bytes) : Option (Option ℤ × Option Bytes × Option Bytes) := do
  let (baseFee, b) ← readOptional Codec.int b
  let (randomReveal, b) ← readOptional Codec.bytes b
  let (mixHash, _) ← readOptional Codec.bytes b
  some (baseFee, randomReveal, mixHash)

theorem readOptional_encode {α : Type} {c : Codec α} {a : α} {e : Bytes} (hc : c.Total)
    (hne : c.encode a ≠ some []) (h : c.encode a = some e) (rest : Bytes) :
    readOptional c (e ++ rest) = some (some a, rest) := by
  have he : e ++ rest ≠ [] := by
    intro hnil
    rw [(append_eq_nil_iff.mp hnil).1] at h
    exact hne h
  rw [readOptional, if_neg he, c.decode_encode (hc a) h rest]
  rfl

theorem int_ne_nil (z : ℤ) : int.encode z ≠ some [] := by
  unfold int refine
  exact refineOn_ne_nil bigInt_ne_nil z

theorem readOptionals_encode {baseFee : Option ℤ} {randomReveal mixHash : Option Bytes} {e : Bytes}
    (h : encodeOptional baseFee randomReveal mixHash = some e) :
    readOptionals e = some (filled baseFee randomReveal mixHash) := by
  have hint : ∀ z e, int.encode z = some e → ∀ rest,
      readOptional int (e ++ rest) = some (some z, rest) := fun z _ =>
    readOptional_encode total_int (int_ne_nil z)
  have hbytes : ∀ b e, bytes.encode b = some e → ∀ rest,
      readOptional bytes (e ++ rest) = some (some b, rest) := fun b _ =>
    readOptional_encode total_bytes (bytes_ne_nil b)
  unfold encodeOptional at h
  split at h
  · cases h
    rfl
  · next f =>
    have hf := hint f e h []
    rw [append_nil] at hf
    simp only [readOptionals, hf, bind, bind_some]
    rfl
  · next f r =>
    obtain ⟨e₁, h₁, hmap⟩ := bind_eq_some_iff.mp h
    obtain ⟨e₂, h₂, rfl⟩ := map_eq_some_iff.mp hmap
    have hr := hbytes _ e₂ h₂ []
    rw [append_nil] at hr
    simp only [readOptionals, hint _ e₁ h₁ e₂, hr, bind, bind_some]
    rfl
  · next f r m =>
    obtain ⟨e₁, h₁, hmap⟩ := bind_eq_some_iff.mp h
    obtain ⟨e₂, h₂, rfl⟩ := map_eq_some_iff.mp hmap
    obtain ⟨e₃, h₃, hmap⟩ := bind_eq_some_iff.mp h₂
    obtain ⟨e₄, h₄, rfl⟩ := map_eq_some_iff.mp hmap
    have hm := hbytes _ e₄ h₄ []
    rw [append_nil] at hm
    simp only [readOptionals, hint _ e₁ h₁ _, hbytes _ e₃ h₃ e₄, hm, bind, bind_some]
    cases randomReveal <;> rfl

theorem encodeOptional_filled (baseFee : Option ℤ) (randomReveal mixHash : Option Bytes) :
    encodeOptional baseFee randomReveal mixHash =
      encodeOptional (filled baseFee randomReveal mixHash).1
        (filled baseFee randomReveal mixHash).2.1 (filled baseFee randomReveal mixHash).2.2 := by
  cases baseFee <;> cases randomReveal <;> cases mixHash <;> rfl

namespace FullHeader

variable {h h' : FullHeader} {e e' : Bytes}

theorem encode_eq_some : h.encode = some e ↔
    ∃ r o, requiredFormat.encode h.required = some r ∧
      encodeOptional h.baseFee h.randomReveal h.mixHash = some o ∧
      join (.list (r ++ o)) = some e := by
  unfold encode
  simp only [bind, bind_eq_some_iff]
  constructor
  · rintro ⟨r, hr, o, ho, hjoin⟩
    exact ⟨r, o, hr, ho, hjoin⟩
  · rintro ⟨r, o, hr, ho, hjoin⟩
    exact ⟨r, hr, o, ho, hjoin⟩

theorem fields_of_encode_eq (he : h.encode = some e) (he' : h'.encode = some e) :
    h.required = h'.required ∧
      filled h.baseFee h.randomReveal h.mixHash = filled h'.baseFee h'.randomReveal h'.mixHash := by
  obtain ⟨r, o, hr, ho, hjoin⟩ := encode_eq_some.mp he
  obtain ⟨r', o', hr', ho', hjoin'⟩ := encode_eq_some.mp he'
  have hsplit := (split_join hjoin []).symm.trans (split_join hjoin' [])
  have hpayload : r ++ o = r' ++ o' := Item.list.inj (Prod.mk.inj (some.inj hsplit)).1
  have hdec := requiredFormat.decode_encode (total_requiredFormat _) hr o
  rw [hpayload, requiredFormat.decode_encode (total_requiredFormat _) hr' o'] at hdec
  obtain ⟨hreq, hopt⟩ := Prod.mk.inj (some.inj hdec)
  rw [← hopt] at ho
  have hread := (readOptionals_encode ho).symm.trans (readOptionals_encode ho')
  exact ⟨hreq.symm, some.inj hread⟩

theorem encode_congr (hreq : h.required = h'.required)
    (hopt : filled h.baseFee h.randomReveal h.mixHash =
      filled h'.baseFee h'.randomReveal h'.mixHash) : h.encode = h'.encode := by
  unfold encode
  rw [hreq, encodeOptional_filled h.baseFee, encodeOptional_filled h'.baseFee, hopt]

variable {ext ext' : IstanbulExtra}

theorem extract_of_encode {payload vanity : Bytes} (hlen : vanity.length = 32)
    (hpayload : extraCodec.encode ext = some payload) :
    { h with extra := vanity ++ payload }.extractIstanbulExtra = some ext := by
  unfold extractIstanbulExtra
  rw [if_neg (by simp [hlen]), drop_left' hlen]
  exact decodeBytes_encode (total_extraCodec ext) hpayload

def digested (h : FullHeader) (payload : Bytes) : FullHeader :=
  { h.copyHeader with extra := h.extra.take 31 ++ 0 :: payload }

theorem hashInput_of_filtered {f : FullHeader} (hf : h.istanbulFilteredHeader true = some f) :
    h.hashInput = f.encode.getD [] := by
  rw [hashInput, hf, getD_some]

variable {x sig : Bytes} {seals : List Bytes}

theorem writeSeal_eq_ok (hw : h.writeSeal sig = .ok h') :
    h.writeExtra ({ · with proposerSeal := sig }) = .ok h' := by
  unfold writeSeal at hw
  split at hw
  · cases hw
  · exact hw

theorem writeCommittedSeals_eq_ok (hw : h.writeCommittedSeals seals = .ok h') :
    h.writeExtra ({ · with committedSeal := seals }) = .ok h' := by
  unfold writeCommittedSeals at hw
  split at hw
  · cases hw
  · split at hw
    · cases hw
    · exact hw

section

variable (keccak : Bytes → Hash) (hext : h.extractIstanbulExtra = some ext)

include hext

theorem length_of_extract : 32 ≤ h.extra.length := by
  unfold extractIstanbulExtra at hext
  split at hext
  · cases hext
  · omega

theorem encode_of_extract : extraCodec.encode ext = some (h.extra.drop 32) := by
  unfold extractIstanbulExtra at hext
  split at hext
  · cases hext
  · exact (encode_of_decodeBytes hext).2

theorem istanbulFilteredHeader_eq (keepSeal : Bool) :
    ∃ payload, extraCodec.encode (clean keepSeal ext) = some payload ∧
      payload.length + 23 ≤ h.extra.length ∧
      h.istanbulFilteredHeader keepSeal = some (h.digested payload) := by
  have hlen := length_of_extract hext
  obtain ⟨payload, hpayload, hle⟩ := encode_clean (encode_of_extract hext) keepSeal
  have hcopy : h.copyHeader.extractIstanbulExtra = some ext := hext
  have hround : h.copyHeader.setRoundToHeader 0 =
      .ok { h.copyHeader with extra := h.extra.take 31 ++ 0 :: h.extra.drop 32 } := by
    have hlt : 31 < h.copyHeader.extra.length := hlen
    rw [setRoundToHeader, if_pos hlt, set_eq_take_append_cons_drop, if_pos hlt]
    rfl
  rw [length_drop] at hle
  refine ⟨payload, hpayload, by omega, ?_⟩
  simp only [istanbulFilteredHeader, bind, hcopy, hpayload, hround, bind_some,
    Except.toOption, withExtra]
  have htake : (h.extra.take 31 ++ 0 :: h.extra.drop 32).take 32 = h.extra.take 31 ++ [0] := by
    rw [take_append, length_take, min_eq_left (by omega)]
    simp
  rw [htake, append_assoc]
  rfl

section

variable (hext' : { h with extra := x }.extractIstanbulExtra = some ext')
    (hvanity : x.take 31 = h.extra.take 31)

include hext' hvanity

theorem istanbulFilteredHeader_congr {keepSeal : Bool}
    (hclean : clean keepSeal ext' = clean keepSeal ext) :
    { h with extra := x }.istanbulFilteredHeader keepSeal = h.istanbulFilteredHeader keepSeal := by
  obtain ⟨payload, hpayload, -, hf⟩ := istanbulFilteredHeader_eq hext keepSeal
  obtain ⟨payload', hpayload', -, hf'⟩ := istanbulFilteredHeader_eq hext' keepSeal
  rw [hclean, hpayload] at hpayload'
  cases hpayload'
  rw [hf, hf', digested, digested, hvanity]
  rfl

theorem hash_congr (hclean : clean true ext' = clean true ext) :
    { h with extra := x }.hash keccak = h.hash keccak := by
  obtain ⟨_, -, -, hf⟩ := istanbulFilteredHeader_eq hext true
  have hf' := (istanbulFilteredHeader_congr hext hext' hvanity hclean).trans hf
  rw [hash, hash, hashInput_of_filtered hf, hashInput_of_filtered hf']

theorem sigHash_congr (hclean : clean false ext' = clean false ext) :
    { h with extra := x }.sigHash keccak = h.sigHash keccak := by
  rw [sigHash, sigHash, sigInput, sigInput, istanbulFilteredHeader_congr hext hext' hvanity hclean]

end

theorem setRoundToHeader_keeps (r : ℤ) :
    ∃ h', h.setRoundToHeader r = .ok h' ∧ h'.hash keccak = h.hash keccak ∧
      h'.sigHash keccak = h.sigHash keccak := by
  have hlen := length_of_extract hext
  have hext' : { h with extra := h.extra.set 31 (UInt8.ofInt r) }.extractIstanbulExtra =
      some ext := by
    unfold extractIstanbulExtra at hext ⊢
    rw [length_set, drop_set_of_lt (by norm_num)]
    exact hext
  have hvanity : (h.extra.set 31 (UInt8.ofInt r)).take 31 = h.extra.take 31 :=
    take_set_of_le (le_refl 31)
  exact ⟨_, if_pos hlen, hash_congr keccak hext hext' hvanity rfl,
    sigHash_congr keccak hext hext' hvanity rfl⟩

theorem writeExtra_eq_ok {update : IstanbulExtra → IstanbulExtra}
    (hw : h.writeExtra update = .ok h') :
    ∃ x, h' = { h with extra := x } ∧ h'.extractIstanbulExtra = some (update ext) ∧
      x.take 31 = h.extra.take 31 := by
  have hlen := length_of_extract hext
  simp only [writeExtra, hext] at hw
  split at hw
  · cases hw
  · next payload hpayload =>
    cases hw
    have hvanity : (h.extra.take 32).length = 32 := by
      rw [length_take]
      omega
    refine ⟨_, rfl, extract_of_encode hvanity hpayload, ?_⟩
    rw [take_append_of_le_length (by omega), take_take]
    rfl

theorem writeCommittedSeals_keeps (hw : h.writeCommittedSeals seals = .ok h') :
    h'.hash keccak = h.hash keccak ∧ h'.sigHash keccak = h.sigHash keccak ∧
      h'.extractIstanbulExtra = some { ext with committedSeal := seals } := by
  obtain ⟨x, rfl, hext', hvanity⟩ := writeExtra_eq_ok hext (writeCommittedSeals_eq_ok hw)
  exact ⟨hash_congr keccak hext hext' hvanity rfl, sigHash_congr keccak hext hext' hvanity rfl,
    hext'⟩

theorem writeSeal_keeps (hw : h.writeSeal sig = .ok h') :
    h'.sigHash keccak = h.sigHash keccak ∧
      h'.extractIstanbulExtra = some { ext with proposerSeal := sig } := by
  obtain ⟨x, rfl, hext', hvanity⟩ := writeExtra_eq_ok hext (writeSeal_eq_ok hw)
  exact ⟨sigHash_congr keccak hext hext' hvanity rfl, hext'⟩

end

variable (keccak : Bytes → Hash)

/-- What the engine reads of the header. -/
def toHeader (h : FullHeader) : Header where
  number := (h.number.getD 0).toNat
  parentHash := h.parentHash
  hash := h.hash keccak
  sigHash := h.sigHash keccak
  extra := h.extractIstanbulExtra
  mixHash := h.mixHash
  vote := h.vote

theorem toHeader_writeCommittedSeals (hw : h.writeCommittedSeals seals = .ok h') :
    Kaia.writeCommittedSeals (h.toHeader keccak) seals = .ok (h'.toHeader keccak) := by
  have hwrite := writeCommittedSeals_eq_ok hw
  rcases hext : h.extractIstanbulExtra with _ | ext
  · rw [writeExtra, hext] at hwrite
    cases hwrite
  obtain ⟨hhash, hsig, hext'⟩ := writeCommittedSeals_keeps keccak hext hw
  obtain ⟨x, rfl, -, -⟩ := writeExtra_eq_ok hext hwrite
  unfold FullHeader.writeCommittedSeals at hw
  unfold Kaia.writeCommittedSeals
  split at hw
  · cases hw
  · next hne =>
    split at hw
    · cases hw
    · next hlen =>
      rw [if_neg hne, if_neg hlen]
      simp only [toHeader, hext, hext', hhash, hsig]

def size (h : FullHeader) : ℕ :=
  h.extra.length + h.governance.length + h.vote.length +
    (toBytes (h.blockScore.getD 0).toNat).length + (toBytes (h.number.getD 0).toNat).length +
    (toBytes (h.time.getD 0).toNat).length + (toBytes (h.baseFee.getD 0).toNat).length +
    (h.randomReveal.getD []).length + (h.mixHash.getD []).length

/-- A header in memory without negative integers. -/
structure Encodable (h : FullHeader) : Prop where
  blockScore : 0 ≤ h.blockScore.getD 0
  number : 0 ≤ h.number.getD 0
  time : 0 ≤ h.time.getD 0
  baseFee : 0 ≤ h.baseFee.getD 0
  size : h.size ≤ maxAlloc

theorem hashInput_of_negative (hext : h.extractIstanbulExtra = some ext)
    (hneg : h.number.getD 0 < 0) : h.hashInput = [] := by
  obtain ⟨payload, -, -, hf⟩ := istanbulFilteredHeader_eq hext true
  have hint : int.encode (h.number.getD 0) = none := by
    rw [int, encode_refine, if_neg (not_le.mpr hneg), bind_none]
  have hrequired : requiredFormat.encode (h.digested payload).required = none := by
    iterate 7 apply encode_pair_eq_none
    exact congrArg (bind · _) hint
  have hnone : (h.digested payload).encode = none := by
    rw [FullHeader.encode, hrequired]
    rfl
  rw [hashInput_of_filtered hf, hnone, getD_none]

/-- What the digest commits to; nil integers, and nil fields before one that is set, are zero. -/
def content (h : FullHeader) (ext : IstanbulExtra) : FullHeader × IstanbulExtra :=
  let fields := filled h.baseFee h.randomReveal h.mixHash
  ({ h.copyHeader with
      extra := h.extra.take 31
      baseFee := fields.1
      randomReveal := fields.2.1
      mixHash := fields.2.2 }, clean true ext)

theorem sized_required (hblockScore : 0 ≤ h.blockScore.getD 0) (hnumber : 0 ≤ h.number.getD 0)
    (htime : 0 ≤ h.time.getD 0) (hsize : h.size < 2 ^ 60) :
    requiredFormat.Sized h.required (h.size + 1000) := by
  unfold size at hsize ⊢
  have hbloom : (array 2048 256 rfl).Sized h.bloom 265 :=
    sized_array (w := 2048) (n := 256) rfl (by norm_num) h.bloom
  have hgas : (uint 8).Sized h.gasUsed.toNat 17 :=
    sized_uint (n := 8) (by norm_num) h.gasUsed.toNat_lt
  have hfos : (uint 1).Sized h.timeFoS.toNat 10 :=
    sized_uint (n := 1) (by norm_num) h.timeFoS.toNat_lt
  have hscore := sized_int hblockScore (by omega)
  have hnum := sized_int hnumber (by omega)
  have htim := sized_int htime (by omega)
  have hextra := sized_bytes (b := h.extra) (by omega)
  have hgov := sized_bytes (b := h.governance) (by omega)
  have hvote := sized_bytes (b := h.vote) (by omega)
  have hall := (sized_hash h.parentHash).pair <| (sized_address h.rewardbase).pair <|
    (sized_hash h.root).pair <| (sized_hash h.txHash).pair <| (sized_hash h.receiptHash).pair <|
      hbloom.pair <| hscore.pair <| hnum.pair <| hgas.pair <| htim.pair <| hfos.pair <|
        hextra.pair <| hgov.pair hvote
  apply hall.mono
  linarith

theorem sized_optional (hbaseFee : 0 ≤ h.baseFee.getD 0) (hsize : h.size < 2 ^ 60) :
    ∃ o, encodeOptional h.baseFee h.randomReveal h.mixHash = some o ∧
      o.length ≤ h.size + 27 := by
  unfold size at hsize ⊢
  have hfee := sized_int hbaseFee (by omega)
  have hreveal := sized_bytes (b := h.randomReveal.getD []) (by omega)
  have hmix := sized_bytes (b := h.mixHash.getD []) (by omega)
  generalize h.baseFee = baseFee at *
  generalize h.randomReveal = randomReveal at *
  generalize h.mixHash = mixHash at *
  unfold encodeOptional
  split
  · exact ⟨[], rfl, Nat.zero_le _⟩
  · obtain ⟨o, ho, hlen⟩ := hfee
    exact ⟨o, ho, by omega⟩
  · obtain ⟨o, ho, hlen⟩ := hfee.pair hreveal
    exact ⟨o, ho, by omega⟩
  · obtain ⟨o, ho, hlen⟩ := hfee.pair (hreveal.pair hmix)
    exact ⟨o, ho, by omega⟩

theorem exists_encode (hblockScore : 0 ≤ h.blockScore.getD 0) (hnumber : 0 ≤ h.number.getD 0)
    (htime : 0 ≤ h.time.getD 0) (hbaseFee : 0 ≤ h.baseFee.getD 0) (hsize : h.size < 2 ^ 60) :
    ∃ e, h.encode = some e := by
  obtain ⟨r, hr, hrlen⟩ := sized_required hblockScore hnumber htime hsize
  obtain ⟨o, ho, holen⟩ := sized_optional hbaseFee hsize
  obtain ⟨e, he, -⟩ := join_list_sized (r ++ o) (by
    rw [length_append]
    omega)
  exact ⟨e, encode_eq_some.mpr ⟨r, o, hr, ho, he⟩⟩

theorem Encodable.filtered (henc : h.Encodable) (hext : h.extractIstanbulExtra = some ext) :
    ∃ payload, extraCodec.encode (clean true ext) = some payload ∧
      (h.digested payload).encode = some h.hashInput := by
  obtain ⟨payload, hpayload, hlen, hf⟩ := istanbulFilteredHeader_eq hext true
  have hsize : (h.digested payload).size < 2 ^ 60 := by
    have hmax : maxAlloc = 281474976710656 := rfl
    have hle := henc.size
    have hextra : (h.extra.take 31 ++ 0 :: payload).length ≤ h.extra.length + 9 := by
      rw [length_append, length_take, length_cons]
      omega
    simp only [FullHeader.size, digested, copyHeader, getD_some] at hle ⊢
    omega
  obtain ⟨e, he⟩ :=
    exists_encode (h := h.digested payload) henc.blockScore henc.number henc.time henc.baseFee hsize
  refine ⟨payload, hpayload, ?_⟩
  rw [hashInput_of_filtered hf, he, getD_some]

theorem hashInput_eq_iff (hext : h.extractIstanbulExtra = some ext)
    (hext' : h'.extractIstanbulExtra = some ext') (henc : h.Encodable) (henc' : h'.Encodable) :
    h.hashInput = h'.hashInput ↔ h.content ext = h'.content ext' := by
  obtain ⟨payload, hpayload, he⟩ := henc.filtered hext
  obtain ⟨payload', hpayload', he'⟩ := henc'.filtered hext'
  have hlen := length_of_extract hext
  have hlen' := length_of_extract hext'
  constructor
  · intro hinput
    rw [← hinput] at he'
    obtain ⟨hreq, hopt⟩ := fields_of_encode_eq he he'
    simp only [required, digested, copyHeader, getD_some, Prod.mk.injEq, UInt64.toNat_inj,
      UInt8.toNat_inj] at hreq hopt
    obtain ⟨hparent, hbase, hroot, htx, hreceipt, hbloom, hscore, hnumber, hgas, htime, hfos, hextra,
      hgov, hvote⟩ := hreq
    obtain ⟨hvanity, hrest⟩ := append_inj hextra (by
      rw [length_take, length_take]
      omega)
    cases hrest
    have hclean := encode_injective (total_extraCodec _) (total_extraCodec _) hpayload hpayload'
    simp only [content, copyHeader, hparent, hbase, hroot, htx, hreceipt, hbloom, hscore, hnumber,
      hgas, htime, hfos, hvanity, hgov, hvote, hopt, hclean]
  · intro hcontent
    simp only [content, copyHeader, Prod.mk.injEq, FullHeader.mk.injEq, some.injEq] at hcontent
    obtain ⟨⟨hparent, hbase, hroot, htx, hreceipt, hbloom, hscore, hnumber, hgas, htime, hfos,
      hvanity, hgov, hvote, hopt⟩, hclean⟩ := hcontent
    rw [hclean, hpayload'] at hpayload
    cases hpayload
    have hencode : (h.digested payload).encode = (h'.digested payload).encode := by
      apply encode_congr
      · simp only [required, digested, copyHeader, getD_some, hparent, hbase, hroot, htx,
          hreceipt, hbloom, hscore, hnumber, hgas, htime, hfos, hvanity, hgov, hvote]
      · exact Prod.ext hopt.1 (Prod.ext hopt.2.1 hopt.2.2)
    rw [he, he'] at hencode
    exact some.inj hencode

/-- The digests skip round and seals, are kept by what is written, and commit to everything else. -/
theorem digests_skip_round_and_seals (keccak : Bytes → Hash) (h : FullHeader) (ext : IstanbulExtra)
    (hext : h.extractIstanbulExtra = some ext) :
    (∀ r, ∃ h', h.setRoundToHeader r = .ok h' ∧ h'.hash keccak = h.hash keccak ∧
      h'.sigHash keccak = h.sigHash keccak) ∧
    (∀ seals h', h.writeCommittedSeals seals = .ok h' →
      h'.hash keccak = h.hash keccak ∧ h'.sigHash keccak = h.sigHash keccak ∧
        h'.extractIstanbulExtra = some { ext with committedSeal := seals }) ∧
    (∀ sig h', h.writeSeal sig = .ok h' →
      h'.sigHash keccak = h.sigHash keccak ∧
        h'.extractIstanbulExtra = some { ext with proposerSeal := sig }) ∧
    ∀ (h' : FullHeader) (ext' : IstanbulExtra), h'.extractIstanbulExtra = some ext' →
      h.Encodable → h'.Encodable →
      (h.hashInput = h'.hashInput ↔ h.content ext = h'.content ext') := by
  refine ⟨setRoundToHeader_keeps keccak hext, ?_, ?_, ?_⟩
  · intro seals h' hw
    exact writeCommittedSeals_keeps keccak hext hw
  · intro sig h' hw
    exact writeSeal_keeps keccak hext hw
  · intro h' ext' hext' henc henc'
    exact hashInput_eq_iff hext hext' henc henc'

/-- A header without validators and seals. -/
def bare : FullHeader where
  parentHash := 0
  rewardbase := 0
  root := 0
  txHash := 0
  receiptHash := 0
  bloom := 0
  blockScore := some 1
  number := some 1
  gasUsed := 0
  time := some 0
  timeFoS := 0
  extra := List.replicate 32 0 ++ [0xC3, 0xC0, 0x80, 0xC0]
  governance := []
  vote := []
  baseFee := none
  randomReveal := none
  mixHash := none

theorem digests_of_bare :
    (∃ h', bare.writeCommittedSeals [List.replicate 65 1] = .ok h' ∧ h' ≠ bare ∧
      h'.hash (fun b => .ofNat 256 b.length) = bare.hash fun b => .ofNat 256 b.length) ∧
    (∃ h', bare.writeSeal (List.replicate 65 1) = .ok h' ∧ h' ≠ bare ∧
      h'.sigHash (fun b => .ofNat 256 b.length) = bare.sigHash fun b => .ofNat 256 b.length) ∧
    bare.hashInput ≠ { bare with number := some 2 }.hashInput := by
  have hext : bare.extractIstanbulExtra = some ⟨[], [], []⟩ := by decide +kernel
  have henc : bare.Encodable := by
    constructor <;> decide +kernel
  have henc' : { bare with number := some 2 }.Encodable := by
    constructor <;> decide +kernel
  obtain ⟨-, hseals, hseal, hbinding⟩ :=
    digests_skip_round_and_seals (fun b => .ofNat 256 b.length) bare ⟨[], [], []⟩ hext
  refine ⟨?_, ?_, ?_⟩
  · have hw : bare.writeCommittedSeals [replicate 65 1] =
        .ok (bare.withExtra ([0xF8, 0x47, 0xC0, 0x80, 0xF8, 0x43, 0xB8, 0x41] ++
          replicate 65 1)) := by
      decide +kernel
    exact ⟨_, hw, by decide +kernel, (hseals _ _ hw).1⟩
  · have hw : bare.writeSeal (replicate 65 1) =
        .ok (bare.withExtra ([0xF8, 0x45, 0xC0, 0xB8, 0x41] ++ replicate 65 1 ++ [0xC0])) := by
      decide +kernel
    exact ⟨_, hw, by decide +kernel, (hseal _ _ hw).1⟩
  · intro heq
    have hcontent :=
      (hbinding { bare with number := some 2 } ⟨[], [], []⟩ hext henc henc').mp heq
    exact absurd hcontent (by decide +kernel)

theorem toHeader_seals_bare :
    let keccak : Bytes → Hash := fun b => .ofNat 256 b.length
    ∃ h', bare.writeCommittedSeals [replicate 65 1] = .ok h' ∧
      Kaia.writeCommittedSeals (bare.toHeader keccak) [replicate 65 1] =
        .ok (h'.toHeader keccak) := by
  intro keccak
  have hw : bare.writeCommittedSeals [replicate 65 1] =
      .ok (bare.withExtra ([0xF8, 0x47, 0xC0, 0x80, 0xF8, 0x43, 0xB8, 0x41] ++
        replicate 65 1)) := by
    decide +kernel
  exact ⟨_, hw, toHeader_writeCommittedSeals keccak hw⟩

def revealing (baseFee : Option ℤ) : FullHeader :=
  { bare with baseFee, randomReveal := some [1] }

def negative (parentHash : Hash) : FullHeader :=
  { bare with parentHash, number := some (-1) }

/-- A nil base fee is hashed like zero before a set field, a negative number like no bytes. -/
theorem digest_misses_nil_and_negative :
    (revealing none ≠ revealing (some 0) ∧
      (revealing none).hashInput = (revealing (some 0)).hashInput) ∧
    negative 0 ≠ negative 1 ∧ (negative 0).hashInput = (negative 1).hashInput := by
  constructor
  · have hext : (revealing none).extractIstanbulExtra = some ⟨[], [], []⟩ := by decide +kernel
    have hext' : (revealing (some 0)).extractIstanbulExtra = some ⟨[], [], []⟩ := by decide +kernel
    have henc : (revealing none).Encodable := by
      constructor <;> decide +kernel
    have henc' : (revealing (some 0)).Encodable := by
      constructor <;> decide +kernel
    exact ⟨by decide +kernel, (hashInput_eq_iff hext hext' henc henc').mpr (by decide +kernel)⟩
  · have hext : (negative 0).extractIstanbulExtra = some ⟨[], [], []⟩ := by decide +kernel
    have hext' : (negative 1).extractIstanbulExtra = some ⟨[], [], []⟩ := by decide +kernel
    rw [hashInput_of_negative hext (by decide), hashInput_of_negative hext' (by decide)]
    exact ⟨by decide +kernel, rfl⟩

end FullHeader

end Kaia
