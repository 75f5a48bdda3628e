import Kaia.Transaction.Serializer

/-! # One encoding per transaction

Every field of a transaction has one encoding. What stands in front of the fields has not: a type
may be written with two bytes or not at all.
-/

namespace Kaia

open Foundation Rlp
open Codec hiding none

namespace Transaction

variable {b rest e : Bytes} {tx : Transaction}

/-! ## Types -/

theorem toNat_ne_zero_of_head {x : UInt8} {s : Bytes} (h : (x :: s).head? ≠ some 0) :
    x.toNat ≠ 0 := by
  intro hzero
  refine h ?_
  rw [List.head?_cons, ← x.ofNat_toNat, hzero]
  rfl

variable {k : ℕ} {t : TxType}

theorem encode_uint_two (h : (uint 2).encode k = some e) :
    (k = 0 ∧ e = [0x80]) ∨ (0 < k ∧ k < 0x80 ∧ e = [UInt8.ofNat k]) ∨
      (0x80 ≤ k ∧ k < 0x100 ∧ ∃ p, e = 0x81 :: p) ∨ (0x100 ≤ k ∧ ∃ p, e = 0x82 :: p) := by
  rw [encode_uint] at h
  split at h
  · next hk =>
    have hlen := length_toBytes_le_iff.mpr hk
    have hhead := head?_toBytes k
    have hof := ofBytes_toBytes k
    generalize toBytes k = s at h hlen hhead hof
    match s with
    | [] =>
      cases h
      exact .inl ⟨hof.symm, rfl⟩
    | [x] =>
      rw [ofBytes_singleton] at hof
      have hx := x.toNat_lt
      have hpos := toNat_ne_zero_of_head hhead
      by_cases hsmall : x.toNat < 0x80
      · have he : bytes.encode [x] = some [x] := by
          show ((if x.toNat < 0x80 then _ else _ : Option Item)).bind join = _
          rw [if_pos hsmall]
          simp [join, hsmall]
        cases he.symm.trans h
        exact .inr (.inl ⟨by omega, by omega, by rw [← hof, UInt8.ofNat_toNat]⟩)
      · have he : bytes.encode [x] = some [0x81, x] := by
          show ((if x.toNat < 0x80 then _ else _ : Option Item)).bind join = _
          rw [if_neg hsmall]
          rfl
        cases he.symm.trans h
        exact .inr (.inr (.inl ⟨by omega, by omega, [x], rfl⟩))
    | [x, y] =>
      have hpos := toNat_ne_zero_of_head hhead
      cases h
      refine .inr (.inr (.inr ⟨?_, [x, y], rfl⟩))
      have hpair : ofBytes [x, y] = y.toNat + 256 * x.toNat := by
        rw [← ofBytes_singleton x]
        exact ofBytes_append_singleton [x] y
      omega
    | _ :: _ :: _ :: _ => simp at hlen
  · cases h

theorem ofCode_eq_some {n : ℕ} (h : TxType.ofCode n = some t) : t.code = n := by
  simpa using List.find?_some h

theorem ofCode_code (t : TxType) : TxType.ofCode t.code = some t := by
  cases t <;> rfl

theorem type_cases (t : TxType) : t = .legacyTransaction ∨
    (t ≠ .legacyTransaction ∧ t.isEthTypedTransaction = false ∧ 0 < t.code ∧ t.code < 0x78) ∨
      (t ≠ .legacyTransaction ∧ t.isEthTypedTransaction = true ∧
        (t.code = 0x7801 ∨ t.code = 0x7802)) := by
  cases t <;> decide

/-! ## Decoding -/

/-- The values of all fields are read as they were written. -/
def Readable (tx : Transaction) : Prop := TxField.ReadableVals tx.type.fields tx.data

theorem dom_dataFormat : (dataFormat tx.type).Dom tx.data ↔ tx.Readable :=
  TxField.dom_valsFormat _ _

theorem decodeData_eq_ok (h : decodeData t b = .ok (tx, rest)) :
    tx.type = t ∧ tx.Readable ∧ ∃ d, (dataFormat tx.type).encode tx.data = some d ∧ b = d ++ rest := by
  unfold decodeData at h
  split at h
  · cases h
  · next data rest' hdec =>
    cases h
    obtain ⟨hdom, d, hd, rfl⟩ := (dataFormat t).encode_decode hdec
    exact ⟨rfl, dom_dataFormat.mp hdom, d, hd, rfl⟩

theorem decodeData_encode (htx : tx.Readable) (h : (dataFormat tx.type).encode tx.data = some e) :
    decodeData tx.type e = .ok (tx, []) := by
  unfold decodeData
  rw [decode_of_encode (dom_dataFormat.mpr htx) h]

theorem split_data (h : (dataFormat tx.type).encode tx.data = some e) :
    ∃ payload, split e = some (.list payload, []) := by
  obtain ⟨payload, -, hjoin⟩ := Option.bind_eq_some_iff.mp h
  exact ⟨payload, split_of_join hjoin⟩

theorem unmarshalBinary_eq_ok : unmarshalBinary b = .ok tx ↔
    decodeTxInternalData b = .ok (tx, []) ∧ tx.validateSignature = true := by
  unfold unmarshalBinary decodeRLP
  rcases decodeTxInternalData b with err | ⟨tx', rest⟩
  · simp [bind, Except.bind]
  · by_cases hsig : tx'.validateSignature = true <;> by_cases hrest : rest = [] <;>
      simp [bind, Except.bind, pure, Except.pure, hsig, hrest]
    · rintro rfl
      exact hsig
    · rintro rfl
      simpa using hsig

theorem decodeTxInternalData_cases (h : decodeTxInternalData b = .ok (tx, [])) :
    tx.Readable ∧ ∃ d, (dataFormat tx.type).encode tx.data = some d ∧
      ((tx.type = .legacyTransaction ∧ readUint 2 b = (none, d)) ∨
        (∃ e, (uint 2).encode tx.type.code = some e ∧ b = e ++ d) ∨
          ∃ k e, (uint 2).encode k = some e ∧ tx.type.code = 0x7800 ||| k ∧
            b = 0x78 :: (e ++ d)) := by
  unfold decodeTxInternalData at h
  split at h
  · next r hread =>
    obtain ⟨htype, htx, d, hd, rfl⟩ := decodeData_eq_ok h
    rw [List.append_nil] at hread
    exact ⟨htx, d, hd, .inl ⟨htype, hread⟩⟩
  · next k r hread =>
    obtain ⟨-, e, he, rfl⟩ := (uint 2).encode_decode ((readUint_eq_some two_pos).mp hread)
    obtain ⟨⟨k', r'⟩, henvelope, h₁⟩ := bind_eq_ok.mp h
    dsimp only at h₁
    split at h₁
    · cases h₁
    · next t hcode =>
      obtain ⟨rfl, htx, d, hd, rfl⟩ := decodeData_eq_ok h₁
      rw [List.append_nil] at henvelope
      have hcode := ofCode_eq_some hcode
      refine ⟨htx, d, hd, .inr ?_⟩
      unfold decodeEnvelope at henvelope
      split at henvelope
      · next hk =>
        subst hk
        split at henvelope
        · cases henvelope
        · next k₂ r₂ hread₂ =>
          cases henvelope
          obtain ⟨-, e₂, he₂, rfl⟩ :=
            (uint 2).encode_decode ((readUint_eq_some two_pos).mp hread₂)
          have he78 : (uint 2).encode 0x78 = some [0x78] := rfl
          cases he78.symm.trans he
          exact .inr ⟨k₂, e₂, he₂, hcode, rfl⟩
      · cases henvelope
        exact .inl ⟨e, hcode ▸ he, rfl⟩

/-! ## Canonical heads -/

/-- The type is not written with a head of its own, neither in front nor behind the envelope. -/
def canonicalHead : Bytes → Bool
  | [] => true
  | t :: b => t ≠ 0x80 && t ≠ 0x81 && t ≠ 0x82 && !(t == 0x78 && b.head? == some 0x82)

theorem encodeRLP_legacy (htype : tx.type = .legacyTransaction)
    (h : (dataFormat tx.type).encode tx.data = some e) : tx.encodeRLP = some e := by
  rw [encodeRLP, h, Option.bind_some, if_pos htype]

theorem encodeRLP_ethereum (hlegacy : tx.type ≠ .legacyTransaction)
    (heth : tx.type.isEthTypedTransaction = true)
    (h : (dataFormat tx.type).encode tx.data = some e) :
    tx.encodeRLP = some (0x78 :: UInt8.ofNat tx.type.code :: e) := by
  rw [encodeRLP, h, Option.bind_some, if_neg hlegacy, if_pos heth]
  rfl

theorem encode_small (hpos : 0 < k) (hlt : k < 0x80) :
    (uint 2).encode k = some [UInt8.ofNat k] := by
  obtain ⟨e, he, -⟩ := sized_uint (n := 2) (k := k) (by norm_num) (by omega)
  rcases encode_uint_two he with ⟨hzero, -⟩ | ⟨-, -, rfl⟩ | ⟨hge, -⟩ | ⟨hge, -⟩
  · omega
  · exact he
  · omega
  · omega

theorem readUint_small (hpos : 0 < k) (hlt : k < 0x80) (b : Bytes) :
    readUint 2 (UInt8.ofNat k :: b) = (some k, b) :=
  (readUint_eq_some two_pos).mpr
    ((uint 2).decode_encode (total_uint 2 _) (encode_small hpos hlt) b)

theorem encodeRLP_typed (hlegacy : tx.type ≠ .legacyTransaction)
    (heth : tx.type.isEthTypedTransaction = false) (hpos : 0 < tx.type.code)
    (hlt : tx.type.code < 0x78) (h : (dataFormat tx.type).encode tx.data = some e) :
    tx.encodeRLP = some (UInt8.ofNat tx.type.code :: e) := by
  rw [encodeRLP, h, Option.bind_some, if_neg hlegacy, if_neg (by simp [heth]),
    encode_small hpos (by omega)]
  rfl

theorem canonicalHead_of_list {payload : Bytes} (h : split b = some (.list payload, rest)) :
    canonicalHead b = true := by
  cases b with
  | nil => rfl
  | cons t b =>
    have hge : 0xC0 ≤ t.toNat := by
      by_contra hlt
      rw [split] at h
      split_ifs at h
      · cases h
      · obtain ⟨p, hp, -⟩ := takePayload_eq_some.mp h
        cases hp
      · obtain ⟨p, hp, -⟩ := takeLong_eq_some (by omega) h
        cases hp
      all_goals omega
    have hne (x : UInt8) (hx : x.toNat < 0xC0) : t ≠ x := by
      rintro rfl
      omega
    simp [canonicalHead, hne 0x80 (by decide), hne 0x81 (by decide), hne 0x82 (by decide),
      hne 0x78 (by decide)]

theorem canonicalHead_short {t : UInt8} (h : 0x80 < t.toNat) (hle : t.toNat ≤ 0x82) (b : Bytes) :
    canonicalHead (t :: b) = false := by
  have hcases : t = 0x81 ∨ t = 0x82 := by
    rw [← UInt8.toNat_inj, ← UInt8.toNat_inj]
    show t.toNat = 0x81 ∨ t.toNat = 0x82
    omega
  rcases hcases with rfl | rfl <;> simp [canonicalHead]

theorem envelope_small (hk : k < 0x100) (hcode : 0x7800 ||| k = 0x7801 ∨ 0x7800 ||| k = 0x7802) :
    k = 1 ∨ k = 2 := by
  revert k
  decide +kernel

/-- What is accepted is written again as it was exactly if its head is canonical. -/
theorem encodeRLP_iff_canonicalHead (h : decodeTxInternalData b = .ok (tx, [])) :
    tx.encodeRLP = some b ↔ canonicalHead b = true := by
  obtain ⟨-, d, hd, hcases⟩ := decodeTxInternalData_cases h
  rcases hcases with ⟨htype, hread⟩ | ⟨e, he, rfl⟩ | ⟨k, e, he, hcode, rfl⟩
  · -- no type was read
    rw [encodeRLP_legacy htype hd]
    rcases readUint_eq_none (by norm_num) hread with rfl | ⟨t, payload, rfl, hgt, hle⟩
    · obtain ⟨payload, hsplit⟩ := split_data hd
      simp [canonicalHead_of_list hsplit]
    · have hne : d ≠ t :: (payload ++ d) := by
        intro heq
        have := congrArg List.length heq
        simp at this
        omega
      simp [hne, canonicalHead_short hgt hle]
  · -- a type was read, and there was no envelope
    rcases type_cases tx.type with htype | ⟨hlegacy, heth, hpos, hlt⟩ | ⟨hlegacy, heth, hcode⟩
    · rw [encodeRLP_legacy htype hd]
      have hzero : (uint 2).encode tx.type.code = some [0x80] := by rw [htype]; rfl
      cases hzero.symm.trans he
      have hne : d ≠ 0x80 :: d := by simp
      simp [canonicalHead, hne]
    · rw [encodeRLP_typed hlegacy heth hpos hlt hd]
      cases (encode_small hpos (by omega)).symm.trans he
      have htoNat : (UInt8.ofNat tx.type.code).toNat = tx.type.code := toNat_ofNat_head (by omega)
      have hne (x : UInt8) (hx : 0x78 ≤ x.toNat) : UInt8.ofNat tx.type.code ≠ x := by
        rintro rfl
        omega
      simp [canonicalHead, hne 0x80 (by decide), hne 0x81 (by decide), hne 0x82 (by decide),
        hne 0x78 (by decide)]
    · rw [encodeRLP_ethereum hlegacy heth hd]
      rcases encode_uint_two he with ⟨hzero, -⟩ | ⟨-, hlt, -⟩ | ⟨-, hlt, -⟩ | ⟨-, p, rfl⟩
      · omega
      · omega
      · omega
      · simp [canonicalHead]
  · -- a type was read behind the envelope
    have hge : 0x7800 ≤ tx.type.code := hcode ▸ Nat.left_le_or
    rcases type_cases tx.type with htype | ⟨-, -, -, hlt⟩ | ⟨hlegacy, heth, htype⟩
    · rw [htype] at hge
      exact absurd hge (by decide)
    · omega
    · rw [encodeRLP_ethereum hlegacy heth hd]
      rcases encode_uint_two he with ⟨rfl, -⟩ | ⟨-, hlt, rfl⟩ | ⟨hge, hlt, -⟩ | ⟨-, p, rfl⟩
      · rw [hcode] at htype
        exact absurd htype (by decide)
      · rcases envelope_small (by omega) (hcode ▸ htype) with rfl | rfl <;>
          · rw [hcode]
            simp [canonicalHead]
      · rcases envelope_small hlt (hcode ▸ htype) with rfl | rfl <;> omega
      · rcases htype with htype | htype <;> rw [htype] <;> simp [canonicalHead]

theorem decodeTxInternalData_encodeRLP (htx : tx.Readable) (h : tx.encodeRLP = some e) :
    decodeTxInternalData e = .ok (tx, []) := by
  obtain ⟨d, hd, -⟩ := Option.bind_eq_some_iff.mp h
  have hdata := decodeData_encode htx hd
  rcases type_cases tx.type with htype | ⟨hlegacy, heth, hpos, hlt⟩ | ⟨hlegacy, heth, hcode⟩
  · obtain rfl : d = e := Option.some.inj ((encodeRLP_legacy htype hd).symm.trans h)
    obtain ⟨payload, hsplit⟩ := split_data hd
    have hread : readUint 2 d = (none, d) := by rw [readUint, hsplit]
    rw [decodeTxInternalData, hread]
    exact htype ▸ hdata
  · obtain rfl := Option.some.inj ((encodeRLP_typed hlegacy heth hpos hlt hd).symm.trans h)
    have henvelope : decodeEnvelope tx.type.code d = .ok (tx.type.code, d) :=
      if_neg fun h78 => absurd h78 hlt.ne
    rw [decodeTxInternalData, readUint_small hpos (by omega)]
    dsimp only
    rw [henvelope]
    simp only [bind, Except.bind, ofCode_code, hdata]
  · obtain rfl := Option.some.inj ((encodeRLP_ethereum hlegacy heth hd).symm.trans h)
    have hread : readUint 2 (0x78 :: UInt8.ofNat tx.type.code :: d) =
        (some 0x78, UInt8.ofNat tx.type.code :: d) := readUint_small (by norm_num) (by norm_num) _
    have henvelope : decodeEnvelope 0x78 (UInt8.ofNat tx.type.code :: d) =
        .ok (tx.type.code, d) := by
      rw [decodeEnvelope, if_pos (show 0x78 = TxType.ethereumTxTypeEnvelope from rfl)]
      rcases hcode with hcode | hcode <;> rw [hcode]
      · rw [show UInt8.ofNat 0x7801 = UInt8.ofNat 1 from rfl, readUint_small (by norm_num) (by norm_num)]
        rfl
      · rw [show UInt8.ofNat 0x7802 = UInt8.ofNat 2 from rfl, readUint_small (by norm_num) (by norm_num)]
        rfl
    rw [decodeTxInternalData, hread]
    dsimp only
    rw [henvelope]
    simp only [bind, Except.bind, ofCode_code, hdata]

/-! ## Transactions and byte strings -/

/-- Accepted bytes are written as they were if their head is canonical, and what is written is
accepted if signatures are in range, the key has an encoding and no slice is nil. -/
theorem one_encoding_iff (b : Bytes) (tx : Transaction) :
    (unmarshalBinary b = .ok tx → (tx.encodeRLP = some b ↔ canonicalHead b = true)) ∧
      ∀ e, tx.encodeRLP = some e →
        (unmarshalBinary e = .ok tx ↔ tx.validateSignature = true ∧ tx.Readable) := by
  constructor
  · intro h
    exact encodeRLP_iff_canonicalHead (unmarshalBinary_eq_ok.mp h).1
  · intro e he
    rw [unmarshalBinary_eq_ok]
    constructor
    · rintro ⟨hdec, hsig⟩
      exact ⟨hsig, (decodeTxInternalData_cases hdec).1⟩
    · rintro ⟨hsig, htx⟩
      exact ⟨decodeTxInternalData_encodeRLP htx he, hsig⟩

def plainLegacy : Transaction :=
  ⟨.legacyTransaction, ((0 : ℕ), (0 : ℤ), (0 : ℕ), (none : Option Address), (0 : ℤ), ([] : Bytes),
    (27 : ℕ), (1 : ℕ), (1 : ℕ), ())⟩

def plainLegacyBytes : Bytes := [0xc9, 0x80, 0x80, 0x80, 0x80, 0x80, 0x80, 0x1b, 1, 1]

/-- An account update that someone else pays thirty percent of. -/
def sponsoredUpdate : Transaction :=
  ⟨.feeDelegatedAccountUpdateWithRatio, ((1 : ℕ), (25 : ℤ), (100 : ℕ), (7 : Address), AccountKey.legacy,
    (30 : ℕ), [(⟨37, 1, 1⟩ : TxSignature)], (8 : Address), [(⟨38, 2, 1⟩ : TxSignature)], ())⟩

theorem one_encoding_iff_sponsored : ∃ e, sponsoredUpdate.encodeRLP = some e ∧
    unmarshalBinary e = .ok sponsoredUpdate := by
  refine ⟨_, rfl, ((one_encoding_iff [] sponsoredUpdate).2 _ rfl).mpr ⟨by decide +kernel, ?_⟩⟩
  exact ⟨trivial, trivial, trivial, trivial, ⟨.legacy, by decide⟩, trivial, trivial, trivial, trivial,
    trivial⟩

/-- The type of a legacy transaction is accepted in front of it, and not written again. -/
theorem legacy_type_accepted : ∃ tx, unmarshalBinary (0x80 :: plainLegacyBytes) = .ok tx ∧
    tx.encodeRLP = some plainLegacyBytes ∧ plainLegacyBytes ≠ 0x80 :: plainLegacyBytes :=
  ⟨plainLegacy, unmarshalBinary_eq_ok.mpr ⟨rfl, by decide +kernel⟩, rfl, by decide⟩

end Transaction

end Kaia
