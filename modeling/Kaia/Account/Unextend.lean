import Kaia.Account.Format

/-! # Accounts can be read again, and unextended

The two formats of a contract differ in the length of the storage root, so what is decoded is
what was encoded, and the counter can be removed from the bytes as from the account.
-/

namespace Kaia

open Foundation Rlp SmartContractAccount
open Option (bind_some bind_eq_some_iff map_eq_some_iff bind_eq_bind)
open Codec hiding none

variable {b rest e : Bytes}

/-! ## The fields of a contract -/

/-- What the root of a format is read from. -/
structure RootLength {ρ : Type} (c : Codec ρ) (n : ℕ) : Prop where
  bytes : ∀ {b rest : Bytes} {r : ρ}, c.decode b = some (r, rest) →
    ∃ s rest', Codec.bytes.decode b = some (s, rest') ∧ s.length = n
  encode : ∀ r : ρ, ∃ s : Bytes, s.length = n ∧ c.encode r = some (UInt8.ofNat (0x80 + n) :: s)

theorem encode_bytes_short {s : Bytes} (h : 1 < s.length) (hlt : s.length < 56) :
    bytes.encode s = some (UInt8.ofNat (0x80 + s.length) :: s) := by
  have hstring : Codec.toString s = some (.string s) := by
    unfold Codec.toString
    split
    · simp at h
    · rfl
  show (Codec.toString s).bind join = _
  rw [hstring, bind_some, join, head, if_pos hlt]
  rfl

theorem rootLength_array {w n : ℕ} (hw : w = 8 * n) (h : 1 < n) (hlt : n < 56) :
    RootLength (array w n hw) n where
  bytes {b rest v} hdec := by
    obtain ⟨⟨s, rest'⟩, hs, hmap⟩ := bind_eq_some_iff.mp hdec
    obtain ⟨v', hv, -⟩ := map_eq_some_iff.mp hmap
    refine ⟨s, rest', hs, ?_⟩
    by_contra hne
    simp [hne] at hv
  encode v := by
    have hlen := length_fixedBytes n v.toNat
    refine ⟨fixedBytes n v.toNat, hlen, ?_⟩
    show bytes.encode (fixedBytes n v.toNat) = _
    rw [encode_bytes_short (by omega) (by omega), hlen]

theorem rootLength_hash : RootLength hashFormat 32 :=
  rootLength_array rfl (by norm_num) (by norm_num)

theorem rootLength_extHash : RootLength ExtHash.format 39 := by
  have harray : RootLength (array 312 39 rfl) 39 :=
    rootLength_array rfl (by norm_num) (by norm_num)
  refine ⟨fun {b rest r} hdec => ?_, fun r => ?_⟩
  · rw [ExtHash.format, decode_refine] at hdec
    obtain ⟨⟨v, rest'⟩, hv, -⟩ := bind_eq_some_iff.mp hdec
    exact harray.bytes hv
  · rw [ExtHash.format, encode_refine, bind_some]
    exact harray.encode r.toBits

namespace SmartContractAccount

variable {ρ : Type} {c : Codec ρ} {common : AccountCommon} {r : ρ} {code : Bytes} {info : ℕ}

theorem decode_serializable {o : AccountCommon × ρ × Bytes × ℕ}
    (h : (serializable c).decode b = some (o, rest)) :
    ∃ payload p₁ p₂, split b = some (.list payload, rest) ∧
      AccountCommon.format.decode payload = some (o.1, p₁) ∧ c.decode p₁ = some (o.2.1, p₂) := by
  obtain ⟨⟨i, rest'⟩, hsplit, hmap⟩ := bind_eq_some_iff.mp h
  cases i with
  | list payload =>
    obtain ⟨o', hdec, heq⟩ := map_eq_some_iff.mp hmap
    cases heq
    obtain ⟨⟨common, p₁⟩, hcommon, hrest⟩ :=
      bind_eq_some_iff.mp (decodeBytes_eq_some.mp hdec)
    obtain ⟨⟨x, p₃⟩, hx, heq⟩ := map_eq_some_iff.mp hrest
    cases heq
    obtain ⟨⟨r, p₂⟩, hr, hrest⟩ := bind_eq_some_iff.mp hx
    obtain ⟨⟨y, p₄⟩, -, heq⟩ := map_eq_some_iff.mp hrest
    cases heq
    exact ⟨payload, p₁, p₂, hsplit, hcommon, hr⟩
  | _ => cases hmap

theorem encode_serializable :
    (serializable c).encode (common, r, code, info) = some e ↔
      ∃ ce re de ie, AccountCommon.format.encode common = some ce ∧ c.encode r = some re ∧
        bytes.encode code = some de ∧ (uint 1).encode info = some ie ∧
          join (.list (ce ++ (re ++ (de ++ ie)))) = some e := by
  rw [serializable, encode_wrap, encode_pair, encode_pair, encode_pair]
  constructor
  · intro h
    obtain ⟨payload, hpayload, hjoin⟩ := bind_eq_some_iff.mp h
    obtain ⟨ce, hce, hmap⟩ := bind_eq_some_iff.mp hpayload
    obtain ⟨x, hx, rfl⟩ := map_eq_some_iff.mp hmap
    obtain ⟨re, hre, hmap⟩ := bind_eq_some_iff.mp hx
    obtain ⟨y, hy, rfl⟩ := map_eq_some_iff.mp hmap
    obtain ⟨de, hde, hmap⟩ := bind_eq_some_iff.mp hy
    obtain ⟨ie, hie, rfl⟩ := map_eq_some_iff.mp hmap
    exact ⟨ce, re, de, ie, hce, hre, hde, hie, hjoin⟩
  · rintro ⟨ce, re, de, ie, hce, hre, hde, hie, hjoin⟩
    simp only [hce, hre, hde, hie, bind_some, Option.map_some, hjoin]

theorem plain_eq_none {o : AccountCommon × ExtHash × Bytes × ℕ} (h : ext.decode b = some (o, rest)) :
    plain.decode b = none := by
  cases hplain : plain.decode b with
  | none => rfl
  | some x =>
    obtain ⟨payload, p₁, p₂, hsplit, hcommon, hroot⟩ := decode_serializable h
    obtain ⟨payload', p₁', p₂', hsplit', hcommon', hroot'⟩ := decode_serializable hplain
    cases hsplit.symm.trans hsplit'
    obtain rfl : p₁ = p₁' := (Prod.mk.inj (Option.some.inj (hcommon.symm.trans hcommon'))).2
    obtain ⟨s, q, hs, hlen⟩ := rootLength_extHash.bytes hroot
    obtain ⟨s', q', hs', hlen'⟩ := rootLength_hash.bytes hroot'
    cases hs.symm.trans hs'
    omega

theorem encode_plain_of_ext {sca : SmartContractAccount}
    (h : ext.encode sca.toSerializableExt = some e) : ∃ p, plain.encode sca.toSerializable = some p := by
  obtain ⟨ce, re, de, ie, hce, hre, hde, hie, hjoin⟩ := encode_serializable.mp h
  obtain ⟨s, hs, hroot⟩ := rootLength_extHash.encode sca.storageRoot
  obtain ⟨s', hs', hroot'⟩ := rootLength_hash.encode sca.storageRoot.unextend
  cases hre.symm.trans hroot
  have hlen := length_lt_of_join_list hjoin
  simp only [List.length_append, List.length_cons] at hlen
  obtain ⟨p, hp, -⟩ := join_list_sized
    (ce ++ (UInt8.ofNat (0x80 + 32) :: s' ++ (de ++ ie)))
    (by simp only [List.length_append, List.length_cons]; omega)
  exact ⟨p, encode_serializable.mpr ⟨ce, _, de, ie, hce, hroot', hde, hie, hp⟩⟩

theorem dom_serializable {ρ : Type} {c : Codec ρ} (hc : c.Total)
    {o : AccountCommon × ρ × Bytes × ℕ} : (serializable c).Dom o ↔ AccountCommon.format.Dom o.1 := by
  constructor
  · intro h
    exact h.1
  · intro h
    exact ⟨h, hc _, total_bytes _, total_uint 1 _⟩

theorem total_extHash : ExtHash.format.Total := Codec.total_refine (Codec.total_array 312 39 rfl) _

theorem split_serializable {ρ : Type} {c : Codec ρ} {o : AccountCommon × ρ × Bytes × ℕ}
    (h : (serializable c).encode o = some e) : ∃ i, split e = some (i, []) ∧ join i = some e := by
  obtain ⟨payload, -, hjoin⟩ := bind_eq_some_iff.mp h
  exact ⟨.list payload, split_of_join hjoin, hjoin⟩

variable {sca : SmartContractAccount}

theorem decodeRLP_ext (hkey : AccountCommon.format.Dom sca.common)
    (h : ext.encode sca.toSerializableExt = some e) : decodeRLP e = some (sca, []) := by
  obtain ⟨i, hsplit, hjoin⟩ := split_serializable h
  have hdec := decode_of_encode ((dom_serializable total_extHash).mpr hkey) h
  simp only [decodeRLP, hsplit, hjoin, ext, hdec, bind_eq_bind, bind_some]
  rfl

theorem decodeRLP_plain (hkey : AccountCommon.format.Dom sca.common)
    (h : plain.encode sca.toSerializable = some e) : decodeRLP e = some (sca.unextend, []) := by
  obtain ⟨i, hsplit, hjoin⟩ := split_serializable h
  have hdec : plain.decode e = some (sca.toSerializable, []) :=
    decode_of_encode ((dom_serializable (total_array 256 32 rfl)).mpr hkey) h
  have hext : ext.decode e = none := by
    cases hext : ext.decode e with
    | none => rfl
    | some x => cases hdec.symm.trans (plain_eq_none hext)
  simp only [decodeRLP, hsplit, hjoin, hext, hdec, bind_eq_bind, bind_some]
  rfl

theorem decodeRLP_encodeRLPExt (hkey : AccountCommon.format.Dom sca.common)
    (h : sca.encodeRLPExt = some e) : decodeRLP e = some (sca, []) := by
  unfold encodeRLPExt at h
  split at h
  · next hzero =>
    rw [decodeRLP_plain hkey h]
    have hcounter : sca.storageRoot.counter = 0 := by simpa [ExtHash.isZeroExtended] using hzero
    have hroot : ExtHash.extendZero sca.storageRoot.unextend = sca.storageRoot := by
      rw [ExtHash.extendZero, ← hcounter]
      rfl
    rw [unextend, hroot]
  · exact decodeRLP_ext hkey h

/-- The bytes are the contract in one of the two formats. -/
def Serializes (sca : SmartContractAccount) (e : Bytes) : Prop :=
  ext.encode sca.toSerializableExt = some e ∨ plain.encode sca.toSerializable = some e

theorem encode_of_item {ρ : Type} {c : Codec ρ} (hc : c.Total) {o : AccountCommon × ρ × Bytes × ℕ}
    {i : Item} {r : Bytes} (hjoin : join i = some e) (h : (serializable c).decode e = some (o, r)) :
    AccountCommon.format.Dom o.1 ∧ (serializable c).encode o = some e := by
  obtain ⟨payload, p₁, p₂, hsplit, -, -⟩ := decode_serializable h
  obtain ⟨-, rfl⟩ := Prod.mk.inj (Option.some.inj (hsplit.symm.trans (split_of_join hjoin)))
  obtain ⟨hdom, e', he', heq⟩ := (serializable c).encode_decode h
  rw [List.append_nil] at heq
  exact ⟨(dom_serializable hc).mp hdom, heq ▸ he'⟩

theorem serializes_of_decodeRLP (h : decodeRLP b = some (sca, rest)) :
    AccountCommon.format.Dom sca.common ∧ ∃ e, sca.Serializes e ∧ b = e ++ rest := by
  obtain ⟨⟨i, rest'⟩, hsplit, h₁⟩ := bind_eq_some_iff.mp h
  obtain ⟨saved, hsaved, h₂⟩ := bind_eq_some_iff.mp h₁
  obtain ⟨e, he, rfl⟩ := join_split hsplit
  obtain rfl : saved = e := Option.some.inj (hsaved.symm.trans he)
  split at h₂
  · next o r hext =>
    cases h₂
    obtain ⟨hdom, henc⟩ := encode_of_item total_extHash he hext
    exact ⟨hdom, saved, .inl henc, rfl⟩
  · next hext =>
    obtain ⟨⟨o, r⟩, hplain, heq⟩ := bind_eq_some_iff.mp h₂
    cases heq
    obtain ⟨hdom, henc⟩ := encode_of_item (total_array 256 32 rfl) he hplain
    exact ⟨hdom, saved, .inr henc, rfl⟩

theorem Serializes.encodeRLP (h : sca.Serializes e) : ∃ p, sca.encodeRLP = some p := by
  rcases h with h | h
  · exact encode_plain_of_ext h
  · exact ⟨e, h⟩

end SmartContractAccount

/-! ## Accounts -/

namespace StoredAccount

def unextend : StoredAccount → StoredAccount
  | .smartContract sca => .smartContract sca.unextend
  | acc => acc

/-- The bytes are a contract in one of the two formats, with its type. -/
def IsSerializedContract (b : Bytes) : Prop :=
  ∃ (sca : SmartContractAccount) (d : Bytes), sca.Serializes d ∧ b = 2 :: d

def Readable : StoredAccount → Prop
  | .legacy .. => True
  | .externallyOwned common => common.key.Encodable
  | .smartContract sca => sca.common.key.Encodable

variable {common : AccountCommon} {x : Bool} {sca : SmartContractAccount} {acc : StoredAccount}

theorem dom_common : AccountCommon.format.Dom common ↔ common.key.Encodable := by
  constructor
  · intro h
    exact (h.2 _ rfl).2.2.2
  · intro h
    refine ⟨trivial, fun x hx => ?_⟩
    cases hx
    exact ⟨total_uint 8 _, total_int _, total_bool _, h⟩

theorem encode_accountType : (uint 1).encode externallyOwnedAccountType = some [1] ∧
    (uint 1).encode smartContractAccountType = some [2] := ⟨rfl, rfl⟩

theorem encodeRLP_externallyOwned :
    encodeRLP x (.externallyOwned common) = some e ↔
      ∃ d, AccountCommon.format.encode common = some d ∧ e = 1 :: d := by
  simp only [encodeRLP, encode_accountType.1, bind_eq_bind, bind_some]
  cases AccountCommon.format.encode common <;> simp [eq_comm]

theorem encodeRLP_smartContract :
    encodeRLP x (.smartContract sca) = some e ↔
      ∃ d, (if x then sca.encodeRLPExt else sca.encodeRLP) = some d ∧ e = 2 :: d := by
  simp only [encodeRLP, encode_accountType.2, bind_eq_bind, bind_some]
  cases x with
  | true => cases sca.encodeRLPExt <;> simp [eq_comm]
  | false => cases sca.encodeRLP <;> simp [eq_comm]

theorem decode_accountType (b : Bytes) : (uint 1).decode (1 :: b) = some (1, b) ∧
    (uint 1).decode (2 :: b) = some (2, b) :=
  ⟨(uint 1).decode_encode (total_uint 1 _) encode_accountType.1 b,
    (uint 1).decode_encode (total_uint 1 _) encode_accountType.2 b⟩

theorem decodeBytes_externallyOwned (hkey : common.key.Encodable)
    (h : AccountCommon.format.encode common = some e) :
    decodeBytes (1 :: e) = .ok (.externallyOwned common) := by
  simp only [decodeBytes, (decode_accountType e).1, decode_of_encode (dom_common.mpr hkey) h]
  rfl

theorem decodeBytes_smartContract (h : decodeRLP e = some (sca, [])) :
    decodeBytes (2 :: e) = .ok (.smartContract sca) := by
  simp only [decodeBytes, (decode_accountType e).2, h]
  rfl

theorem decodeBytes_eq_ok (h : decodeBytes b = .ok acc) :
    (∃ common d, acc = .externallyOwned common ∧ b = 1 :: d) ∨
      ∃ sca d, acc = .smartContract sca ∧ b = 2 :: d ∧
        decodeRLP d = some (sca, []) := by
  unfold decodeBytes at h
  split at h
  · cases h
  · cases h
  · next d htype =>
    obtain ⟨-, t, ht, rfl⟩ := (uint 1).encode_decode htype
    cases encode_accountType.1.symm.trans ht
    obtain ⟨⟨common, rest⟩, -, hok⟩ := bind_eq_ok.mp h
    dsimp only at hok
    split at hok
    · cases hok
      exact .inl ⟨common, d, rfl, rfl⟩
    · cases hok
  · next d htype =>
    obtain ⟨-, t, ht, rfl⟩ := (uint 1).encode_decode htype
    cases encode_accountType.2.symm.trans ht
    obtain ⟨⟨sca, rest⟩, hdec, hok⟩ := bind_eq_ok.mp h
    dsimp only at hok
    split at hok
    · next hrest =>
      cases hok
      refine .inr ⟨sca, d, rfl, rfl, ?_⟩
      cases hd : decodeRLP d with
      | none => simp [orRlp, hd] at hdec
      | some x =>
        simp only [orRlp, hd, Option.elim_some, Except.ok.injEq] at hdec
        rw [hdec, hrest]
    · cases hok
  · cases h

theorem safeDecodeRLP_eq_some : safeDecodeRLP b = some acc ↔ decodeBytes b = .ok acc := by
  constructor
  · intro h
    cases b with
    | nil => cases h
    | cons t b =>
      simp only [safeDecodeRLP] at h
      split at h
      · cases h
      · cases h
      · cases hdec : decodeBytes (t :: b) with
        | error e => rw [hdec] at h; cases h
        | ok acc' => rw [hdec] at h; cases h; rfl
  · intro h
    have hbyte : ∀ t : UInt8, t = 1 ∨ t = 2 → (uint 1).decodeBytes [t] = some t.toNat := by
      rintro t (rfl | rfl) <;> rfl
    rcases decodeBytes_eq_ok h with ⟨common, d, rfl, rfl⟩ | ⟨sca, d, rfl, rfl, -⟩
    · simp only [safeDecodeRLP, hbyte 1 (.inl rfl), h]
      rfl
    · simp only [safeDecodeRLP, hbyte 2 (.inr rfl), h]
      rfl

/-! ## Removing the counter -/

theorem unextend_of_decodeBytes (h : decodeBytes b = .ok (.smartContract sca)) :
    unextendSerializedAccount b = encodeRLP false (.smartContract sca) := by
  simp only [unextendSerializedAccount, safeDecodeRLP_eq_some.mpr h]

theorem unextend_of_ne (h : ∀ sca, decodeBytes b ≠ .ok (.smartContract sca)) :
    unextendSerializedAccount b = some b := by
  unfold unextendSerializedAccount
  split
  · next sca hsafe => exact absurd (safeDecodeRLP_eq_some.mp hsafe) (h sca)
  · rfl

theorem isSerializedContract_of_decodeBytes (h : decodeBytes b = .ok (.smartContract sca)) :
    sca.common.key.Encodable ∧ ∃ d, sca.Serializes d ∧ b = 2 :: d := by
  rcases decodeBytes_eq_ok h with ⟨common, d, heq, -⟩ | ⟨sca', d, heq, rfl, hdec⟩
  · cases heq
  · cases heq
    obtain ⟨hdom, e, he, hd⟩ := serializes_of_decodeRLP hdec
    rw [List.append_nil] at hd
    exact ⟨dom_common.mp hdom, e, he, by rw [hd]⟩

theorem unextend_idempotent (b : Bytes) : ∃ u, unextendSerializedAccount b = some u ∧
    unextendSerializedAccount u = some u := by
  by_cases hsca : ∃ sca, decodeBytes b = .ok (.smartContract sca)
  · obtain ⟨sca, hok⟩ := hsca
    obtain ⟨hkey, d, hd, -⟩ := isSerializedContract_of_decodeBytes hok
    obtain ⟨p, hp⟩ := hd.encodeRLP
    have henc := encodeRLP_smartContract (x := false).mpr ⟨p, hp, rfl⟩
    have hok' := decodeBytes_smartContract (decodeRLP_plain (dom_common.mpr hkey) hp)
    refine ⟨2 :: p, by rw [unextend_of_decodeBytes hok, henc], ?_⟩
    rw [unextend_of_decodeBytes hok', ← henc]
    rfl
  · have hself := unextend_of_ne fun sca hsca' => hsca ⟨sca, hsca'⟩
    exact ⟨b, hself, hself⟩

/-! ## Every account -/

def Installable : StoredAccount → Prop
  | .legacy .. => True
  | .externallyOwned common => common.key.Decoded ∧ common.key.checkInstallable = .ok ()
  | .smartContract sca => sca.common.key.Decoded ∧ sca.common.key.checkInstallable = .ok ()

/-- Numbers are in the range of their types, and the bytes of the account in memory. -/
def Fits (nonce : ℕ) (balance : ℤ) (codeHash : Bytes) : Prop :=
  nonce < 2 ^ 64 ∧ 0 ≤ balance ∧ (toBytes balance.toNat).length + codeHash.length < 2 ^ 63

def FitsInMemory : StoredAccount → Prop
  | .legacy nonce balance _ codeHash => Fits nonce balance codeHash
  | .externallyOwned common => Fits common.nonce common.balance []
  | .smartContract sca =>
    Fits sca.common.nonce sca.common.balance sca.codeHash ∧ sca.codeInfo < 2 ^ 8

def isLegacy : StoredAccount → Bool
  | .legacy .. => true
  | _ => false

variable {acc' : StoredAccount}

theorem encodable_of_installable {k : AccountKey} (hdec : k.Decoded)
    (hok : k.checkInstallable = .ok ()) : k.Encodable ∧ AccountKey.format.Sized k 4000 :=
  ((AccountKey.checkInstallable_iff hdec).mp hok).sized hdec

variable {codeHash : Bytes}

theorem sized_common (hfits : Fits common.nonce common.balance codeHash) (hdec : common.key.Decoded)
    (hok : common.key.checkInstallable = .ok ()) :
    AccountCommon.format.Sized common ((toBytes common.balance.toNat).length + 5000) := by
  obtain ⟨hnonce, hbalance, hlen⟩ := hfits
  have hsized := ((sized_uint (n := 8) (k := common.nonce) le_rfl (by omega)).pair
    ((sized_int hbalance (by omega)).pair
      ((sized_bool common.humanReadable).pair (encodable_of_installable hdec hok).2))).wrap
      (by omega)
  have hcommon := hsized.mono (m := (toBytes common.balance.toNat).length + 5000) (by omega)
  unfold AccountCommon.format refine
  exact hcommon.refineOn rfl

theorem sized_serializable {ρ : Type} {c : Codec ρ} {r : ρ} {info : ℕ} (hr : c.Sized r 50)
    (hfits : Fits common.nonce common.balance codeHash) (hinfo : info < 2 ^ 8)
    (hdec : common.key.Decoded) (hok : common.key.checkInstallable = .ok ()) :
    ∃ e, (serializable c).encode (common, r, codeHash, info) = some e := by
  have hlen := hfits.2.2
  have hsized := ((sized_common hfits hdec hok).pair (hr.pair
    ((sized_bytes (b := codeHash) (by omega)).pair
      (sized_uint (n := 1) (k := info) (by norm_num) (by omega))))).wrap (by omega)
  obtain ⟨e, he, -⟩ := hsized
  exact ⟨e, he⟩

theorem encodeRLP_of_fits (hacc : acc.Installable) (hfits : acc.FitsInMemory) (x : Bool) :
    ∃ e, acc.encodeRLP x = some e := by
  cases acc with
  | legacy nonce balance root codeHash =>
    obtain ⟨hnonce, hbalance, hlen⟩ := hfits
    have hsized := ((sized_uint (n := 8) (k := nonce) le_rfl (by omega)).pair
      ((sized_int hbalance (by omega)).pair
        ((sized_array (n := 32) rfl (by norm_num) root).pair
          (sized_bytes (b := codeHash) (by omega))))).wrap (by omega)
    obtain ⟨e, he, -⟩ := hsized
    exact ⟨e, he⟩
  | externallyOwned common =>
    obtain ⟨d, hd, -⟩ := sized_common hfits hacc.1 hacc.2
    exact ⟨1 :: d, encodeRLP_externallyOwned.mpr ⟨d, hd, rfl⟩⟩
  | smartContract sca =>
    obtain ⟨hfits, hinfo⟩ := hfits
    have hplain : ∃ d, sca.encodeRLP = some d :=
      sized_serializable ((sized_array (n := 32) rfl (by norm_num) _).mono (by norm_num))
        hfits hinfo hacc.1 hacc.2
    have hext : ∃ d, ext.encode sca.toSerializableExt = some d := by
      refine sized_serializable ?_ hfits hinfo hacc.1 hacc.2
      have harray := sized_array (n := 39) rfl (by norm_num) sca.storageRoot.toBits
      unfold ExtHash.format refine
      exact (harray.mono (by norm_num)).refineOn rfl
    have hd : ∃ d, (if x then sca.encodeRLPExt else sca.encodeRLP) = some d := by
      unfold encodeRLPExt
      split
      · split
        · exact hplain
        · exact hext
      · exact hplain
    obtain ⟨d, hd⟩ := hd
    exact ⟨2 :: d, encodeRLP_smartContract.mpr ⟨d, hd, rfl⟩⟩

theorem Installable.readable (h : acc.Installable) : acc.Readable := by
  cases acc with
  | legacy => trivial
  | externallyOwned | smartContract => exact (encodable_of_installable h.1 h.2).1

/-- What the decoder makes of an encoding, with the counter or without it. -/
def reread (preserve : Bool) : StoredAccount → Except DecodeError StoredAccount
  | .legacy .. => .error .legacyDeprecated
  | acc => .ok (if preserve then acc else acc.unextend)

theorem decodeBytes_encodeRLP (hacc : acc.Readable) (h : acc.encodeRLP x = some e) :
    decodeBytes e = acc.reread x := by
  cases acc with
  | legacy nonce balance root codeHash =>
    obtain ⟨payload, -, hjoin⟩ := bind_eq_some_iff.mp h
    have hbytes : bytes.decode e = none := by
      show (split e).bind _ = none
      rw [split_of_join hjoin]
      rfl
    have htype : (uint 1).decode e = none := by
      rw [uint, filter, decode_refine, bigInt, decode_refine, hbytes]
      rfl
    simp only [decodeBytes, htype]
    rfl
  | externallyOwned common =>
    obtain ⟨d, hd, rfl⟩ := encodeRLP_externallyOwned.mp h
    rw [decodeBytes_externallyOwned hacc hd]
    cases x <;> rfl
  | smartContract sca =>
    obtain ⟨d, hd, rfl⟩ := encodeRLP_smartContract.mp h
    cases x with
    | true => exact decodeBytes_smartContract (decodeRLP_encodeRLPExt (dom_common.mpr hacc) hd)
    | false => exact decodeBytes_smartContract (decodeRLP_plain (dom_common.mpr hacc) hd)

theorem unextend_ext (hacc : acc.Readable) (h : acc.encodeRLP true = some e)
    (hplain : acc.encodeRLP false = some b) : unextendSerializedAccount e = some b := by
  have hdec := decodeBytes_encodeRLP hacc h
  cases acc with
  | legacy | externallyOwned =>
    obtain rfl : e = b := Option.some.inj (h.symm.trans hplain)
    exact unextend_of_ne fun sca hok => by cases hdec.symm.trans hok
  | smartContract sca => rw [unextend_of_decodeBytes hdec, hplain]

theorem unextend_eq_of_encodeRLP (hacc : acc.Readable) (hacc' : acc'.Readable)
    (h : acc.encodeRLP false = some e) (h' : acc'.encodeRLP false = some e) :
    acc.unextend = acc'.unextend := by
  have hdec := (decodeBytes_encodeRLP hacc h).symm.trans (decodeBytes_encodeRLP hacc' h')
  cases acc with
  | legacy =>
    have hdom : ∀ o, legacyFormat.Dom o := fun o =>
      ⟨total_uint 8 _, total_int _, total_array 256 32 rfl _, total_bytes _⟩
    cases acc' with
    | legacy => cases legacyFormat.encode_injective (hdom _) (hdom _) h h'; rfl
    | _ => cases hdec
  | externallyOwned | smartContract =>
    cases acc' with
    | legacy => cases hdec
    | externallyOwned | smartContract => exact Except.ok.inj hdec

/-- A legacy account is written but not read again: the process ends. -/
theorem legacy_not_decoded : ∃ e, encodeRLP true (.legacy 0 0 0 []) = some e ∧
    decodeBytes e = .error .legacyDeprecated :=
  have henc : encodeRLP true (.legacy 0 0 0 []) = some [0xe4, 0x80, 0x80, 0xa0, 0, 0, 0, 0, 0, 0, 0,
      0, 0, 0, 0, 0, 0, 0, 0, 0, 0, 0, 0, 0, 0, 0, 0, 0, 0, 0, 0, 0, 0, 0, 0, 0, 0x80] := rfl
  ⟨_, henc, decodeBytes_encodeRLP (by exact trivial) henc⟩

/-- Encodings are read again, unextending takes the one to the other and can be repeated, and
encodings without the counter tell accounts apart up to it; a legacy account ends the process. -/
theorem serialization_laws {acc acc' : StoredAccount} (hacc : acc.Installable)
    (hacc' : acc'.Installable) :
    (acc.FitsInMemory → ∀ preserve, ∃ e, acc.encodeRLP preserve = some e) ∧
    (∀ e p, acc.encodeRLP true = some e → acc.encodeRLP false = some p →
      (if acc.isLegacy then decodeBytes e = .error .legacyDeprecated
        else decodeBytes e = .ok acc ∧ decodeBytes p = .ok acc.unextend) ∧
      unextendSerializedAccount e = some p) ∧
    (∀ b, ∃ u, unextendSerializedAccount b = some u ∧ unextendSerializedAccount u = some u) ∧
    (∀ b, ¬ IsSerializedContract b → unextendSerializedAccount b = some b) ∧
    (∀ p, acc.encodeRLP false = some p → acc'.encodeRLP false = some p →
      acc.unextend = acc'.unextend) := by
  refine ⟨encodeRLP_of_fits hacc, fun e p he hp => ⟨?_, unextend_ext hacc.readable he hp⟩,
    unextend_idempotent, fun b hb => ?_,
    fun p hp hp' => unextend_eq_of_encodeRLP hacc.readable hacc'.readable hp hp'⟩
  · rw [decodeBytes_encodeRLP hacc.readable he, decodeBytes_encodeRLP hacc.readable hp]
    cases acc with
    | legacy => exact rfl
    | externallyOwned | smartContract => exact ⟨rfl, rfl⟩
  · refine unextend_of_ne fun sca hok => hb ?_
    obtain ⟨-, d, hd, rfl⟩ := isSerializedContract_of_decodeBytes hok
    exact ⟨sca, d, hd, rfl⟩

def extendedContract : SmartContractAccount :=
  ⟨⟨1, 2, false, .roleBased [.legacy, .publicKey AccountKey.generator]⟩, ⟨5, 7⟩, [1, 2, 3], 1⟩

theorem serialization_laws_contract :
    (∃ p, unextendSerializedAccount ((encodeRLP true (.smartContract extendedContract)).getD []) =
      some p ∧ decodeBytes p = .ok (.smartContract extendedContract.unextend)) := by
  have hinst : StoredAccount.Installable (.smartContract extendedContract) := by
    refine ⟨.roleBased ?_, by decide +kernel⟩
    simp only [List.mem_cons, List.not_mem_nil, or_false, forall_eq_or_imp, forall_eq]
    exact ⟨.legacy, .publicKey AccountKey.generator_valid⟩
  have hfits : StoredAccount.FitsInMemory (.smartContract extendedContract) := by
    refine ⟨⟨by decide, by decide, ?_⟩, by decide⟩
    decide +kernel
  obtain ⟨hexists, hround, -⟩ := serialization_laws hinst hinst
  obtain ⟨e, he⟩ := hexists hfits true
  obtain ⟨p, hp⟩ := hexists hfits false
  obtain ⟨hdec, hunextend⟩ := hround e p he hp
  exact ⟨p, by rw [he]; exact hunextend, hdec.2⟩

end StoredAccount

end Kaia
