import Mathlib
import Kaia.Foundation.Rlp
import Kaia.Governance.Handler
import Kaia.Backend.SnapshotJson

/-! # Governance items as JSON

Governance items travel in headers and lie in the database as JSON objects. Reading them back
loses the types: numbers come as `float64` and addresses as texts, and are converted by their
keys.
-/

namespace Kaia

open Foundation

def hexValue (c : UInt8) : Option ℕ :=
  if 48 ≤ c ∧ c ≤ 57 then some (c.toNat - 48)
  else if 97 ≤ c ∧ c ≤ 102 then some (c.toNat - 87)
  else if 65 ≤ c ∧ c ≤ 70 then some (c.toNat - 55)
  else none

def hex2Bytes : Bytes → Bytes
  | c :: d :: rest =>
    match hexValue c, hexValue d with
    | some x, some y => UInt8.ofNat (16 * x + y) :: hex2Bytes rest
    | _, _ => []
  | _ => []

def fromHex (s : Bytes) : Bytes :=
  let s :=
    match s with
    | 48 :: 120 :: rest => rest
    | 48 :: 88 :: rest => rest
    | s => s
  hex2Bytes (if s.length % 2 = 1 then 48 :: s else s)

def isHexAddress (s : Bytes) : Bool :=
  let s :=
    match s with
    | 48 :: 120 :: rest => rest
    | 48 :: 88 :: rest => rest
    | s => s
  s.length = 40 ∧ s.all fun c => (hexValue c).isSome

def hexToAddress (s : Bytes) : Address := bytesToAddress (fromHex s)

def lastHexDigits (n m : ℕ) : Bytes :=
  (List.range n).map fun i => hexDigit (m >>> (4 * (n - 1 - i)) % 16)

theorem lastHexDigits_succ (n m : ℕ) :
    lastHexDigits (n + 1) m = hexDigit (m >>> (4 * n) % 16) :: lastHexDigits n m := by
  rw [lastHexDigits, List.range_succ_eq_map, List.map_cons, List.map_map]
  congr 1
  apply List.map_congr_left
  intro i hi
  rw [Function.comp_apply, show n + 1 - 1 - i.succ = n - 1 - i by omega]

theorem hexValue_hexDigit {d : ℕ} (h : d < 16) : hexValue (hexDigit d) = some d := by
  have hall : ∀ d : Fin 16, hexValue (hexDigit d) = some d.val := by decide
  exact hall ⟨d, h⟩

theorem bigEndian_cons (x : UInt8) (b : Bytes) :
    bigEndian (x :: b) = x.toNat * 256 ^ b.length + bigEndian b := by
  have hfold : ∀ (b : Bytes) (n : ℕ), b.foldl (fun n x => n * 256 + x.toNat) n =
      n * 256 ^ b.length + bigEndian b := by
    intro b
    induction b with
    | nil => simp [bigEndian]
    | cons y b ih =>
      intro n
      rw [bigEndian, List.foldl_cons, List.foldl_cons, ih, ih, List.length_cons, pow_succ]
      ring
  rw [bigEndian, List.foldl_cons, hfold]
  ring

theorem hex2Bytes_lastHexDigits (n m : ℕ) :
    (hex2Bytes (lastHexDigits (2 * n) m)).length = n ∧
      bigEndian (hex2Bytes (lastHexDigits (2 * n) m)) = m % 256 ^ n := by
  induction n with
  | zero => exact ⟨rfl, (Nat.mod_one m).symm⟩
  | succ n ih =>
    have hmod : ∀ k, m >>> k % 16 < 16 := fun k => Nat.mod_lt _ (by decide)
    rw [show 2 * (n + 1) = 2 * n + 1 + 1 by ring, lastHexDigits_succ, lastHexDigits_succ, hex2Bytes,
      hexValue_hexDigit (hmod _), hexValue_hexDigit (hmod _)]
    dsimp only
    constructor
    · rw [List.length_cons, ih.1]
    · rw [bigEndian_cons, ih.1, ih.2, UInt8.toNat_ofNat', Nat.shiftRight_eq_div_pow,
        Nat.shiftRight_eq_div_pow]
      have hlow : m / 2 ^ (4 * (2 * n)) = m / 256 ^ n := by
        rw [show 4 * (2 * n) = 8 * n by ring, pow_mul]
        rfl
      have hhigh : m / 2 ^ (4 * (2 * n + 1)) = m / 256 ^ n / 16 := by
        rw [← hlow, Nat.div_div_eq_div_mul, show 4 * (2 * n + 1) = 4 * (2 * n) + 4 by ring, pow_add]
        rfl
      have hbyte : (16 * (m / 256 ^ n / 16 % 16) + m / 256 ^ n % 16) % 2 ^ 8 =
          m / 256 ^ n % 256 := by omega
      rw [hlow, hhigh, hbyte, Nat.mod_pow_succ]
      ring

theorem hexToAddress_text (a : Address) : hexToAddress a.text = a := by
  have hstrip : fromHex a.text = hex2Bytes (lastHexDigits 40 a.toNat) := by
    have hlen : (lastHexDigits 40 a.toNat).length = 40 := by simp [lastHexDigits]
    show hex2Bytes (if (lastHexDigits 40 a.toNat).length % 2 = 1 then _ else _) = _
    rw [hlen]
    rfl
  rw [hexToAddress, hstrip, bytesToAddress, (hex2Bytes_lastHexDigits 20 a.toNat).2]
  apply BitVec.eq_of_toNat_eq
  rw [BitVec.toNat_ofNat]
  have hlt := a.isLt
  omega

/-- `GovernanceKeyMapReverse`. -/
def GovKey.name : GovKey → String
  | .governanceMode => "governance.governancemode"
  | .governingNode => "governance.governingnode"
  | .govParamContract => "governance.govparamcontract"
  | .epoch => "istanbul.epoch"
  | .policy => "istanbul.policy"
  | .committeeSize => "istanbul.committeesize"
  | .timeout => "istanbul.timeout"
  | .unitPrice => "governance.unitprice"
  | .deriveShaImpl => "governance.deriveshaimpl"
  | .lowerBoundBaseFee => "kip71.lowerboundbasefee"
  | .gasTarget => "kip71.gastarget"
  | .maxBlockGasUsedForBaseFee => "kip71.maxblockgasusedforbasefee"
  | .baseFeeDenominator => "kip71.basefeedenominator"
  | .upperBoundBaseFee => "kip71.upperboundbasefee"
  | .mintingAmount => "reward.mintingamount"
  | .ratio => "reward.ratio"
  | .kip82Ratio => "reward.kip82ratio"
  | .useGiniCoeff => "reward.useginicoeff"
  | .deferredTxFee => "reward.deferredtxfee"
  | .minimumStake => "reward.minimumstake"
  | .stakeUpdateInterval => "reward.stakingupdateinterval"
  | .proposerRefreshInterval => "reward.proposerupdateinterval"
  | .addValidator => "governance.addvalidator"
  | .removeValidator => "governance.removevalidator"
  | .constTxGasHumanReadable => "param.txgashumanreadable"

def keyIndex (k : String) : GovKey := (governanceKeyMap k).getD .governanceMode

@[simp] theorem governanceKeyMap_name (k : GovKey) : governanceKeyMap k.name = some k := by
  cases k <;> rfl

theorem governanceKeyMap_eq_some {s : String} {k : GovKey} :
    governanceKeyMap s = some k ↔ s = k.name := by
  constructor
  · intro h
    unfold governanceKeyMap at h
    split at h <;> cases h <;> rfl
  · rintro rfl
    exact governanceKeyMap_name k

@[simp] theorem keyIndex_name (k : GovKey) : keyIndex k.name = k := by
  rw [keyIndex, governanceKeyMap_name]
  rfl

theorem GovKey.name_injective : Function.Injective GovKey.name := by
  intro k k' h
  rw [← keyIndex_name k, h, keyIndex_name]

/-- A JSON value. Nothing is read of arrays and objects. -/
inductive Json
  | null
  | bool (b : Bool)
  | number (q : ℚ)
  | text (t : Bytes)
  | other
  deriving DecidableEq

/-- JSON in Go: numbers are read as `float64`, rounded, and converted to words by the machine. -/
structure JsonLib where
  unmarshal : Bytes → Option (List (String × Json))
  Float : Type
  parseFloat : ℚ → Option Float
  toUint64 : Float → ℕ
  nodup_unmarshal : ∀ b m, unmarshal b = some m → (m.map Prod.fst).Nodup
  parseFloat_nat : ∀ n : ℕ, nearestFloat64 n < 2 ^ 64 →
    (parseFloat n).map toUint64 = some (nearestFloat64 n)

/-- An untyped value that was read from JSON. -/
inductive Decoded (F : Type)
  | nil
  | bool (b : Bool)
  | float64 (x : F)
  | uint64 (n : ℕ)
  | text (t : Bytes)
  | address (a : Address)
  | other

namespace Decoded

variable {F : Type}

/-- The comparison with a value that a node has, or with nil. -/
def equals : Decoded F → Option VoteValue → Bool
  | .nil, none => true
  | .bool b, some (.bool b') => b = b'
  | .uint64 n, some (.uint64 n') => n = n'
  | .text t, some (.text t') => t = t'
  | .address a, some (.address a') => a = a'
  | _, _ => false

/-- The value that a decoded one is equal to. -/
def value : Decoded F → Option (Option VoteValue)
  | .nil => some none
  | .bool b => some (some (.bool b))
  | .uint64 n => some (some (.uint64 n))
  | .text t => some (some (.text t))
  | .address a => some (some (.address a))
  | .float64 _ | .other => none

theorem equals_iff {d : Decoded F} {o : Option VoteValue} : d.equals o = true ↔ d.value = some o := by
  cases o with
  | none => cases d <;> simp [equals, value]
  | some v => cases d <;> cases v <;> simp [equals, value]

end Decoded

namespace JsonLib

variable (lib : JsonLib)

def decode : Json → Option (Decoded lib.Float)
  | .null => some .nil
  | .bool b => some (.bool b)
  | .number q => (lib.parseFloat q).map .float64
  | .text t => some (.text t)
  | .other => some .other

def decodeMap (b : Bytes) : Option (List (String × Decoded lib.Float)) :=
  (lib.unmarshal b).bind fun m => m.mapM fun e => (lib.decode e.2).map (e.1, ·)

variable (k : String)

/-- The body of `adjustDecodedSet`. A number under the key of an address is put back as it
was. -/
def adjust (d : Decoded lib.Float) : Decoded lib.Float :=
  if keyIndex k = .governingNode ∨ keyIndex k = .govParamContract then
    match d with
    | .text t => .address (hexToAddress t)
    | d => d
  else
    match d with
    | .float64 x => .uint64 (lib.toUint64 x)
    | d => d

@[simp] theorem adjust_bool (b : Bool) : lib.adjust k (.bool b) = .bool b := by
  unfold adjust
  split <;> rfl

@[simp] theorem adjust_other : lib.adjust k .other = .other := by
  unfold adjust
  split <;> rfl

theorem adjust_text (t : Bytes) :
    lib.adjust k (.text t) =
      if keyIndex k = .governingNode ∨ keyIndex k = .govParamContract then
        .address (hexToAddress t)
      else .text t := rfl

theorem adjust_float64 (x : lib.Float) :
    lib.adjust k (.float64 x) =
      if keyIndex k = .governingNode ∨ keyIndex k = .govParamContract then .float64 x
      else .uint64 (lib.toUint64 x) := rfl

def adjustDecodedSet (src : List (String × Decoded lib.Float)) :
    List (String × Decoded lib.Float) :=
  src.map fun e => (e.1, lib.adjust e.1 e.2)

end JsonLib

def VoteValue.toJson : VoteValue → Json
  | .text t => .text t
  | .address a => .text a.text
  | .uint64 n => .number n
  | .bool b => .bool b
  | .addresses _ | .float64 _ | .texts _ => .other

def GovKey.all : List GovKey :=
  [.governanceMode, .governingNode, .govParamContract, .epoch, .policy, .committeeSize, .timeout,
    .unitPrice, .deriveShaImpl, .lowerBoundBaseFee, .gasTarget, .maxBlockGasUsedForBaseFee,
    .baseFeeDenominator, .upperBoundBaseFee, .mintingAmount, .ratio, .kip82Ratio, .useGiniCoeff,
    .deferredTxFee, .minimumStake, .stakeUpdateInterval, .proposerRefreshInterval, .addValidator,
    .removeValidator, .constTxGasHumanReadable]

theorem GovKey.mem_all (k : GovKey) : k ∈ GovKey.all := by cases k <;> decide

theorem GovKey.nodup_all : GovKey.all.Nodup := by decide

def GovernanceSet.toJson (S : GovernanceSet) : List (String × Json) :=
  GovKey.all.filterMap fun k => (S k).map fun v => (k.name, v.1.toJson)

theorem GovernanceSet.mem_toJson {S : GovernanceSet} {e : String × Json} :
    e ∈ S.toJson ↔ ∃ k v, S k = some v ∧ e = (k.name, v.1.toJson) := by
  simp only [GovernanceSet.toJson, List.mem_filterMap, Option.map_eq_some_iff]
  constructor
  · rintro ⟨k, -, v, hv, rfl⟩
    exact ⟨k, v, hv, rfl⟩
  · rintro ⟨k, v, hv, rfl⟩
    exact ⟨k, k.mem_all, v, hv, rfl⟩

theorem GovernanceSet.nodup_toJson (S : GovernanceSet) : (S.toJson.map Prod.fst).Nodup := by
  have hsub : (S.toJson.map Prod.fst).Sublist (GovKey.all.map GovKey.name) := by
    unfold GovernanceSet.toJson
    induction GovKey.all with
    | nil => exact List.Sublist.refl _
    | cons k ks ih =>
      rw [List.filterMap_cons]
      cases S k with
      | none => exact ih.cons _
      | some v => exact ih.cons_cons _
  exact (GovKey.nodup_all.map GovKey.name_injective).sublist hsub

end Kaia
