import Kaia.Crypto.Curve
import Kaia.State.AccessList

/-! # Keys of accounts over their life

A key is changed by updates, which check the new key against the old one, and asked to validate
signatures. Every key that is decoded holds points of the curve and numbers of 64 bits.
-/

namespace Kaia

open Foundation List

namespace AccountKey

/-! ## Updating -/

/-- `UpdateKey` of an account: the error, and the key the account has afterwards. -/
def updateKey (key newKey : AccountKey) : Option AccountKeyError × AccountKey :=
  if key.type = newKey.type then
    match key.update newKey with
    | .error e => (some e, key)
    | .ok key' => (none, key')
  else
    match newKey.checkInstallable with
    | .error e => (some e, key)
    | .ok _ => (none, newKey)

def updateKeys (key : AccountKey) (newKeys : List AccountKey) : AccountKey :=
  newKeys.foldl (fun key newKey => (key.updateKey newKey).2) key

/-! ## Validating -/

/-- What a key signs for. -/
inductive RoleType
  | roleTransaction
  | roleAccountUpdate
  | roleFeePayer
  deriving DecidableEq

namespace RoleType

def index : RoleType → ℕ
  | .roleTransaction => 0
  | .roleAccountUpdate => 1
  | .roleFeePayer => 2

end RoleType

/-- What a validation depends on besides the key. -/
structure Signing where
  isIstanbul : Bool
  recoveredKeys : List PublicKey
  sender : Address
  pubkeyToAddress : PublicKey → Address

def PublicKey.encode (p : PublicKey) : Option (ℕ × ℕ) := if p.isOnCurve then some p.compress else none

def uniqueSigs (recoveredKeys : List PublicKey) : List (ℕ × ℕ) :=
  (recoveredKeys.filterMap PublicKey.encode).dedup

/-- The loop over the registered keys, from the sum and the number of signatures so far. -/
def countSigs (sigs : List (ℕ × ℕ)) : ℕ × ℕ → List WeightedPublicKey → ℕ × ℕ
  | acc, [] => acc
  | (weightedSum, valid), k :: ks =>
    match k.key.encode with
    | none => countSigs sigs (weightedSum, valid) ks
    | some b =>
      if b ∈ sigs then countSigs sigs (uint64 (weightedSum + k.weight), valid + 1) ks
      else countSigs sigs (weightedSum, valid) ks

/-- `Validate` of a weighted multisig key, with the limits on signatures since Istanbul. -/
def validateMultiSig (s : Signing) (threshold : ℕ) (keys : List WeightedPublicKey) : Bool :=
  let sigs := uniqueSigs s.recoveredKeys
  let (weightedSum, valid) := countSigs sigs (0, 0) keys
  if s.isIstanbul && keys.length < s.recoveredKeys.length then false
  else if s.isIstanbul && valid < sigs.length then false
  else !(weightedSum < threshold)

mutual

/-- Whether the recovered keys are verifiable with a key. -/
def validate (s : Signing) (r : RoleType) : AccountKey → Except Crash Bool
  | .nil => .ok false
  | .legacy =>
    match s.recoveredKeys with
    | [k] => .ok (s.sender == s.pubkeyToAddress k)
    | _ => .ok false
  | .publicKey key =>
    match s.recoveredKeys with
    | [k] => .ok (key == k)
    | _ => .ok false
  | .fail => .ok false
  | .weightedMultiSig threshold keys => .ok (validateMultiSig s threshold keys)
  | .roleBased keys =>
    -- a role the key does not name is covered by the first member
    if r.index < keys.length then validateMember s r r.index keys else validateMember s r 0 keys

def validateMember (s : Signing) (r : RoleType) : ℕ → List AccountKey → Except Crash Bool
  | _, [] => .error (.goPanic .indexOutOfRange)
  | 0, k :: _ => validate s r k
  | n + 1, _ :: ks => validateMember s r n ks

end

/-- Why the gas of a validation cannot be told. -/
inductive ValidationGasError
  | maxKeysExceedInValidation
  | zeroLength

def txValidationGasPerKey : ℕ := 15000

mutual

/-- The gas for validating the signatures of a transaction. -/
def sigValidationGas (isIstanbul : Bool) (r : RoleType) (numSigs : ℕ) :
    AccountKey → Except Crash (Except ValidationGasError ℕ)
  | .weightedMultiSig _ keys =>
    if maxNumKeysForMultiSig < keys.length then .ok (.error .maxKeysExceedInValidation)
    else if keys.length = 0 then .ok (.error .zeroLength)
    else if isIstanbul then .ok (.ok (uint64 (sub64 numSigs 1 * txValidationGasPerKey)))
    else .ok (.ok ((keys.length - 1) * txValidationGasPerKey))
  | .roleBased keys =>
    if r.index < keys.length then memberGas isIstanbul r numSigs r.index keys
    else memberGas isIstanbul r numSigs 0 keys
  | _ => .ok (.ok 0)

def memberGas (isIstanbul : Bool) (r : RoleType) (numSigs : ℕ) :
    ℕ → List AccountKey → Except Crash (Except ValidationGasError ℕ)
  | _, [] => .error (.goPanic .indexOutOfRange)
  | 0, k :: _ => sigValidationGas isIstanbul r numSigs k
  | n + 1, _ :: ks => memberGas isIstanbul r numSigs n ks

end

/-! ## Well-formed keys -/

/-- Keys as they are decoded: points of the curve, and numbers of 64 bits. -/
inductive Decoded : AccountKey → Prop
  | nil : Decoded .nil
  | legacy : Decoded .legacy
  | publicKey {key : PublicKey} : key.Valid → Decoded (.publicKey key)
  | fail : Decoded .fail
  | weightedMultiSig {threshold : ℕ} {keys : List WeightedPublicKey} : threshold < 2 ^ 64 →
      (∀ k ∈ keys, k.weight < 2 ^ 64 ∧ k.key.Valid) → Decoded (.weightedMultiSig threshold keys)
  | roleBased {keys : List AccountKey} : (∀ k ∈ keys, Decoded k) → Decoded (.roleBased keys)

/-- A weighted multisig key that can be satisfied. -/
structure MultiSigWf (threshold : ℕ) (keys : List WeightedPublicKey) : Prop where
  ne_nil : keys ≠ []
  length_le : keys.length ≤ maxNumKeysForMultiSig
  distinct : (keys.map (·.key)).Nodup
  weight_pos : ∀ k ∈ keys, 0 < k.weight
  isOnCurve : ∀ k ∈ keys, k.key.isOnCurve = true
  sum_lt : (keys.map (·.weight)).sum < 2 ^ 64
  threshold_le : threshold ≤ (keys.map (·.weight)).sum

/-- A key that may stand alone or be a member of a role-based key. -/
def SingleWf : AccountKey → Prop
  | .nil => False
  | .legacy => True
  | .publicKey key => key.isOnCurve = true
  | .fail => True
  | .weightedMultiSig threshold keys => MultiSigWf threshold keys
  | .roleBased _ => False

def Wf : AccountKey → Prop
  | .roleBased keys => keys ≠ [] ∧ keys.length ≤ roleLast ∧ ∀ k ∈ keys, k.SingleWf
  | k => k.SingleWf

variable {k key newKey : AccountKey} {keys : List WeightedPublicKey}

theorem checkWeightedKeys_iff (threshold : ℕ) {sum : ℕ} (seen : List (ℕ × ℕ)) (hsum : sum < 2 ^ 64)
    (hw : ∀ k ∈ keys, k.weight < 2 ^ 64) :
    checkWeightedKeys threshold sum seen keys = .ok () ↔
      (∀ k ∈ keys, 0 < k.weight) ∧ (∀ k ∈ keys, k.key.isOnCurve = true) ∧
      (keys.map (·.key.compress)).Nodup ∧ (∀ k ∈ keys, k.key.compress ∉ seen) ∧
      sum + (keys.map (·.weight)).sum < 2 ^ 64 ∧ threshold ≤ sum + (keys.map (·.weight)).sum := by
  induction keys generalizing sum seen with
  | nil =>
    simp only [checkWeightedKeys]
    split
    · simp; omega
    · simp; omega
  | cons k keys ih =>
    have hk := hw k mem_cons_self
    have hrest : ∀ k ∈ keys, k.weight < 2 ^ 64 := fun k' hk' => hw k' (mem_cons_of_mem k hk')
    simp only [checkWeightedKeys, contains_iff_mem, forall_mem_cons, map_cons, nodup_cons, sum_cons]
    by_cases hpos : k.weight = 0
    · simp [hpos]
    by_cases hcurve : k.key.isOnCurve = true
    · by_cases hseen : k.key.compress ∈ seen
      · simp [hpos, hcurve, hseen]
      · by_cases hover : uint64 (sum + k.weight) < sum
        · -- the sum does not fit, and never will
          have : 2 ^ 64 ≤ sum + k.weight := by unfold uint64 at hover; omega
          simp only [hpos, hcurve, hseen, hover, if_true, if_false, Bool.not_true,
            Bool.false_eq_true, reduceCtorEq, false_iff]
          rintro ⟨-, -, -, -, hlt, -⟩
          omega
        · have hfit : sum + k.weight < 2 ^ 64 := by unfold uint64 at hover; omega
          have hval : uint64 (sum + k.weight) = sum + k.weight := Nat.mod_eq_of_lt hfit
          simp only [hpos, hcurve, hseen, hover, if_false, Bool.not_true, Bool.false_eq_true]
          rw [hval, ih _ hfit hrest]
          simp only [mem_cons, not_or, mem_map, not_exists, not_and]
          constructor
          · rintro ⟨hp, hc, hnd, hns, hlt, hle⟩
            exact ⟨⟨by omega, hp⟩, ⟨trivial, hc⟩, ⟨fun k' hk' heq => (hns k' hk').1 heq, hnd⟩,
              ⟨not_false, fun k' hk' => (hns k' hk').2⟩, by omega, by omega⟩
          · rintro ⟨⟨-, hp⟩, ⟨-, hc⟩, ⟨hne, hnd⟩, ⟨-, hns⟩, hlt, hle⟩
            exact ⟨hp, hc, hnd, fun k' hk' => ⟨hne k' hk', hns k' hk'⟩, by omega, by omega⟩
    · simp [hpos, hcurve]

theorem nodup_compress_iff (h : ∀ k ∈ keys, k.key.Valid) :
    (keys.map (·.key.compress)).Nodup ↔ (keys.map (·.key)).Nodup := by
  have hmap : keys.map (·.key.compress) = (keys.map (·.key)).map PublicKey.compress := by simp
  rw [hmap]
  refine ⟨List.Nodup.of_map _, fun hnd => hnd.map_on ?_⟩
  simp only [mem_map]
  rintro _ ⟨k, hk, rfl⟩ _ ⟨k', hk', rfl⟩ heq
  exact PublicKey.eq_of_compress (h k hk) (h k' hk') heq

theorem checkInstallableSingle_iff (h : k.Decoded) : k.checkInstallableSingle = .ok () ↔ k.SingleWf := by
  cases h with
  | nil | legacy | publicKey | fail | roleBased => simp [checkInstallableSingle, SingleWf]
  | @weightedMultiSig threshold keys hthr hkeys =>
    have hiff := checkWeightedKeys_iff threshold [] (show 0 < 2 ^ 64 by decide)
      fun k hk => (hkeys k hk).1
    rw [nodup_compress_iff fun k hk => (hkeys k hk).2] at hiff
    simp only [checkInstallableSingle, SingleWf]
    by_cases hnil : keys.length = 0
    · rw [if_pos hnil]
      exact ⟨by rintro ⟨⟩, fun hwf => absurd (length_eq_zero_iff.mp hnil) hwf.ne_nil⟩
    by_cases hlen : maxNumKeysForMultiSig < keys.length
    · rw [if_neg hnil, if_pos hlen]
      exact ⟨by rintro ⟨⟩, fun hwf => absurd hwf.length_le (Nat.not_le.mpr hlen)⟩
    rw [if_neg hnil, if_neg hlen, hiff, Nat.zero_add]
    constructor
    · rintro ⟨hpos, hcurve, hnd, -, hlt, hle⟩
      exact ⟨fun hk => hnil (by simp [hk]), Nat.le_of_not_lt hlen, hnd, hpos, hcurve, hlt, hle⟩
    · intro hwf
      exact ⟨hwf.weight_pos, hwf.isOnCurve, hwf.distinct, by simp, hwf.sum_lt, hwf.threshold_le⟩

theorem forM_ok_iff {α ε : Type} {f : α → Except ε Unit} {l : List α} :
    l.forM f = .ok () ↔ ∀ a ∈ l, f a = .ok () := by
  induction l with
  | nil => simp [List.forM, pure, Except.pure]
  | cons a l ih =>
    have hcons : (a :: l).forM f = (f a >>= fun _ => l.forM f) := rfl
    rw [hcons, bind_eq_ok, forall_mem_cons]
    constructor
    · rintro ⟨_, ha, hl⟩
      exact ⟨ha, ih.mp hl⟩
    · rintro ⟨ha, hl⟩
      exact ⟨(), ha, ih.mpr hl⟩

/-- A key passes the check exactly if an account may have it. -/
theorem checkInstallable_iff (h : k.Decoded) : k.checkInstallable = .ok () ↔ k.Wf := by
  cases k with
  | roleBased keys =>
    obtain hkeys : ∀ k ∈ keys, k.Decoded := by
      cases h
      assumption
    simp only [checkInstallable, Wf]
    by_cases hnil : keys.length = 0
    · rw [if_pos hnil]
      exact ⟨by rintro ⟨⟩, fun hwf => absurd (length_eq_zero_iff.mp hnil) hwf.1⟩
    by_cases hlen : roleLast < keys.length
    · rw [if_neg hnil, if_pos hlen]
      exact ⟨by rintro ⟨⟩, fun hwf => absurd hwf.2.1 (Nat.not_le.mpr hlen)⟩
    rw [if_neg hnil, if_neg hlen, forM_ok_iff]
    constructor
    · intro hall
      exact ⟨fun hk => hnil (by simp [hk]), Nat.le_of_not_lt hlen,
        fun k hk => (checkInstallableSingle_iff (hkeys k hk)).mp (hall k hk)⟩
    · rintro ⟨-, -, hall⟩ k hk
      exact (checkInstallableSingle_iff (hkeys k hk)).mpr (hall k hk)
  | _ => exact checkInstallableSingle_iff h

theorem SingleWf.wf (h : k.SingleWf) : k.Wf := by
  cases k with
  | roleBased => exact h.elim
  | _ => exact h

theorem singleWf_of_checkUpdatable (h : newKey.Decoded)
    (hok : checkUpdatableSingle key newKey = .ok ()) : newKey.SingleWf := by
  rw [← checkInstallableSingle_iff h]
  cases key with
  | nil | fail => cases hok
  | _ =>
    simp only [checkUpdatableSingle] at hok
    split at hok
    · exact hok
    · cases hok

theorem singleWf_of_checkReplacable (h : newKey.Decoded) (hok : checkReplacable key newKey = .ok ())
    : newKey.SingleWf := by
  unfold checkReplacable at hok
  split at hok
  · exact singleWf_of_checkUpdatable h hok
  · exact (checkInstallableSingle_iff h).mp hok

variable {olds news : List AccountKey} {key' : AccountKey}

theorem checkRoles_cons {old new : AccountKey} :
    checkRoles (old :: olds) (new :: news) = .ok () ↔
      (new.isCompositeType = false ∧ (new.type ≠ .nil → checkReplacable old new = .ok ())) ∧
        checkRoles olds news = .ok () := by
  by_cases hcomp : new.isCompositeType = true
  · simp [checkRoles, hcomp, throw, throwThe, MonadExceptOf.throw, bind, Except.bind]
  by_cases hnil : new.type = .nil
  · simp [checkRoles, hcomp, hnil]
  · cases hrep : checkReplacable old new <;> simp [checkRoles, hcomp, hnil, hrep, bind, Except.bind]

theorem updateRoles_wf (hdec : ∀ k ∈ news, k.Decoded)
    (holds : ∀ k ∈ olds, k.Decoded ∧ k.SingleWf) (hok : checkRoles olds news = .ok ()) :
    ∀ k ∈ updateRoles olds news, k.Decoded ∧ k.SingleWf := by
  induction olds generalizing news with
  | nil =>
    cases news with
    | nil => exact holds
    | cons new news =>
      intro k hk
      rw [checkRoles, forM_ok_iff] at hok
      · exact ⟨hdec k hk, (checkInstallableSingle_iff (hdec k hk)).mp (hok k hk)⟩
      · nofun
  | cons old olds ih =>
    cases news with
    | nil => exact holds
    | cons new news =>
      rw [forall_mem_cons] at hdec holds
      obtain ⟨hnew, hrest⟩ := checkRoles_cons.mp hok
      rw [updateRoles, forall_mem_cons]
      refine ⟨?_, ih hdec.2 holds.2 hrest⟩
      split
      · exact holds.1
      · next hnil => exact ⟨hdec.1, singleWf_of_checkReplacable hdec.1 (hnew.2 hnil)⟩

theorem length_updateRoles (olds news : List AccountKey) :
    (updateRoles olds news).length = max olds.length news.length := by
  induction olds generalizing news with
  | nil => cases news <;> simp [updateRoles]
  | cons old olds ih => cases news <;> simp [updateRoles, ih]

theorem update_wf (hkey : key.Decoded) (hnew : newKey.Decoded) (hwf : key.Wf)
    (hok : key.update newKey = .ok key') : key'.Decoded ∧ key'.Wf := by
  cases hkey with
  | nil | fail => cases hok
  -- a key of another kind is replaced by one of the same type
  | legacy | publicKey | weightedMultiSig =>
    obtain ⟨_, hcheck, hok⟩ := bind_eq_ok.mp hok
    obtain rfl := Except.ok.inj hok
    rw [checkUpdatable] at hcheck
    · exact ⟨hnew, (singleWf_of_checkUpdatable hnew hcheck).wf⟩
    all_goals nofun
  | @roleBased olds holds =>
    cases hnew with
    | @roleBased news hnews =>
      obtain ⟨_, hcheck, hok⟩ := bind_eq_ok.mp hok
      obtain rfl := Except.ok.inj hok
      obtain ⟨hne, hlen, hmem⟩ := hwf
      simp only [checkUpdatable] at hcheck
      split at hcheck
      · cases hcheck
      next hnil =>
      split at hcheck
      · cases hcheck
      have hmax := length_updateRoles olds news
      have hroles := updateRoles_wf hnews (fun k hk => ⟨holds k hk, hmem k hk⟩) hcheck
      refine ⟨.roleBased fun k hk => (hroles k hk).1, ?_, ?_, fun k hk => (hroles k hk).2⟩
      · intro h
        rw [h, length_nil] at hmax
        omega
      · omega
    | _ => cases hok

theorem updateKey_wf (hkey : key.Decoded) (hwf : key.Wf) (hnew : newKey.Decoded) :
    (key.updateKey newKey).2.Decoded ∧ (key.updateKey newKey).2.Wf := by
  unfold updateKey
  split
  · split
    · exact ⟨hkey, hwf⟩
    · next hupd => exact update_wf hkey hnew hwf hupd
  · split
    · exact ⟨hkey, hwf⟩
    · next hinst => exact ⟨hnew, (checkInstallable_iff hnew).mp hinst⟩

theorem updateKey_error {e : AccountKeyError} (h : key.updateKey newKey = (some e, key')) :
    key' = key := by
  unfold updateKey at h
  split at h <;> split at h
  all_goals
    cases h
    try rfl

theorem updateKeys_wf {newKeys : List AccountKey} (hkey : key.Decoded) (hwf : key.Wf)
    (hnews : ∀ k ∈ newKeys, k.Decoded) :
    (key.updateKeys newKeys).Decoded ∧ (key.updateKeys newKeys).Wf := by
  induction newKeys generalizing key with
  | nil => exact ⟨hkey, hwf⟩
  | cons newKey newKeys ih =>
    rw [forall_mem_cons] at hnews
    have hstep := updateKey_wf hkey hwf hnews.1
    exact ih hstep.1 hstep.2 hnews.2

/-! ## Validation does not panic -/

variable {keys : List AccountKey}

theorem SingleWf.validate_ok (h : k.SingleWf) (s : Signing) (r : RoleType) :
    ∃ b, validate s r k = .ok b := by
  cases k with
  | nil | roleBased => exact h.elim
  | legacy | publicKey =>
    rw [validate]
    split <;> exact ⟨_, rfl⟩
  | fail | weightedMultiSig => exact ⟨_, by rw [validate]⟩

theorem validateMember_ok (h : ∀ k ∈ keys, k.SingleWf) (s : Signing) (r : RoleType) {n : ℕ}
    (hn : n < keys.length) : ∃ b, validateMember s r n keys = .ok b := by
  induction keys generalizing n with
  | nil => cases hn
  | cons k keys ih =>
    rw [forall_mem_cons] at h
    cases n with
    | zero =>
      exact h.1.validate_ok s r
    | succ n =>
      exact ih h.2 (Nat.lt_of_succ_lt_succ hn)

theorem Wf.single (h : k.Wf) (hrole : k.type ≠ .roleBased) : k.SingleWf := by
  cases k with
  | roleBased keys => exact absurd rfl hrole
  | _ => exact h

theorem Wf.validate_ok (h : k.Wf) (s : Signing) (r : RoleType) : ∃ b, validate s r k = .ok b := by
  cases k with
  | roleBased keys =>
    rw [validate]
    split
    · next hr => exact validateMember_ok h.2.2 s r hr
    · exact validateMember_ok h.2.2 s r (length_pos_of_ne_nil h.1)
  | _ => exact (h.single nofun).validate_ok s r

theorem SingleWf.sigValidationGas_ok (h : k.SingleWf) (isIstanbul : Bool) (r : RoleType)
    (numSigs : ℕ) : ∃ g, sigValidationGas isIstanbul r numSigs k = .ok (.ok g) := by
  cases k with
  | nil | roleBased => exact h.elim
  | weightedMultiSig threshold keys =>
    rw [sigValidationGas, if_neg (Nat.not_lt.mpr h.length_le),
      if_neg (fun hlen => h.ne_nil (length_eq_zero_iff.mp hlen))]
    split <;> exact ⟨_, rfl⟩
  | legacy | publicKey | fail => exact ⟨0, by rw [sigValidationGas] <;> nofun⟩

theorem memberGas_ok (h : ∀ k ∈ keys, k.SingleWf) (isIstanbul : Bool) (r : RoleType) (numSigs : ℕ)
    {n : ℕ} (hn : n < keys.length) : ∃ g, memberGas isIstanbul r numSigs n keys = .ok (.ok g) := by
  induction keys generalizing n with
  | nil => cases hn
  | cons k keys ih =>
    rw [forall_mem_cons] at h
    cases n with
    | zero =>
      exact h.1.sigValidationGas_ok isIstanbul r numSigs
    | succ n =>
      exact ih h.2 (Nat.lt_of_succ_lt_succ hn)

theorem Wf.sigValidationGas_ok (h : k.Wf) (isIstanbul : Bool) (r : RoleType) (numSigs : ℕ) :
    ∃ g, sigValidationGas isIstanbul r numSigs k = .ok (.ok g) := by
  cases k with
  | roleBased keys =>
    rw [sigValidationGas]
    split
    · next hr => exact memberGas_ok h.2.2 isIstanbul r numSigs hr
    · exact memberGas_ok h.2.2 isIstanbul r numSigs (length_pos_of_ne_nil h.1)
  | _ => exact (h.single nofun).sigValidationGas_ok isIstanbul r numSigs

/-- Updates by decoded keys lead from keys that an account may have to such keys. -/
theorem updateKeys_installable {key : AccountKey} {newKeys : List AccountKey} (hkey : key.Decoded)
    (hinst : key.checkInstallable = .ok ()) (hnews : ∀ k ∈ newKeys, k.Decoded) :
    (key.updateKeys newKeys).checkInstallable = .ok () ∧ (key.updateKeys newKeys).Wf ∧
      (∀ newKey key' e, (key.updateKeys newKeys).updateKey newKey = (some e, key') →
        key' = key.updateKeys newKeys) ∧
      (∀ s r, ∃ b, validate s r (key.updateKeys newKeys) = .ok b) ∧
      (∀ isIstanbul r numSigs, ∃ g,
        sigValidationGas isIstanbul r numSigs (key.updateKeys newKeys) = .ok (.ok g)) := by
  obtain ⟨hdec, hwf⟩ := updateKeys_wf hkey ((checkInstallable_iff hkey).mp hinst) hnews
  exact ⟨(checkInstallable_iff hdec).mpr hwf, hwf, fun _ _ _ h => updateKey_error h,
    fun s r => hwf.validate_ok s r, fun i r n => hwf.sigValidationGas_ok i r n⟩

def generator : PublicKey :=
  ⟨0x79BE667EF9DCBBAC55A06295CE870B07029BFCDB2DCE28D959F2815B16F81798,
    0x483ADA7726A3C4655DA4FBFC0E1108A8FD17B448A68554199C47D08FFB10D4B8⟩

theorem generator_valid : generator.Valid := by decide +kernel

/-- A key for two roles, and an update that keeps the first role and adds the third. -/
theorem updateKeys_installable_roles :
    ((AccountKey.roleBased [.publicKey generator, .legacy]).updateKeys
      [.roleBased [.nil, .fail, .weightedMultiSig 2 [⟨3, generator⟩]], .nil]).Wf := by
  have hgen := generator_valid
  have hkey : (AccountKey.roleBased [.publicKey generator, .legacy]).Decoded := by
    refine .roleBased ?_
    simp only [forall_mem_cons]
    exact ⟨.publicKey hgen, .legacy, by simp⟩
  refine (updateKeys_installable hkey ?_ ?_).2.1
  · rw [checkInstallable_iff hkey]
    exact ⟨by simp, by decide, by simp [SingleWf, hgen.isOnCurve]⟩
  · simp only [forall_mem_cons]
    refine ⟨.roleBased ?_, .nil, by simp⟩
    simp only [forall_mem_cons]
    refine ⟨.nil, .fail, .weightedMultiSig (by decide) ?_, by simp⟩
    simp [hgen]

end AccountKey

end Kaia
