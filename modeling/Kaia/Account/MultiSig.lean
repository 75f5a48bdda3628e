import Kaia.Account.Keys

/-! # What a weighted multisig key authorises

Signatures of other keys and repeated ones do not add to the sum. A key with the threshold zero
is satisfied by anyone's signature until the Istanbul fork, where other signatures are refused.
-/

namespace Kaia.AccountKey

open Foundation List

def signers (keys : List WeightedPublicKey) (recoveredKeys : List PublicKey) :
    List WeightedPublicKey :=
  keys.filter fun k => k.key ∈ recoveredKeys

def weight (keys : List WeightedPublicKey) : ℕ := (keys.map (·.weight)).sum

variable {keys : List WeightedPublicKey} {recoveredKeys : List PublicKey} {threshold : ℕ}

theorem encode_of_valid {p : PublicKey} (h : p.Valid) : p.encode = some p.compress :=
  if_pos h.isOnCurve

theorem compress_mem_uniqueSigs (hrec : ∀ p ∈ recoveredKeys, p.Valid) {p : PublicKey} (hp : p.Valid) :
    p.compress ∈ uniqueSigs recoveredKeys ↔ p ∈ recoveredKeys := by
  rw [uniqueSigs, mem_dedup, mem_filterMap]
  constructor
  · rintro ⟨q, hq, henc⟩
    rw [encode_of_valid (hrec q hq)] at henc
    rwa [← PublicKey.eq_of_compress (hrec q hq) hp (Option.some.inj henc)]
  · intro hmem
    exact ⟨p, hmem, encode_of_valid hp⟩

theorem countSigs_eq (hrec : ∀ p ∈ recoveredKeys, p.Valid) (hkeys : ∀ k ∈ keys, k.key.Valid)
    (sum valid : ℕ) (hsum : sum + weight keys < 2 ^ 64) :
    countSigs (uniqueSigs recoveredKeys) (sum, valid) keys =
      (sum + weight (signers keys recoveredKeys), valid + (signers keys recoveredKeys).length) := by
  induction keys generalizing sum valid with
  | nil => rfl
  | cons k keys ih =>
    rw [forall_mem_cons] at hkeys
    have hw : weight (k :: keys) = k.weight + weight keys := by simp [weight]
    simp only [countSigs, encode_of_valid hkeys.1, compress_mem_uniqueSigs hrec hkeys.1]
    by_cases hmem : k.key ∈ recoveredKeys
    · have hval : uint64 (sum + k.weight) = sum + k.weight := Nat.mod_eq_of_lt (by omega)
      rw [if_pos hmem, hval, ih hkeys.2 _ _ (by omega)]
      simp only [signers, filter_cons, hmem, decide_true, if_true, weight, map_cons,
        sum_cons, length_cons, Prod.mk.injEq]
      omega
    · rw [if_neg hmem, ih hkeys.2 _ _ (by omega)]
      simp [signers, hmem]

theorem length_le_signers (hnd : recoveredKeys.Nodup)
    (hreg : ∀ p ∈ recoveredKeys, ∃ k ∈ keys, k.key = p) :
    recoveredKeys.length ≤ (signers keys recoveredKeys).length := by
  have hsubset : recoveredKeys ⊆ (signers keys recoveredKeys).map (·.key) := by
    intro p hp
    obtain ⟨k, hk, rfl⟩ := hreg p hp
    exact mem_map.mpr ⟨k, mem_filter.mpr ⟨hk, decide_eq_true hp⟩, rfl⟩
  have hle := hnd.length_le_of_subset hsubset
  rwa [length_map] at hle

theorem length_uniqueSigs_le (recoveredKeys : List PublicKey) :
    (uniqueSigs recoveredKeys).length ≤ recoveredKeys.length :=
  ((dedup_sublist _).length_le).trans (length_filterMap_le ..)

theorem validateMultiSig_iff {s : Signing} (hwf : MultiSigWf threshold keys)
    (hkeys : ∀ k ∈ keys, k.key.Valid) (hrec : ∀ p ∈ s.recoveredKeys, p.Valid) :
    validateMultiSig s threshold keys = true ↔
      (s.isIstanbul = true → s.recoveredKeys.length ≤ keys.length ∧
        (uniqueSigs s.recoveredKeys).length ≤ (signers keys s.recoveredKeys).length) ∧
      threshold ≤ weight (signers keys s.recoveredKeys) := by
  have hcount := countSigs_eq hrec hkeys 0 0 (by simpa [weight] using hwf.sum_lt)
  simp only [validateMultiSig, hcount, Nat.zero_add]
  cases s.isIstanbul with
  | false => simp
  | true =>
    by_cases hmany : keys.length < s.recoveredKeys.length
    · simp [hmany]
    · by_cases hforeign : (signers keys s.recoveredKeys).length < (uniqueSigs s.recoveredKeys).length
      · simp [hmany, hforeign]
      · simp [hmany, hforeign, Nat.le_of_not_lt]

/-- Whoever is accepted reaches the threshold with registered keys, and whoever does is accepted. -/
structure AuthorisesThreshold (isIstanbul : Bool) (threshold : ℕ) (keys : List WeightedPublicKey) :
    Prop where
  sound : ∀ (s : Signing) (r : RoleType), s.isIstanbul = isIstanbul → s.recoveredKeys ≠ [] →
    (∀ p ∈ s.recoveredKeys, p.Valid) → validate s r (.weightedMultiSig threshold keys) = .ok true →
    signers keys s.recoveredKeys ≠ [] ∧ threshold ≤ weight (signers keys s.recoveredKeys)
  complete : ∀ (s : Signing) (r : RoleType), s.isIstanbul = isIstanbul → s.recoveredKeys ≠ [] →
    s.recoveredKeys.Nodup → (∀ p ∈ s.recoveredKeys, ∃ k ∈ keys, k.key = p) →
    threshold ≤ weight (signers keys s.recoveredKeys) →
    validate s r (.weightedMultiSig threshold keys) = .ok true

theorem validate_weightedMultiSig (s : Signing) (r : RoleType) :
    validate s r (.weightedMultiSig threshold keys) = .ok true ↔
      validateMultiSig s threshold keys = true := by
  rw [validate]
  exact ⟨Except.ok.inj, congrArg Except.ok⟩

def somePoints : List PublicKey :=
  [1, 2, 3, 4, 6, 8, 12, 13, 14, 16, 20].filterMap fun x => PublicKey.decompress (0, x)

theorem somePoints_valid : ∀ p ∈ somePoints, p.Valid := by
  intro p hp
  obtain ⟨x, -, hx⟩ := mem_filterMap.mp hp
  exact (PublicKey.valid_of_decompress hx).1

theorem nodup_somePoints : somePoints.Nodup ∧ maxNumKeysForMultiSig < somePoints.length := by
  decide +kernel

theorem exists_foreign (hlen : keys.length ≤ maxNumKeysForMultiSig) :
    ∃ p : PublicKey, p.Valid ∧ ∀ k ∈ keys, k.key ≠ p := by
  by_contra hno
  push Not at hno
  have hsubset : somePoints ⊆ keys.map (·.key) := by
    intro p hp
    obtain ⟨k, hk, rfl⟩ := hno p (somePoints_valid p hp)
    exact mem_map_of_mem hk
  have hle := nodup_somePoints.1.length_le_of_subset hsubset
  rw [length_map] at hle
  exact absurd nodup_somePoints.2 (Nat.not_lt.mpr (hle.trans hlen))

/-- The threshold is authorised exactly if it is positive or other signatures are refused. -/
theorem authorisesThreshold_iff {isIstanbul : Bool} (hdec : (weightedMultiSig threshold keys).Decoded)
    (hinst : (weightedMultiSig threshold keys).checkInstallable = .ok ()) :
    AuthorisesThreshold isIstanbul threshold keys ↔ isIstanbul = true ∨ threshold ≠ 0 := by
  have hwf : MultiSigWf threshold keys := (checkInstallable_iff hdec).mp hinst
  have hkeys : ∀ k ∈ keys, k.key.Valid := by
    cases hdec with
    | weightedMultiSig _ h => exact fun k hk => (h k hk).2
  constructor
  · intro hauth
    by_contra hno
    push Not at hno
    obtain ⟨hfork, rfl⟩ := hno
    -- the signature of someone else is enough
    obtain ⟨p, hp, hforeign⟩ := exists_foreign hwf.length_le
    have hnone : signers keys [p] = [] := by
      simp only [signers, filter_eq_nil_iff, mem_singleton, decide_eq_true_eq]
      exact hforeign
    have hsound := hauth.sound ⟨isIstanbul, [p], 0, fun _ => 0⟩ .roleTransaction rfl (by simp)
      (by simpa using hp)
    rw [validate_weightedMultiSig, validateMultiSig_iff hwf hkeys (by simpa using hp)] at hsound
    exact (hsound ⟨fun h => absurd h hfork, Nat.zero_le _⟩).1 hnone
  · intro hcond
    refine ⟨fun s r hs hne hrec hval => ?_, fun s r hs hne hnd hreg hthr => ?_⟩
    · rw [validate_weightedMultiSig, validateMultiSig_iff hwf hkeys hrec] at hval
      refine ⟨fun hnone => ?_, hval.2⟩
      rw [hnone] at hval
      rcases hcond with hfork | hpos
      · -- the first signature is one of those that were counted
        obtain ⟨p, rest, hcons⟩ := exists_cons_of_ne_nil hne
        have hmem : p ∈ s.recoveredKeys := hcons ▸ mem_cons_self
        have hcount := (hval.1 (hs.trans hfork)).2
        have hsig := (compress_mem_uniqueSigs hrec (hrec p hmem)).mpr hmem
        exact absurd (length_pos_of_mem hsig) (Nat.not_lt.mpr hcount)
      · exact hpos (Nat.le_zero.mp hval.2)
    · have hrec : ∀ p ∈ s.recoveredKeys, p.Valid := by
        intro p hp
        obtain ⟨k, hk, rfl⟩ := hreg p hp
        exact hkeys k hk
      have hall := length_le_signers hnd hreg
      rw [validate_weightedMultiSig, validateMultiSig_iff hwf hkeys hrec]
      refine ⟨fun _ => ⟨hall.trans (length_filter_le ..), ?_⟩, hthr⟩
      exact (length_uniqueSigs_le _).trans hall

def stranger : PublicKey :=
  ⟨1, 0x4218f20ae6c646b363db68605822fb14264ca8d2587fdd6fbc750d587e76a7ee⟩

theorem stranger_valid : stranger.Valid := by decide +kernel

/-- Two keys that reach a threshold together, and one key with the threshold zero. -/
theorem authorisesThreshold_iff_two :
    (weightedMultiSig 5 [⟨2, generator⟩, ⟨3, stranger⟩]).checkInstallable = .ok () ∧
      AuthorisesThreshold false 5 [⟨2, generator⟩, ⟨3, stranger⟩] ∧
      validate ⟨false, [generator], 0, fun _ => 0⟩ .roleTransaction
        (weightedMultiSig 5 [⟨2, generator⟩, ⟨3, stranger⟩]) = .ok false ∧
      validate ⟨false, [generator, stranger], 0, fun _ => 0⟩ .roleTransaction
        (weightedMultiSig 5 [⟨2, generator⟩, ⟨3, stranger⟩]) = .ok true ∧
      ¬ AuthorisesThreshold false 0 [⟨1, generator⟩] := by
  have hdec : (weightedMultiSig 5 [⟨2, generator⟩, ⟨3, stranger⟩]).Decoded :=
    .weightedMultiSig (by decide) (by simp [generator_valid, stranger_valid])
  have hinst : (weightedMultiSig 5 [⟨2, generator⟩, ⟨3, stranger⟩]).checkInstallable = .ok () := by
    decide +kernel
  refine ⟨hinst, (authorisesThreshold_iff hdec hinst).mpr (.inr (by decide)), by decide +kernel,
    by decide +kernel, fun h => ?_⟩
  have hzero : (weightedMultiSig 0 [⟨1, generator⟩]).Decoded :=
    .weightedMultiSig (by decide) (by simp [generator_valid])
  simpa using (authorisesThreshold_iff hzero (by decide +kernel)).mp h

/-- A key with the threshold zero accepts the signature of a stranger before the fork. -/
theorem validate_stranger :
    (weightedMultiSig 0 [⟨1, generator⟩]).checkInstallable = .ok () ∧
      ∃ p : PublicKey, p.Valid ∧ p ≠ generator ∧
        validate ⟨false, [p], 0, fun _ => 0⟩ .roleTransaction (weightedMultiSig 0 [⟨1, generator⟩]) =
          .ok true :=
  ⟨by decide +kernel, stranger, stranger_valid, by decide +kernel, by decide +kernel⟩

end Kaia.AccountKey
