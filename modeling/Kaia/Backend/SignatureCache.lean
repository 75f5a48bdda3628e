import Kaia.Backend.CommittedSeals
import Kaia.Foundation.Cache

/-! # The signature cache

All signatures are resolved through one cache, whose key is the signature without the signed data.
A call is answered as without it exactly when there is no entry, or one with the same signer.
-/

namespace Kaia

open Foundation

def hexDigits (b : UInt8) : List Char :=
  [Nat.digitChar (b.toNat / 16), Nat.digitChar (b.toNat % 16)]

def hexEncodeToString (b : Bytes) : String := String.ofList (b.flatMap hexDigits)

theorem digitChar_inj {m n : ℕ} (hm : m < 16) (hn : n < 16)
    (h : Nat.digitChar m = Nat.digitChar n) : m = n := by
  have hall : ∀ a b : Fin 16, Nat.digitChar a = Nat.digitChar b → a = b := by decide
  exact congrArg Fin.val (hall ⟨m, hm⟩ ⟨n, hn⟩ h)

theorem hexDigits_injective {a b : UInt8} (h : hexDigits a = hexDigits b) : a = b := by
  simp only [hexDigits, List.cons.injEq, and_true] at h
  have ha := a.toNat_lt
  have hb := b.toNat_lt
  have hhigh := digitChar_inj (by omega) (by omega) h.1
  have hlow := digitChar_inj (by omega) (by omega) h.2
  exact UInt8.toNat_inj.mp (by omega)

theorem hexEncodeToString_injective {a b : Bytes}
    (h : hexEncodeToString a = hexEncodeToString b) : a = b := by
  have hchars := String.ofList_injective h
  clear h
  induction a generalizing b with
  | nil =>
    cases b with
    | nil => rfl
    | cons y b => simp [hexDigits] at hchars
  | cons x a ih =>
    cases b with
    | nil => simp [hexDigits] at hchars
    | cons y b =>
      simp only [List.flatMap_cons] at hchars
      obtain ⟨hxy, hab⟩ := List.append_inj hchars rfl
      rw [hexDigits_injective hxy, ih hab]

abbrev SignatureCache := Cache String Address

def cacheSignatureAddresses (C : SignatureCache) (recover : Recover) (signatureAddresses : C.State)
    (data sig : Bytes) : Except SignatureErr Address × C.State :=
  let sigStr := hexEncodeToString sig
  match C.lookup signatureAddresses sigStr with
  | some addr => (.ok addr, C.get signatureAddresses sigStr)
  | none =>
    match recover data sig with
    | .error err => (.error err, C.get signatureAddresses sigStr)
    | .ok addr => (.ok addr, C.add (C.get signatureAddresses sigStr) sigStr addr)

variable {m : Type → Type} [Monad m] (resolve : Bytes → Bytes → m (Except SignatureErr Address))

/-- The proposer that sealed a header. -/
def ecrecover (header : Header) : m (Except VerifyErr Address) := do
  match header.extra with
  | none => pure (.error .invalidExtraDataFormat)
  | some extra =>
    match ← resolve header.sigHash.bytes extra.proposerSeal with
    | .error e => pure (.error (.recovery e))
    | .ok addr => pure (.ok addr)

def checkSignature (data : Bytes) (address : Address) (sig : Bytes) :
    m (Except VerifyErr Unit) := do
  match ← resolve data sig with
  | .error e => pure (.error (.recovery e))
  | .ok signer => pure (if signer ≠ address then .error .invalidSignature else .ok ())

abbrev Resolving := Query (Bytes × Bytes) (Except SignatureErr Address)

def askSigner (data sig : Bytes) : Resolving (Except SignatureErr Address) :=
  .ask (data, sig) .done

variable (C : SignatureCache) (recover : Recover)

def signatureAddressesAfter (history : List (Bytes × Bytes)) : C.State :=
  history.foldl (fun s x => (cacheSignatureAddresses C recover s x.1 x.2).2) C.empty

def runCached {ρ : Type} : Resolving ρ → C.State → ρ × C.State
  | .done r, s => (r, s)
  | .ask x next, s =>
    let answer := cacheSignatureAddresses C recover s x.1 x.2
    runCached (next answer.1) answer.2

/-- The cache has no entry for the signature, or one stored for data with the same signer. -/
def CacheAgrees (history : List (Bytes × Bytes)) (data sig : Bytes) : Prop :=
  C.lookup (signatureAddressesAfter C recover history) (hexEncodeToString sig) = none ∨
    ∃ data', (data', sig) ∈ history ∧ recover data' sig = recover data sig ∧
      ∃ addr, C.lookup (signatureAddressesAfter C recover history) (hexEncodeToString sig) =
        some addr ∧ recover data' sig = .ok addr

/-- The cache agrees with every signature of a program, as do the signatures with each other. -/
def CallsAgree {ρ : Type} (history : List (Bytes × Bytes)) (p : Resolving ρ) : Prop :=
  let calls := p.asks fun x => recover x.1 x.2
  (∀ x ∈ calls, CacheAgrees C recover history x.1 x.2) ∧
    ∀ x ∈ calls, ∀ y ∈ calls, x.2 = y.2 → recover x.1 x.2 = recover y.1 y.2

variable {C recover} {history : List (Bytes × Bytes)}

theorem cacheSignatureAddresses_eq_call (s : C.State) (data sig : Bytes) :
    cacheSignatureAddresses C recover s data sig =
      C.call (fun x => hexEncodeToString x.2) (fun x => recover x.1 x.2) s (data, sig) := by
  simp only [cacheSignatureAddresses, Cache.call]
  cases C.lookup s (hexEncodeToString sig) with
  | none => cases recover data sig <;> rfl
  | some addr => rfl

theorem signatureAddressesAfter_eq_after :
    signatureAddressesAfter C recover history =
      C.after (fun x => hexEncodeToString x.2) (fun x => recover x.1 x.2) history := by
  simp only [signatureAddressesAfter, Cache.after, cacheSignatureAddresses_eq_call]

theorem runCached_eq_run {ρ : Type} (p : Resolving ρ) (s : C.State) :
    runCached C recover p s =
      C.run (fun x => hexEncodeToString x.2) (fun x => recover x.1 x.2) p s := by
  induction p generalizing s with
  | done r => rfl
  | ask x next ih => simp only [runCached, Cache.run, cacheSignatureAddresses_eq_call, ih]

theorem cacheAgrees_iff_agrees {data sig : Bytes} :
    CacheAgrees C recover history data sig ↔
      C.Agrees (fun x => hexEncodeToString x.2) (fun x => recover x.1 x.2) history (data, sig) := by
  unfold CacheAgrees Cache.Agrees
  rw [signatureAddressesAfter_eq_after]
  constructor
  · rintro (hnone | ⟨data', hmem, heq, haddr⟩)
    · exact .inl hnone
    · exact .inr ⟨(data', sig), hmem, rfl, heq, haddr⟩
  · rintro (hnone | ⟨⟨data', sig'⟩, hmem, hkey, heq, haddr⟩)
    · exact .inl hnone
    · obtain rfl := hexEncodeToString_injective hkey
      exact .inr ⟨data', hmem, heq, haddr⟩

theorem runCached_eq_of_callsAgree {ρ : Type} {p : Resolving ρ}
    (h : CallsAgree C recover history p) :
    (runCached C recover p (signatureAddressesAfter C recover history)).1 =
      (runCached C recover p C.empty).1 := by
  obtain ⟨hcache, hself⟩ := h
  have hkeys : ∀ x ∈ p.asks fun x => recover x.1 x.2, ∀ y ∈ p.asks fun x => recover x.1 x.2,
      hexEncodeToString x.2 = hexEncodeToString y.2 → recover x.1 x.2 = recover y.1 y.2 :=
    fun x hx y hy hk => hself x hx y hy (hexEncodeToString_injective hk)
  rw [runCached_eq_run, runCached_eq_run, Cache.run_eq_eval _ hkeys, Cache.run_eq_eval _ hkeys]
  · intro x _ v hv
    rw [C.lookup_empty] at hv
    cases hv
  · intro x hx
    rw [signatureAddressesAfter_eq_after]
    exact (cacheAgrees_iff_agrees.mp (hcache x hx)).of_lookup

/-- The cache is transparent for a call exactly when it agrees, and so for verification. -/
theorem cacheSignatureAddresses_transparent_iff (C : SignatureCache) (recover : Recover)
    (history : List (Bytes × Bytes)) :
    (∀ data sig, (cacheSignatureAddresses C recover (signatureAddressesAfter C recover history)
        data sig).1 = recover data sig ↔ CacheAgrees C recover history data sig) ∧
      (∀ o snapshot header,
        CallsAgree C recover history (verifyCommittedSeals o askSigner snapshot header) →
        ((runCached C recover (verifyCommittedSeals o askSigner snapshot header)
            (signatureAddressesAfter C recover history)).1 = .ok () ↔
          (runCached C recover (verifyCommittedSeals o askSigner snapshot header) C.empty).1 =
            .ok ())) ∧
      (∀ header, CallsAgree C recover history (ecrecover askSigner header) →
        (runCached C recover (ecrecover askSigner header)
            (signatureAddressesAfter C recover history)).1 =
          (runCached C recover (ecrecover askSigner header) C.empty).1) ∧
      ∀ data address sig, CallsAgree C recover history (checkSignature askSigner data address sig) →
        (runCached C recover (checkSignature askSigner data address sig)
            (signatureAddressesAfter C recover history)).1 =
          (runCached C recover (checkSignature askSigner data address sig) C.empty).1 := by
  refine ⟨fun data sig => ?_, fun o snapshot header h => ?_, fun header h => ?_,
    fun data address sig h => ?_⟩
  · rw [cacheSignatureAddresses_eq_call, signatureAddressesAfter_eq_after, cacheAgrees_iff_agrees]
    exact Cache.call_eq_iff_agrees
  · rw [runCached_eq_of_callsAgree h]
  · exact runCached_eq_of_callsAgree h
  · exact runCached_eq_of_callsAgree h

def reusedSeal : Bytes := List.replicate 65 1

def reusedRecover : Recover := fun data _ => if data = prepareCommittedSeal 1 then .ok 1 else .ok 9

/-- A header with digest 2 that carries the seal of the other block. -/
def forgedHeader : Header where
  number := 1
  parentHash := 0
  hash := 2
  sigHash := 2
  extra := some ⟨[1], [], [reusedSeal]⟩
  mixHash := none
  vote := []

def verifyForged : Resolving (Except VerifyErr Unit) :=
  verifyCommittedSeals ChainEnv.counting.order askSigner
    (fun _ _ => pure (.ok (fullCommittee [1]))) forgedHeader

/-- Once the cache has seen the seal of another block, it vouches for the forged header. -/
theorem forgedHeader_accepted_after_reuse :
    let C := Cache.unbounded String Address
    let history := [(prepareCommittedSeal 1, reusedSeal)]
    (cacheSignatureAddresses C reusedRecover (signatureAddressesAfter C reusedRecover history)
        (prepareCommittedSeal 2) reusedSeal).1 = .ok 1 ∧
      reusedRecover (prepareCommittedSeal 2) reusedSeal = .ok 9 ∧
      (runCached C reusedRecover verifyForged
        (signatureAddressesAfter C reusedRecover history)).1 = .ok () ∧
      (runCached C reusedRecover verifyForged C.empty).1 = .error .invalidCommittedSeals := by
  decide +kernel

theorem verifyForged_callsAgree :
    CallsAgree (Cache.unbounded String Address) reusedRecover
      [(prepareCommittedSeal 2, reusedSeal)] verifyForged := by
  have hcalls : verifyForged.asks (fun x => reusedRecover x.1 x.2) =
      [(prepareCommittedSeal 2, reusedSeal)] := by decide +kernel
  simp only [CallsAgree, hcalls, List.mem_singleton, forall_eq, implies_true, and_true]
  exact .inr ⟨prepareCommittedSeal 2, by simp, rfl, 9, by decide +kernel, by decide +kernel⟩

/-- A cache that has seen the seal under the header's own digest changes nothing. -/
theorem forgedHeader_unaffected :
    let C := Cache.unbounded String Address
    let history := [(prepareCommittedSeal 2, reusedSeal)]
    CallsAgree C reusedRecover history verifyForged ∧
      ((runCached C reusedRecover verifyForged
          (signatureAddressesAfter C reusedRecover history)).1 = .ok () ↔
        (runCached C reusedRecover verifyForged C.empty).1 = .ok ()) :=
  ⟨verifyForged_callsAgree, (cacheSignatureAddresses_transparent_iff
    (Cache.unbounded String Address) reusedRecover _).2.1 _ _ _ verifyForged_callsAgree⟩

end Kaia
