import Kaia.Governance.Json

/-! # Verifying the changes in a header

At the start of an epoch the proposer puts its pending changes into the header, and every node
compares them with its own. The comparison goes over what was received only, and over values
that JSON has changed.
-/

namespace Kaia

open Foundation Foundation.Rlp Option

inductive VerifyGovErr
  | decodeGovChange | unmarshalGovChange | voteValueMismatch
  deriving DecidableEq

def GovernanceSet.getValue (S : GovernanceSet) (k : GovKey) : Option VoteValue :=
  (S k).map Subtype.val

variable (lib : JsonLib) (S : GovernanceSet)

/-- `VerifyGovernance`. The sizes are compared for a log line only. -/
def verifyGovernance (received : Bytes) : Except VerifyGovErr Unit :=
  match Codec.bytes.decodeBytes received with
  | none => .error .decodeGovChange
  | some change =>
    match lib.decodeMap change with
    | none => .error .unmarshalGovChange
    | some rChangeSet =>
      if (lib.adjustDecodedSet rChangeSet).all fun e => e.2.equals (S.getValue (keyIndex e.1)) then
        .ok ()
      else .error .voteValueMismatch

/-- The bytes are those of the set: a text that reads as a map with exactly its items. -/
def Encodes (received : Bytes) : Prop :=
  ∃ change m, Codec.bytes.decodeBytes received = some change ∧ lib.unmarshal change = some m ∧
    m.Perm S.toJson

/-- An entry that compares equal once it is read. -/
def Reads (e : String × Json) : Prop :=
  ∃ d, lib.decode e.2 = some d ∧ (lib.adjust e.1 d).equals (S.getValue (keyIndex e.1)) = true

/-- An entry that is not an item of the set, whatever it compares equal to. -/
inductive Loose : String × Json → Prop
  | unknown {k : String} (j : Json) : governanceKeyMap k = none → Loose (k, j)
  | null (k : String) : Loose (k, .null)
  | number {k : String} {q : ℚ} {n : ℕ} :
      S.getValue (keyIndex k) = some (.uint64 n) → q ≠ n → Loose (k, .number q)
  | text {k : String} {t : Bytes} {a : Address} :
      S.getValue (keyIndex k) = some (.address a) → t ≠ a.text → Loose (k, .text t)

/-- A number that `float64` does not keep, or an address under a key that is not converted. -/
inductive Lost : Prop
  | number {k : GovKey} {n : ℕ} : S.getValue k = some (.uint64 n) →
      (lib.parseFloat n).map lib.toUint64 ≠ some n → Lost
  | address {k : GovKey} {a : Address} : S.getValue k = some (.address a) →
      k ≠ .governingNode → k ≠ .govParamContract → Lost

variable {lib : JsonLib} {S : GovernanceSet} {received change : Bytes} {e : String × Json}
  {m : List (String × Json)}

theorem mem_toJson_iff {s : String} {j : Json} :
    (s, j) ∈ S.toJson ↔ ∃ k v, s = k.name ∧ S.getValue k = some v ∧ j = v.toJson := by
  rw [GovernanceSet.mem_toJson]
  constructor
  · rintro ⟨k, v, hv, he⟩
    obtain ⟨rfl, rfl⟩ := Prod.mk.inj he
    exact ⟨k, v.1, rfl, by rw [GovernanceSet.getValue, hv]; rfl, rfl⟩
  · rintro ⟨k, v, rfl, hv, rfl⟩
    obtain ⟨w, hw, rfl⟩ := map_eq_some_iff.mp hv
    exact ⟨k, w, hw, rfl⟩

variable {k : GovKey} {v : VoteValue}

theorem isA_of_getValue (h : S.getValue k = some v) : v.isA k.type = true := by
  obtain ⟨w, -, rfl⟩ := map_eq_some_iff.mp h
  exact w.2

theorem exists_mapM_all_iff {α β : Type} {f : α → Option β} {p : β → Bool} {l : List α} :
    (∃ r, l.mapM f = some r ∧ r.all p = true) ↔ ∀ a ∈ l, ∃ b, f a = some b ∧ p b = true := by
  induction l with
  | nil => simp
  | cons a l ih =>
    simp only [List.mapM_cons, bind_eq_bind, bind_eq_some_iff, pure_def,
      some.injEq, List.forall_mem_cons, ← ih]
    constructor
    · rintro ⟨_, ⟨b, hb, r, hr, rfl⟩, hall⟩
      rw [List.all_cons, Bool.and_eq_true] at hall
      exact ⟨⟨b, hb, hall.1⟩, r, hr, hall.2⟩
    · rintro ⟨⟨b, hb, hp⟩, r, hr, hall⟩
      refine ⟨_, ⟨b, hb, r, hr, rfl⟩, ?_⟩
      rw [List.all_cons, hp, hall]
      rfl

theorem verifyGovernance_eq_ok_iff :
    verifyGovernance lib S received = .ok () ↔ ∃ change m,
      Codec.bytes.decodeBytes received = some change ∧ lib.unmarshal change = some m ∧
        ∀ e ∈ m, Reads lib S e := by
  have hreads : ∀ m : List (String × Json), (∀ e ∈ m, Reads lib S e) ↔
      ∃ r, (m.mapM fun e => (lib.decode e.2).map (e.1, ·)) = some r ∧
        (lib.adjustDecodedSet r).all (fun e => e.2.equals (S.getValue (keyIndex e.1))) = true := by
    intro m
    simp only [JsonLib.adjustDecodedSet, List.all_map]
    rw [exists_mapM_all_iff]
    refine forall₂_congr fun e _ => ?_
    simp [Reads, map_eq_some_iff]
  unfold verifyGovernance
  cases hc : Codec.bytes.decodeBytes received with
  | none => simp
  | some change =>
    simp only [JsonLib.decodeMap, some.injEq, exists_eq_left', exists_and_left, hreads]
    cases hm : lib.unmarshal change with
    | none => simp
    | some m =>
      simp only [bind_some, some.injEq, exists_eq_left']
      cases m.mapM fun e => (lib.decode e.2).map (e.1, ·) with
      | none | some => simp

theorem Reads.mem_toJson_iff (h : Reads lib S e) : e ∈ S.toJson ↔ ¬ Loose S e := by
  obtain ⟨s, j⟩ := e
  constructor
  · intro hmem hloose
    obtain ⟨k, v, rfl, hv, rfl⟩ := Kaia.mem_toJson_iff.mp hmem
    generalize hj : v.toJson = j at hloose
    generalize hs : k.name = s at hloose
    cases hloose with
    | unknown _ hk =>
      rw [← hs, governanceKeyMap_name] at hk
      cases hk
    | null => cases v <;> cases hj
    | number hn hne | text hn hne =>
      rw [← hs, keyIndex_name, hv] at hn
      cases hn
      cases hj
      exact hne rfl
  · intro hloose
    obtain ⟨d, hd, heq⟩ := h
    cases hk : governanceKeyMap s with
    | none => exact absurd (Loose.unknown j hk) hloose
    | some k =>
      obtain rfl := governanceKeyMap_eq_some.mp hk
      rw [Kaia.mem_toJson_iff]
      rw [Decoded.equals_iff] at heq
      dsimp only at hd heq
      cases j with
      | null => exact absurd (Loose.null _) hloose
      | other =>
        cases hd
        simp [Decoded.value] at heq
      | bool b =>
        cases hd
        rw [JsonLib.adjust_bool, keyIndex_name] at heq
        exact ⟨k, .bool b, rfl, (some.inj heq).symm, rfl⟩
      | text t =>
        cases hd
        rw [JsonLib.adjust_text, keyIndex_name] at heq
        split at heq
        · have hv : S.getValue k = some (.address (hexToAddress t)) := (some.inj heq).symm
          refine ⟨k, _, rfl, hv, ?_⟩
          by_contra hne
          apply hloose
          refine Loose.text (a := hexToAddress t) (by rw [keyIndex_name]; exact hv) ?_
          exact fun ht => hne (congrArg Json.text ht)
        · exact ⟨k, .text t, rfl, (some.inj heq).symm, rfl⟩
      | number q =>
        obtain ⟨x, -, rfl⟩ := map_eq_some_iff.mp hd
        rw [JsonLib.adjust_float64, keyIndex_name] at heq
        split at heq
        · cases heq
        · have hv : S.getValue k = some (.uint64 (lib.toUint64 x)) := (some.inj heq).symm
          refine ⟨k, _, rfl, hv, ?_⟩
          by_contra hne
          apply hloose
          refine Loose.number (n := lib.toUint64 x) (by rw [keyIndex_name]; exact hv) ?_
          exact fun hq => hne (congrArg Json.number hq)

theorem reads_toJson_iff (hv : S.getValue k = some v) :
    Reads lib S (k.name, v.toJson) ↔
      (∀ n, v = .uint64 n → (lib.parseFloat n).map lib.toUint64 = some n) ∧
      ∀ a, v = .address a → k = .governingNode ∨ k = .govParamContract := by
  have htype := isA_of_getValue hv
  unfold Reads
  dsimp only
  simp only [Decoded.equals_iff, keyIndex_name, hv]
  cases v with
  | bool b => simp [VoteValue.toJson, JsonLib.decode, Decoded.value]
  | text t =>
    have hkey : ¬ (k = .governingNode ∨ k = .govParamContract) := by
      rintro (rfl | rfl) <;> cases htype
    simp [VoteValue.toJson, JsonLib.decode, JsonLib.adjust_text, hkey, Decoded.value]
  | address a =>
    by_cases hkey : k = .governingNode ∨ k = .govParamContract
    · simp [VoteValue.toJson, JsonLib.decode, JsonLib.adjust_text, hkey, Decoded.value,
        hexToAddress_text]
    · simp [VoteValue.toJson, JsonLib.decode, JsonLib.adjust_text, hkey, Decoded.value]
  | uint64 n =>
    have hkey : ¬ (k = .governingNode ∨ k = .govParamContract) := by
      rintro (rfl | rfl) <;> cases htype
    simp only [VoteValue.toJson, JsonLib.decode, map_eq_some_iff]
    constructor
    · rintro ⟨d, ⟨x, hx, rfl⟩, heq⟩
      rw [JsonLib.adjust_float64, keyIndex_name, if_neg hkey] at heq
      cases heq
      refine ⟨fun n hn => ?_, fun a ha => by cases ha⟩
      cases hn
      exact ⟨x, hx, rfl⟩
    · rintro ⟨h, -⟩
      obtain ⟨x, hx, hn⟩ := h n rfl
      refine ⟨_, ⟨x, hx, rfl⟩, ?_⟩
      rw [JsonLib.adjust_float64, keyIndex_name, if_neg hkey, hn]
      rfl
  | addresses | float64 | texts => cases htype

theorem forall_reads_toJson_iff : (∀ e ∈ S.toJson, Reads lib S e) ↔ ¬ Lost lib S := by
  constructor
  · intro h hlost
    cases hlost with
    | number hv hne =>
      have hreads := h _ (mem_toJson_iff.mpr ⟨_, _, rfl, hv, rfl⟩)
      exact hne (((reads_toJson_iff hv).mp hreads).1 _ rfl)
    | address hv hk₁ hk₂ =>
      have hreads := h _ (mem_toJson_iff.mpr ⟨_, _, rfl, hv, rfl⟩)
      exact (((reads_toJson_iff hv).mp hreads).2 _ rfl).elim hk₁ hk₂
  · rintro h ⟨s, j⟩ he
    obtain ⟨k, v, rfl, hv, rfl⟩ := mem_toJson_iff.mp he
    refine (reads_toJson_iff hv).mpr ⟨?_, ?_⟩
    · rintro n rfl
      by_contra hne
      exact h (.number hv hne)
    · rintro a rfl
      by_contra hk
      rw [not_or] at hk
      exact h (.address hv hk.1 hk.2)

theorem perm_toJson_iff (hnd : (m.map Prod.fst).Nodup) :
    m.Perm S.toJson ↔ (∀ e ∈ m, e ∈ S.toJson) ∧
      ∀ k, (S.getValue k).isSome → k.name ∈ m.map Prod.fst := by
  constructor
  · intro h
    refine ⟨fun e he => h.mem_iff.mp he, fun k hk => ?_⟩
    obtain ⟨v, hv⟩ := isSome_iff_exists.mp hk
    exact List.mem_map.mpr ⟨_, h.mem_iff.mpr (mem_toJson_iff.mpr ⟨k, v, rfl, hv, rfl⟩), rfl⟩
  · rintro ⟨hitems, hkeys⟩
    rw [List.perm_ext_iff_of_nodup (List.Nodup.of_map _ hnd) (List.Nodup.of_map _ S.nodup_toJson)]
    rintro ⟨s, j⟩
    refine ⟨hitems _, fun he => ?_⟩
    obtain ⟨k, v, rfl, hv, rfl⟩ := mem_toJson_iff.mp he
    obtain ⟨⟨s, j'⟩, he', hs⟩ := List.mem_map.mp (hkeys k (by rw [hv]; rfl))
    obtain rfl : s = k.name := hs
    -- the entry of the map under the key is the item
    obtain ⟨k', v', hk', hv', rfl⟩ := mem_toJson_iff.mp (hitems _ he')
    obtain rfl := GovKey.name_injective hk'
    cases hv.symm.trans hv'
    exact he'

/-- The verification is exact unless a passed map omits a key or is loose, or an item is lost. -/
theorem verifyGovernance_exact_iff (lib : JsonLib) (S : GovernanceSet) (received : Bytes) :
    (verifyGovernance lib S received = .ok () ↔ Encodes lib S received) ↔
      ∀ change m, Codec.bytes.decodeBytes received = some change → lib.unmarshal change = some m →
        ((∀ e ∈ m, Reads lib S e) →
          (∀ k, (S.getValue k).isSome → k.name ∈ m.map Prod.fst) ∧ ∀ e ∈ m, ¬ Loose S e) ∧
        (m.Perm S.toJson → ¬ Lost lib S) := by
  rw [verifyGovernance_eq_ok_iff]
  constructor
  · intro hexact change m hc hm
    have hperm := perm_toJson_iff (S := S) (lib.nodup_unmarshal change m hm)
    constructor
    · intro hreads
      obtain ⟨change', m', hc', hm', hsame⟩ := hexact.mp ⟨change, m, hc, hm, hreads⟩
      cases hc.symm.trans hc'
      cases hm.symm.trans hm'
      obtain ⟨hitems, hkeys⟩ := hperm.mp hsame
      exact ⟨hkeys, fun e he => (hreads e he).mem_toJson_iff.mp (hitems e he)⟩
    · intro hsame
      obtain ⟨change', m', hc', hm', hreads⟩ := hexact.mpr ⟨change, m, hc, hm, hsame⟩
      cases hc.symm.trans hc'
      cases hm.symm.trans hm'
      exact forall_reads_toJson_iff.mp fun e he => hreads e (hsame.mem_iff.mpr he)
  · intro h
    constructor
    · rintro ⟨change, m, hc, hm, hreads⟩
      obtain ⟨hkeys, hstrict⟩ := (h change m hc hm).1 hreads
      refine ⟨change, m, hc, hm, (perm_toJson_iff (lib.nodup_unmarshal change m hm)).mpr ?_⟩
      exact ⟨fun e he => (hreads e he).mem_toJson_iff.mpr (hstrict e he), hkeys⟩
    · rintro ⟨change, m, hc, hm, hsame⟩
      refine ⟨change, m, hc, hm, fun e he => ?_⟩
      exact forall_reads_toJson_iff.mpr ((h change m hc hm).2 hsame) e (hsame.mem_iff.mp he)

/-- A reader that knows the empty object only. -/
def JsonLib.braces : JsonLib where
  unmarshal := fun b => if b = [123, 125] then some [] else none
  Float := ℕ
  parseFloat := fun q => some (nearestFloat64 q.num.toNat)
  toUint64 := id
  nodup_unmarshal := by
    intro b m h
    obtain ⟨-, heq⟩ := Option.ite_none_right_eq_some.mp h
    cases heq
    exact List.nodup_nil
  parseFloat_nat := fun n _ => rfl

def cheaper : GovernanceSet :=
  Function.update (fun _ => none) .unitPrice (some ⟨.uint64 25, rfl⟩)

/-- A header without the change passes. -/
theorem omitted_change_passes :
    verifyGovernance .braces cheaper [130, 123, 125] = .ok () ∧
      ¬ Encodes .braces cheaper [130, 123, 125] := by
  constructor
  · rfl
  · rintro ⟨change, m, hc, hm, hsame⟩
    obtain ⟨-, heq⟩ := ite_none_right_eq_some.mp hm
    obtain rfl := some.inj heq
    have hmem : (GovKey.unitPrice.name, Json.number 25) ∈ cheaper.toJson :=
      mem_toJson_iff.mpr ⟨.unitPrice, .uint64 25, rfl, rfl, rfl⟩
    exact List.not_mem_nil (hsame.mem_iff.mpr hmem)

end Kaia
