import Mathlib
import Kaia.Foundation.Cache
import Kaia.Governance.Changes

/-! # The history of governance items

Governance items are stored under the blocks at which they were written: all as JSON in the
database, the latest numbers and some items also in memory, where a lookup goes first.
-/

namespace Kaia

open Foundation List

def VoteValue.native {F : Type} : VoteValue → Decoded F
  | .text t => .text t
  | .address a => .address a
  | .uint64 n => .uint64 n
  | .bool b => .bool b
  | .addresses _ | .float64 _ | .texts _ => .other

namespace GovernanceSet

def items (S : GovernanceSet) (F : Type) : List (String × Decoded F) :=
  GovKey.all.filterMap fun k => (S k).map fun v => (k.name, v.1.native)

def merge (data delta : GovernanceSet) : GovernanceSet := fun k => (delta k).or (data k)

end GovernanceSet

def governanceIdxCacheLimit : ℕ := 1000

inductive GovReadErr
  | noGovernanceData | notFound | unmarshal
  deriving DecidableEq

def calcGovernanceInfoBlock (num epoch : ℕ) : Except GoPanic ℕ :=
  if epoch = 0 then .error .divideByZero
  else
    let governanceInfoBlock := num - num % epoch
    .ok (if epoch ≤ governanceInfoBlock then governanceInfoBlock - epoch else governanceInfoBlock)

/-- The part of the database that holds governance items. -/
structure GovernanceDB where
  /-- The list under `governanceHistoryKey`. -/
  history : Option (List ℕ)
  /-- The objects under `governancePrefix`. -/
  records : ℕ → Option (List (String × Json))

namespace GovernanceDB

variable (db : GovernanceDB)

/-- `WriteGovernance`, with `WriteGovernanceIdx`. A number that is not new changes nothing. -/
def writeGovernance (data : GovernanceSet) (num : ℕ) : GovernanceDB :=
  let newSlice := db.history.getD []
  if newSlice.getLast?.any (num ≤ ·) then db
  else
    { history := some (newSlice ++ [num])
      records := Function.update db.records num (some data.toJson) }

def readRecentGovernanceIdx : List ℕ := (db.history.getD []).insertionSort (· ≤ ·)

variable (lib : JsonLib)

/-- `ReadGovernance` of the database. -/
def readGovernance (num : ℕ) : Except GovReadErr (List (String × Decoded lib.Float)) :=
  match db.records num with
  | none => .error .notFound
  | some m =>
    match m.mapM fun e => (lib.decode e.2).map (e.1, ·) with
    | none => .error .unmarshal
    | some result => .ok result

def readGovernanceAtNumber (num epoch : ℕ) :
    Except GoPanic (ℕ × Except GovReadErr (List (String × Decoded lib.Float))) := do
  -- the same computation as in the engine
  let minimum ← calcGovernanceInfoBlock num epoch
  match db.readRecentGovernanceIdx.reverse.find? (· ≤ minimum) with
  | some idx => .ok (idx, db.readGovernance lib idx)
  | none => .ok (0, .error .noGovernanceData)

end GovernanceDB

/-- The engine with its caches. -/
structure GovernanceStore (C : Cache ℕ GovernanceSet) where
  itemCache : C.State
  idxCache : List ℕ
  db : GovernanceDB

namespace GovernanceStore

variable {C : Cache ℕ GovernanceSet}

def empty (C : Cache ℕ GovernanceSet) : GovernanceStore C := ⟨C.empty, [], ⟨none, fun _ => none⟩⟩

variable (g : GovernanceStore C)

def addGovernanceCache (num : ℕ) (data : GovernanceSet) : GovernanceStore C :=
  if g.idxCache.getLast?.any (num ≤ ·) then g
  else
    let idxCache := g.idxCache ++ [num]
    { g with
      itemCache := C.add g.itemCache num data
      idxCache := idxCache.drop (idxCache.length - governanceIdxCacheLimit) }

def writeGovernance (num : ℕ) (data delta : GovernanceSet) : GovernanceStore C :=
  if g.idxCache.getLast?.any (num ≤ ·) then g
  else
    let new := data.merge delta
    let g := g.addGovernanceCache num new
    { g with db := g.db.writeGovernance new num }

def searchCache (num : ℕ) : Option ℕ := g.idxCache.reverse.find? (· ≤ num)

/-- `ReadGovernance`. A hit or a miss may reorder the item cache. -/
def readGovernance (lib : JsonLib) (num epoch : ℕ) :
    Except GoPanic (ℕ × Except GovReadErr (List (String × Decoded lib.Float))) ×
      GovernanceStore C :=
  match calcGovernanceInfoBlock num epoch with
  | .error p => (.error p, g)
  | .ok blockNum =>
    let fromDB := (g.db.readGovernanceAtNumber lib num epoch).map fun r =>
      (r.1, r.2.map lib.adjustDecodedSet)
    match g.searchCache blockNum with
    | none => (fromDB, g)
    | some gBlockNum =>
      let g' := { g with itemCache := C.get g.itemCache gBlockNum }
      match C.lookup g.itemCache gBlockNum with
      | some data => (.ok (gBlockNum, .ok (data.items lib.Float)), g')
      | none => (fromDB, g')

/-- A use of the store. -/
inductive Access
  | write (num : ℕ) (data delta : GovernanceSet)
  | read (num epoch : ℕ)

def access (lib : JsonLib) (g : GovernanceStore C) : Access → GovernanceStore C
  | .write num data delta => g.writeGovernance num data delta
  | .read num epoch => (g.readGovernance lib num epoch).2

def after (lib : JsonLib) (C : Cache ℕ GovernanceSet) (uses : List Access) : GovernanceStore C :=
  uses.foldl (access lib) (empty C)

end GovernanceStore

variable {lib : JsonLib} {S : GovernanceSet}

theorem value_native {F : Type} {d : Decoded F} {v : VoteValue} (h : d.value = some (some v)) :
    d = v.native := by
  cases d <;> cases h <;> rfl

theorem mapM_toJson (h : ¬ Lost lib S) :
    ∃ r, (S.toJson.mapM fun e => (lib.decode e.2).map (e.1, ·)) = some r ∧
      lib.adjustDecodedSet r = S.items lib.Float := by
  have hitem : ∀ k v, S k = some v → ∃ d, lib.decode v.1.toJson = some d ∧
      lib.adjust k.name d = v.1.native := by
    intro k v hv
    have hvalue : S.getValue k = some v.1 := by rw [GovernanceSet.getValue, hv]; rfl
    obtain ⟨d, hd, heq⟩ := forall_reads_toJson_iff.mpr h _
      (mem_toJson_iff.mpr ⟨k, v.1, rfl, hvalue, rfl⟩)
    rw [Decoded.equals_iff, keyIndex_name, hvalue] at heq
    exact ⟨d, hd, value_native heq⟩
  unfold GovernanceSet.toJson GovernanceSet.items
  induction GovKey.all with
  | nil => exact ⟨[], rfl, rfl⟩
  | cons k ks ih =>
    obtain ⟨r, hr, hitems⟩ := ih
    rw [filterMap_cons, filterMap_cons]
    cases hv : S k with
    | none => exact ⟨r, hr, hitems⟩
    | some v =>
      obtain ⟨d, hd, hadjust⟩ := hitem k v hv
      refine ⟨(k.name, d) :: r, ?_, ?_⟩
      · simp only [Option.map_some, mapM_cons, hd, hr]
        rfl
      · simp only [JsonLib.adjustDecodedSet] at hitems
        simp only [JsonLib.adjustDecodedSet, map_cons, Option.map_some, hadjust, hitems]

namespace GovernanceStore

variable {C : Cache ℕ GovernanceSet} {g : GovernanceStore C}

def blocks (g : GovernanceStore C) : List ℕ := g.db.history.getD []

/-- The numbers are the latest ones, and cached items are those of the database. -/
structure Mirrors (lib : JsonLib) (g : GovernanceStore C) : Prop where
  sorted : g.blocks.Pairwise (· < ·)
  latest : g.idxCache <:+ g.blocks
  tip : g.idxCache.getLast? = g.blocks.getLast?
  cached : ∀ num S, C.lookup g.itemCache num = some S →
    num ∈ g.blocks ∧ g.db.records num = some S.toJson ∧ ¬ Lost lib S

theorem mirrors_empty (lib : JsonLib) (C : Cache ℕ GovernanceSet) : Mirrors lib (empty C) where
  sorted := List.Pairwise.nil
  latest := List.suffix_refl _
  tip := rfl
  cached := by
    intro num S h
    rw [empty, C.lookup_empty] at h
    cases h

theorem Mirrors.lt_of_new (h : Mirrors lib g) {num : ℕ}
    (hnew : ¬ g.idxCache.getLast?.any (num ≤ ·) = true) : ∀ n ∈ g.blocks, n < num := by
  intro n hn
  rw [h.tip] at hnew
  obtain hnil | ⟨init, last, hblocks⟩ := eq_nil_or_concat g.blocks
  · rw [hnil] at hn
    cases hn
  rw [concat_eq_append] at hblocks
  rw [hblocks] at hn hnew
  have hlast : last < num := by simpa using hnew
  have hsorted := h.sorted
  rw [hblocks, pairwise_append] at hsorted
  rcases mem_append.mp hn with hn | hn
  · exact (hsorted.2.2 n hn last (mem_singleton_self last)).trans hlast
  · rw [mem_singleton.mp hn]
    exact hlast

theorem Mirrors.write (h : Mirrors lib g) (num : ℕ) {data delta : GovernanceSet}
    (hkeep : ¬ Lost lib (data.merge delta)) : Mirrors lib (g.writeGovernance num data delta) := by
  unfold writeGovernance
  by_cases hnew : g.idxCache.getLast?.any (num ≤ ·) = true
  · rw [if_pos hnew]
    exact h
  · have hlt := h.lt_of_new hnew
    have hdb : g.db.writeGovernance (data.merge delta) num =
        ⟨some (g.blocks ++ [num]),
          Function.update g.db.records num (some (data.merge delta).toJson)⟩ := by
      rw [h.tip] at hnew
      exact if_neg hnew
    rw [if_neg hnew]
    simp only [addGovernanceCache, if_neg hnew, hdb]
    have hlimit : 0 < governanceIdxCacheLimit := by decide
    generalize governanceIdxCacheLimit = limit at hlimit
    refine ⟨?_, ?_, ?_, ?_⟩
    · refine pairwise_append.mpr ⟨h.sorted, pairwise_singleton _ _, ?_⟩
      intro n hn m hm
      rw [mem_singleton.mp hm]
      exact hlt n hn
    · obtain ⟨before, hbefore⟩ := h.latest
      refine (drop_suffix _ _).trans ⟨before, ?_⟩
      rw [← append_assoc, hbefore]
      rfl
    · -- the limit leaves at least the new number
      have hdrop : (g.idxCache ++ [num]).length - limit ≤ g.idxCache.length := by
        rw [length_append, length_singleton]
        omega
      rw [drop_append_of_le_length hdrop]
      simp [blocks]
    · intro n S hS
      rcases C.lookup_add _ _ _ _ _ hS with ⟨rfl, rfl⟩ | ⟨hne, hS⟩
      · exact ⟨mem_append_right _ (mem_singleton_self n), Function.update_self .., hkeep⟩
      · obtain ⟨hmem, hrec, hlost⟩ := h.cached n S hS
        refine ⟨mem_append_left _ hmem, ?_, hlost⟩
        dsimp only
        rw [Function.update_of_ne hne]
        exact hrec

theorem Mirrors.read (h : Mirrors lib g) (num epoch : ℕ) :
    Mirrors lib (g.readGovernance lib num epoch).2 := by
  have hget : ∀ n, Mirrors lib { g with itemCache := C.get g.itemCache n } := fun n =>
    ⟨h.sorted, h.latest, h.tip, fun m S hS => h.cached m S (C.lookup_get _ n m ▸ hS)⟩
  unfold readGovernance
  split
  · exact h
  · dsimp only
    split
    · exact h
    · split <;> exact hget _

theorem mirrors_after {uses : List Access}
    (hkeep : ∀ num data delta, Access.write num data delta ∈ uses → ¬ Lost lib (data.merge delta)) :
    Mirrors lib (after lib C uses) := by
  induction uses using reverseRecOn with
  | nil => exact mirrors_empty lib C
  | append_singleton uses use ih =>
    have hbefore := ih fun num data delta h => hkeep num data delta (mem_append_left _ h)
    rw [after, foldl_append, foldl_cons, foldl_nil]
    cases use with
    | write num data delta =>
      exact hbefore.write num (hkeep num data delta (by simp))
    | read num epoch => exact hbefore.read num epoch

theorem Mirrors.readRecentGovernanceIdx (h : Mirrors lib g) :
    g.db.readRecentGovernanceIdx = g.blocks :=
  (h.sorted.imp fun hlt => le_of_lt hlt).insertionSort_eq

theorem Mirrors.searchCache (h : Mirrors lib g) {num n : ℕ} (hn : g.searchCache num = some n) :
    g.blocks.reverse.find? (· ≤ num) = some n := by
  obtain ⟨before, hbefore⟩ := h.latest
  rw [← hbefore, reverse_append, find?_append]
  rw [GovernanceStore.searchCache] at hn
  rw [hn]
  rfl

/-- The lookup through the caches is that in the database, if no written item is lost in JSON. -/
theorem readGovernance_eq_database (lib : JsonLib) (C : Cache ℕ GovernanceSet)
    (uses : List Access)
    (hkeep : ∀ num data delta, Access.write num data delta ∈ uses → ¬ Lost lib (data.merge delta))
    (num epoch : ℕ) :
    ((after lib C uses).readGovernance lib num epoch).1 =
      ((after lib C uses).db.readGovernanceAtNumber lib num epoch).map fun r =>
        (r.1, r.2.map lib.adjustDecodedSet) := by
  have hmirrors := mirrors_after (C := C) hkeep
  generalize after lib C uses = g at hmirrors
  unfold readGovernance
  cases hcalc : calcGovernanceInfoBlock num epoch with
  | error p =>
    rw [GovernanceDB.readGovernanceAtNumber, hcalc]
    rfl
  | ok blockNum =>
    dsimp only
    cases hsearch : g.searchCache blockNum with
    | none => rfl
    | some n =>
      dsimp only
      cases hlookup : C.lookup g.itemCache n with
      | none => rfl
      | some S =>
        obtain ⟨-, hrec, hlost⟩ := hmirrors.cached n S hlookup
        obtain ⟨r, hr, hitems⟩ := mapM_toJson hlost
        have hdb : g.db.readGovernanceAtNumber lib num epoch = .ok (n, .ok r) := by
          simp only [GovernanceDB.readGovernanceAtNumber, hcalc, bind, Except.bind,
            hmirrors.readRecentGovernanceIdx, hmirrors.searchCache hsearch,
            GovernanceDB.readGovernance, hrec, hr]
        rw [hdb]
        show _ = Except.ok (n, Except.ok (lib.adjustDecodedSet r))
        rw [hitems]

def priceSet (n : ℕ) : GovernanceSet :=
  Function.update (fun _ => none) .unitPrice (some ⟨.uint64 n, rfl⟩)

theorem priceSet_not_lost {n : ℕ} (hn : nearestFloat64 n = n) :
    ¬ Lost .braces ((priceSet n).merge fun _ => none) := by
  have hvalue : ∀ k v, ((priceSet n).merge fun _ => none).getValue k = some v → v = .uint64 n := by
    intro k v hv
    by_cases hk : k = .unitPrice
    · subst hk
      cases hv
      rfl
    · simp [GovernanceSet.getValue, GovernanceSet.merge, priceSet, Function.update_of_ne hk] at hv
  intro hlost
  cases hlost with
  | number hv hne =>
    cases hvalue _ _ hv
    exact hne (congrArg some hn)
  | address hv => cases hvalue _ _ hv

/-- Two prices that `float64` keeps, the first of them dropped from the cache. -/
def twoPrices : GovernanceStore (.single ℕ GovernanceSet) :=
  after .braces (.single ℕ GovernanceSet)
    [.write 0 (priceSet 25) fun _ => none, .write 10 (priceSet 30) fun _ => none]

theorem readGovernance_eq_database_evicted :
    (Cache.single ℕ GovernanceSet).lookup twoPrices.itemCache 0 = none ∧
    ∀ num ∈ [5, 25], (twoPrices.readGovernance .braces num 10).1 =
      (twoPrices.db.readGovernanceAtNumber .braces num 10).map fun r =>
        (r.1, r.2.map (JsonLib.adjustDecodedSet .braces)) := by
  refine ⟨rfl, fun num _ => readGovernance_eq_database .braces (.single ℕ GovernanceSet) _ ?_ num 10⟩
  intro num data delta hmem
  obtain ⟨rfl, rfl, rfl⟩ | ⟨rfl, rfl, rfl⟩ : (num = 0 ∧ data = priceSet 25 ∧ delta = fun _ => none) ∨
      num = 10 ∧ data = priceSet 30 ∧ delta = fun _ => none := by
    simpa using hmem
  · exact priceSet_not_lost rfl
  · exact priceSet_not_lost rfl

def dearer : GovernanceSet := priceSet 9007199254740993

/-- The node has the price that was written, and the database one less. -/
theorem rounded_price_differs :
    ((after .braces (.unbounded ℕ GovernanceSet)
        [.write 0 dearer fun _ => none]).readGovernance .braces 5 10).1 =
      .ok (0, .ok [("governance.unitprice", .uint64 9007199254740993)]) ∧
    (((after .braces (.unbounded ℕ GovernanceSet)
        [.write 0 dearer fun _ => none]).db.readGovernanceAtNumber .braces 5 10).map fun r =>
          (r.1, r.2.map (JsonLib.adjustDecodedSet .braces))) =
      .ok (0, .ok [("governance.unitprice", .uint64 9007199254740992)]) := by
  exact ⟨rfl, rfl⟩

end GovernanceStore

end Kaia
