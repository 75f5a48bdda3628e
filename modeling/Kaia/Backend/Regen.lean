import Kaia.Backend.Restoring
import Kaia.Foundation.Runs

/-! # The restoration of checkpoint snapshots

A call that gathers two headers or more gives its flag back and leaves the checkpoints among them
on disk. A call that finds the snapshot of the block or of its parent keeps the flag for good.
-/

namespace Kaia.SnapshotBackend

open Foundation List Function Relates

variable {F G : Type} {C : Cache Hash Snapshot} {svc : SnapshotServices F G}
  {b c : SnapshotBackend C G} {number : ℕ} {hash : Hash} {parents headers : List Header}
  {writable : Bool}

section Frames

/-- What is on disk is what was there before, or a snapshot under its own hash. -/
def Writes (b c : SnapshotBackend C G) (hash : Hash) : Prop :=
  c.db hash = b.db hash ∨ ∃ s : Snapshot, s.hash = hash ∧ c.db hash = some s.toJSONStruct

/-- Snapshots were written and the flag is as before. -/
structure Grows (b c : SnapshotBackend C G) : Prop where
  flag : c.isRestoringSnapshots = b.isRestoringSnapshots
  writes : ∀ hash, Writes b c hash

/-- Snapshots were written and the flag was not given back. -/
structure Keeps (b c : SnapshotBackend C G) : Prop where
  held : b.isRestoringSnapshots = true → c.isRestoringSnapshots = true
  writes : ∀ hash, Writes b c hash

theorem Writes.refl (b : SnapshotBackend C G) (hash : Hash) : Writes b b hash := .inl rfl

theorem Writes.trans {d : SnapshotBackend C G} (h : Writes b c hash) (h' : Writes c d hash) :
    Writes b d hash := by
  rcases h' with h' | h'
  · rcases h with h | ⟨s, hs, h⟩
    · exact .inl (h'.trans h)
    · exact .inr ⟨s, hs, h'.trans h⟩
  · exact .inr h'

theorem Writes.isSome (h : Writes b c hash) (hb : (b.db hash).isSome) : (c.db hash).isSome := by
  rcases h with h | ⟨s, -, h⟩
  · rwa [h]
  · rw [h]
    rfl

theorem Grows.keeps (h : Grows b c) : Keeps b c := ⟨fun hb => h.flag.trans hb, h.writes⟩

instance : Std.Refl (Grows (C := C) (G := G)) := ⟨fun b => ⟨rfl, Writes.refl b⟩⟩

theorem Grows.trans {d : SnapshotBackend C G} (h : Grows b c) (h' : Grows c d) : Grows b d :=
  ⟨h'.flag.trans h.flag, fun hash => (h.writes hash).trans (h'.writes hash)⟩

instance : IsTrans (SnapshotBackend C G) Grows := ⟨fun _ _ _ => Grows.trans⟩

instance : Std.Refl (Keeps (C := C) (G := G)) := ⟨fun b => ⟨id, Writes.refl b⟩⟩

instance : IsTrans (SnapshotBackend C G) Keeps :=
  ⟨fun _ _ _ h h' => ⟨h'.held ∘ h.held, fun hash => (h.writes hash).trans (h'.writes hash)⟩⟩

theorem store_relates (snap : Snapshot) : Relates Grows (store (C := C) (G := G) snap) := by
  refine modify fun b => ⟨rfl, fun hash => ?_⟩
  by_cases h : hash = snap.hash
  · exact .inr ⟨snap, h.symm, by rw [h]; exact update_self ..⟩
  · exact .inl (update_of_ne h ..)

theorem initSnapshot_relates : Relates Grows (initSnapshot (C := C) svc) := by
  refine get.bind fun b => ?_
  dsimp only
  cases (svc.env b.node).getHeaderByNumber 0 with
  | none => exact throw _
  | some genesis =>
    refine (Relates.ofExcept _).bind fun _ => (Relates.ofExcept _).bind fun snap => ?_
    exact (store_relates snap).bind fun _ => Relates.pure snap

end Frames

/-- The snapshot of a block is in memory or on disk, or the block is the genesis block. -/
def Available (b : SnapshotBackend C G) (number : ℕ) (hash : Hash) : Prop :=
  (b.recents.lookup hash).isSome ∨ isCheckpointInterval number ∧ (b.db hash).isSome ∨ number = 0

/-- The headers that were gathered for a block lead to it from the block whose snapshot was
found. -/
structure Gathered (svc : SnapshotServices F G) (b : SnapshotBackend C G) (number : ℕ)
    (hash : Hash) (parents : List Header) (snap : Snapshot) (base : ℕ) (headers : List Header) :
    Prop where
  numbers : headers.map (fun h => uint64 h.number) = List.range' (base + 1) headers.length
  base_add : base + headers.length = number
  last : ∀ header, headers.getLast? = some header → header.hash = hash
  own : headers = [] → number ≠ 0 → b.db hash = none → snap.hash = hash
  nil : headers = [] → Available b number hash
  single : ∀ header, headers = [header] →
    ∃ rest, getPrevHeaderAndUpdateParents svc b.node number hash parents = some (header, rest) ∧
      Available b (number - 1) header.parentHash

variable {header : Header} {rest : List Header} {snap : Snapshot}

theorem getPrevHeader_eq {g : G}
    (h : getPrevHeaderAndUpdateParents svc g number hash parents = some (header, rest)) :
    header.hash = hash ∧ uint64 header.number = number := by
  unfold getPrevHeaderAndUpdateParents at h
  cases hlast : parents.getLast? with
  | some last =>
    rw [hlast] at h
    dsimp only at h
    split at h
    · cases h
    · rename_i hok
      cases h
      push Not at hok
      exact hok
  | none =>
    rw [hlast] at h
    obtain ⟨found, hfound, heq⟩ := Option.map_eq_some_iff.mp h
    cases heq
    exact svc.getHeader_eq hfound

def touch (b : SnapshotBackend C G) (hash : Hash) : SnapshotBackend C G :=
  { b with recents := b.recents.get hash }

theorem grows_touch (hash : Hash) : Grows b (b.touch hash) := ⟨rfl, Writes.refl b⟩

theorem available_touch (hash' : Hash) :
    Available (b.touch hash') number hash ↔ Available b number hash := by
  simp only [Available, touch, Recents.lookup_get]

theorem findSnapshot_meets (number : ℕ) (hash : Hash) (b : SnapshotBackend C G) :
    Meets (· = b) (findSnapshot svc number hash)
      (fun found c => c = b.touch hash ∧ ∀ snap, found = some snap →
        Available b number hash ∧ (b.db hash = none → snap.hash = hash))
      (fun _ => Grows b) := by
  refine Meets.get_bind (Meets.modify_bind ?_)
  cases hmem : b.recents.lookup hash with
  | some snap =>
    refine Meets.pure fun c hc => ⟨hc, ?_⟩
    rintro _ ⟨⟩
    exact ⟨.inl (by rw [hmem]; rfl), fun _ => b.recents.keyed hmem⟩
  | none =>
    dsimp only
    split
    · rename_i hcheck
      refine Meets.get_bind ?_
      cases hdisk : b.db hash with
      | none => exact Meets.pure fun c hc => ⟨hc, by rintro _ ⟨⟩⟩
      | some blob =>
        refine (Meets.ofExcept (Q := fun _ c => c = b.touch hash) (fun _ _ _ hc => hc)
          fun _ _ _ hc => hc ▸ grows_touch hash).bind fun s => Meets.pure fun c hc => ⟨hc, ?_⟩
        rintro _ ⟨⟩
        refine ⟨.inr (.inl ⟨hcheck, by rw [hdisk]; rfl⟩), ?_⟩
        rintro ⟨⟩
    · exact Meets.pure fun c hc => ⟨hc, by rintro _ ⟨⟩⟩

theorem Gathered.here (hav : Available b number hash)
    (hown : number ≠ 0 → b.db hash = none → snap.hash = hash) :
    Gathered svc b number hash parents snap number [] where
  numbers := rfl
  base_add := rfl
  last := by rintro _ ⟨⟩
  own := fun _ => hown
  nil := fun _ => hav
  single := by rintro _ ⟨⟩

variable {base : ℕ} {found : Snapshot} {mid : SnapshotBackend C G}

theorem Gathered.snoc (hprev : getPrevHeaderAndUpdateParents svc b.node (number + 1) hash parents =
      some (header, rest))
    (h : Gathered svc (b.touch hash) number header.parentHash rest snap base headers) :
    Gathered svc b (number + 1) hash parents snap base (headers ++ [header]) where
  numbers := by
    rw [map_append, h.numbers, length_append, length_singleton,
      range'_concat, map_singleton, (getPrevHeader_eq hprev).2, ← h.base_add]
    congr 2
    omega
  base_add := by
    rw [← h.base_add, length_append, length_singleton, Nat.add_assoc]
  last := by
    intro last hlast
    rw [getLast?_concat] at hlast
    cases hlast
    exact (getPrevHeader_eq hprev).1
  own := fun hnil => absurd hnil (by simp)
  nil := fun hnil => absurd hnil (by simp)
  single := by
    intro only honly
    obtain ⟨hnil, rfl⟩ : headers = [] ∧ header = only := by
      cases headers with
      | nil => simpa using honly
      | cons first headers => simp at honly
    exact ⟨rest, hprev, (available_touch hash).mp (h.nil hnil)⟩

theorem gather_meets (number : ℕ) (hash : Hash) (parents headers : List Header)
    (b : SnapshotBackend C G) :
    Meets (· = b) (gather svc number hash parents headers)
      (fun r c => Grows b c ∧ ∃ gathered, r.2.2 = gathered ++ headers ∧
        Gathered svc b number hash parents r.1 r.2.1 gathered)
      (fun _ => Grows b) := by
  -- The search looks in the same places at every block, so only the step back differs.
  induction number generalizing hash parents headers b with
  | zero =>
    unfold gather
    refine (findSnapshot_meets 0 hash b).bind fun found => Meets.of_forall ?_
    rintro _ ⟨rfl, hfound⟩
    cases found with
    | some snap =>
      exact Meets.pure fun _ hc =>
        ⟨hc ▸ grows_touch hash, [], rfl, .here (hfound snap rfl).1 (absurd rfl)⟩
    | none =>
      refine (initSnapshot_relates.after (grows_touch hash)).bind fun snap => ?_
      exact Meets.pure fun _ hc => ⟨hc, [], rfl, .here (.inr (.inr rfl)) (absurd rfl)⟩
  | succ number ih =>
    unfold gather
    refine (findSnapshot_meets (number + 1) hash b).bind fun found => Meets.of_forall ?_
    rintro _ ⟨rfl, hfound⟩
    cases found with
    | some snap =>
      exact Meets.pure fun _ hc =>
        ⟨hc ▸ grows_touch hash, [], rfl, .here (hfound snap rfl).1 fun _ => (hfound snap rfl).2⟩
    | none =>
      refine Meets.get_bind ?_
      -- Looking in memory has not changed the rest of the node.
      rw [show (b.touch hash).node = b.node from rfl]
      cases hprev : getPrevHeaderAndUpdateParents svc b.node (number + 1) hash parents with
      | none => exact Meets.throw fun _ hc => hc ▸ grows_touch hash
      | some found =>
        obtain ⟨header, rest⟩ := found
        refine (ih header.parentHash rest (header :: headers) (b.touch hash)).mono
          (fun _ => id) ?_ (fun _ _ => (grows_touch hash).trans)
        rintro ⟨snap, base, all⟩ _ ⟨hgrows, gathered, hall, h⟩
        exact ⟨(grows_touch hash).trans hgrows, gathered ++ [header], by simpa using hall, h.snoc hprev⟩

theorem applyHeaders_meets (policy : ProposerPolicy) (s : Snapshot) (headers : List Header)
    (g : G) :
    Meets (· = g) (applyHeaders svc policy writable s headers)
      (fun t _ => (headers = [] → t = s) ∧
        ∀ last, headers.getLast? = some last → t.hash = last.hash)
      (fun _ _ => True) := by
  unfold applyHeaders
  cases hlast : headers.getLast? with
  | none => exact Meets.pure fun _ _ => ⟨fun _ => rfl, by rintro _ ⟨⟩⟩
  | some last =>
    dsimp only
    split
    · refine Meets.get_bind ((Meets.trivial _ _).bind fun snap => ?_)
      refine Meets.of_forall fun t _ => Meets.get_bind (Meets.modify_bind (Meets.pure ?_))
      rintro _ -
      refine ⟨fun hnil => ?_, ?_⟩
      · rw [hnil] at hlast
        cases hlast
      · rintro _ ⟨⟩
        rfl
    · exact Meets.throw fun _ _ => trivial

theorem onNode_meets {α : Type} {x : EStateM ApplyErr G α} {Q : α → Prop} (hgrows : Grows b c)
    (h : Meets (· = c.node) x (fun a _ => Q a) fun _ _ => True) :
    Meets (· = c) (onNode x) (fun a d => Grows b d ∧ Q a) fun _ => Grows b := by
  constructor
  rintro _ rfl
  have hx := h.ends _ rfl
  show Ends _ _ (onNode x _)
  unfold onNode
  cases hrun : x _ with
  | ok a t =>
    rw [EStateM.run, hrun] at hx
    exact ⟨⟨hgrows.flag, hgrows.writes⟩, hx⟩
  | error e t => exact ⟨hgrows.flag, hgrows.writes⟩

theorem build_meets (number : ℕ) (hash : Hash) (parents : List Header) (writable : Bool)
    (b : SnapshotBackend C G) :
    Meets (· = b) (build svc number hash parents writable)
      (fun r c => Grows b c ∧ ∃ found base, Gathered svc b number hash parents found base r.2 ∧
        (r.2 = [] → r.1 = found) ∧ ∀ last, r.2.getLast? = some last → r.1.hash = last.hash)
      (fun _ => Grows b) := by
  refine (gather_meets number hash parents [] b).bind fun r => Meets.of_forall ?_
  rintro c ⟨hgrows, gathered, hall, h⟩
  obtain ⟨found, base, headers⟩ := r
  obtain rfl : headers = gathered := by simpa using hall
  refine Meets.get_bind ?_
  cases (svc.env c.node).gov.effectiveParams base with
  | none => exact Meets.throw fun _ hc => hc ▸ hgrows
  | some pset =>
    refine (onNode_meets hgrows (applyHeaders_meets pset.policy found headers c.node)).bind
      fun snap => Meets.of_forall fun d ⟨hgrows, hd⟩ => ?_
    split
    · refine Meets.modify_bind ?_
      have hnode : Grows b { d with node := svc.writeGovernanceState d.node snap.number } :=
        ⟨hgrows.flag, hgrows.writes⟩
      refine ((store_relates snap).after hnode).bind fun _ => ?_
      exact Meets.pure fun _ hc => ⟨hc, found, base, h, hd⟩
    · exact Meets.pure fun _ hc => ⟨hc ▸ hgrows, found, base, h, hd⟩

theorem build_relates (number : ℕ) (hash : Hash) (parents : List Header) (writable : Bool) :
    Relates Grows (build (C := C) svc number hash parents writable) :=
  ⟨fun b => (build_meets number hash parents writable b).mono (fun _ => id) (fun _ _ h => h.1)
    fun _ _ => id⟩

section Restoration

variable {nested : ℕ → Hash → EStateM ApplyErr (SnapshotBackend C G) Snapshot}
  (hnested : ∀ hn hh, Relates Keeps (nested hn hh))

include hnested

theorem restore_relates (header : Header) : Relates Keeps (restore nested header) := by
  refine get.bind fun b => ?_
  split
  · refine tryCatch ((hnested _ _).bind fun snap => ?_) fun e => ?_
    · exact (store_relates snap).mono Grows.keeps
    · cases e with
      | verify e => exact pure ()
      | fault f => exact throw _
  · exact pure ()

theorem restoreAll_relates (headers : List Header) : Relates Keeps (restoreAll nested headers) := by
  unfold restoreAll
  cases headers.head? with
  | none => exact pure ()
  | some first =>
    cases headers.getLast? with
    | none => exact pure ()
    | some last =>
      dsimp only
      split
      · exact pure ()
      · exact forM (restore_relates hnested) headers

theorem regen_relates (headers : List Header) : Relates Keeps (regen nested headers) := by
  constructor
  intro b
  refine Meets.get_bind ?_
  split
  · exact (Relates.pure ()).meets _
  · rename_i hfree
    refine Meets.modify_bind ?_
    split
    · refine Meets.pure ?_
      rintro _ rfl
      exact ⟨fun h => absurd h hfree, Writes.refl b⟩
    · refine Meets.deferring (((restoreAll_relates hnested headers).meets _).mono (fun _ => id) ?_ ?_)
      · exact fun _ t ht => ⟨fun h => absurd h hfree, ht.writes⟩
      · exact fun _ t ht => ⟨fun h => absurd h hfree, ht.writes⟩

end Restoration

theorem snapshot_relates (depth number : ℕ) (hash : Hash) (parents : List Header)
    (writable : Bool) :
    Relates Keeps (snapshot (C := C) svc depth number hash parents writable) := by
  induction depth generalizing number hash parents writable with
  | zero => exact throw _
  | succ depth ih =>
    refine ((build_relates number hash parents writable).mono Grows.keeps).bind fun r => ?_
    refine (regen_relates (fun hn hh => ih hn hh [] false) _).bind fun _ => ?_
    exact (Relates.modify fun b => ⟨id, Writes.refl b⟩).bind fun _ => Relates.pure _

theorem build_hash (hnumber : number ≠ 0) (hdisk : b.db hash = none)
    (hrun : (build svc number hash parents writable).run b = .ok (snap, headers) c) :
    snap.hash = hash := by
  obtain ⟨-, found, base, h, hnil, hlast⟩ :=
    (build_meets number hash parents writable b).of_ok rfl hrun
  cases hheaders : headers.getLast? with
  | none =>
    have hempty := getLast?_eq_none_iff.mp hheaders
    rw [show snap = found from hnil hempty]
    exact h.own hempty hnumber hdisk
  | some last => exact (hlast last hheaders).trans (h.last last hheaders)

variable {nested : ℕ → Hash → EStateM ApplyErr (SnapshotBackend C G) Snapshot}

theorem regen_releases (h : 2 ≤ headers.length) (hfree : b.isRestoringSnapshots = false) :
    Meets (· = b) (regen nested headers) (fun _ c => c.isRestoringSnapshots = false)
      (fun _ c => c.isRestoringSnapshots = false) := by
  refine Meets.get_bind ?_
  rw [if_neg (by rw [hfree]; decide)]
  refine Meets.modify_bind ?_
  rw [if_neg (by omega)]
  refine Meets.deferring ((Meets.trivial _ _).mono (fun _ => id) ?_ ?_)
  · exact fun _ _ _ => rfl
  · exact fun _ _ _ => rfl

/-- The snapshot of a checkpoint is on disk already, or the call of the restoration returns it. -/
def Buildable (svc : SnapshotServices F G) (depth : ℕ) (b : SnapshotBackend C G)
    (header : Header) : Prop :=
  (b.db header.hash).isSome ∨
    ∃ snap c, (snapshot svc depth (uint64 header.number) header.hash [] false).run b = .ok snap c

/-- Each checkpoint among the headers that could be built when it was its turn is on disk. -/
def Restored (svc : SnapshotServices F G) (depth : ℕ) (headers : List Header)
    (b c : SnapshotBackend C G) : Prop :=
  ∀ before header after, headers = before ++ header :: after →
    isCheckpointInterval (uint64 header.number) →
    ∃ turn : SnapshotBackend C G,
      (before.forM (restore fun hn hh => snapshot svc depth hn hh [] false)).run
        { b with isRestoringSnapshots := true } = .ok () turn ∧
      (Buildable svc depth turn header → (c.db header.hash).isSome ∧ Writes b c header.hash)

theorem isCheckpointInterval_iff {n : ℕ} :
    isCheckpointInterval n = true ↔ n ≠ 0 ∧ n % 1024 = 0 := by
  exact decide_eq_true_iff

variable {depth : ℕ}

theorem restoreAll_eq (h : Gathered svc b number hash parents found base headers)
    (hmem : header ∈ headers) (hcheck : isCheckpointInterval (uint64 header.number)) :
    restoreAll nested headers = headers.forM (restore nested) := by
  have hnumber : ∀ {i : ℕ} {x : Header}, headers[i]? = some x →
      uint64 x.number = base + 1 + i := by
    intro i x hx
    have hi : i < headers.length := (List.getElem?_eq_some_iff.mp hx).1
    have hmap : (headers.map fun h => uint64 h.number)[i]? = some (uint64 x.number) := by
      rw [getElem?_map, hx]
      rfl
    rw [h.numbers, getElem?_range' hi] at hmap
    simpa using hmap.symm
  obtain ⟨i, hi⟩ := getElem?_of_mem hmem
  have hlt : i < headers.length := (List.getElem?_eq_some_iff.mp hi).1
  unfold restoreAll
  cases hfirst : headers.head? with
  | none =>
    rw [head?_eq_none_iff.mp hfirst] at hlt
    exact absurd hlt (by simp)
  | some first =>
    cases hlast : headers.getLast? with
    | none =>
      rw [getLast?_eq_none_iff.mp hlast] at hlt
      exact absurd hlt (by simp)
    | some last =>
      rw [head?_eq_getElem?] at hfirst
      rw [getLast?_eq_getElem?] at hlast
      have hf := hnumber hfirst
      have hl := hnumber hlast
      have hm := hnumber hi
      rw [isCheckpointInterval_iff] at hcheck
      dsimp only
      rw [if_neg]
      unfold checkpointInterval
      omega

theorem restore_stored (hcheck : isCheckpointInterval (uint64 header.number))
    (hrun : (restore (fun hn hh => snapshot svc (depth + 1) hn hh [] false) header).run b =
      .ok () c) (hbuild : Buildable svc (depth + 1) b header) : (c.db header.hash).isSome := by
  cases hdisk : b.db header.hash with
  | some blob =>
    have hkeeps := ((restore_relates (fun hn hh => snapshot_relates (depth + 1) hn hh [] false)
      header).meets b).of_ok rfl hrun
    exact (hkeeps.writes header.hash).isSome (by rw [hdisk]; rfl)
  | none =>
    obtain hsome | ⟨snap, t, hsnap⟩ := hbuild
    · rw [hdisk] at hsome
      cases hsome
    · have hhash : snap.hash = header.hash := by
        obtain ⟨⟨built, headers⟩, v, hbuilt, hrest⟩ := run_bind_eq_ok.mp hsnap
        obtain ⟨_, u, -, hadd⟩ := run_bind_eq_ok.mp hrest
        obtain rfl : built = snap := by cases hadd; rfl
        exact build_hash (isCheckpointInterval_iff.mp hcheck).1 hdisk hbuilt
      have hstored : (do store (← snapshot svc (depth + 1) (uint64 header.number) header.hash [] false)
          : EStateM ApplyErr (SnapshotBackend C G) Unit).run b =
          .ok () { t with db := update t.db snap.hash (some snap.toJSONStruct) } :=
        run_bind_eq_ok.mpr ⟨snap, t, hsnap, rfl⟩
      unfold restore at hrun
      rw [EStateM.run_bind, EStateM.run_get] at hrun
      dsimp only at hrun
      rw [if_pos ⟨hcheck, by rw [hdisk]; rfl⟩, run_tryCatch_of_ok hstored] at hrun
      cases hrun
      show (update t.db snap.hash (some snap.toJSONStruct) header.hash).isSome
      rw [hhash, update_self]
      rfl

/-- A call that has gathered two headers or more leaves the checkpoints among them on disk. -/
theorem snapshot_restores {built : Snapshot} (hfree : b.isRestoringSnapshots = false)
    (hbuild : (build svc number hash parents writable).run b = .ok (built, headers) mid)
    (hlen : 2 ≤ headers.length)
    (hrun : (snapshot svc (depth + 2) number hash parents writable).run b = .ok snap c) :
    Restored svc (depth + 1) headers mid c := by
  obtain ⟨hgrows, found, base, hgathered, -, -⟩ :=
    (build_meets number hash parents writable b).of_ok rfl hbuild
  have hmid : mid.isRestoringSnapshots = false := hgrows.flag.trans hfree
  obtain ⟨r, v, hbuild', hrest⟩ := run_bind_eq_ok.mp hrun
  rw [hbuild] at hbuild'
  cases hbuild'
  obtain ⟨_, u, hregen, hadd⟩ := run_bind_eq_ok.mp hrest
  unfold regen at hregen
  rw [EStateM.run_bind, EStateM.run_get] at hregen
  dsimp only at hregen
  rw [if_neg (by rw [hmid]; decide), EStateM.run_bind, EStateM.run_modify] at hregen
  dsimp only at hregen
  rw [if_neg (by omega), run_deferring] at hregen
  intro before header after hsplit hcheck
  have hmem : header ∈ headers := hsplit ▸ by simp
  rw [restoreAll_eq hgathered hmem hcheck] at hregen
  cases hloop : (headers.forM (restore fun hn hh =>
      snapshot svc (depth + 1) hn hh [] false)).run { mid with isRestoringSnapshots := true } with
  | error e t =>
    rw [hloop] at hregen
    cases hregen
  | ok _ last =>
    rw [hloop] at hregen
    cases hregen
    cases hadd
    have hrelates : ∀ l : List Header, Relates Keeps (l.forM (restore (C := C) fun hn hh =>
        snapshot svc (depth + 1) hn hh [] false)) :=
      forM (restore_relates fun hn hh => snapshot_relates (depth + 1) hn hh [] false)
    have hwrites : Writes mid last header.hash :=
      (((hrelates headers).meets _).of_ok rfl hloop).writes header.hash
    rw [hsplit] at hloop
    obtain ⟨turn, next, hbefore, hturn, hafter⟩ := run_forM_append hloop
    refine ⟨turn, hbefore, fun hbuildable => ⟨?_, hwrites⟩⟩
    exact ((((hrelates after).meets next).of_ok rfl hafter).writes header.hash).isSome
      (restore_stored hcheck hturn hbuildable)

/-- A call of `snapshot`. -/
structure Call where
  number : ℕ
  hash : Hash
  parents : List Header
  writable : Bool

def Call.run (svc : SnapshotServices F G) (depth : ℕ) (call : Call) (b : SnapshotBackend C G) :
    EStateM.Result ApplyErr (SnapshotBackend C G) Snapshot :=
  (snapshot svc depth call.number call.hash call.parents call.writable).run b

/-- Neither the block nor its parent has a snapshot in memory or on disk. -/
def Call.Distant (svc : SnapshotServices F G) (b : SnapshotBackend C G) (call : Call) : Prop :=
  ¬ Available b call.number call.hash ∧
    ∀ header rest,
      getPrevHeaderAndUpdateParents svc b.node call.number call.hash call.parents =
        some (header, rest) →
      ¬ Available b (call.number - 1) header.parentHash

/-- A call of the backend, a purge of its memory, or anything the rest of the node does. -/
inductive Event (G : Type)
  | call (call : Call)
  | initSnapshot
  | node (db : Hash → Option SnapshotJSON) (node : G)

/-- One event. A call that panics has run its deferred calls; one that does not end is no
step. -/
def step (svc : SnapshotServices F G) (depth : ℕ) (b : SnapshotBackend C G) :
    Event G → Option (SnapshotBackend C G)
  | .call call =>
    match call.run svc depth b with
    | .ok _ c => some c
    | .error (.fault .diverges) _ => none
    | .error _ c => some c
  | .initSnapshot => some { b with recents := Recents.purge }
  | .node db node => some { b with db, node }

def Event.Distant (svc : SnapshotServices F G) (b : SnapshotBackend C G) : Event G → Prop
  | .call c => c.Distant svc b
  | _ => True

variable {call : Call}

theorem Gathered.two_le (h : Gathered svc b call.number call.hash call.parents found base headers)
    (hdistant : call.Distant svc b) : 2 ≤ headers.length := by
  match headers, h with
  | [], h => exact absurd (h.nil rfl) hdistant.1
  | [header], h =>
    obtain ⟨rest, hprev, hav⟩ := h.single header rfl
    exact absurd hav (hdistant.2 header rest hprev)
  | _ :: _ :: _, _ => simp

theorem Call.run_releases (hfree : b.isRestoringSnapshots = false)
    (hlen : ∀ r mid, (build svc call.number call.hash call.parents call.writable).run b =
      .ok r mid → 2 ≤ r.2.length) :
    Ends (fun _ c => c.isRestoringSnapshots = false) (fun _ c => c.isRestoringSnapshots = false)
      (call.run svc (depth + 1) b) := by
  have hrelates :
      Relates Grows (build (C := C) svc call.number call.hash call.parents call.writable) :=
    build_relates call.number call.hash call.parents call.writable
  unfold run snapshot
  rw [EStateM.run_bind]
  cases hbuild : (build svc call.number call.hash call.parents call.writable).run b with
  | error e c => exact ((hrelates.meets b).of_error rfl hbuild).flag.trans hfree
  | ok r mid =>
    have hmid : mid.isRestoringSnapshots = false :=
      ((hrelates.meets b).of_ok rfl hbuild).flag.trans hfree
    refine Meets.ends (P := (· = mid)) ?_ mid rfl
    refine (regen_releases (hlen r mid hbuild) hmid).bind fun _ => ?_
    exact Meets.of_forall fun d hd => Meets.modify_bind (Meets.pure fun _ h => h ▸ hd)

theorem Call.Distant.two_le (h : call.Distant svc b) {r : Snapshot × List Header}
    (hbuild : (build svc call.number call.hash call.parents call.writable).run b = .ok r mid) :
    2 ≤ r.2.length := by
  obtain ⟨-, found, base, hgathered, -, -⟩ :=
    (build_meets call.number call.hash call.parents call.writable b).of_ok rfl hbuild
  exact hgathered.two_le h

theorem step_call (h : step svc depth b (.call call) = some c) :
    (∃ snap, call.run svc depth b = .ok snap c) ∨ ∃ e, call.run svc depth b = .error e c := by
  unfold step at h
  dsimp only at h
  cases hrun : call.run svc depth b with
  | ok snap d =>
    rw [hrun] at h
    cases h
    exact .inl ⟨snap, rfl⟩
  | error e d =>
    rw [hrun] at h
    split at h
    · rename_i heq
      cases heq
    · cases h
    · rename_i heq
      cases heq
      cases h
      exact .inr ⟨e, rfl⟩

theorem step_releases {e : Event G} (hdistant : e.Distant svc b)
    (hstep : step svc (depth + 1) b e = some c) (hfree : b.isRestoringSnapshots = false) :
    c.isRestoringSnapshots = false := by
  cases e with
  | call call =>
    have hends : Ends _ _ (call.run svc (depth + 1) b) :=
      Call.run_releases hfree fun _ _ => Call.Distant.two_le hdistant
    obtain ⟨snap, hrun⟩ | ⟨e, hrun⟩ := step_call hstep
    · rwa [hrun] at hends
    · rwa [hrun] at hends
  | initSnapshot | node =>
    cases hstep
    exact hfree

/-- In every run of distant calls, each frees the flag, and gathered checkpoints are on disk. -/
theorem flag_released_and_checkpoints_restored (svc : SnapshotServices F G) (depth : ℕ)
    (b c : SnapshotBackend C G) (es : List (Event G)) (hfree : b.isRestoringSnapshots = false)
    (hrun : Runs (step svc (depth + 2)) (fun b e => e.Distant svc b) b es c) :
    c.isRestoringSnapshots = false ∧
      ∀ (call : Call) (built snap : Snapshot) (headers : List Header)
        (mid d : SnapshotBackend C G),
        (build svc call.number call.hash call.parents call.writable).run c =
          .ok (built, headers) mid →
        2 ≤ headers.length → call.run svc (depth + 2) c = .ok snap d →
        d.isRestoringSnapshots = false ∧ Restored svc (depth + 1) headers mid d := by
  have hc : c.isRestoringSnapshots = false :=
    hrun.invariant hfree fun _ _ _ hdistant hstep => step_releases hdistant hstep
  refine ⟨hc, fun call built snap headers mid d hbuild hlen hcall => ⟨?_, ?_⟩⟩
  · have hends : Ends _ _ (call.run svc (depth + 2) c) := Call.run_releases hc fun r mid' h => by
      rw [hbuild] at h
      cases h
      exact hlen
    rwa [hcall] at hends
  · exact snapshot_restores hc hbuild hlen hcall

def loneHeader (number : ℕ) : Header :=
  { number, parentHash := BitVec.ofNat 256 (number - 1), hash := BitVec.ofNat 256 number
    sigHash := 0, extra := some ⟨[1], [], []⟩, mixHash := none, vote := [] }

/-- A node on that chain whose parameters never change. -/
def loneNode : SnapshotServices ℕ Unit where
  env := fun _ =>
    { chain := ChainEnv.counting
      gov :=
        { decodeVote := fun _ => none
          toLower := id
          effectiveParams := fun _ => some
            { epoch := 604800, policy := roundRobin, committeeSize := 22
              governanceMode := .none, governingNode := 0, minimumStake := 5 } }
      float := FloatOps.nat
      recover := fun _ _ => .ok 1
      stakingInfo := fun _ => none
      getHeaderByNumber := fun n => some (loneHeader n) }
  getHeader := fun _ hash number =>
    if (loneHeader number).hash = hash ∧ uint64 number = number then some (loneHeader number)
    else none
  getHeader_eq := by
    intro g hash number header h
    obtain ⟨hok, hheader⟩ := Option.ite_none_right_eq_some.mp h
    cases hheader
    exact hok
  verifyHeader := fun _ _ => .ok ()
  startEpoch := fun g _ => g
  recordVote := fun g _ _ _ => g
  setVotingPowers := fun g _ => g
  writeGovernanceState := fun g _ => g

def loneBackend : SnapshotBackend (Cache.unbounded Hash Snapshot) Unit where
  recents := Recents.purge.add
    (newSnapshot (loneNode.env ()) 1022 (loneHeader 1022).hash (fullCommittee [1]))
  db := fun _ => none
  isRestoringSnapshots := false
  node := ()

def loneCall (number : ℕ) : Call := ⟨number, (loneHeader number).hash, [], true⟩

theorem loneCall_distant : (loneCall 1025).Distant loneNode loneBackend := by
  have hprev : getPrevHeaderAndUpdateParents loneNode loneBackend.node 1025
      (loneHeader 1025).hash [] = some (loneHeader 1025, []) := by decide +kernel
  unfold Call.Distant Available
  refine ⟨by decide +kernel, fun header rest h => ?_⟩
  cases hprev.symm.trans h
  decide +kernel

def returned {ε σ α : Type} : EStateM.Result ε σ α → Option α
  | .ok a _ => some a
  | .error _ _ => none

theorem returned_eq_some {ε σ α : Type} {r : EStateM.Result ε σ α} {a : α} :
    returned r = some a ↔ ∃ t, r = .ok a t := by
  cases r with
  | ok | error => simp [returned]

/-- The headers from block 1023 to block 1025 are applied and the checkpoint is restored. -/
theorem lone_checkpoint_restored :
    (∃ c, Runs (step loneNode 2) (fun b e => e.Distant loneNode b) loneBackend
      [.call (loneCall 1025)] c ∧ c.isRestoringSnapshots = false) ∧
    ∃ built snap mid d,
      (build loneNode 1025 (loneHeader 1025).hash [] true).run loneBackend =
        .ok (built, [loneHeader 1023, loneHeader 1024, loneHeader 1025]) mid ∧
      (loneCall 1025).run loneNode 2 loneBackend = .ok snap d ∧
      d.isRestoringSnapshots = false ∧
      Restored loneNode 1 [loneHeader 1023, loneHeader 1024, loneHeader 1025] mid d := by
  constructor
  · obtain ⟨c, hstep⟩ := Option.isSome_iff_exists.mp
      (show (step loneNode 2 loneBackend (.call (loneCall 1025))).isSome by decide +kernel)
    have hrun : Runs (step loneNode 2) (fun b e => e.Distant loneNode b) loneBackend
        [.call (loneCall 1025)] c := Runs.single loneCall_distant hstep
    exact ⟨c, hrun, (flag_released_and_checkpoints_restored loneNode 0 _ c _ rfl hrun).1⟩
  · have hheaders : (returned ((build loneNode 1025 (loneHeader 1025).hash [] true).run
        loneBackend)).map Prod.snd =
        some [loneHeader 1023, loneHeader 1024, loneHeader 1025] := by decide +kernel
    obtain ⟨⟨built, headers⟩, hbuilt, rfl⟩ := Option.map_eq_some_iff.mp hheaders
    obtain ⟨mid, hbuild⟩ := returned_eq_some.mp hbuilt
    obtain ⟨snap, hsnap⟩ := Option.isSome_iff_exists.mp
      (show (returned ((loneCall 1025).run loneNode 2 loneBackend)).isSome by decide +kernel)
    obtain ⟨d, hcall⟩ := returned_eq_some.mp hsnap
    exact ⟨built, snap, mid, d, hbuild, hcall,
      (flag_released_and_checkpoints_restored loneNode 0 _ _ [] rfl (.nil _)).2 (loneCall 1025)
        built snap _ mid d hbuild (by decide) hcall⟩

def seen (b : SnapshotBackend (Cache.unbounded Hash Snapshot) Unit) : Bool × Bool :=
  (b.isRestoringSnapshots, (b.db (loneHeader 1024).hash).isSome)

/-- The snapshot of block 1022 is found and the flag kept: the next call leaves out a checkpoint. -/
theorem found_snapshot_keeps_flag :
    loneBackend.isRestoringSnapshots = false ∧
    ∃ b c, Runs (step loneNode 2) (fun _ _ => True) loneBackend [.call (loneCall 1022)] b ∧
      Runs (step loneNode 2) (fun _ _ => True) b [.call (loneCall 1025)] c ∧
      (returned ((build loneNode 1025 (loneHeader 1025).hash [] true).run b)).map Prod.snd =
        some [loneHeader 1023, loneHeader 1024, loneHeader 1025] ∧
      (returned ((snapshot loneNode 1 1024 (loneHeader 1024).hash [] false).run b)).isSome ∧
      seen b = (true, false) ∧ seen c = (true, false) := by
  refine ⟨rfl, ?_⟩
  obtain ⟨b, c, hb, hc, hseen⟩ := Runs.exists_of_exec_exec (step loneNode 2) loneBackend
    [.call (loneCall 1022)] [.call (loneCall 1025)]
    (fun b c =>
      ((returned ((build loneNode 1025 (loneHeader 1025).hash [] true).run b)).map Prod.snd,
        (returned ((snapshot loneNode 1 1024 (loneHeader 1024).hash [] false).run b)).isSome,
        seen b, seen c))
    (some [loneHeader 1023, loneHeader 1024, loneHeader 1025], true, (true, false), true, false)
    (by decide +kernel)
  simp only [Prod.mk.injEq] at hseen
  exact ⟨b, c, hb, hc, hseen⟩

end Kaia.SnapshotBackend
