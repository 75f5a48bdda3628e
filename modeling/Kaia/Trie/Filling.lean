import Kaia.Trie.Cutting

/-! # Filling in entries

Inserting below a node of which parts are missing puts a value at the end of its path and
leaves everything else, or fails because a hash is on the way. Entries whose ways are clear
are all put in.
-/

namespace Kaia.Storage

open Foundation List Function Tree Node

/-- The value is put at the end of the path, and the rest is as before. -/
def Overwrites (n n' : Node) (k : List Nibble) (v : Bytes) : Prop :=
  ∀ p m, n'.At p m ↔ (p = k ∧ m = .value v) ∨ (p ≠ k ∧ n.At p m)

/-- A node in the place of a key: a value belongs where the key has ended. -/
def Seat (k : List Nibble) (n : Node) : Prop :=
  (k = [] ∧ (n = .nil ∨ ∃ v, n = .value v ∧ v ≠ [])) ∨ (Tree.IsKey 16 k ∧ n.Formed)

/-- What inserting a value leaves. -/
structure Inserted (keccak : Bytes → Hash) (L : Set Bytes) (n : Node) (k : List Nibble)
    (v : Bytes) (r : Edit) : Prop where
  kept : r.dirty = false → r.node = n
  seat : (k = [] ∧ r.node = .value v) ∨ (Tree.IsKey 16 k ∧ r.node.Formed)
  flagged : r.node.Flagged keccak L
  overwrites : Overwrites n r.node k v

def Node.behind (key : List Nibble) (n : Node) : Node := if key = [] then n else .short key n newFlag

variable {keccak : Bytes → Hash} {L : Set Bytes} {n n' val : Node} {c : Fin 17 → Node}
  {k nkey p : List Nibble} {v : Bytes} {flags flags' : NodeFlag} {i : Nibble}

theorem at_behind {m : Node} : (n.behind nkey).At p m ↔ ∃ q, p = nkey ++ q ∧ n.At q m := by
  unfold behind
  split
  · next h =>
    subst h
    simp
  · rfl

theorem Overwrites.short (h : Overwrites val n' k v) :
    Overwrites (.short nkey val flags) (.short nkey n' flags') (nkey ++ k) v := by
  intro p m
  constructor
  · rintro ⟨q, rfl, hat⟩
    obtain ⟨rfl, rfl⟩ | ⟨hne, hat⟩ := (h q m).mp hat
    · exact .inl ⟨rfl, rfl⟩
    · exact .inr ⟨by simpa using hne, q, rfl, hat⟩
  · rintro (⟨rfl, rfl⟩ | ⟨hne, q, rfl, hat⟩)
    · exact ⟨k, rfl, (h k _).mpr (.inl ⟨rfl, rfl⟩)⟩
    · exact ⟨q, rfl, (h q m).mpr (.inr ⟨by simpa using hne, hat⟩)⟩

theorem Overwrites.full (h : Overwrites (c i) n' k v) :
    Overwrites (.full c flags) (.full (update c i n') flags') (i :: k) v := by
  intro p m
  constructor
  · rintro ⟨j, q, rfl, hat⟩
    by_cases hj : j = i
    · subst hj
      rw [update_self] at hat
      obtain ⟨rfl, rfl⟩ | ⟨hne, hat⟩ := (h q m).mp hat
      · exact .inl ⟨rfl, rfl⟩
      · exact .inr ⟨by simpa using hne, j, q, rfl, hat⟩
    · rw [update_of_ne hj] at hat
      exact .inr ⟨by simp [hj], j, q, rfl, hat⟩
  · rintro (⟨rfl, rfl⟩ | ⟨hne, j, q, rfl, hat⟩)
    · exact ⟨i, k, rfl, by rw [update_self]; exact (h k _).mpr (.inl ⟨rfl, rfl⟩)⟩
    · refine ⟨j, q, rfl, ?_⟩
      by_cases hj : j = i
      · subst hj
        rw [update_self]
        exact (h q m).mpr (.inr ⟨by simpa using hne, hat⟩)
      · rwa [update_of_ne hj]

theorem Overwrites.fork {pre k' nkey' : List Nibble} {j : Nibble} (hij : i ≠ j) :
    Overwrites (.short (pre ++ j :: nkey') val flags)
      (behind pre (.full (update (update (fun _ => .nil) j
        (val.behind nkey')) i (behind k' (.value v))) newFlag)) (pre ++ i :: k') v := by
  intro p m
  rw [at_behind]
  constructor
  · rintro ⟨q, rfl, a, q, rfl, hat⟩
    by_cases hai : a = i
    · subst hai
      rw [update_self, at_behind] at hat
      obtain ⟨q, rfl, rfl, rfl⟩ := hat
      exact .inl ⟨by simp, rfl⟩
    · rw [update_of_ne hai] at hat
      by_cases haj : a = j
      · subst haj
        rw [update_self, at_behind] at hat
        obtain ⟨q, rfl, hat⟩ := hat
        exact .inr ⟨by simp [hai], q, by simp, hat⟩
      · rw [update_of_ne haj] at hat
        cases hat
  · rintro (⟨rfl, rfl⟩ | ⟨-, q, rfl, hat⟩)
    · refine ⟨_, rfl, i, k', rfl, ?_⟩
      rw [update_self, at_behind]
      exact ⟨[], by simp, rfl, rfl⟩
    · refine ⟨j :: (nkey' ++ q), by simp, j, _, rfl, ?_⟩
      rw [update_of_ne (Ne.symm hij), update_self, at_behind]
      exact ⟨q, rfl, hat⟩

/-! ## Inserting -/

/-- Inserting fails where something is missing. -/
abbrev Inserts (keccak : Bytes → Hash) (L : Set Bytes) (n : Node) (k : List Nibble) (v : Bytes)
    (r : EditResult) : Prop :=
  Outcome (fun e => e.1 ≠ TrieError.panic ∧ ¬ n.Clear k) (Inserted keccak L n k v) r

variable {k' : List Nibble} {fuel : ℕ} {db : Database} {opts : TrieOpts}

theorem insert_nil (path key : List Nibble) (value : Node) :
    insert db opts (fuel + 1) .nil path key value = .ok ⟨true, value.behind key, []⟩ := by
  cases key with
  | nil | cons => rfl

theorem emptyDatabase_node {h : ExtHash} (hh : h.unextend ≠ 0) (path : List Nibble) :
    emptyDatabase.node h path = .error (.missingNode h.unextend path) := by
  have hne : h ≠ metaRoot := by
    rintro rfl
    exact hh rfl
  simp [emptyDatabase, Database.node, Database.newDatabase, hne]

theorem Inserts.around {child : Node} {r : EditResult} {f : Node → Node}
    (h : Inserts keccak L child k v r) (hk' : IsKey 16 k') (hf : n.Formed)
    (hflag : n.Flagged keccak L) (hclear : n.Clear k' → child.Clear k)
    (hkept : Overwrites child child k v → Overwrites n n k' v)
    (hnew : ∀ r, Inserted keccak L child k v r →
      (f r.node).Formed ∧ (f r.node).Flagged keccak L ∧ Overwrites n (f r.node) k' v) :
    Inserts keccak L n k' v (around opts n r f) := by
  cases r with
  | error e => exact ⟨h.1, fun hc => h.2 (hclear hc)⟩
  | ok r =>
    obtain ⟨dirty, node, marks⟩ := r
    cases dirty with
    | true =>
      obtain ⟨hformed, hflagged, hover⟩ := hnew _ h
      exact ⟨nofun, .inr ⟨hk', hformed⟩, hflagged, hover⟩
    | false =>
      have hover := h.overwrites
      rw [h.kept rfl] at hover
      exact ⟨fun _ => rfl, .inr ⟨hk', hf⟩, hflag, hkept hover⟩

theorem insert_end (hseat : n = .nil ∨ ∃ u, n = .value u ∧ u ≠ []) (path : List Nibble) :
    Inserts keccak L n [] v (insert db opts (fuel + 1) n path [] (.value v)) := by
  have hover : Overwrites n (.value v) [] v := by
    intro p m
    constructor
    · exact .inl
    · rintro (h | ⟨hne, hat⟩)
      · exact h
      · obtain rfl | ⟨u, rfl, -⟩ := hseat
        · cases hat
        · exact absurd hat.1 hne
  obtain rfl | ⟨u, rfl, -⟩ := hseat
  · exact ⟨nofun, .inl ⟨rfl, rfl⟩, trivial, hover⟩
  · refine ⟨fun hkept => ?_, .inl ⟨rfl, rfl⟩, trivial, hover⟩
    have huv : u = v := by simpa using hkept
    rw [huv]

/-- A child in its place of a branch. -/
def Sits (i : Nibble) (n : Node) : Prop :=
  (i = 16 ∧ ∃ v, n = .value v ∧ v ≠ []) ∨ (i ≠ 16 ∧ n.Formed)

variable {j : Nibble} {pre nkey' : List Nibble} {x y : Node}

theorem sits_value (hk : IsKey 16 (i :: k)) (hv : v ≠ []) :
    Sits i (behind k (.value v)) := by
  by_cases hi : i = 16
  · subst hi
    rw [isKey_stop.mp hk]
    exact .inl ⟨rfl, v, rfl, hv⟩
  · rw [isKey_cons hi] at hk
    rw [behind, if_neg hk.ne_nil]
    exact .inr ⟨hi, .inl ⟨hk, v, rfl, hv⟩⟩

theorem formed_behind (h : n.Formed) (hk : 16 ∉ k) : (n.behind k).Formed := by
  unfold behind
  split
  · exact h
  · next hne => exact .inr ⟨hne, hk, h⟩

theorem sits_rest (hf : (short (pre ++ j :: nkey') val flags).Formed) :
    Sits j (val.behind nkey') := by
  obtain ⟨hkey, u, rfl, hu⟩ | ⟨-, hkey, hval⟩ := hf
  · exact sits_value ((isKey_append (hkey.append_left (by simp))).mp hkey) hu
  · simp only [mem_append, mem_cons, not_or] at hkey
    obtain ⟨-, hj, hnkey'⟩ := hkey
    exact .inr ⟨Ne.symm hj, formed_behind hval hnkey'⟩

theorem flagged_behind (h : n.Flagged keccak L) (key : List Nibble) :
    (n.behind key).Flagged keccak L := by
  unfold behind
  split
  · exact h
  · exact ⟨nofun, h⟩

theorem formed_update (hf : (full c flags).Formed) (hx : Sits i x) :
    (full (update c i x) newFlag).Formed := by
  constructor
  · intro a ha
    by_cases hai : a = i
    · subst hai
      rw [update_self]
      exact (hx.resolve_left fun h => ha h.1).2
    · rw [update_of_ne hai]
      exact hf.1 a ha
  · obtain ⟨rfl, hv⟩ | ⟨hi, -⟩ := hx
    · rw [update_self]
      exact .inr hv
    · rw [update_of_ne (Ne.symm hi)]
      exact hf.2

theorem flagged_update (h : ∀ a, (c a).Flagged keccak L) (hx : x.Flagged keccak L) (a : Nibble) :
    (update c i x a).Flagged keccak L := by
  by_cases hai : a = i
  · subst hai
    rwa [update_self]
  · rw [update_of_ne hai]
    exact h a

theorem insert_fork (hij : i ≠ j) (hf : (short (pre ++ j :: nkey') val flags).Formed)
    (hflag : val.Flagged keccak L) (hk : IsKey 16 (pre ++ i :: k')) (hv : v ≠ [])
    (hlen : prefixLen (pre ++ i :: k') (pre ++ j :: nkey') = pre.length) (path : List Nibble) :
    Inserts keccak L (.short (pre ++ j :: nkey') val flags) (pre ++ i :: k') v
      (insert db opts (fuel + 2) (.short (pre ++ j :: nkey') val flags) path (pre ++ i :: k')
        (.value v)) := by
  have hpre : 16 ∉ pre := hk.append_left (by simp)
  have hinsert : ∃ marks, insert db opts (fuel + 2) (.short (pre ++ j :: nkey') val flags) path
      (pre ++ i :: k') (.value v) =
      .ok ⟨true, behind pre (.full (update (update (fun _ => .nil) j
        (val.behind nkey')) i (behind k' (.value v))) newFlag), marks⟩ := by
    obtain ⟨a, rest, hkey⟩ := exists_cons_of_ne_nil (l := pre ++ i :: k') (by simp)
    rw [hkey, insert]
    simp only [← hkey, hlen]
    simp only [insert_nil]
    refine ⟨markPrunableNode opts (.short (pre ++ j :: nkey') val flags), ?_⟩
    cases pre with
    | nil => rfl
    | cons b pre => simp [behind, bind, Except.bind]
  obtain ⟨marks, hinsert⟩ := hinsert
  rw [hinsert]
  refine ⟨nofun, .inr ⟨hk, ?_⟩, ?_, .fork hij⟩
  · have hempty : (Node.full (fun _ => .nil) newFlag).Formed := ⟨fun _ _ => trivial, .inl rfl⟩
    exact formed_behind (formed_update (formed_update hempty (sits_rest hf))
      (sits_value ((isKey_append hpre).mp hk) hv)) hpre
  · refine flagged_behind (n := .full _ newFlag) ⟨nofun, flagged_update (flagged_update ?_ ?_) ?_⟩ pre
    · exact fun _ => trivial
    · exact flagged_behind hflag nkey'
    · exact flagged_behind (n := .value v) trivial k'

theorem Inserted.sits {r : Edit} (hk : IsKey 16 (i :: k)) (hv : v ≠ [])
    (h : Inserted keccak L n k v r) : Sits i r.node := by
  by_cases hi : i = 16
  · subst hi
    obtain ⟨-, hnode⟩ | ⟨hk', -⟩ := h.seat
    · exact .inl ⟨rfl, v, hnode, hv⟩
    · rw [isKey_stop.mp hk] at hk'
      cases hk'
  · rw [isKey_cons hi] at hk
    obtain ⟨hnil, -⟩ | ⟨-, hf⟩ := h.seat
    · exact absurd hnil hk.ne_nil
    · exact .inr ⟨hi, hf⟩

theorem insert_full (hf : (full c flags).Formed) (hflag : (full c flags).Flagged keccak L)
    (hk : IsKey 16 (i :: k)) (hv : v ≠ []) (ih : Seat k (c i) → ∀ path,
      Inserts keccak L (c i) k v (insert emptyDatabase plainOpts fuel (c i) path k (.value v)))
    (path : List Nibble) :
    Inserts keccak L (.full c flags) (i :: k) v
      (insert emptyDatabase plainOpts (fuel + 1) (.full c flags) path (i :: k) (.value v)) := by
  have hseat : Seat k (c i) := by
    by_cases hi : i = 16
    · subst hi
      exact .inl ⟨isKey_stop.mp hk, hf.2⟩
    · exact .inr ⟨(isKey_cons hi).mp hk, hf.1 i hi⟩
  rw [insert]
  refine (ih hseat _).around hk hf hflag clear_full_cons.mp (fun h => ?_)
    fun r hr => ⟨formed_update hf (hr.sits hk hv), ⟨nofun, flagged_update hflag.2 hr.flagged⟩,
      hr.overwrites.full⟩
  have hsame : Overwrites (.full c flags) (.full (update c i (c i)) flags) (i :: k) v := h.full
  rwa [update_eq_self] at hsame

theorem insert_short (hf : (short nkey val flags).Formed)
    (hflag : (short nkey val flags).Flagged keccak L) (hk : IsKey 16 (nkey ++ k))
    (hv : v ≠ [])
    (ih : Seat k val → ∀ path,
      Inserts keccak L val k v (insert emptyDatabase plainOpts fuel val path k (.value v)))
    (path : List Nibble) :
    Inserts keccak L (.short nkey val flags) (nkey ++ k) v
      (insert emptyDatabase plainOpts (fuel + 1) (.short nkey val flags) path (nkey ++ k)
        (.value v)) := by
  have hseat : Seat k val := by
    obtain ⟨hkey, u, rfl, hu⟩ | ⟨-, hkey, hval⟩ := hf
    · exact .inl ⟨hkey.eq_nil_of_append hk, .inr ⟨u, rfl, hu⟩⟩
    · exact .inr ⟨(isKey_append hkey).mp hk, hval⟩
  obtain ⟨a, rest, heq⟩ := exists_cons_of_ne_nil hk.ne_nil
  rw [heq, insert]
  simp only [← heq, prefixLen_append, if_true, drop_left]
  refine (ih hseat _).around hk hf hflag clear_short_append.mp Overwrites.short
    fun r hr => ⟨?_, ⟨nofun, hr.flagged⟩, hr.overwrites.short⟩
  obtain ⟨hkey, u, rfl, hu⟩ | ⟨hne, hkey, hval⟩ := hf
  · obtain rfl := hkey.eq_nil_of_append hk
    obtain ⟨-, hnode⟩ | ⟨hk', -⟩ := hr.seat
    · exact .inl ⟨hkey, v, hnode, hv⟩
    · cases hk'
  · obtain ⟨rfl, -⟩ | ⟨-, hformed⟩ := hr.seat
    · exact absurd ((isKey_append hkey).mp hk) id
    · exact .inr ⟨hne, hkey, hformed⟩

theorem insert_spec (hseat : Seat k n) (hflag : n.Flagged keccak L) (hv : v ≠ [])
    (hfuel : k.length + 1 ≤ fuel) (path : List Nibble) :
    Inserts keccak L n k v (insert emptyDatabase plainOpts fuel n path k (.value v)) := by
  induction fuel generalizing n k path with
  | zero => omega
  | succ fuel ih =>
    obtain ⟨rfl, hn⟩ | ⟨hk, hf⟩ := hseat
    · exact insert_end hn path
    cases n with
    | nil =>
      rw [insert_nil]
      refine ⟨nofun, .inr ⟨hk, ?_⟩, flagged_behind (n := .value v) trivial k, fun p m => ?_⟩
      · rw [behind, if_neg hk.ne_nil]
        exact .inl ⟨hk, v, rfl, hv⟩
      · rw [at_behind]
        constructor
        · rintro ⟨_, rfl, rfl, rfl⟩
          exact .inl ⟨by simp, rfl⟩
        · rintro (⟨rfl, rfl⟩ | ⟨-, hat⟩)
          · exact ⟨[], by simp, rfl, rfl⟩
          · cases hat
    | value u => cases hf
    | hash h =>
      obtain ⟨a, rest, rfl⟩ := exists_cons_of_ne_nil hk.ne_nil
      rw [insert, withResolved, emptyDatabase_node hf]
      exact ⟨by simp, not_clear_hash⟩
    | full c flags =>
      obtain ⟨a, rest, rfl⟩ := exists_cons_of_ne_nil hk.ne_nil
      exact insert_full hf hflag hk hv
        (fun hseat => ih hseat (hflag.2 a) (by simpa using hfuel)) path
    | short nkey val flags =>
      have hpos : 0 < nkey.length := by
        obtain ⟨hkey, -⟩ | ⟨hne, -⟩ := hf
        · exact length_pos_iff.mpr hkey.ne_nil
        · exact length_pos_iff.mpr hne
      obtain ⟨k, rfl⟩ | ⟨hlt, ⟨pre, i, k', j, nkey', rfl, rfl, hij, hlen⟩ | hfront⟩ :=
        prefixLen_cases k nkey
      · rw [length_append] at hfuel
        exact insert_short hf hflag hk hv (fun hseat => ih hseat hflag.2 (by omega)) path
      · obtain ⟨fuel, rfl⟩ := Nat.exists_eq_succ_of_ne_zero (n := fuel) (by
          rintro rfl
          simp at hfuel)
        exact insert_fork hij hf hflag.2 hk hv hlen path
      · obtain rfl := hf.eq_of_front hk hfront
        have hlen := prefixLen_append k []
        rw [append_nil] at hlen
        omega

/-! ## All the entries -/

/-- A trie above an empty database that a range is filled into. -/
structure Ready (keccak : Bytes → Hash) (L : Set Bytes) (t : Trie) : Prop where
  opts : t.opts = plainOpts
  formed : t.root.Formed
  flagged : t.root.Flagged keccak L

variable {t : Trie} {key : Bytes} {entries entries' : List (Bytes × Bytes)}

theorem updateAll_step (h : Ready keccak L t) (hv : v ≠ []) (key : Bytes) :
    ∃ t₁, Ready keccak L t₁ ∧
      (∀ entries, updateAll t ((key, v) :: entries) = updateAll t₁ entries) ∧
      (∀ q eh, t₁.root.At q (.hash eh) → t.root.At q (.hash eh)) ∧
      (t.root.Clear (keybytesToHex key) → Overwrites t.root t₁.root (keybytesToHex key) v) := by
  have hkey := isKey_keybytesToHex key
  have hfuel : (keybytesToHex key).length + 1 ≤ walkFuel (keybytesToHex key) := by
    rw [walkFuel]
    omega
  have hins := insert_spec (.inr ⟨hkey, h.formed⟩) h.flagged hv hfuel []
  rw [← h.opts] at hins
  have hupdate : t.tryUpdate emptyDatabase key v = t.applyEdit (insert emptyDatabase t.opts
      (walkFuel (keybytesToHex key)) t.root [] (keybytesToHex key) (.value v)) := by
    rw [Trie.tryUpdate, if_pos hv]
  cases hr : insert emptyDatabase t.opts (walkFuel (keybytesToHex key)) t.root []
      (keybytesToHex key) (.value v) with
  | error e =>
    obtain ⟨hpanic, hclear⟩ := hins.of_error hr
    obtain ⟨e, marks⟩ := e
    rw [hr] at hupdate
    refine ⟨t.addMarks marks, ⟨h.opts, h.formed, h.flagged⟩, fun entries => ?_, fun _ _ h => h,
      fun hc => absurd hc hclear⟩
    rw [updateAll, hupdate]
    cases e with
    | missingNode hash path => rfl
    | panic => exact absurd rfl hpanic
  | ok r =>
    have hins := hins.of_ok hr
    rw [hr] at hupdate
    obtain ⟨hnil, -⟩ | ⟨-, hformed⟩ := hins.seat
    · exact absurd hnil hkey.ne_nil
    refine ⟨{ t.addMarks r.marks with root := r.node }, ⟨h.opts, hformed, hins.flagged⟩,
      fun entries => ?_, fun q eh hat => ?_, fun _ => hins.overwrites⟩
    · rw [updateAll, hupdate]
      rfl
    · obtain ⟨-, hne⟩ | ⟨-, hat⟩ := (hins.overwrites q _).mp hat
      · cases hne
      · exact hat

theorem clear_of_hashes (h : ∀ q eh, n'.At q (.hash eh) → n.At q (.hash eh)) (hc : n.Clear k) :
    n'.Clear k := fun q eh hq hat => hc q eh hq (h q eh hat)

/-- The entries are at the ends of their paths, and the rest is as before. -/
def Filled (n n' : Node) (entries : List (Bytes × Bytes)) : Prop :=
  ∀ p m, n'.At p m ↔ (∃ e ∈ entries, p = keybytesToHex e.1 ∧ m = .value e.2) ∨
    ((∀ e ∈ entries, p ≠ keybytesToHex e.1) ∧ n.At p m)

/-- The last entry is put in whatever the others do. -/
theorem updateAll_spec (h : Ready keccak L t) (hv : ∀ e ∈ entries, e.2 ≠ []) :
    ∃ t', updateAll t entries = .ok t' ∧ Ready keccak L t' ∧
      (∀ e, entries.getLast? = some e → t.root.Clear (keybytesToHex e.1) →
        t'.root.At (keybytesToHex e.1) (.value e.2)) ∧
      ((∀ e ∈ entries, t.root.Clear (keybytesToHex e.1)) →
        (entries.Pairwise fun a b => keybytesToHex a.1 ≠ keybytesToHex b.1) →
          Filled t.root t'.root entries) := by
  induction entries generalizing t with
  | nil => exact ⟨t, rfl, h, nofun, fun _ _ p m => by simp⟩
  | cons e entries ih =>
    obtain ⟨t₁, hready, heq, hhash, hover⟩ := updateAll_step h (hv e mem_cons_self) e.1
    obtain ⟨t', ht', hready', hlast, hfilled⟩ := ih hready fun e he => hv e (mem_cons_of_mem _ he)
    refine ⟨t', (heq entries).trans ht', hready', fun e' he' hc => ?_, fun hclear hne p m => ?_⟩
    · cases entries with
      | nil =>
        cases he'
        cases ht'
        exact (hover hc _ _).mpr (.inl ⟨rfl, rfl⟩)
      | cons => exact hlast e' he' (clear_of_hashes hhash hc)
    · obtain ⟨hfirst, hne⟩ := pairwise_cons.mp hne
      have hfilled := hfilled (fun e he => clear_of_hashes hhash (hclear e (mem_cons_of_mem _ he))) hne
      rw [hfilled p m, hover (hclear e mem_cons_self) p m, forall_mem_cons]
      simp only [mem_cons, exists_eq_or_imp]
      constructor
      · rintro (hin | ⟨hout, ⟨rfl, rfl⟩ | ⟨hne, hat⟩⟩)
        · exact .inl (.inr hin)
        · exact .inl (.inl ⟨rfl, rfl⟩)
        · exact .inr ⟨⟨hne, hout⟩, hat⟩
      · rintro ((⟨rfl, rfl⟩ | hin) | ⟨⟨hne, hout⟩, hat⟩)
        · exact .inr ⟨hfirst, .inl ⟨rfl, rfl⟩⟩
        · exact .inl hin
        · exact .inr ⟨hout, .inr ⟨hne, hat⟩⟩

end Kaia.Storage
