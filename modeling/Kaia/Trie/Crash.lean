import Kaia.Foundation.Runs
import Kaia.Trie.Flushing

/-! # Crash points of the trie database

What a node refers to is written before the node or in the same batch. The disk stays complete when
the references of a node are in the part of the batch for the shard of the node.
-/

namespace Kaia.Storage

open Foundation Option

variable {k : ℕ}

/-! ## Conditions on what is in memory -/

namespace Database

variable (db : Database)

def refs (h : ExtHash) : Set ExtHash :=
  {r | ∃ n, db.nodes h = some n ∧ r ∈ references n.node.encode}

/-- The walk of `Commit` finds every reference that is not on disk. -/
def Tracked : Prop :=
  ∀ h n, db.nodes h = some n → ∀ r ∈ references n.node.encode,
    db.disk.Has r ∨ (r ∈ n.childs ∧ (db.nodes r).isSome)

/-- A reference that is not on disk is older in the flush list. -/
def InOrder : Prop :=
  ∀ h n, db.nodes h = some n → ∀ r ∈ references n.node.encode,
    db.disk.Has r ∨ r ∈ db.flushList.takeWhile (· ≠ h)

/-- A reference that is not on disk belongs to the same shard. -/
def SameShard (k : ℕ) : Prop :=
  ∀ h n, db.nodes h = some n → ∀ r ∈ references n.node.encode,
    db.disk.Has r ∨ shardOf k r = shardOf k h

end Database

/-- A call is made when every reference in memory can be written before its node, and on the
same shard. -/
def Process.Writable (k : ℕ) (p : Process) : Action → Prop
  | .commit _ => p.db.Tracked ∧ p.db.SameShard k
  | .cap _ => p.db.InOrder ∧ p.db.SameShard k
  | _ => True

theorem shardOf_lt (k : ℕ) (h : ExtHash) : shardOf k h < 2 ^ k := by
  have hpos : 0 < 2 ^ k := Nat.two_pow_pos k
  unfold shardOf
  cases trieNodeKey h with
  | nil => exact hpos
  | cons b key =>
    have := Nat.and_le_right (n := b.toNat) (m := 2 ^ k - 1)
    simp only [shardIndexByKey, getD_some]
    omega

theorem Database.sameShard_zero (db : Database) : db.SameShard 0 := by
  intro h n _ r _
  have h₁ := shardOf_lt 0 r
  have h₂ := shardOf_lt 0 h
  exact .inr (by omega)

/-! ## Writing a part of a batch -/

namespace Database

variable {db db' : Database}

/-- The disk holds more than before, and memory is the same. -/
structure Grows (db db' : Database) : Prop where
  nodes : db'.nodes = db.nodes
  flushList : db'.flushList = db.flushList
  has : ∀ h, db.disk.Has h → db'.disk.Has h

theorem grows_putAll (l : List (ExtHash × Bytes)) (db : Database) :
    db.Grows (l.foldl (fun db x => db.putTrieNode x.1 x.2) db) ∧
      (∀ x ∈ l, (l.foldl (fun db x => db.putTrieNode x.1 x.2) db).disk.Has x.1) ∧
      ∀ h enc, (l.foldl (fun db x => db.putTrieNode x.1 x.2) db).disk.trieNodes h = some enc →
        (h, enc) ∈ l ∨ db.disk.trieNodes h = some enc := by
  induction l generalizing db with
  | nil => exact ⟨⟨rfl, rfl, fun _ h => h⟩, by simp, fun h enc he => .inr he⟩
  | cons x l ih =>
    obtain ⟨hgrows, hall, hback⟩ := ih (db.putTrieNode x.1 x.2)
    have hx : (db.putTrieNode x.1 x.2).disk.Has x.1 := by simp [Disk.Has, putTrieNode]
    have hmono : ∀ h, db.disk.Has h → (db.putTrieNode x.1 x.2).disk.Has h := by
      intro h hh
      by_cases heq : h = x.1
      · exact heq ▸ hx
      · simpa [Disk.Has, putTrieNode, heq] using hh
    refine ⟨⟨hgrows.nodes, hgrows.flushList, fun h hh => hgrows.has h (hmono h hh)⟩, ?_, ?_⟩
    · rintro y (_ | ⟨_, hy⟩)
      · exact hgrows.has _ hx
      · exact hall y hy
    · intro h enc he
      obtain hmem | hold := hback h enc he
      · exact .inl (List.mem_cons_of_mem x hmem)
      · by_cases heq : h = x.1
        · subst heq
          obtain rfl : x.2 = enc := by simpa [putTrieNode] using hold
          exact .inl List.mem_cons_self
        · exact .inr (by simpa [putTrieNode, heq] using hold)

theorem Grows.refs_eq (h : db.Grows db') : db'.refs = db.refs := by
  funext n
  simp only [refs, h.nodes]

theorem Tracked.grow (ht : db.Tracked) (h : db.Grows db') : db'.Tracked := by
  intro a n hn r hr
  rw [h.nodes] at hn ⊢
  exact (ht a n hn r hr).imp_left (h.has r)

theorem SameShard.grow (hs : db.SameShard k) (h : db.Grows db') : db'.SameShard k := by
  intro a n hn r hr
  rw [h.nodes] at hn
  exact (hs a n hn r hr).imp_left (h.has r)

def known (k : ℕ) (db : Database) (b : Batch) : Set ExtHash :=
  {h | db.disk.Has h ∨ ∃ enc, (h, enc) ∈ b (shardOf k h)}

theorem Tracked.childs {h r : ExtHash} {n : CachedNode} {b : Batch} (ht : db.Tracked)
    (hn : db.nodes h = some n) (hr : r ∈ db.refs h) : r ∈ db.known k b ∨ r ∈ n.childs := by
  obtain ⟨n', hn', hr⟩ := hr
  obtain rfl : n = n' := some.inj (hn.symm.trans hn')
  exact (ht h n hn r hr).imp .inl And.left

def there (db : Database) : Set ExtHash := {h | (db.nodes h).isSome}

theorem Grows.there_eq (h : db.Grows db') : db'.there = db.there := by
  simp only [there, h.nodes]

theorem known_grow (h : db.Grows db') (b : Batch) : db.known k b ⊆ db'.known k b :=
  fun r hr => hr.imp_left (h.has r)

end Database

/-! ## Batches -/

namespace Batch

variable {db db' : Database} {b : Batch}

/-- A batch holds nodes of the memory in their places, together with what they refer to. -/
def Sound (k : ℕ) (db : Database) (b : Batch) : Prop :=
  ∀ s, ∀ x ∈ b s, s = shardOf k x.1 ∧ (∃ n, db.nodes x.1 = some n ∧ x.2 = n.node.encode) ∧
    db.refs x.1 ⊆ db.known k b

theorem sound_empty : Sound k db Batch.empty := by
  rintro s x ⟨⟩

theorem mem_put {h : ExtHash} {enc : Bytes} {s : ℕ} {x : ExtHash × Bytes} :
    x ∈ b.put k h enc s ↔ x ∈ b s ∨ (s = shardOf k h ∧ x = (h, enc)) := by
  by_cases hs : s = shardOf k h
  · subst hs
    simp [put]
  · simp [put, hs]

theorem Sound.grow (hb : Sound k db b) (h : db.Grows db') : Sound k db' b := by
  intro s x hx
  obtain ⟨hs, hn, hrefs⟩ := hb s x hx
  rw [h.refs_eq, h.nodes]
  exact ⟨hs, hn, hrefs.trans (Database.known_grow h b)⟩

theorem Sound.put {h : ExtHash} (hb : Sound k db b) (hthere : h ∈ db.there)
    (hrefs : db.refs h ⊆ db.known k b) :
    Sound k db (db.putToBatch k h b) ∧
      Insert.insert h (db.known k b) ⊆ db.known k (db.putToBatch k h b) := by
  obtain ⟨n, hn⟩ := isSome_iff_exists.mp hthere
  have hput : db.putToBatch k h b = b.put k h n.node.encode := by
    rw [Database.putToBatch, hn]
  have hknown : Insert.insert h (db.known k b) ⊆ db.known k (b.put k h n.node.encode) := by
    rintro r (rfl | hdisk | ⟨enc, hmem⟩)
    · exact .inr ⟨_, mem_put.mpr (.inr ⟨rfl, rfl⟩)⟩
    · exact .inl hdisk
    · exact .inr ⟨enc, mem_put.mpr (.inl hmem)⟩
  rw [hput]
  refine ⟨fun s x hx => ?_, hknown⟩
  have hsub := (Set.subset_insert h (db.known k b)).trans hknown
  obtain hx | ⟨rfl, rfl⟩ := mem_put.mp hx
  · obtain ⟨hs, hn, hrefs⟩ := hb s x hx
    exact ⟨hs, hn, hrefs.trans hsub⟩
  · exact ⟨rfl, ⟨n, hn, rfl⟩, hrefs.trans hsub⟩

theorem Sound.writeShard (hb : Sound k db b) (hshard : db.SameShard k)
    (hdisk : db.disk.Complete) (s : ℕ) :
    db.Grows (db.writeShard b s) ∧ (∀ x ∈ b s, (db.writeShard b s).disk.Has x.1) ∧
      (db.writeShard b s).disk.Complete := by
  obtain ⟨hgrows, hall, hback⟩ := Database.grows_putAll (b s) db
  refine ⟨hgrows, hall, fun h enc he r hr => ?_⟩
  obtain hmem | hold := hback h enc he
  · obtain ⟨rfl, ⟨n, hn, rfl⟩, hrefs⟩ := hb s (h, enc) hmem
    obtain hhas | hr' := hshard h n hn r hr
    · exact hgrows.has r hhas
    · -- a reference that is in the batch is in the same part of it
      obtain hhas | ⟨enc', hmem'⟩ := hrefs ⟨n, hn, hr⟩
      · exact hgrows.has r hhas
      · rw [hr'] at hmem'
        exact hall (r, enc') hmem'
  · exact hgrows.has r (hdisk h enc hold r hr)

end Batch

/-! ## Calls -/

/-- The write under way is done for the other shards. -/
def Batch.Written (k : ℕ) (db : Database) (b : Batch) (shards : List ℕ) : Prop :=
  ∀ s < 2 ^ k, s ∉ shards → ∀ x ∈ b s, db.disk.Has x.1

/-- What comes has what it refers to on disk, in the batch, or before it. -/
def Work.Sound (k : ℕ) (db : Database) (b : Batch) (writing : Option (List ℕ)) : Work → Prop
  | .commit root s =>
    db.Tracked ∧ s.Flow db.there db.refs (db.refs root) (db.known k b) ∧
      (db.nodes root).isSome ∧ ∀ shards, writing = some shards → b.Written k db shards
  | .cap _ _ oldest =>
    Justified Set.univ db.refs (db.known k b) (oldest.map fun h => .send (some h)) ∧
      ∀ shards, writing = some shards → b.Written k db shards
  | _ => True

structure Call.Sound (k : ℕ) (db : Database) (c : Call) : Prop where
  sameShard : db.SameShard k
  batch : c.batch.Sound k db
  work : c.work.Sound k db c.batch c.writing

variable {db db' : Database} {b : Batch}

theorem known_of_written (hb : b.Written k db []) : db.known k b ⊆ db.known k Batch.empty := by
  rintro h (hdisk | ⟨enc, hmem⟩)
  · exact .inl hdisk
  · exact .inl (hb _ (shardOf_lt k h) List.not_mem_nil _ hmem)

theorem written_allShards (db : Database) (b : Batch) : b.Written k db (allShards k) :=
  fun _ hs hnot => absurd (List.mem_range.mpr hs) hnot

variable {shards : List ℕ} {w : Work}

theorem written_overThreshold (h : writeBatchesOverThreshold k b = some shards) :
    b.Written k db shards := by
  obtain ⟨-, hsome⟩ := ite_none_right_eq_some.mp h
  obtain rfl := some.inj hsome
  exact written_allShards db b

theorem Work.Sound.reset (h : w.Sound k db b (some [])) : w.Sound k db Batch.empty none := by
  cases w with
  | commit root s =>
    obtain ⟨htracked, hflow, hroot, hwritten⟩ := h
    exact ⟨htracked, hflow.mono (known_of_written (hwritten [] rfl)), hroot, fun _ => nofun⟩
  | cap limit size oldest =>
    obtain ⟨hjust, hwritten⟩ := h
    exact ⟨hjust.mono (known_of_written (hwritten [] rfl)), fun _ => nofun⟩
  | committed | capped => trivial

theorem Work.Sound.next {c : Call} (hshard : db.SameShard k) (hb : b.Sound k db)
    (hw : w.Sound k db b none) (hnext : w.next k db b = some c) : c.Sound k db := by
  cases w with
  | committed | capped => cases hnext
  | commit root s =>
    obtain ⟨htracked, hflow, hroot, -⟩ := hw
    obtain ⟨running, workers, queue⟩ := s
    match running, queue with
    | 0, queue =>
      obtain rfl := some.inj hnext
      exact ⟨hshard, (hb.put hroot (hflow.done rfl)).1, trivial⟩
    | n + 1, [] => cases hnext
    | n + 1, none :: queue =>
      obtain rfl := some.inj hnext
      exact ⟨hshard, hb, htracked, hflow.receive rfl, hroot, fun _ => nofun⟩
    | n + 1, some h :: queue =>
      obtain rfl := some.inj hnext
      obtain ⟨hthere, hrefs, hflow⟩ := hflow.receive rfl
      obtain ⟨hb', hknown⟩ := hb.put hthere hrefs
      exact ⟨hshard, hb', htracked, hflow.mono hknown, hroot, fun _ => written_overThreshold⟩
  | cap limit size oldest =>
    obtain ⟨hjust, -⟩ := hw
    match oldest with
    | [] =>
      obtain rfl := some.inj hnext
      exact ⟨hshard, hb, trivial⟩
    | h :: oldest =>
      rw [Work.next] at hnext
      split at hnext
      · obtain ⟨n, hn, rfl⟩ := map_eq_some_iff.mp hnext
        obtain ⟨-, hrefs, hjust⟩ := hjust
        obtain ⟨hb', hknown⟩ := hb.put (isSome_of_eq_some hn) hrefs
        exact ⟨hshard, hb', hjust.mono hknown, fun _ => written_overThreshold⟩
      · obtain rfl := some.inj hnext
        exact ⟨hshard, hb, trivial⟩

theorem Work.Sound.work {root : ExtHash} {s s' : Producers ExtHash} {writing : Option (List ℕ)}
    {i : ℕ} {order : List ExtHash} (h : (Work.commit root s).Sound k db b writing)
    (hwork : s.work (fun h => (db.nodes h).map CachedNode.childs) i order = some s') :
    (Work.commit root s').Sound k db b writing := by
  obtain ⟨htracked, hflow, hroot, hwritten⟩ := h
  refine ⟨htracked, hflow.work hwork (fun a cs hcs => ?_) (fun a ha => ?_), hroot, hwritten⟩
  · obtain ⟨n, hn, rfl⟩ := map_eq_some_iff.mp hcs
    exact ⟨isSome_of_eq_some hn, fun r hr => htracked.childs hn hr⟩
  · -- what is referred to and not in memory is on disk
    have hdisk : ∀ e, a ∈ db.refs e → a ∈ db.known k b := by
      rintro e ⟨n, hn, hr⟩
      obtain hhas | ⟨-, hsome⟩ := htracked e n hn a hr
      · exact .inl hhas
      · rw [map_eq_none_iff.mp ha] at hsome
        cases hsome
    exact ⟨hdisk, hdisk root⟩

theorem Call.Sound.writeShard {s : ℕ} (h : Call.Sound k db ⟨w, b, some shards⟩)
    (hdisk : db.disk.Complete) :
    Call.Sound k (db.writeShard b s) ⟨w, b, some (shards.erase s)⟩ ∧
      (db.writeShard b s).disk.Complete := by
  obtain ⟨hshard, hb, hw⟩ := h
  obtain ⟨hgrows, hall, hcomplete⟩ := hb.writeShard hshard hdisk s
  have hwritten : b.Written k db shards →
      ∀ shards', some (shards.erase s) = some shards' →
        b.Written k (db.writeShard b s) shards' := by
    rintro hold _ ⟨⟩ t ht hnot x hx
    by_cases hts : t = s
    · exact hall x (hts ▸ hx)
    · exact hgrows.has _ (hold t ht (fun hmem => hnot ((List.mem_erase_of_ne hts).mpr hmem)) x hx)
  refine ⟨⟨hshard.grow hgrows, hb.grow hgrows, ?_⟩, hcomplete⟩
  have hknown := Database.known_grow (k := k) hgrows b
  cases w with
  | commit root results =>
    obtain ⟨htracked, hflow, hroot, hold⟩ := hw
    refine ⟨htracked.grow hgrows, ?_, by rwa [hgrows.nodes], hwritten (hold _ rfl)⟩
    rw [hgrows.refs_eq, hgrows.there_eq]
    exact hflow.mono hknown
  | cap limit size oldest =>
    obtain ⟨hjust, hold⟩ := hw
    refine ⟨?_, hwritten (hold _ rfl)⟩
    rw [hgrows.refs_eq]
    exact hjust.mono hknown
  | committed | capped => trivial

/-! ## Runs -/

namespace Database

theorem disk_uncache (fuel : ℕ) (h : ExtHash) (db : Database) :
    (uncache fuel h db).disk = db.disk := by
  induction fuel generalizing h db with
  | zero => rfl
  | succ fuel ih =>
    rw [uncache]
    split
    · rfl
    · next n hn =>
      refine List.foldlRecOn (motive := fun d : Database => d.disk = db.disk) _ _ rfl ?_
      intro d hd c _
      exact (ih c d).trans hd

theorem disk_finish (db : Database) (w : Work) : (db.finish w).disk = db.disk := by
  cases w with
  | commit | cap => rfl
  | committed root => exact disk_uncache _ _ db
  | capped oldest =>
    refine List.foldlRecOn (motive := fun d : Database => d.disk = db.disk) _ _ rfl ?_
    intro d hd h _
    exact hd

end Database

namespace Process

/-- The disk is complete, and will be whatever part of the call is left out. -/
structure Sound (k : ℕ) (p : Process) : Prop where
  disk : p.db.disk.Complete
  call : ∀ c, p.call = some c → c.Sound k p.db

theorem sound_idle (h : db.disk.Complete) : Sound k ⟨db, none⟩ :=
  ⟨h, fun _ => nofun⟩

theorem sound_finish (h : db.disk.Complete) (w : Work) : Sound k ⟨db.finish w, none⟩ :=
  sound_idle (by rwa [Database.disk_finish])

theorem sound_calling {c : Call} (h : db.disk.Complete) (hc : c.Sound k db) :
    Sound k ⟨db, some c⟩ := by
  refine ⟨h, ?_⟩
  rintro _ ⟨⟩
  exact hc

variable {p q : Process} {a : Action}

theorem sound_commitCall {root : Hash} {c : Call} (hdisk : p.db.disk.Complete)
    (htracked : p.db.Tracked) (hshard : p.db.SameShard k) (hc : p.db.commitCall root = some c) :
    Sound k ⟨p.db.storePruningMarks, some c⟩ := by
  obtain ⟨n, hn, rfl⟩ := map_eq_some_iff.mp hc
  exact sound_calling hdisk ⟨hshard, Batch.sound_empty, htracked,
    Producers.start_flow _ fun r hr => htracked.childs hn hr, isSome_of_eq_some hn, fun _ => nofun⟩

theorem sound_capCall {limit : ℤ} (hdisk : p.db.disk.Complete) (horder : p.db.InOrder)
    (hshard : p.db.SameShard k) :
    Sound k ⟨p.db.storePruningMarks, some (p.db.capCall limit)⟩ := by
  refine sound_calling hdisk
    ⟨hshard, Batch.sound_empty, justified_of_before (fun _ _ => trivial) ?_, fun _ => nofun⟩
  rintro h - r ⟨n, hn, hr⟩
  exact (horder h n hn r hr).imp_left .inl

theorem Sound.main {c : Call} (h : Sound k p) (hc : p.call = some c)
    (hmain : p.main k c = some q) : Sound k q := by
  obtain ⟨hshard, hb, hw⟩ := h.call c hc
  unfold Process.main at hmain
  split at hmain
  · obtain rfl := some.inj hmain
    exact sound_finish h.disk _
  · obtain rfl := some.inj hmain
    exact sound_finish h.disk _
  · next hwriting _ _ =>
    obtain rfl := some.inj hmain
    rw [hwriting] at hw
    exact sound_calling h.disk ⟨hshard, Batch.sound_empty, hw.reset⟩
  · cases hmain
  · next hwriting =>
    obtain ⟨c', hnext, rfl⟩ := map_eq_some_iff.mp hmain
    rw [hwriting] at hw
    exact sound_calling h.disk (hw.next hshard hb hnext)

/-- Every action keeps the disk complete when the calls are made on a memory that can be
written. -/
theorem Sound.step (h : Sound k p) (hok : p.Writable k a) (hstep : p.step k a = some q) :
    Sound k q := by
  cases a with
  | mutate nodes flushList nodesSize pruningMarks =>
    obtain ⟨hidle, hsome⟩ := ite_none_right_eq_some.mp hstep
    obtain rfl := some.inj hsome
    rw [isNone_iff_eq_none] at hidle
    exact ⟨h.disk, fun c hc => by rw [hidle] at hc; cases hc⟩
  | commit root =>
    obtain ⟨-, hcall⟩ := ite_none_right_eq_some.mp hstep
    obtain ⟨htracked, hshard⟩ := hok
    split at hcall
    · next c hc =>
      obtain rfl := some.inj hcall
      exact sound_commitCall h.disk htracked hshard hc
    · obtain rfl := some.inj hcall
      have hdisk : p.db.storePruningMarks.disk.Complete := h.disk
      exact sound_finish hdisk _
  | cap limit =>
    obtain ⟨-, hcall⟩ := ite_none_right_eq_some.mp hstep
    obtain rfl := some.inj hcall
    exact sound_capCall h.disk hok.1 hok.2
  | main =>
    obtain ⟨c, hc, hmain⟩ := bind_eq_some_iff.mp hstep
    exact h.main hc hmain
  | concurrentCommit i order =>
    rw [Process.step] at hstep
    split at hstep
    · next root s b writing hc =>
      obtain ⟨s', hwork, rfl⟩ := map_eq_some_iff.mp hstep
      obtain ⟨hshard, hb, hw⟩ := h.call _ hc
      exact sound_calling h.disk ⟨hshard, hb, hw.work hwork⟩
    · cases hstep
  | writeShard s =>
    rw [Process.step] at hstep
    split at hstep
    · next w b shards hc =>
      obtain ⟨-, hsome⟩ := ite_none_right_eq_some.mp hstep
      obtain rfl := some.inj hsome
      obtain ⟨hcall, hdisk⟩ := (h.call _ hc).writeShard h.disk
      exact sound_calling hdisk hcall
    · cases hstep
  | crash =>
    obtain rfl := some.inj hstep
    exact sound_idle h.disk

/-- The disk stays complete whatever happens, when references in memory are older than their
nodes and on the same shard. -/
theorem disk_complete_of_writable {p q : Process} {as : List Action} (hidle : p.call = none)
    (hdisk : p.db.disk.Complete) (hrun : Runs (Process.step k) (Process.Writable k) p as q) :
    q.db.disk.Complete := by
  have hp : Sound k p := ⟨hdisk, fun c hc => by rw [hidle] at hc; cases hc⟩
  exact (hrun.invariant hp fun _ _ _ hok hstep h => h.step hok hstep).disk

/-! ### A branch with two leaves -/

def leafName (second : Bool) : ExtHash :=
  .extendZero (if second then 0x03#256 <<< 248 else 0x01#256 <<< 248)

def branchName : ExtHash := .extendZero (0x02#256 <<< 248)

def leafNode : RawNode := .short [0x20] (.value (List.replicate 40 1))

def branchNode : RawNode :=
  .full fun i =>
    if i = 0 then .hash (leafName false) else if i = 1 then .hash (leafName true) else .nil

/-- A trie of one branch and two leaves that has just been made, above an empty disk. -/
def freshTrie : Process where
  db :=
    { nodes := fun h =>
        if h = metaRoot then some { node := .nil, size := 0, children := [branchName] }
        else if h = branchName then some { node := branchNode, size := 83, parents := 1 }
        else if h = leafName false ∨ h = leafName true then
          some { node := leafNode, size := 43, parents := 1 }
        else none
      flushList := [leafName false, leafName true, branchName]
      nodesSize := 265
      pruningMarks := []
      disk := ⟨fun _ => none, [], false⟩ }
  call := none

theorem references_leafNode : references leafNode.encode = [] := by decide +kernel

theorem references_branchNode :
    references branchNode.encode = [leafName false, leafName true] := by decide +kernel

theorem freshTrie_references {h r : ExtHash} {n : CachedNode}
    (hn : freshTrie.db.nodes h = some n) (hr : r ∈ references n.node.encode) :
    h = branchName ∧ n.node = branchNode ∧ ∃ second, r = leafName second := by
  simp only [freshTrie] at hn
  split at hn
  · obtain rfl := some.inj hn
    cases hr
  · split at hn
    · next heq =>
      obtain rfl := some.inj hn
      rw [references_branchNode] at hr
      exact ⟨heq, rfl, by simpa [or_comm] using hr⟩
    · obtain ⟨-, hsome⟩ := ite_none_right_eq_some.mp hn
      obtain rfl := some.inj hsome
      rw [references_leafNode] at hr
      cases hr

theorem freshTrie_complete : freshTrie.db.disk.Complete := fun _ _ => nofun

theorem freshTrie_tracked : freshTrie.db.Tracked := by
  intro h n hn r hr
  obtain ⟨-, hnode, second, rfl⟩ := freshTrie_references hn hr
  have hchilds : ∀ second, leafName second ∈ CachedNode.gatherChildren branchNode := by
    decide +kernel
  have hthere : ∀ second, (freshTrie.db.nodes (leafName second)).isSome := by decide +kernel
  exact .inr ⟨List.mem_append_right _ (hnode ▸ hchilds _), hthere _⟩

theorem freshTrie_inOrder : freshTrie.db.InOrder := by
  intro h n hn r hr
  obtain ⟨rfl, -, second, rfl⟩ := freshTrie_references hn hr
  have hbefore : ∀ second, leafName second ∈ freshTrie.db.flushList.takeWhile (· ≠ branchName) := by
    decide +kernel
  exact .inr (hbefore _)

/-- Both goroutines end first, the root is put last, and only the first shard is written. -/
def stopEarly : List Action :=
  [.concurrentCommit 0 [], .concurrentCommit 0 [], .concurrentCommit 0 [],
    .concurrentCommit 1 [], .concurrentCommit 1 [], .concurrentCommit 1 [],
    .main, .main, .main, .main, .main, .writeShard 0, .crash]

/-- On two shards the branch can be on disk before its leaves. -/
theorem torn_batch_incomplete :
    freshTrie.call = none ∧ freshTrie.db.disk.Complete ∧
      freshTrie.db.Tracked ∧ freshTrie.db.InOrder ∧
      ∃ q, Runs (Process.step 1) (fun _ _ => True) freshTrie
          (.commit branchName.unextend :: stopEarly) q ∧ ¬ q.db.disk.Complete := by
  refine ⟨rfl, freshTrie_complete, freshTrie_tracked, freshTrie_inOrder, ?_⟩
  obtain ⟨q, hrun, hq⟩ := Runs.exists_of_exec (Process.step 1) freshTrie
    (.commit branchName.unextend :: stopEarly)
    (fun q => (q.db.disk.trieNodes branchName, q.db.disk.trieNodes (leafName false)))
    (some branchNode.encode, none) (by decide +kernel)
  refine ⟨q, hrun, fun hcomplete => ?_⟩
  obtain ⟨hbranch, hleaf⟩ := Prod.mk.inj hq
  have hhas := hcomplete _ _ hbranch (leafName false) (by rw [references_branchNode]; simp)
  rw [Disk.Has, hleaf] at hhas
  cases hhas

/-- On one shard the same schedule leaves the whole trie on disk. -/
theorem whole_batch_complete :
    ∃ q, Runs (Process.step 0) (Process.Writable 0) freshTrie
        (.commit branchName.unextend :: stopEarly) q ∧
      q.db.disk.Has branchName ∧ q.db.disk.Complete := by
  obtain ⟨q, hexec, hbranch⟩ := map_eq_some_iff.mp
    (show (exec (Process.step 0) freshTrie (.commit branchName.unextend :: stopEarly)).map
      (fun q => decide (q.db.disk.Has branchName)) = some true by decide +kernel)
  rw [exec_cons] at hexec
  obtain ⟨p, hp, hrest⟩ := bind_eq_some_iff.mp hexec
  -- the condition is asked of the first event only
  have hrun : Runs (Process.step 0) (Process.Writable 0) freshTrie
      ([.commit branchName.unextend] ++ stopEarly) q :=
    (Runs.single ⟨freshTrie_tracked, Database.sameShard_zero _⟩ hp).of_exec_append
      (by simp [stopEarly, Process.Writable]) hrest
  exact ⟨q, hrun, of_decide_eq_true hbranch, disk_complete_of_writable rfl freshTrie_complete hrun⟩

end Process

end Kaia.Storage
