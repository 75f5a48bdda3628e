import Mathlib
import Kaia.Trie.Database

/-! # Writing nodes to disk

`Cap` and `Commit` move nodes from memory to disk. What can be read under a name stays as it is.
-/

namespace Kaia.Storage

namespace Database

/-- `Node`: the encoding of the node with the given name, from memory or from disk. -/
def nodeRlp (db : Database) (h : ExtHash) : Option Bytes :=
  if emptyExtHash h then none
  else
    match db.nodes h with
    | some n => some n.node.encode
    | none => db.disk.trieNodes h

variable {db db₀ db' : Database} {h : ExtHash} {out : List ExtHash}

/-- Nothing is forgotten but nodes of a list. -/
structure Forgets (out : List ExtHash) (db₀ db : Database) : Prop where
  disk : db.disk = db₀.disk
  nodes : ∀ h, db.nodes h = db₀.nodes h ∨ db.nodes h = none ∧ h ∈ out

theorem Forgets.refl (db : Database) : Forgets out db db := ⟨rfl, fun _ => .inl rfl⟩

theorem Forgets.delete (hf : Forgets out db₀ db) (hh : h ∈ out) (hdisk : db'.disk = db.disk)
    (hnodes : db'.nodes = Function.update db.nodes h none) : Forgets out db₀ db' := by
  refine ⟨hdisk.trans hf.disk, fun x => ?_⟩
  rw [hnodes]
  by_cases hx : x = h
  · subst hx
    exact .inr ⟨Function.update_self .., hh⟩
  · rw [Function.update_of_ne hx]
    exact hf.nodes x

theorem disk_foldl_flushNode (l : List ExtHash) (db : Database) :
    (l.foldl flushNode db).nodes = db.nodes ∧ ∀ h, (l.foldl flushNode db).disk.trieNodes h =
      if h ∈ l then ((db.nodes h).map (·.node.encode)).or (db.disk.trieNodes h)
      else db.disk.trieNodes h := by
  induction l generalizing db with
  | nil => exact ⟨rfl, fun h => by simp⟩
  | cons x l ih =>
    obtain ⟨hnodes, hdisk⟩ := ih (db.flushNode x)
    have hkeep : (db.flushNode x).nodes = db.nodes := by
      unfold flushNode
      split <;> rfl
    have hstep : ∀ h, (db.flushNode x).disk.trieNodes h =
        if h = x then ((db.nodes h).map (·.node.encode)).or (db.disk.trieNodes h)
        else db.disk.trieNodes h := by
      intro h
      unfold flushNode
      by_cases hx : h = x
      · subst hx
        cases hn : db.nodes h <;> simp [putTrieNode]
      · cases db.nodes x <;> simp [putTrieNode, hx]
    refine ⟨hnodes.trans hkeep, fun h => (hdisk h).trans ?_⟩
    rw [hkeep, hstep]
    cases hn : db.nodes h <;> by_cases hx : h = x <;> by_cases hl : h ∈ l <;> simp [hx, hl]

/-- What is written before it is forgotten can still be read. -/
theorem Forgets.nodeRlp_eq (hf : Forgets out (out.foldl flushNode db₀) db) (h : ExtHash) :
    db.nodeRlp h = db₀.nodeRlp h := by
  obtain ⟨hnodes, hdisk⟩ := disk_foldl_flushNode out db₀
  unfold nodeRlp
  rw [hf.disk, hdisk]
  rcases hf.nodes h with heq | ⟨hnone, hh⟩
  · rw [heq, hnodes]
    cases db₀.nodes h <;> simp
  · rw [hnone, if_pos hh]
    cases db₀.nodes h <;> simp

theorem uncache_forgets (base : Database) (hbase : db₀.nodes = base.nodes) (fuel : ℕ)
    (hsub : ∀ x ∈ base.commitNodes fuel h, x ∈ out) (hf : Forgets out db₀ db) :
    Forgets out db₀ (uncache fuel h db) := by
  induction fuel generalizing h db with
  | zero => exact hf
  | succ fuel ih =>
    unfold uncache
    cases hn : db.nodes h with
    | none => exact hf
    | some n =>
      -- a shared child may be gone already, so the names are those of the database before
      have hn' : base.nodes h = some n := by
        rcases hf.nodes h with heq | ⟨hnone, -⟩
        · rw [← hbase, ← heq, hn]
        · cases hnone.symm.trans hn
      simp only [commitNodes, hn', List.mem_append, List.mem_flatMap, List.mem_singleton] at hsub
      have hchilds := List.foldlRecOn (motive := Forgets out db₀) n.childs
        (fun db c => uncache fuel c db) (b := db.removeNodeInFlushList h) ⟨hf.disk, hf.nodes⟩
        fun d hd c hc => ih (fun x hx => hsub x (.inl ⟨c, hc, hx⟩)) hd
      exact hchilds.delete (hsub h (.inr rfl)) rfl rfl

/-- `Cap` and `Commit` lose no node and alter none, whatever is in memory and on disk. -/
theorem persisting_keeps_nodes (db : Database) (limit : ℤ) (root : Hash) (h : ExtHash) :
    (db.cap limit).nodeRlp h = db.nodeRlp h ∧ (db.commit root).nodeRlp h = db.nodeRlp h := by
  constructor
  · have hf : Forgets _ ((db.flushed limit _ _).foldl flushNode db.writePruningMarks)
        (db.cap limit) :=
      List.foldlRecOn (motive := Forgets _ _) _ _ (.refl _) fun d hd x hx => hd.delete hx rfl rfl
    exact hf.nodeRlp_eq h
  · have hf : Forgets _ ((db.commitNodes _ _).foldl flushNode db.writePruningMarks)
        (db.commit root) :=
      uncache_forgets db (disk_foldl_flushNode _ db.writePruningMarks).1 _ (fun _ hx => hx)
        (.refl _)
    exact hf.nodeRlp_eq h

end Database

end Kaia.Storage
