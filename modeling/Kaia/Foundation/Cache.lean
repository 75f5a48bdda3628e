import Mathlib

/-! # Memoisation behind a bounded cache

A bounded cache may reorder and drop entries; what it returns for a key was stored under that key.
A computation is memoised under a key that may forget part of the argument, and answered right
exactly when the earlier call with the key had the same result.
-/

namespace Kaia.Foundation

/-- A cache as its users see it. -/
structure Cache (κ ν : Type) where
  State : Type
  empty : State
  lookup : State → κ → Option ν
  get : State → κ → State
  add : State → κ → ν → State
  lookup_empty : ∀ k, lookup empty k = none
  lookup_get : ∀ s k k', lookup (get s k) k' = lookup s k'
  lookup_add : ∀ s k v k' w, lookup (add s k v) k' = some w →
    k' = k ∧ w = v ∨ k' ≠ k ∧ lookup s k' = some w

/-- The cache that keeps everything. -/
def Cache.unbounded (κ ν : Type) [DecidableEq κ] : Cache κ ν where
  State := List (κ × ν)
  empty := []
  lookup := fun s k => s.lookup k
  get := fun s _ => s
  add := fun s k v => (k, v) :: s
  lookup_empty := fun _ => rfl
  lookup_get := fun _ _ _ => rfl
  lookup_add := by
    intro s k v k' w h
    by_cases hk : k' = k
    · subst hk
      simpa [eq_comm] using h
    · have hbeq : (k' == k) = false := by simpa using hk
      rw [List.lookup_cons, hbeq] at h
      exact .inr ⟨hk, h⟩

/-- The cache that keeps the newest entry only. -/
def Cache.single (κ ν : Type) [DecidableEq κ] : Cache κ ν where
  State := Option (κ × ν)
  empty := none
  lookup := fun s k => (s.filter (·.1 = k)).map Prod.snd
  get := fun s _ => s
  add := fun _ k v => some (k, v)
  lookup_empty := fun _ => rfl
  lookup_get := fun _ _ _ => rfl
  lookup_add := by
    intro s k v k' w h
    obtain ⟨e, he, rfl⟩ := Option.map_eq_some_iff.mp h
    obtain ⟨heq, hk⟩ := Option.filter_eq_some_iff.mp he
    cases heq
    exact .inl ⟨(of_decide_eq_true hk).symm, rfl⟩

/-- A program that asks questions and goes on with the answers. -/
inductive Query (α β ρ : Type) : Type
  | done (r : ρ) : Query α β ρ
  | ask (x : α) (next : β → Query α β ρ) : Query α β ρ

namespace Query

variable {α β ρ τ : Type}

protected def bind : Query α β ρ → (ρ → Query α β τ) → Query α β τ
  | .done r, k => k r
  | .ask x next, k => .ask x fun b => (next b).bind k

instance : Monad (Query α β) where
  pure := .done
  bind := Query.bind

def eval (answer : α → β) : Query α β ρ → ρ
  | .done r => r
  | .ask x next => (next (answer x)).eval answer

def asks (answer : α → β) : Query α β ρ → List α
  | .done _ => []
  | .ask x next => x :: (next (answer x)).asks answer

end Query

namespace Cache

variable {κ ν α ε ρ : Type} (C : Cache κ ν) (key : α → κ) (compute : α → Except ε ν)

/-- Answer a call from the cache, or compute the answer and store it if there is one. -/
def call (s : C.State) (x : α) : Except ε ν × C.State :=
  match C.lookup s (key x) with
  | some v => (.ok v, C.get s (key x))
  | none =>
    match compute x with
    | .error e => (.error e, C.get s (key x))
    | .ok v => (.ok v, C.add (C.get s (key x)) (key x) v)

variable (history : List α)

def after : C.State :=
  history.foldl (fun s x => (C.call key compute s x).2) C.empty

def run : Query α (Except ε ν) ρ → C.State → ρ × C.State
  | .done r, s => (r, s)
  | .ask x next, s =>
    let answer := C.call key compute s x
    run (next answer.1) answer.2

/-- The cache holds nothing for the argument, or the same result. -/
def Agrees (x : α) : Prop :=
  C.lookup (C.after key compute history) (key x) = none ∨
    ∃ y ∈ history, key y = key x ∧ compute y = compute x ∧
      ∃ v, C.lookup (C.after key compute history) (key x) = some v ∧ compute y = .ok v

variable {C key compute}

variable {s : C.State} {x : α} {k : κ} {v : ν} {history : List α}

theorem lookup_call (h : C.lookup (C.call key compute s x).2 k = some v) :
    C.lookup s k = some v ∨ k = key x ∧ compute x = .ok v := by
  unfold call at h
  split at h
  · exact .inl (C.lookup_get s (key x) k ▸ h)
  · split at h
    · exact .inl (C.lookup_get s (key x) k ▸ h)
    · rename_i w hw
      rcases C.lookup_add _ _ _ _ _ h with ⟨rfl, rfl⟩ | ⟨_, h'⟩
      · exact .inr ⟨rfl, hw⟩
      · exact .inl (C.lookup_get s (key x) k ▸ h')

theorem lookup_after (h : C.lookup (C.after key compute history) k = some v) :
    ∃ x ∈ history, key x = k ∧ compute x = .ok v := by
  induction history using List.reverseRecOn with
  | nil => simp [after, C.lookup_empty] at h
  | append_singleton history x ih =>
    simp only [after, List.foldl_append, List.foldl_cons, List.foldl_nil] at h
    rcases lookup_call h with hold | ⟨rfl, hnew⟩
    · obtain ⟨y, hy, hk, hv⟩ := ih hold
      exact ⟨y, List.mem_append_left _ hy, hk, hv⟩
    · exact ⟨x, by simp, rfl, hnew⟩

theorem call_of_lookup (h : ∀ v, C.lookup s (key x) = some v → compute x = .ok v) :
    (C.call key compute s x).1 = compute x := by
  unfold call
  cases hl : C.lookup s (key x) with
  | none => cases compute x <;> rfl
  | some v => exact (h v hl).symm

theorem Agrees.of_lookup (h : C.Agrees key compute history x) :
    ∀ v, C.lookup (C.after key compute history) (key x) = some v → compute x = .ok v := by
  intro v hv
  rcases h with hnone | ⟨y, _, _, hyx, w, hw, hy⟩
  · rw [hnone] at hv
    cases hv
  · obtain rfl : w = v := Option.some.inj (hw.symm.trans hv)
    exact hyx ▸ hy

theorem call_eq_iff_agrees :
    (C.call key compute (C.after key compute history) x).1 = compute x ↔
      C.Agrees key compute history x := by
  refine ⟨fun h => ?_, fun h => call_of_lookup h.of_lookup⟩
  cases hl : C.lookup (C.after key compute history) (key x) with
  | none => exact .inl hl
  | some v =>
    obtain ⟨y, hy, hk, hv⟩ := lookup_after hl
    have hx : compute x = .ok v := by
      rw [← h, call, hl]
    exact .inr ⟨y, hy, hk, hv.trans hx.symm, v, hl, hv⟩

theorem run_eq_eval {p : Query α (Except ε ν) ρ}
    (hs : ∀ x ∈ p.asks compute, ∀ v, C.lookup s (key x) = some v → compute x = .ok v)
    (hp : ∀ x ∈ p.asks compute, ∀ y ∈ p.asks compute, key x = key y → compute x = compute y) :
    (C.run key compute p s).1 = p.eval compute := by
  induction p generalizing s with
  | done r => rfl
  | ask x next ih =>
    have hx : x ∈ (Query.ask x next).asks compute := List.mem_cons_self
    have hcall := call_of_lookup (hs x hx)
    simp only [run, Query.eval, hcall]
    refine ih _ (fun y hy v hv => ?_) (fun y hy z hz => ?_)
    · have hy' : y ∈ (Query.ask x next).asks compute := List.mem_cons_of_mem _ hy
      rcases lookup_call hv with hold | ⟨hk, hnew⟩
      · exact hs y hy' v hold
      · exact (hp y hy' x hx hk).trans hnew
    · exact hp y (List.mem_cons_of_mem _ hy) z (List.mem_cons_of_mem _ hz)

end Cache

end Kaia.Foundation
