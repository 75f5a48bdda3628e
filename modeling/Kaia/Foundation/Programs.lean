import Mathlib

/-! # Programs over a store

A program asks a store, one call after the other, and stops with a result or crashes. A part of it
may be in brackets: the store is taken back if the result says so. If one store simulates another
call by call, it simulates it program by program.
-/

namespace Kaia.Foundation

/-- Programs over the calls `C`, each with its type of answers. -/
inductive Prog {C : Type} (R : C → Type) (ε : Type) : Type → Type 1
  | pure {α : Type} (a : α) : Prog R ε α
  | crash {α : Type} (e : ε) : Prog R ε α
  | call {α : Type} (c : C) (k : R c → Prog R ε α) : Prog R ε α
  | bracket {α β : Type} (body : Prog R ε β) (keep : β → Bool) (k : β → Prog R ε α) : Prog R ε α

namespace Prog

variable {C : Type} {R : C → Type} {ε : Type} {α : Type}

protected def bind : {α β : Type} → Prog R ε α → (α → Prog R ε β) → Prog R ε β
  | _, _, .pure a, f => f a
  | _, _, .crash e, _ => .crash e
  | _, _, .call c k, f => .call c fun r => (k r).bind f
  | _, _, .bracket body keep k, f => .bracket body keep fun b => (k b).bind f

instance : Monad (Prog R ε) where
  pure := .pure
  bind := .bind

end Prog

/-- A store that answers the calls, can be marked and can be taken back to a mark. -/
structure Handler {C : Type} (R : C → Type) (ε σ : Type) where
  Mark : Type
  call : (c : C) → σ → Except ε (R c × σ)
  mark : σ → Mark × σ
  revert : Mark → σ → Except ε σ

namespace Handler

variable {C : Type} {R : C → Type} {ε σ τ : Type} {α β : Type}

def close (H : Handler R ε σ) (m : H.Mark) (keep : Bool) (s : σ) : Except ε σ :=
  if keep then .ok s else H.revert m s

def run (H : Handler R ε σ) : {α : Type} → Prog R ε α → σ → Except ε (α × σ)
  | _, .pure a, s => .ok (a, s)
  | _, .crash e, _ => .error e
  | _, .call c k, s =>
    match H.call c s with
    | .error e => .error e
    | .ok (r, s) => H.run (k r) s
  | _, .bracket body keep k, s =>
    match H.run body (H.mark s).2 with
    | .error e => .error e
    | .ok (b, s') =>
      match H.close (H.mark s).1 (keep b) s' with
      | .error e => .error e
      | .ok s => H.run (k b) s

end Handler

/-! ## One store for another -/

/-- The first store shows what the second one is, and its steps can be taken back. -/
structure Simulation {C : Type} {R : C → Type} {ε σ τ : Type} (S : Handler R ε σ)
    (T : Handler R ε τ) (Rel : σ → τ → Prop) (Step : σ → σ → Prop) : Prop where
  refl : ∀ {s t}, Rel s t → Step s s
  trans : ∀ {s s' s''}, Step s s' → Step s' s'' → Step s s''
  call_ok : ∀ {s t c r t'}, Rel s t → T.call c t = .ok (r, t') →
    ∃ s', S.call c s = .ok (r, s') ∧ Rel s' t' ∧ Step s s'
  call_error : ∀ {s t c e}, Rel s t → T.call c t = .error e → S.call c s = .error e
  mark : ∀ {s t}, Rel s t → Rel (S.mark s).2 (T.mark t).2
  close : ∀ (keep : Bool) {s t s' t'}, Rel s t → Step (S.mark s).2 s' → Rel s' t' →
    ∃ s'' t'', S.close (S.mark s).1 keep s' = .ok s'' ∧ T.close (T.mark t).1 keep t' = .ok t'' ∧
      Rel s'' t'' ∧ Step s s''

namespace Simulation

variable {C : Type} {R : C → Type} {ε σ τ α : Type} {S : Handler R ε σ} {T : Handler R ε τ}
  {Rel : σ → τ → Prop} {Step : σ → σ → Prop} {s : σ} {t t' : τ} {a : α}

theorem run (h : Simulation S T Rel Step) (p : Prog R ε α) (hrel : Rel s t) :
    match T.run p t with
    | .ok (a, t') => ∃ s', S.run p s = .ok (a, s') ∧ Rel s' t' ∧ Step s s'
    | .error e => S.run p s = .error e := by
  induction p generalizing s t with
  | pure a => exact ⟨s, rfl, hrel, h.refl hrel⟩
  | crash e => rfl
  | call c k ih =>
    simp only [Handler.run]
    cases hc : T.call c t with
    | error e => rw [h.call_error hrel hc]
    | ok x =>
      obtain ⟨s', hs', hrel', hstep⟩ := h.call_ok hrel hc
      have hrest := ih x.1 hrel'
      rw [hs']
      simp only
      cases hr : T.run (k x.1) x.2 with
      | error e => rwa [hr] at hrest
      | ok y =>
        rw [hr] at hrest
        obtain ⟨s'', hs'', hrel'', hstep'⟩ := hrest
        exact ⟨s'', hs'', hrel'', h.trans hstep hstep'⟩
  | bracket body keep k ihb ihk =>
    simp only [Handler.run]
    have hbody := ihb (h.mark hrel)
    cases hb : T.run body (T.mark t).2 with
    | error e => rw [hb] at hbody; rw [hbody]
    | ok x =>
      rw [hb] at hbody
      obtain ⟨s', hs', hrel', hstep'⟩ := hbody
      obtain ⟨s'', t'', hs'', ht'', hrel'', hstep''⟩ := h.close (keep x.1) hrel hstep' hrel'
      have hrest := ihk x.1 hrel''
      rw [hs']
      simp only [hs'', ht'']
      cases hr : T.run (k x.1) t'' with
      | error e => rwa [hr] at hrest
      | ok y =>
        rw [hr] at hrest
        obtain ⟨s₃, hs₃, hrel₃, hstep₃⟩ := hrest
        exact ⟨s₃, hs₃, hrel₃, h.trans hstep'' hstep₃⟩

end Simulation

end Kaia.Foundation
