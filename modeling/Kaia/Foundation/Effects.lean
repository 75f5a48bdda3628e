import Mathlib

/-! # Computations that change a state and may fail

A computation returns or fails, in both cases with the state it has reached. What it does is put
together from what its parts do; a loop has an invariant of the elements it has gone through.
-/

namespace Kaia.Foundation

variable {ε σ α β : Type} {P P' : σ → Prop} {Q Q' : α → σ → Prop} {S : β → σ → Prop}
  {R R' : ε → σ → Prop} {x : EStateM ε σ α}

/-- A result with one property if it was returned, and the other if the computation failed. -/
def Ends (Q : α → σ → Prop) (R : ε → σ → Prop) : EStateM.Result ε σ α → Prop
  | .ok a t => Q a t
  | .error e t => R e t

/-- From the precondition, a computation returns with one postcondition or fails with the other. -/
structure Meets (P : σ → Prop) (x : EStateM ε σ α) (Q : α → σ → Prop) (R : ε → σ → Prop) :
    Prop where
  ends : ∀ s, P s → Ends Q R (x.run s)

variable {s t : σ} {a : α} {e : ε} {f : α → EStateM ε σ PUnit}

theorem Meets.of_ok (h : Meets P x Q R) (hs : P s) (hx : x.run s = .ok a t) : Q a t := by
  have := h.ends s hs
  rwa [hx] at this

theorem Meets.of_error (h : Meets P x Q R) (hs : P s) (hx : x.run s = .error e t) : R e t := by
  have := h.ends s hs
  rwa [hx] at this

theorem Meets.get_bind {f : σ → EStateM ε σ α} (h : Meets (· = s) (f s) Q R) :
    Meets (· = s) (get >>= f) Q R := by
  constructor
  rintro _ rfl
  exact h.ends _ rfl

theorem Meets.modify_bind {f : σ → σ} {k : Unit → EStateM ε σ α} (h : Meets (· = f s) (k ()) Q R) :
    Meets (· = s) (modify f >>= k) Q R := by
  constructor
  rintro _ rfl
  exact h.ends _ rfl

theorem Meets.trivial (P : σ → Prop) (x : EStateM ε σ α) :
    Meets P x (fun _ _ => True) fun _ _ => True := by
  constructor
  intro s _
  cases x.run s <;> exact True.intro

theorem Meets.pure (h : ∀ s, P s → Q a s) : Meets P (pure a : EStateM ε σ α) Q R := ⟨h⟩

theorem Meets.throw (h : ∀ s, P s → R e s) : Meets P (throw e : EStateM ε σ α) Q R := ⟨h⟩

theorem Meets.modify {f : σ → σ} {Q : Unit → σ → Prop} (h : ∀ s, P s → Q () (f s)) :
    Meets P (modify f : EStateM ε σ Unit) Q R := ⟨h⟩

theorem Meets.get {Q : σ → σ → Prop} (h : ∀ s, P s → Q s s) :
    Meets P (get : EStateM ε σ σ) Q R := ⟨h⟩

theorem Meets.bind {f : α → EStateM ε σ β} (h : Meets P x Q R) (hf : ∀ a, Meets (Q a) (f a) S R) :
    Meets P (x >>= f) S R := by
  constructor
  intro s hs
  have hx := h.ends s hs
  rw [EStateM.run_bind]
  cases hrun : x.run s with
  | ok a t =>
    rw [hrun] at hx
    exact (hf a).ends t hx
  | error e t =>
    rw [hrun] at hx
    exact hx

theorem run_bind_eq_ok {f : α → EStateM ε σ β} {b : β} :
    (x >>= f).run s = .ok b t ↔ ∃ a u, x.run s = .ok a u ∧ (f a).run u = .ok b t := by
  rw [EStateM.run_bind]
  cases x.run s with
  | ok a u =>
    constructor
    · exact fun h => ⟨a, u, rfl, h⟩
    · rintro ⟨a', u', hx, h⟩
      cases hx
      exact h
  | error e u => simp

theorem Meets.mono (h : Meets P x Q R) (hP : ∀ s, P' s → P s) (hQ : ∀ a s, Q a s → Q' a s)
    (hR : ∀ e s, R e s → R' e s) : Meets P' x Q' R' := by
  constructor
  intro s hs
  have hx := h.ends s (hP s hs)
  cases hrun : x.run s with
  | ok a t =>
    rw [hrun] at hx
    exact hQ a t hx
  | error e t =>
    rw [hrun] at hx
    exact hR e t hx

theorem Meets.of_forall (h : ∀ s, P s → Meets (· = s) x Q R) : Meets P x Q R :=
  ⟨fun s hs => (h s hs).ends s rfl⟩

theorem Meets.and_then {φ ψ : Prop} {x y : EStateM ε σ PUnit} {S T E : σ → Prop}
    (hx : Meets P x (fun _ s => φ ∧ S s) (fun _ s => ¬ φ ∧ E s))
    (hy : Meets S y (fun _ s => ψ ∧ T s) (fun _ s => ¬ ψ ∧ E s)) :
    Meets P (do x; y) (fun _ s => (φ ∧ ψ) ∧ T s) (fun _ s => ¬ (φ ∧ ψ) ∧ E s) := by
  have hfirst : Meets P x (fun _ s => φ ∧ S s) (fun _ s => ¬ (φ ∧ ψ) ∧ E s) :=
    hx.mono (fun _ => id) (fun _ _ => id) fun _ _ h => ⟨fun hboth => h.1 hboth.1, h.2⟩
  refine hfirst.bind fun _ => Meets.of_forall fun s ⟨hφ, hs⟩ => ?_
  refine hy.mono (fun t ht => ht ▸ hs) ?_ ?_
  · exact fun _ _ h => ⟨⟨hφ, h.1⟩, h.2⟩
  · exact fun _ _ h => ⟨fun hboth => h.1 hboth.2, h.2⟩

theorem Meets.forM {l : List α} {I : List α → σ → Prop} {Q : PUnit → σ → Prop}
    (hP : ∀ s, P s → I [] s) (hQ : ∀ s, I l s → Q ⟨⟩ s) (h : ∀ done a rest, l = done ++ a :: rest →
      Meets (I done) (f a) (fun _ => I (done ++ [a])) R) : Meets P (l.forM f) Q R := by
  have hloop : ∀ done rest, l = done ++ rest → Meets (I done) (rest.forM f) Q R := by
    intro done rest hl
    induction rest generalizing done with
    | nil =>
      obtain rfl : l = done := by rw [hl, List.append_nil]
      exact Meets.pure hQ
    | cons a rest ih =>
      refine (h done a rest hl).bind fun _ => ?_
      exact ih (done ++ [a]) (by rw [hl, List.append_assoc, List.singleton_append])
  exact (hloop [] l rfl).mono hP (fun _ _ => id) fun _ _ => id

theorem run_forM_append {before after : List α}
    (h : ((before ++ a :: after).forM f).run s = .ok ⟨⟩ t) :
    ∃ u v, (before.forM f).run s = .ok ⟨⟩ u ∧ (f a).run u = .ok ⟨⟩ v ∧
      (after.forM f).run v = .ok ⟨⟩ t := by
  induction before generalizing s with
  | nil =>
    obtain ⟨_, v, ha, hafter⟩ := run_bind_eq_ok.mp h
    exact ⟨s, v, rfl, ha, hafter⟩
  | cons first before ih =>
    obtain ⟨_, s', hfirst, hrest⟩ := run_bind_eq_ok.mp h
    obtain ⟨u, v, hbefore, ha, hafter⟩ := ih hrest
    exact ⟨u, v, run_bind_eq_ok.mpr ⟨_, s', hfirst, hbefore⟩, ha, hafter⟩

theorem Meets.ofExcept {r : Except ε α} (hok : ∀ a, r = .ok a → ∀ s, P s → Q a s)
    (herr : ∀ e, r = .error e → ∀ s, P s → R e s) :
    Meets P (MonadExcept.ofExcept r : EStateM ε σ α) Q R := by
  cases r with
  | ok a => exact Meets.pure (hok a rfl)
  | error e => exact Meets.throw (herr e rfl)

theorem run_tryCatch_of_ok (h : x.run s = .ok a t) (handle : ε → EStateM ε σ α) :
    (tryCatch x handle).run s = .ok a t := by
  show EStateM.tryCatch x handle s = _
  unfold EStateM.tryCatch
  rw [show x s = .ok a t from h]

variable {handle : ε → EStateM ε σ α}

theorem Meets.tryCatch (h : Meets P x Q R) (hhandle : ∀ e, Meets (R e) (handle e) Q R') :
    Meets P (tryCatch x handle) Q R' := by
  constructor
  intro s hs
  have hx := h.ends s hs
  show Ends Q R' (EStateM.tryCatch x handle s)
  unfold EStateM.tryCatch
  cases hrun : x s with
  | ok a t =>
    rw [EStateM.run, hrun] at hx
    exact hx
  | error e t =>
    rw [EStateM.run, hrun] at hx
    exact (hhandle e).ends t hx

def deferring (f : σ → σ) (x : EStateM ε σ α) : EStateM ε σ α :=
  tryFinally x (modify f : EStateM ε σ Unit)

theorem run_deferring (f : σ → σ) (x : EStateM ε σ α) (s : σ) :
    (deferring f x).run s =
      match x.run s with
      | .ok a t => .ok a (f t)
      | .error e t => .error e (f t) := by
  show EStateM.map Prod.fst (tryFinally' x fun _ => (modify f : EStateM ε σ Unit)) s = _
  unfold EStateM.map tryFinally' EStateM.instMonadFinally EStateM.run
  dsimp only
  cases x s <;> rfl

theorem Meets.deferring {f : σ → σ} (h : Meets P x (fun a s => Q a (f s)) fun e s => R e (f s)) :
    Meets P (deferring f x) Q R := by
  constructor
  intro s hs
  have hx := h.ends s hs
  rw [run_deferring]
  cases hrun : x.run s with
  | ok | error =>
    rw [hrun] at hx
    exact hx

variable {T : σ → σ → Prop}

/-- The state in which the computation ends, or fails, is related to that in which it starts. -/
structure Relates (T : σ → σ → Prop) (x : EStateM ε σ α) : Prop where
  meets : ∀ s, Meets (· = s) x (fun _ => T s) fun _ => T s

theorem Relates.pure [Std.Refl T] (a : α) : Relates T (pure a : EStateM ε σ α) :=
  by
  constructor
  rintro s
  exact Meets.pure fun t ht => ht ▸ refl t

theorem Relates.throw [Std.Refl T] (e : ε) : Relates T (throw e : EStateM ε σ α) :=
  by
  constructor
  rintro s
  exact Meets.throw fun t ht => ht ▸ refl t

theorem Relates.get [Std.Refl T] : Relates T (get : EStateM ε σ σ) :=
  by
  constructor
  rintro s
  exact Meets.get fun t ht => ht ▸ refl t

theorem Relates.modify {f : σ → σ} (h : ∀ s, T s (f s)) : Relates T (modify f : EStateM ε σ Unit) :=
  ⟨fun s => Meets.modify fun _ hs => hs ▸ h s⟩

theorem Relates.ofExcept [Std.Refl T] (r : Except ε α) :
    Relates T (MonadExcept.ofExcept r : EStateM ε σ α) := by
  cases r with
  | ok a => exact Relates.pure a
  | error e => exact Relates.throw e

theorem Relates.after [IsTrans σ T] (h : Relates T x) (hst : T s t) :
    Meets (· = t) x (fun _ => T s) fun _ => T s :=
  (h.meets t).mono (fun _ => id) (fun _ _ => IsTrans.trans _ _ _ hst) fun _ _ => IsTrans.trans _ _ _ hst

theorem Relates.bind [IsTrans σ T] {f : α → EStateM ε σ β} (h : Relates T x)
    (hf : ∀ a, Relates T (f a)) : Relates T (x >>= f) := by
  constructor
  intro s
  exact (h.meets s).bind fun a => Meets.of_forall fun t ht => (hf a).after ht

theorem Relates.tryCatch [IsTrans σ T] (h : Relates T x) (hhandle : ∀ e, Relates T (handle e)) :
    Relates T (tryCatch x handle) := by
  constructor
  intro s
  exact (h.meets s).tryCatch fun e => Meets.of_forall fun t ht => (hhandle e).after ht

theorem Relates.forM [Std.Refl T] [IsTrans σ T] (h : ∀ a, Relates T (f a)) (l : List α) :
    Relates T (l.forM f) := by
  induction l with
  | nil => exact Relates.pure PUnit.unit
  | cons a l ih => exact (h a).bind fun _ => ih

theorem Relates.mono {T' : σ → σ → Prop} (h : Relates T x) (hT : ∀ {s t}, T s t → T' s t) :
    Relates T' x :=
  ⟨fun s => (h.meets s).mono (fun _ => id) (fun _ _ => hT) fun _ _ => hT⟩

end Kaia.Foundation
