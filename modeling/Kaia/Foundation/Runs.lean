import Mathlib

/-! # Runs of an event-driven machine

A machine is a partial step function on states and events. A run applies a list
of events in order; the steps of a run may be required to meet a condition on
the state before the step and on the event.
-/

namespace Kaia.Foundation

variable {σ ε : Type*} {step : σ → ε → Option σ} {ok ok' : σ → ε → Prop}
  {s t u : σ} {es : List ε}

/-- The runs from one state to another whose steps all meet the condition. -/
inductive Runs (step : σ → ε → Option σ) (ok : σ → ε → Prop) : σ → List ε → σ → Prop
  | nil (s : σ) : Runs step ok s [] s
  | snoc {s t u : σ} {es : List ε} {e : ε} :
      Runs step ok s es t → ok t e → step t e = some u → Runs step ok s (es ++ [e]) u

theorem Runs.single {s t : σ} {e : ε} (hok : ok s e) (h : step s e = some t) :
    Runs step ok s [e] t :=
  by exact (Runs.nil s).snoc hok h

theorem Runs.history {P : List ε → σ → Prop} (h : Runs step ok s es t) (hs : P [] s)
    (hstep : ∀ es t e u, ok t e → step t e = some u → P es t → P (es ++ [e]) u) : P es t := by
  induction h with
  | nil => exact hs
  | snoc _ hok he ih => exact hstep _ _ _ _ hok he ih

theorem Runs.invariant {P : σ → Prop} (h : Runs step ok s es t) (hs : P s)
    (hstep : ∀ t e u, ok t e → step t e = some u → P t → P u) : P t :=
  h.history (P := fun _ => P) hs fun _ => hstep

theorem Runs.related {R : σ → σ → Prop} (h : Runs step ok s es t) (hrefl : ∀ s, R s s)
    (htrans : ∀ {a b c}, R a b → R b c → R a c)
    (hstep : ∀ t e u, ok t e → step t e = some u → R t u) : R s t :=
  h.invariant (hrefl s) fun _ _ _ hok he hr => htrans hr (hstep _ _ _ hok he)

theorem Runs.mono (h : Runs step ok s es t) (hle : ∀ s e, ok s e → ok' s e) :
    Runs step ok' s es t := by
  induction h with
  | nil => exact .nil _
  | snoc _ hok he ih => exact ih.snoc (hle _ _ hok) he

/-- Execute a list of events; `none` as soon as one of them is not enabled. -/
def exec (step : σ → ε → Option σ) (s : σ) (es : List ε) : Option σ := es.foldlM step s

theorem exec_cons (step : σ → ε → Option σ) (s : σ) (e : ε) (es : List ε) :
    exec step s (e :: es) = (step s e).bind fun t => exec step t es := rfl

theorem Runs.of_exec_append (h : Runs step ok s es t) {fs : List ε}
    (hfs : ∀ e ∈ fs, ∀ s, ok s e) (he : exec step t fs = some u) :
    Runs step ok s (es ++ fs) u := by
  induction fs generalizing es t with
  | nil =>
    obtain rfl : t = u := by simpa [exec] using he
    simpa using h
  | cons e fs ih =>
    rw [exec_cons] at he
    obtain ⟨v, hv, he'⟩ := Option.bind_eq_some_iff.mp he
    obtain ⟨hok, hfs⟩ := List.forall_mem_cons.mp hfs
    simpa using ih (h.snoc (hok t) hv) hfs he'

theorem Runs.of_exec (he : exec step s es = some u) : Runs step (fun _ _ => True) s es u := by
  simpa using (Runs.nil s).of_exec_append (fun _ _ _ => trivial) he

theorem Runs.exists_of_exec {β : Type*} (step : σ → ε → Option σ) (s : σ) (es : List ε)
    (f : σ → β) (y : β) (h : (exec step s es).map f = some y) :
    ∃ t, Runs step (fun _ _ => True) s es t ∧ f t = y := by
  obtain ⟨t, ht, hy⟩ := Option.map_eq_some_iff.mp h
  exact ⟨t, Runs.of_exec ht, hy⟩

theorem Runs.exists_of_exec_exec {β : Type*} (step : σ → ε → Option σ) (s : σ) (es fs : List ε)
    (f : σ → σ → β) (y : β)
    (h : ((exec step s es).bind fun t => (exec step t fs).map (f t)) = some y) :
    ∃ t u, Runs step (fun _ _ => True) s es t ∧ Runs step (fun _ _ => True) t fs u ∧ f t u = y := by
  obtain ⟨t, ht, hmap⟩ := Option.bind_eq_some_iff.mp h
  obtain ⟨u, hu, hy⟩ := Option.map_eq_some_iff.mp hmap
  exact ⟨t, u, Runs.of_exec ht, Runs.of_exec hu, hy⟩

def guarded (step : σ → ε → Option σ) (ok : σ → ε → Prop) [∀ s e, Decidable (ok s e)]
    (s : σ) (e : ε) : Option σ :=
  if ok s e then step s e else none

theorem Runs.of_guarded [∀ s e, Decidable (ok s e)]
    (h : Runs (guarded step ok) (fun _ _ => True) s es t) : Runs step ok s es t := by
  induction h with
  | nil => exact .nil _
  | snoc _ _ he ih =>
    obtain ⟨hok, he'⟩ := Option.ite_none_right_eq_some.mp he
    exact ih.snoc hok he'

end Kaia.Foundation
