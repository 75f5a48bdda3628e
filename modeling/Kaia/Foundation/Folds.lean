import Mathlib

/-! # Fallible computations and folds over lists

What a successful computation has passed through, and rules for folds that may fail: invariants,
changes that the steps do not see, and steps that each act on a place of their own.
-/

namespace Kaia.Foundation

open List

universe u v

variable {ε δ : Type u} {α β γ σ : Type v} {x : Except ε α} {f : α → Except ε β} {b : β} {e : ε}
  {a : α}

theorem bind_eq_ok : (x >>= f) = .ok b ↔ ∃ a, x = .ok a ∧ f a = .ok b := by
  cases x with
  | error | ok => simp [bind, Except.bind]

theorem bind_ne_error (hx : x ≠ .error e) (hf : ∀ a, x = .ok a → f a ≠ .error e) :
    (x >>= f) ≠ .error e := by
  cases x with
  | error e' =>
    intro h
    exact hx (congrArg Except.error (Except.error.inj h))
  | ok a => exact hf a rfl

theorem mapError_ne_error {f : ε → δ} (hf : Function.Injective f) (hx : x ≠ .error e) :
    x.mapError f ≠ .error (f e) := by
  cases x with
  | error e' =>
    intro h
    exact hx (congrArg Except.error (hf (Except.error.inj h)))
  | ok a => exact nofun

theorem mapError_eq_ok {f : ε → δ} : x.mapError f = .ok a ↔ x = .ok a := by
  cases x <;> simp [Except.mapError]

theorem map_eq_ok {f : α → β} : x.map f = .ok b ↔ ∃ a, x = .ok a ∧ f a = b := by
  cases x <;> simp [Except.map]

theorem toOption_eq_some : x.toOption = some a ↔ x = .ok a := by
  cases x <;> simp [Except.toOption]

@[simp] theorem mapError_map (x : Except ε α) (f : ε → δ) (g : α → β) :
    (x.map g).mapError f = (x.mapError f).map g := by
  cases x <;> rfl

theorem except_map_bind (x : Except ε α) (g : α → β) (f : β → Except ε γ) :
    (x.map g >>= f) = x >>= fun a => f (g a) := by
  cases x <;> rfl

theorem except_bind_map (x : Except ε α) (f : α → Except ε β) (g : β → γ) :
    (x >>= f).map g = x >>= fun a => (f a).map g := by
  cases x <;> rfl

theorem toOption_getD_map (x : Except ε α) (g : α → β) (d : α) :
    (x.map g).toOption.getD (g d) = g (x.toOption.getD d) := by
  cases x <;> rfl

theorem mapM_eq_some {f : α → Option β} {as : List α} {bs : List β} :
    as.mapM f = some bs ↔ List.Forall₂ (fun a b => f a = some b) as bs := by
  induction as generalizing bs with
  | nil =>
    rw [mapM_nil, forall₂_nil_left_iff]
    exact Option.some_inj.trans eq_comm
  | cons a as ih =>
    rw [mapM_cons, forall₂_cons_left_iff]
    constructor
    · intro h
      obtain ⟨b, hb, h⟩ := Option.bind_eq_some_iff.mp h
      obtain ⟨bs', hbs, heq⟩ := Option.bind_eq_some_iff.mp h
      cases heq
      exact ⟨b, bs', hb, ih.mp hbs, rfl⟩
    · rintro ⟨b, bs', hb, hbs, rfl⟩
      rw [hb, ih.mpr hbs]
      rfl

variable {f : σ → α → Except ε σ} {s t : σ} {as : List α}

theorem foldlM_invariant {P : σ → Prop} (hstep : ∀ s a t, f s a = .ok t → P s → P t)
    (h : as.foldlM f s = .ok t) (hs : P s) : P t := by
  induction as generalizing s with
  | nil =>
    obtain rfl : s = t := by simpa [pure, Except.pure] using h
    exact hs
  | cons a as ih =>
    rw [foldlM_cons, bind_eq_ok] at h
    obtain ⟨u, hu, hrest⟩ := h
    exact ih hrest (hstep s a u hu hs)

theorem foldlM_map_comm {g : σ → σ} (hstep : ∀ s a, f (g s) a = (f s a).map g)
    (as : List α) (s : σ) : as.foldlM f (g s) = (as.foldlM f s).map g := by
  induction as generalizing s with
  | nil => rfl
  | cons a as ih =>
    simp only [foldlM_cons, hstep, except_map_bind, except_bind_map, ih]

/-! ## Steps that act on one place each -/

variable {ι κ ρ : Type v} {step : σ → ι → Except ε σ} {cell : σ → ι → κ} {rest : σ → ρ}
  {act : ρ → κ → Except ε κ} {s' : σ} {l : List ι}

/-- A computation gives a new value to a place, and leaves everything else alone. -/
def ActsAt (cell : σ → ι → κ) (rest : σ → ρ) (s : σ) (i : ι) (c : Except ε κ) (r : Except ε σ) :
    Prop :=
  match c with
  | .error e => r = .error e
  | .ok c => ∃ s', r = .ok s' ∧ cell s' i = c ∧ (∀ j, j ≠ i → cell s' j = cell s j) ∧
      rest s' = rest s

theorem ActsAt.trans {t : σ} {i : ι} {c : Except ε κ} {r : Except ε σ}
    (h : ActsAt cell rest t i c r) (hothers : ∀ j, j ≠ i → cell t j = cell s j)
    (hrest : rest t = rest s) : ActsAt cell rest s i c r := by
  cases c with
  | error e => exact h
  | ok c =>
    obtain ⟨s', hr, hc, hj, hr'⟩ := h
    exact ⟨s', hr, hc, fun j hji => (hj j hji).trans (hothers j hji), hr'.trans hrest⟩

/-- A step at a place acts on what is there. -/
def Acts (step : σ → ι → Except ε σ) (cell : σ → ι → κ) (rest : σ → ρ)
    (act : ρ → κ → Except ε κ) : Prop :=
  ∀ s i, ActsAt cell rest s i (act (rest s) (cell s i)) (step s i)

theorem Acts.of_ok (h : Acts step cell rest act) {i : ι} (hok : step s i = .ok s') :
    act (rest s) (cell s i) = .ok (cell s' i) ∧ (∀ j, j ≠ i → cell s' j = cell s j) ∧
      rest s' = rest s := by
  have hi := h s i
  cases hact : act (rest s) (cell s i) with
  | error e => rw [hact] at hi; rw [hi] at hok; cases hok
  | ok c =>
    rw [hact] at hi
    obtain ⟨t, ht, hc, hothers, hrest⟩ := hi
    obtain rfl : t = s' := Except.ok.inj (ht.symm.trans hok)
    exact ⟨by rw [hc], hothers, hrest⟩

theorem Acts.fold_ok (h : Acts step cell rest act) (hl : l.Nodup)
    (hok : l.foldlM step s = .ok s') :
    rest s' = rest s ∧ (∀ i ∈ l, act (rest s) (cell s i) = .ok (cell s' i)) ∧
      ∀ i ∉ l, cell s' i = cell s i := by
  induction l generalizing s with
  | nil =>
    obtain rfl : s = s' := Except.ok.inj hok
    exact ⟨rfl, by simp, fun _ _ => rfl⟩
  | cons i l ih =>
    obtain ⟨hi, hl⟩ := nodup_cons.mp hl
    rw [foldlM_cons] at hok
    obtain ⟨t, ht, hok⟩ := bind_eq_ok.mp hok
    obtain ⟨hact, hothers, hrest⟩ := h.of_ok ht
    obtain ⟨hrest', hin, hout⟩ := ih hl hok
    refine ⟨hrest'.trans hrest, fun j hj => ?_, fun j hj => ?_⟩
    · rcases mem_cons.mp hj with rfl | hjl
      · rw [hout j hi, hact]
      · have hji : j ≠ i := by rintro rfl; exact hi hjl
        rw [← hin j hjl, hrest, hothers j hji]
    · obtain ⟨hji, hjl⟩ : j ≠ i ∧ j ∉ l := by simpa using hj
      rw [hout j hjl, hothers j hji]

theorem Acts.fold_exists (h : Acts step cell rest act) (hl : l.Nodup)
    (hok : ∀ i ∈ l, ∃ c, act (rest s) (cell s i) = .ok c) : ∃ s', l.foldlM step s = .ok s' := by
  induction l generalizing s with
  | nil => exact ⟨s, rfl⟩
  | cons i l ih =>
    obtain ⟨hi, hl⟩ := nodup_cons.mp hl
    obtain ⟨c, hc⟩ := hok i mem_cons_self
    have hstep := h s i
    rw [hc] at hstep
    obtain ⟨t, ht, -, hothers, hrest⟩ := hstep
    obtain ⟨s', hs'⟩ := ih (s := t) hl fun j hj => by
      have hji : j ≠ i := by rintro rfl; exact hi hj
      rw [hrest, hothers j hji]
      exact hok j (mem_cons_of_mem i hj)
    exact ⟨s', by rw [foldlM_cons, ht]; exact hs'⟩

end Kaia.Foundation
