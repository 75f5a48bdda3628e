import Mathlib

/-! # Compressed search trees

A tree over words that end in a stop letter: a short node skips a word, a full node branches on
the next letter. In a normal tree every way leads to a word.
-/

namespace Kaia.Foundation

open List

inductive Tree (ι ν : Type)
  | nil
  | value (v : ν)
  | short (key : List ι) (t : Tree ι ν)
  | full (c : ι → Tree ι ν)

namespace Tree

section Words

variable {ι : Type} [DecidableEq ι]

def prefixLen : List ι → List ι → ℕ
  | a :: x, b :: y => if a = b then prefixLen x y + 1 else 0
  | _, _ => 0

theorem prefixLen_append (x y : List ι) : prefixLen (x ++ y) x = x.length := by
  induction x with
  | nil => cases y <;> rfl
  | cons a x ih => simp [prefixLen, ih]

theorem prefixLen_cases (x y : List ι) :
    (∃ z, x = y ++ z) ∨
      (prefixLen x y < y.length ∧
        ((∃ p i x' j y', x = p ++ i :: x' ∧ y = p ++ j :: y' ∧ i ≠ j ∧ prefixLen x y = p.length) ∨
          x <+: y)) := by
  induction x generalizing y with
  | nil =>
    cases y with
    | nil => exact .inl ⟨[], rfl⟩
    | cons b y => exact .inr ⟨by simp [prefixLen], .inr nil_prefix⟩
  | cons a x ih =>
    cases y with
    | nil => exact .inl ⟨a :: x, rfl⟩
    | cons b y =>
      by_cases hab : a = b
      · subst hab
        obtain ⟨z, rfl⟩ | ⟨hlt, h⟩ := ih y
        · exact .inl ⟨z, rfl⟩
        · refine .inr ⟨by simpa [prefixLen] using hlt, ?_⟩
          obtain ⟨p, i, x', j, y', rfl, rfl, hij, hp⟩ | hp := h
          · exact .inl ⟨a :: p, i, x', j, y', rfl, rfl, hij, by simp [prefixLen, hp]⟩
          · exact .inr (cons_prefix_cons.mpr ⟨rfl, hp⟩)
      · refine .inr ⟨by simp [prefixLen, hab], .inl ⟨[], a, x, b, y, rfl, rfl, hab, ?_⟩⟩
        simp [prefixLen, hab]

def IsKey (stop : ι) : List ι → Prop
  | [] => False
  | i :: k => if i = stop then k = [] else IsKey stop k

variable {stop : ι} {k p : List ι}

theorem IsKey.ne_nil (h : IsKey stop k) : k ≠ [] := by
  rintro rfl
  exact h

theorem isKey_stop : IsKey stop (stop :: k) ↔ k = [] := by simp [IsKey]

theorem isKey_cons {i : ι} (hi : i ≠ stop) : IsKey stop (i :: k) ↔ IsKey stop k := by
  simp [IsKey, hi]

theorem isKey_append (hp : stop ∉ p) : IsKey stop (p ++ k) ↔ IsKey stop k := by
  induction p with
  | nil => rfl
  | cons a p ih =>
    rw [mem_cons, not_or] at hp
    rw [cons_append, isKey_cons (Ne.symm hp.1), ih hp.2]

theorem IsKey.append_left (h : IsKey stop (p ++ k)) (hk : k ≠ []) : stop ∉ p := by
  induction p with
  | nil => simp
  | cons a p ih =>
    by_cases ha : a = stop
    · subst ha
      rw [cons_append, isKey_stop, append_eq_nil_iff] at h
      exact absurd h.2 hk
    · rw [cons_append, isKey_cons ha] at h
      rw [mem_cons, not_or]
      exact ⟨Ne.symm ha, ih h⟩

theorem IsKey.eq_nil_of_append (hp : IsKey stop p) (h : IsKey stop (p ++ k)) : k = [] := by
  by_contra hk
  have hstop := h.append_left hk
  rw [isKey_append hstop] at h
  rw [← append_nil p, isKey_append hstop] at hp
  exact hp

theorem IsKey.exists_word (h : IsKey stop k) : ∃ w, stop ∉ w ∧ k = w ++ [stop] := by
  induction k with
  | nil => exact h.elim
  | cons i k ih =>
    by_cases hi : i = stop
    · subst hi
      rw [isKey_stop] at h
      exact ⟨[], by simp, by rw [h]; rfl⟩
    · rw [isKey_cons hi] at h
      obtain ⟨w, hw, rfl⟩ := ih h
      exact ⟨i :: w, by simp [Ne.symm hi, hw], rfl⟩

theorem isKey_word {w : List ι} (hw : stop ∉ w) : IsKey stop (w ++ [stop]) :=
  (isKey_append hw).mpr (isKey_stop.mpr rfl)

end Words

variable {ι ν : Type} [DecidableEq ι]

def get : Tree ι ν → List ι → Option ν
  | nil, _ => none
  | value v, k => if k = [] then some v else none
  | short key t, k => if key <+: k then t.get (k.drop key.length) else none
  | full c, k =>
    match k with
    | [] => none
    | i :: k => (c i).get k

@[simp] theorem get_nil (k : List ι) : (nil : Tree ι ν).get k = none := rfl

theorem get_value (v : ν) (k : List ι) :
    (value v : Tree ι ν).get k = if k = [] then some v else none := rfl

theorem get_short (key : List ι) (t : Tree ι ν) (k : List ι) :
    (short key t).get k = if key <+: k then t.get (k.drop key.length) else none := rfl

@[simp] theorem get_short_append (key : List ι) (t : Tree ι ν) (k : List ι) :
    (short key t).get (key ++ k) = t.get k := by
  simp [get_short]

@[simp] theorem get_full_cons (c : ι → Tree ι ν) (i : ι) (k : List ι) :
    (full c).get (i :: k) = (c i).get k := rfl

theorem short_get_eq_some {key k : List ι} {t : Tree ι ν} {v : ν} :
    (short key t).get k = some v ↔ ∃ k', k = key ++ k' ∧ t.get k' = some v := by
  rw [get_short]
  constructor
  · intro h
    split at h
    · next hp =>
      obtain ⟨k', rfl⟩ := hp
      exact ⟨k', rfl, by simpa using h⟩
    · cases h
  · rintro ⟨k', rfl, h⟩
    simpa using h

/-! ## Normal trees -/

/-- The tree below a word that has not ended, when it is not empty. -/
inductive Normal (stop : ι) : Tree ι ν → Prop
  | leaf {key : List ι} {v : ν} (hkey : IsKey stop key) : Normal stop (short key (value v))
  | ext {key : List ι} {c : ι → Tree ι ν} (hne : key ≠ []) (hkey : stop ∉ key)
      (h : Normal stop (full c)) : Normal stop (short key (full c))
  | branch {c : ι → Tree ι ν} (hc : ∀ i ≠ stop, c i ≠ nil → Normal stop (c i))
      (hstop : c stop ≠ nil → ∃ v, c stop = value v)
      (htwo : ∃ i j, i ≠ j ∧ c i ≠ nil ∧ c j ≠ nil) : Normal stop (full c)

variable {stop : ι} {t t' : Tree ι ν} {c c' : ι → Tree ι ν} {k k' key : List ι} {v : ν}

theorem Normal.isKey_of_get (h : Normal stop t) (hk : t.get k = some v) : IsKey stop k := by
  induction h generalizing k with
  | leaf hkey =>
    obtain ⟨k', rfl, hv⟩ := short_get_eq_some.mp hk
    rw [get_value] at hv
    split at hv
    · next h => rwa [h, append_nil]
    · cases hv
  | ext hne hkey h ih =>
    obtain ⟨k', rfl, hv⟩ := short_get_eq_some.mp hk
    exact (isKey_append hkey).mpr (ih hv)
  | @branch c hc hstop htwo ih =>
    cases k with
    | nil => cases hk
    | cons i k =>
      rw [get_full_cons] at hk
      have hne : c i ≠ nil := fun h => by rw [h] at hk; cases hk
      by_cases hi : i = stop
      · subst hi
        obtain ⟨u, hu⟩ := hstop hne
        rw [hu, get_value] at hk
        split at hk
        · next h => exact isKey_stop.mpr h
        · cases hk
      · exact (isKey_cons hi).mpr (ih i hi hne hk)

theorem Normal.branch_get (hc : ∀ i ≠ stop, c i ≠ nil → ∃ k v, (c i).get k = some v)
    (hstop : c stop ≠ nil → ∃ v, c stop = value v) {i : ι} (hi : c i ≠ nil) :
    ∃ k v, (full c).get (i :: k) = some v := by
  by_cases his : i = stop
  · subst his
    obtain ⟨v, hv⟩ := hstop hi
    exact ⟨[], v, by simp [hv, get_value]⟩
  · exact hc i his hi

theorem Normal.exists_get (h : Normal stop t) : ∃ k v, t.get k = some v := by
  induction h with
  | @leaf key v hkey => exact ⟨key, v, short_get_eq_some.mpr ⟨[], by simp, rfl⟩⟩
  | @ext key c hne hkey h ih =>
    obtain ⟨k, v, hv⟩ := ih
    exact ⟨key ++ k, v, by simpa using hv⟩
  | branch hc hstop htwo ih =>
    obtain ⟨i, _, _, hi, -⟩ := htwo
    obtain ⟨k, v, hv⟩ := Normal.branch_get ih hstop hi
    exact ⟨i :: k, v, hv⟩

/-! ## Words of one length -/

/-- A tree whose words all have the given length: no word ends in a branch. -/
inductive Level (stop : ι) : ℕ → Tree ι ν → Prop
  | leaf {key : List ι} {v : ν} (hkey : IsKey stop key) :
      Level stop key.length (short key (value v))
  | ext {n : ℕ} {key : List ι} {c : ι → Tree ι ν} (hne : key ≠ []) (hkey : stop ∉ key)
      (h : Level stop n (full c)) : Level stop (key.length + n) (short key (full c))
  | branch {n : ℕ} {c : ι → Tree ι ν} (hc : ∀ i ≠ stop, c i ≠ nil → Level stop n (c i))
      (hstop : c stop = nil) : Level stop (n + 1) (full c)

theorem Normal.level (h : Normal stop t) {n : ℕ} (hn : ∀ k v, t.get k = some v → k.length = n) :
    Level stop n t := by
  induction h generalizing n with
  | @leaf key v hkey =>
    have hlen := hn key v (short_get_eq_some.mpr ⟨[], by simp, rfl⟩)
    subst hlen
    exact .leaf hkey
  | @ext key c hne hkey h ih =>
    have hlen : ∀ k v, (full c).get k = some v → key.length + k.length = n := fun k v hv => by
      rw [← length_append]
      exact hn _ v (by simpa using hv)
    obtain ⟨k₀, v₀, h₀⟩ := h.exists_get
    have h₀ := hlen k₀ v₀ h₀
    subst h₀
    refine .ext hne hkey (ih fun k v hv => ?_)
    have := hlen k v hv
    omega
  | @branch c hc hstop htwo ih =>
    have hget : ∀ i ≠ stop, c i ≠ nil → ∃ k v, (c i).get k = some v ∧ 0 < k.length := by
      intro i his hi
      obtain ⟨k, v, hv⟩ := (hc i his hi).exists_get
      have hk := (hc i his hi).isKey_of_get hv
      exact ⟨k, v, hv, length_pos_of_ne_nil hk.ne_nil⟩
    -- one of the two ways does not end at once
    obtain ⟨i, his, hi⟩ : ∃ i, i ≠ stop ∧ c i ≠ nil := by
      obtain ⟨a, b, hab, ha, hb⟩ := htwo
      by_cases has : a = stop
      · exact ⟨b, fun h => hab (has.trans h.symm), hb⟩
      · exact ⟨a, has, ha⟩
    obtain ⟨k, v, hv, hpos⟩ := hget i his hi
    have hlen := hn (i :: k) v hv
    rw [length_cons] at hlen
    subst hlen
    refine .branch (fun j hjs hj => ih j hjs hj fun k' v' hv' => ?_) ?_
    · have := hn (j :: k') v' hv'
      rw [length_cons] at this
      omega
    · by_contra hne
      obtain ⟨u, hu⟩ := hstop hne
      have := hn [stop] u (by simp [hu, get_value])
      rw [length_singleton] at this
      omega

/-- A normal tree whose words have one length, or nothing. -/
inductive Flat (stop : ι) : Tree ι ν → Prop
  | nil : Flat stop nil
  | leaf {key : List ι} {v : ν} (hkey : IsKey stop key) : Flat stop (short key (value v))
  | ext {key : List ι} {c : ι → Tree ι ν} (hne : key ≠ []) (hkey : stop ∉ key)
      (h : Flat stop (full c)) : Flat stop (short key (full c))
  | branch {c : ι → Tree ι ν} (hc : ∀ i, Flat stop (c i)) (hstop : c stop = nil)
      (htwo : ∃ i j, i ≠ j ∧ c i ≠ nil ∧ c j ≠ nil) : Flat stop (full c)

theorem Normal.flat (h : Normal stop t) {n : ℕ} (hl : Level stop n t) : Flat stop t := by
  induction h generalizing n with
  | leaf hkey => exact .leaf hkey
  | ext hne hkey h ih =>
    cases hl with
    | ext _ _ hl => exact .ext hne hkey (ih hl)
  | @branch c hc hstop htwo ih =>
    cases hl with
    | branch hlc hlstop =>
      refine .branch (fun i => ?_) hlstop htwo
      by_cases hi : i = stop
      · rw [hi, hlstop]
        exact .nil
      · by_cases hnil : c i = Tree.nil
        · rw [hnil]
          exact .nil
        · exact ih i hi hnil (hlc i hi hnil)

theorem Flat.exists_get (h : Flat stop t) (hne : t ≠ Tree.nil) : ∃ k v, t.get k = some v := by
  induction h with
  | nil => exact absurd rfl hne
  | @leaf key v hkey => exact ⟨key, v, short_get_eq_some.mpr ⟨[], by simp, rfl⟩⟩
  | @ext key c hne hkey h ih =>
    obtain ⟨k, v, hv⟩ := ih (by simp)
    exact ⟨key ++ k, v, by simpa using hv⟩
  | branch hc hstop htwo ih =>
    obtain ⟨i, -, -, hi, -⟩ := htwo
    obtain ⟨k, v, hv⟩ := ih i hi
    exact ⟨i :: k, v, hv⟩

end Tree

end Kaia.Foundation
