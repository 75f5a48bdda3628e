import Mathlib

/-! # Producers and one queue

Producers walk down references and hand a thing on after what it refers to, through one queue to a
single reader. The reader gets a thing after all it refers to, and in the end everything.
-/

namespace Kaia.Foundation

variable {α : Type*}

/-- Walk down from a thing, or hand one on; `send none` reports the end. -/
inductive Todo (α : Type*)
  | visit (a : α)
  | send (r : Option α)

namespace Todo

def named (q : List (Todo α)) : Set α := {a | .visit a ∈ q ∨ .send (some a) ∈ q}

variable {a b : α} {p q : List (Todo α)}

@[simp] theorem named_nil : named ([] : List (Todo α)) = ∅ := by
  ext a
  simp [named]

@[simp] theorem named_visit : named (.visit a :: q) = insert a (named q) := by
  ext b
  simp [named, or_assoc]

@[simp] theorem named_send_some : named (.send (some a) :: q) = insert a (named q) := by
  ext b
  simp [named, or_left_comm]

@[simp] theorem named_send_none : named (.send none :: q) = named q := by
  ext b
  simp [named]

theorem named_append : named (p ++ q) = named p ∪ named q := by
  ext b
  simp [named, or_or_or_comm]

theorem named_visits (l : List α) : named (l.map .visit) = {a | a ∈ l} := by
  ext b
  simp [named]

end Todo

open Todo List

/-! ## Justified orders -/

variable {there : Set α} {refs : α → Set α} {K K' : Set α} {a : α} {p q : List (Todo α)}

/-- What is handed on is there, and comes after what it refers to, given what is known at the
start. -/
def Justified (there : Set α) (refs : α → Set α) : Set α → List (Todo α) → Prop
  | _, [] => True
  | K, .visit a :: q => Justified there refs (insert a K) q
  | K, .send (some a) :: q => a ∈ there ∧ refs a ⊆ K ∧ Justified there refs (insert a K) q
  | K, .send none :: q => Justified there refs K q

theorem Justified.mono (h : Justified there refs K q) (hK : K ⊆ K') :
    Justified there refs K' q := by
  induction q generalizing K K' with
  | nil => trivial
  | cons t q ih =>
    match t with
    | .visit a => exact ih h (Set.insert_subset_insert hK)
    | .send (some a) => exact ⟨h.1, h.2.1.trans hK, ih h.2.2 (Set.insert_subset_insert hK)⟩
    | .send none => exact ih h hK

theorem justified_append :
    Justified there refs K (p ++ q) ↔
      Justified there refs K p ∧ Justified there refs (K ∪ named p) q := by
  induction p generalizing K with
  | nil => simp [Justified]
  | cons t p ih =>
    match t with
    | .visit a => simp [Justified, ih, Set.insert_union, Set.union_insert]
    | .send (some a) => simp [Justified, ih, and_assoc, Set.insert_union, Set.union_insert]
    | .send none => simp [Justified, ih]

theorem justified_visits (l : List α) : Justified there refs K (l.map .visit) := by
  induction l generalizing K with
  | nil => trivial
  | cons a l ih => exact ih

theorem Justified.erase_visit (h : Justified there refs (insert a K) q)
    (ha : ∀ e, a ∈ refs e → a ∈ K) : Justified there refs K q := by
  induction q generalizing K with
  | nil => trivial
  | cons t q ih =>
    match t with
    | .visit b =>
      rw [Justified, Set.insert_comm] at h
      exact ih h fun e he => Set.mem_insert_of_mem b (ha e he)
    | .send (some b) =>
      obtain ⟨hthere, hb, h⟩ := h
      rw [Set.insert_comm] at h
      refine ⟨hthere, fun r hr => ?_, ih h fun e he => Set.mem_insert_of_mem b (ha e he)⟩
      obtain rfl | hr' := hb hr
      · exact ha b hr
      · exact hr'
    | .send none => exact ih h ha

theorem justified_of_before [DecidableEq α] {l : List α}
    (hthere : ∀ a ∈ l, a ∈ there) (h : ∀ a ∈ l, ∀ r ∈ refs a, r ∈ K ∨ r ∈ l.takeWhile (· ≠ a)) :
    Justified there refs K (l.map fun a => .send (some a)) := by
  induction l generalizing K with
  | nil => trivial
  | cons b l ih =>
    refine ⟨hthere b mem_cons_self, fun r hr => ?_,
      ih (fun a ha => hthere a (mem_cons_of_mem b ha)) fun a ha r hr => ?_⟩
    · obtain hK | hl := h b mem_cons_self r hr
      · exact hK
      · simp at hl
    · obtain hK | hl := h a (mem_cons_of_mem b ha) r hr
      · exact .inl (Set.mem_insert_of_mem b hK)
      · by_cases hb : b = a
        · simp [hb] at hl
        · rw [takeWhile_cons_of_pos (by simpa using hb)] at hl
          obtain rfl | hl := mem_cons.mp hl
          · exact .inl (Set.mem_insert r K)
          · exact .inr hl

/-! ## The machine -/

structure Producers (α : Type*) where
  /-- How many ends have still to be read. -/
  running : ℕ
  workers : List (List (Todo α))
  queue : List (Option α)

namespace Producers

def start (as : List α) : Producers α where
  running := as.length
  workers := as.map fun a => [.visit a, .send none]
  queue := []

/-- A producer goes on. Below a thing that is there are others, taken in any order. -/
def work [DecidableEq α] (below : α → Option (List α)) (s : Producers α) (i : ℕ)
    (order : List α) : Option (Producers α) :=
  match s.workers[i]? with
  | some (.visit a :: rest) =>
    match below a with
    | none => some { s with workers := s.workers.set i rest }
    | some cs =>
      if order.isPerm cs then
        some { s with workers := s.workers.set i (order.map .visit ++ .send (some a) :: rest) }
      else none
  | some (.send r :: rest) =>
    some { s with workers := s.workers.set i rest, queue := s.queue ++ [r] }
  | _ => none

/-- The end is reported last, and once. -/
def Ends (w : List (Todo α)) : Prop := ∃ v, .send none ∉ v ∧ w = v ++ [.send none]

variable {w : List (Todo α)} {l₁ l₂ : List (List (Todo α))}

theorem Ends.ne_nil (h : Ends w) : w ≠ [] := by
  obtain ⟨v, -, rfl⟩ := h
  simp

theorem Ends.tail {t : Todo α} (h : Ends (t :: w)) :
    (w = [] ∧ t = .send none) ∨ (Ends w ∧ t ≠ .send none) := by
  obtain ⟨_ | ⟨t', v⟩, hv, heq⟩ := h
  · obtain ⟨rfl, rfl⟩ := cons.inj heq
    exact .inl ⟨rfl, rfl⟩
  · obtain ⟨rfl, rfl⟩ := cons.inj heq
    exact .inr ⟨⟨v, fun h => hv (mem_cons_of_mem _ h), rfl⟩,
      fun h => hv (h ▸ mem_cons_self)⟩

/-- A schedule that is possible with what is known, for the things asked for. -/
structure Flow (there : Set α) (refs : α → Set α) (asked K : Set α) (s : Producers α) : Prop where
  justified : ∀ w ∈ [] :: s.workers, Justified there refs K (s.queue.map .send ++ w)
  ends : ∀ w ∈ s.workers, w = [] ∨ Ends w
  last : s.queue = [] ∨ s.queue.getLast? = some none ∨ ∃ w ∈ s.workers, w ≠ []
  running : s.running = s.queue.countP Option.isNone + s.workers.countP fun w => !w.isEmpty
  asked : asked ⊆ K ∪ {a | some a ∈ s.queue} ∪ {a | ∃ w ∈ s.workers, a ∈ named w}

variable {asked : Set α} {s s' : Producers α} {below : α → Option (List α)} {i : ℕ}
  {order : List α} {r : Option α} {queue : List (Option α)}

theorem start_flow (as : List α) (h : asked ⊆ K ∪ {a | a ∈ as}) :
    Flow there refs asked K (start as) where
  justified := by
    rintro w (_ | ⟨_, hw⟩)
    · trivial
    · obtain ⟨a, -, rfl⟩ := mem_map.mp hw
      trivial
  ends := by
    rintro w hw
    obtain ⟨a, -, rfl⟩ := mem_map.mp hw
    exact .inr ⟨[.visit a], by simp, rfl⟩
  last := .inl rfl
  running := by simp [start, countP_map, Function.comp_def]
  asked := by
    intro a ha
    obtain hK | has := h ha
    · exact .inl (.inl hK)
    · exact .inr ⟨_, mem_map_of_mem has, by simp⟩

theorem Flow.mono (h : Flow there refs asked K s) (hK : K ⊆ K') : Flow there refs asked K' s where
  justified w hw := (h.justified w hw).mono hK
  ends := h.ends
  last := h.last
  running := h.running
  asked := h.asked.trans (Set.union_subset_union_left _ (Set.union_subset_union_left _ hK))

theorem set_eq_append {l : List α} {x : α} (h : l[i]? = some x) :
    ∃ l₁ l₂, l = l₁ ++ x :: l₂ ∧ ∀ y, l.set i y = l₁ ++ y :: l₂ := by
  obtain ⟨hi, rfl⟩ := List.getElem?_eq_some_iff.mp h
  refine ⟨l.take i, l.drop (i + 1), ?_, fun y => ?_⟩
  · rw [getElem_cons_drop, take_append_drop]
  · exact set_eq_take_append_cons_drop.trans (if_pos hi)

/-- A producer replaces its next action by others that name what it names, and hands on the first
ones. -/
theorem Flow.replace {w' : List (Todo α)} (sent : List (Option α))
    (hs : s.workers = l₁ ++ w :: l₂) (h : Flow there refs asked K s)
    (hjust : Justified there refs K (s.queue.map .send ++ (sent.map .send ++ w'))) (hw : w ≠ [])
    (hend : (w' = [] ∧ sent = [none]) ∨ (Ends w' ∧ none ∉ sent))
    (hnamed : asked ∩ named w ⊆ K ∪ named (sent.map .send ++ w')) :
    Flow there refs asked K { s with workers := l₁ ++ w' :: l₂, queue := s.queue ++ sent } where
  justified v hv := by
    rw [map_append, append_assoc]
    obtain ⟨hqueue, hr⟩ := justified_append.mp hjust
    -- the others come after what is handed on now, which names more
    have hother : Justified there refs K (s.queue.map .send ++ v) →
        Justified there refs K (s.queue.map .send ++ (sent.map .send ++ v)) := fun hv =>
      justified_append.mpr ⟨hqueue, justified_append.mpr ⟨(justified_append.mp hr).1,
        (justified_append.mp hv).2.mono Set.subset_union_left⟩⟩
    have := h.justified
    simp only [hs, mem_cons, mem_append] at this hv
    obtain rfl | hv | rfl | hv := hv
    · exact hother (this _ (.inl rfl))
    · exact hother (this _ (.inr (.inl hv)))
    · exact hjust
    · exact hother (this _ (.inr (.inr (.inr hv))))
  ends v hv := by
    have := h.ends
    simp only [hs, mem_cons, mem_append] at this hv
    obtain hv | rfl | hv := hv
    · exact this _ (.inl hv)
    · exact hend.imp And.left And.left
    · exact this _ (.inr (.inr hv))
  last := by
    obtain ⟨-, rfl⟩ | ⟨hend, -⟩ := hend
    · exact .inr (.inl (by simp))
    · exact .inr (.inr ⟨w', by simp, hend.ne_nil⟩)
  running := by
    have := h.running
    simp only [hs, countP_append, countP_cons] at this ⊢
    obtain ⟨rfl, rfl⟩ | ⟨hend, hsent⟩ := hend
    · simp [hw] at this ⊢
      omega
    · have hnone : sent.countP Option.isNone = 0 :=
        countP_eq_zero.mpr fun r hr hn => hsent (Option.isNone_iff_eq_none.mp hn ▸ hr)
      simpa [List.isEmpty_iff, hw, hend.ne_nil, hnone] using this
  asked a ha := by
    have := h.asked ha
    simp only [hs, mem_cons, mem_append, Set.mem_union, Set.mem_ofPred_eq] at this ⊢
    obtain (hK | hq) | ⟨v, hv | rfl | hv, hav⟩ := this
    · exact .inl (.inl hK)
    · exact .inl (.inr (.inl hq))
    · exact .inr ⟨v, .inl hv, hav⟩
    · rw [named_append] at hnamed
      obtain hK | hsent | hw := hnamed ⟨ha, hav⟩
      · exact .inl (.inl hK)
      · exact .inl (.inr (.inr (by simpa [named] using hsent)))
      · exact .inr ⟨w', .inr (.inl rfl), hw⟩
    · exact .inr ⟨v, .inr (.inr hv), hav⟩

/-- Walking down keeps the schedule possible when references are known or below. -/
theorem Flow.work [DecidableEq α] (h : Flow there refs asked K s)
    (hwork : s.work below i order = some s')
    (hsome : ∀ a cs, below a = some cs → a ∈ there ∧ ∀ r ∈ refs a, r ∈ K ∨ r ∈ cs)
    (hnone : ∀ a, below a = none → (∀ e, a ∈ refs e → a ∈ K) ∧ (a ∈ asked → a ∈ K)) :
    Flow there refs asked K s' := by
  unfold Producers.work at hwork
  split at hwork
  · next a rest hi =>
    obtain ⟨l₁, l₂, hs, hset⟩ := set_eq_append hi
    have hown := h.justified (.visit a :: rest) (by simp [hs])
    obtain ⟨hqueue, hrest⟩ := justified_append.mp hown
    have hends : Ends rest := by
      obtain hnil | hend := h.ends (.visit a :: rest) (by simp [hs])
      · cases hnil
      · obtain ⟨-, hvisit⟩ | ⟨hend, -⟩ := hend.tail
        · cases hvisit
        · exact hend
    split at hwork
    · next habsent =>
      obtain ⟨hrefs, hasked⟩ := hnone a habsent
      obtain rfl := Option.some.inj hwork
      rw [hset]
      refine append_nil s.queue ▸ h.replace [] hs ?_ (cons_ne_nil _ _) (.inr ⟨hends, nofun⟩) ?_
      · exact justified_append.mpr ⟨hqueue, hrest.erase_visit fun e he => .inl (hrefs e he)⟩
      · rintro b ⟨hb, hnamed⟩
        rw [named_visit] at hnamed
        obtain rfl | hnamed := hnamed
        · exact .inl (hasked hb)
        · exact .inr hnamed
    · next cs hcs =>
      obtain ⟨hperm, hsome'⟩ := Option.ite_none_right_eq_some.mp hwork
      obtain rfl := Option.some.inj hsome'
      have hperm := isPerm_iff.mp hperm
      rw [hset]
      refine append_nil s.queue ▸ h.replace [] hs ?_ (cons_ne_nil _ _) (.inr ⟨?_, nofun⟩) ?_
      · -- the thing is handed on after what is below it
        rw [map_nil, nil_append]
        refine justified_append.mpr ⟨hqueue, justified_append.mpr
          ⟨justified_visits _, (hsome a cs hcs).1, fun r hr => ?_,
            Justified.mono (K := insert a _) hrest ?_⟩⟩
        · rw [named_visits]
          obtain hK | hbelow := (hsome a cs hcs).2 r hr
          · exact .inl (.inl hK)
          · exact .inr (hperm.mem_iff.mpr hbelow)
        · exact Set.insert_subset_insert Set.subset_union_left
      · obtain ⟨v, hv, rfl⟩ := hends
        exact ⟨order.map .visit ++ .send (some a) :: v, by simp [hv], by simp⟩
      · rintro b ⟨-, hnamed⟩
        rw [named_visit] at hnamed
        rw [map_nil, nil_append, named_append, named_send_some]
        exact .inr (.inr hnamed)
  · next r rest hi =>
    obtain ⟨l₁, l₂, hs, hset⟩ := set_eq_append hi
    obtain rfl := Option.some.inj hwork
    rw [hset]
    refine h.replace [r] hs (h.justified _ (by simp [hs])) (cons_ne_nil _ _) ?_ fun _ ha => .inr ha.2
    obtain hnil | hend := h.ends (.send r :: rest) (by simp [hs])
    · cases hnil
    · simpa [eq_comm] using hend.tail
  · cases hwork

theorem Flow.receive (hs : s.queue = r :: queue) (h : Flow there refs asked K s) :
    match r with
    | some a =>
      a ∈ there ∧ refs a ⊆ K ∧ Flow there refs asked (insert a K) { s with queue := queue }
    | none => Flow there refs asked K { s with running := s.running - 1, queue := queue } := by
  have hlast : queue = [] ∨ queue.getLast? = some none ∨ ∃ w ∈ s.workers, w ≠ [] := by
    rcases queue with _ | ⟨r', queue⟩
    · exact .inl rfl
    · obtain hnil | hlast | hw := h.last
      · rw [hs] at hnil
        cases hnil
      · rw [hs] at hlast
        exact .inr (.inl (by simpa using hlast))
      · exact .inr (.inr hw)
  have hjust : ∀ w ∈ [] :: s.workers,
      Justified there refs K (.send r :: (queue.map .send ++ w)) := by
    intro w hw
    have := h.justified w hw
    rwa [hs] at this
  have hrun := h.running
  have hasked := h.asked
  rw [hs] at hrun hasked
  cases r with
  | none =>
    refine ⟨hjust, h.ends, hlast, ?_, ?_⟩
    · simp only [countP_cons, Option.isNone_none, if_true] at hrun
      dsimp only
      omega
    · simpa using hasked
  | some a =>
    obtain ⟨hthere, hrefs, -⟩ := hjust [] mem_cons_self
    refine ⟨hthere, hrefs, fun w hw => (hjust w hw).2.2, h.ends, hlast, ?_, ?_⟩
    · simpa using hrun
    · intro b hb
      obtain (hK | hq) | hw := hasked hb
      · exact .inl (.inl (Set.mem_insert_of_mem a hK))
      · obtain hba | hq := mem_cons.mp hq
        · exact .inl (.inl (.inl (Option.some.inj hba)))
        · exact .inl (.inr hq)
      · exact .inr hw

theorem Flow.done (h : Flow there refs asked K s) (hrun : s.running = 0) : asked ⊆ K := by
  have hcount := h.running
  rw [hrun, eq_comm, Nat.add_eq_zero_iff, countP_eq_zero, countP_eq_zero] at hcount
  obtain ⟨hqueue, hworkers⟩ := hcount
  have hnil : ∀ w ∈ s.workers, w = [] := fun w hw => by simpa using hworkers w hw
  have hempty : s.queue = [] := by
    obtain hnil' | hlast | ⟨w, hw, hne⟩ := h.last
    · exact hnil'
    · exact absurd rfl (hqueue none (mem_of_getLast? hlast))
    · exact absurd (hnil w hw) hne
  intro a ha
  obtain (hK | hq) | ⟨w, hw, haw⟩ := h.asked ha
  · exact hK
  · rw [hempty] at hq
    cases hq
  · rw [hnil w hw, named_nil] at haw
    cases haw

end Producers

end Kaia.Foundation
