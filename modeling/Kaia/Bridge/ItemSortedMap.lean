import Kaia.Foundation.SortedMap
import Kaia.Istanbul.Types

/-! # The sorted map of the bridge pool

It answers as a plain map from nonces to items, unless items are flattened from a slice that was
sorted before some of them were popped, or a negative number of them is asked for.
-/

namespace Kaia.Bridge

open Foundation List SortedMap

structure ItemSortedMap (α : Type) extends SortedMap α Nonce where
  sizeLimit : ℤ

/-- The operations; a loop over the map comes with its order. -/
inductive Op (α : Type)
  | get (nonce : Nonce)
  | exist (nonce : Nonce)
  | put (event : α)
  | pop (count : ℤ)
  | ready (start : Nonce)
  | filter (order : Visit α) (filter : α → Bool)
  | remove (nonce : Nonce)
  | forward (threshold : Nonce)
  | len
  | flatten (order : Visit α)
  | flattenByCount (order : Visit α) (count : ℤ)

/-- A failed `Put` names the nonce and the limit; an item that is not in the map is nil. -/
inductive Result (α : Type)
  | item (a : Option α)
  | found (b : Bool)
  | put (err : Option (Nonce × ℤ))
  | items (l : List (Option α))
  | len (n : ℕ)
  deriving DecidableEq

variable {α : Type} (nonce : α → Nonce)

namespace ItemSortedMap

def newItemSortedMap (size : ℤ) : ItemSortedMap α := ⟨⟨[], [], none⟩, size⟩

variable (m : ItemSortedMap α)

def put (event : α) : Option (Nonce × ℤ) × SortedMap α Nonce :=
  if m.sizeLimit ≠ -1 ∧ m.sizeLimit ≤ m.items.length ∧ (m.get nonce (nonce event)).isNone then
    (some (nonce event, m.sizeLimit), m.toSortedMap)
  else (none, m.toSortedMap.put nonce event)

def pop (count : ℤ) : List (Option α) × SortedMap α Nonce :=
  m.drain nonce (fun (popped : ℕ) _ => popped < count) (· + 1) m.index.length 0

def ready (start : Nonce) : List (Option α) × SortedMap α Nonce :=
  match m.index.head? with
  | none => ([], m.toSortedMap)
  | some first =>
    if start < first then ([], m.toSortedMap)
    else m.drain nonce (fun next n => n = next) Nonce.next m.index.length first

def forward (threshold : Nonce) : Except GoPanic (List (Option α)) × SortedMap α Nonce :=
  let (removed, m) := m.drain nonce (fun _ n => n < threshold) id m.index.length ()
  match m.shift removed.length with
  | none => (.error .sliceBounds, m)
  | some m => (.ok removed, m)

def firstItems (cache : List α) (count : ℤ) : Except GoPanic (List α) :=
  let txLen : ℤ := if count ≠ 0 ∧ count < cache.length then count else cache.length
  if txLen < 0 then .error .sliceBounds else .ok (cache.take txLen.toNat)

def flattenByCount (order : Visit α) (count : ℤ) : Except GoPanic (List α) × SortedMap α Nonce :=
  (m.flatten nonce order).map (firstItems · count) id

def step : Op α → Except GoPanic (Result α) × SortedMap α Nonce
  | .get n => (.ok (.item (m.get nonce n)), m.toSortedMap)
  | .exist n => (.ok (.found (m.get nonce n).isSome), m.toSortedMap)
  | .put event => (m.put nonce event).map (.ok ∘ .put) id
  | .pop count => (m.pop nonce count).map (.ok ∘ .items) id
  | .ready start => (m.ready nonce start).map (.ok ∘ .items) id
  | .filter order f => (m.filter nonce order f).map (.ok ∘ .items ∘ map some) id
  | .remove n => (m.remove nonce n).map (.ok ∘ .found) id
  | .forward threshold => (m.forward nonce threshold).map (Except.map .items) id
  | .len => (.ok (.len m.items.length), m.toSortedMap)
  | .flatten order => (m.flattenByCount nonce order 0).map (Except.map (.items ∘ map some)) id
  | .flattenByCount order count =>
    (m.flattenByCount nonce order count).map (Except.map (.items ∘ map some)) id

def results : ItemSortedMap α → List (Op α) → List (Except GoPanic (Result α))
  | _, [] => []
  | m, op :: ops => (m.step nonce op).1 :: results { m with toSortedMap := (m.step nonce op).2 } ops

end ItemSortedMap

/-! ## The plain map -/

def refused (size : ℤ) (l : List α) (event : α) : Bool :=
  size ≠ -1 ∧ size ≤ l.length ∧ (l.find? (nonce · = nonce event)).isNone

/-- What a plain map answers whose items are given in the order of their nonces. -/
def answer (size : ℤ) (l : List α) : Op α → Result α
  | .get n => .item (l.find? (nonce · = n))
  | .exist n | .remove n => .found (l.find? (nonce · = n)).isSome
  | .put event => .put (if refused nonce size l event then some (nonce event, size) else none)
  | .pop count => .items ((l.take count.toNat).map some)
  | .ready start => .items ((readied nonce Nonce.next start l).map some)
  | .filter order f => .items (((order.1 l).filter f).map some)
  | .forward threshold => .items ((l.filter (nonce · < threshold)).map some)
  | .len => .len l.length
  | .flatten _ => .items (l.map some)
  | .flattenByCount _ count => .items ((if count = 0 then l else l.take count.toNat).map some)

def after (size : ℤ) (l : List α) : Op α → List α
  | .put event => if refused nonce size l event then l
      else l.filter (nonce · < nonce event) ++ event :: l.filter (nonce event < nonce ·)
  | .pop count => l.drop count.toNat
  | .ready start => l.drop (readied nonce Nonce.next start l).length
  | .filter _ f => l.filter (!f ·)
  | .remove n => l.filter (nonce · ≠ n)
  | .forward threshold => l.filter (threshold ≤ nonce ·)
  | _ => l

def answers (size : ℤ) : List α → List (Op α) → List (Result α)
  | _, [] => []
  | l, op :: ops => answer nonce size l op :: answers size (after nonce size l op) ops

/-- How many items have been popped since the items were flattened, if they have been and nothing
else has changed them: every other change makes the next flattening sort them anew. -/
def popped (size : ℤ) (l : List α) (count : Option ℕ) (op : Op α) : Option ℕ :=
  match op with
  | .put event => if refused nonce size l event then count else none
  | .pop _ | .ready _ => count.map (· + (l.length - (after nonce size l op).length))
  | .filter _ f => if l.any f then none else count
  | .remove n => if (l.find? (nonce · = n)).isSome then none else count
  | .flatten _ | .flattenByCount _ _ => some (count.getD 0)
  | _ => count

/-- Items are flattened only if none has been popped, and their number is not negative. -/
def Fresh (count : Option ℕ) : Op α → Prop
  | .flatten _ => count.getD 0 = 0
  | .flattenByCount _ n => 0 ≤ n ∧ count.getD 0 = 0
  | _ => True

def AlwaysFresh (size : ℤ) : List α → Option ℕ → List (Op α) → Prop
  | _, _, [] => True
  | l, count, op :: ops => Fresh count op ∧
      AlwaysFresh size (after nonce size l op) (popped nonce size l count op) ops

variable {nonce} {m : ItemSortedMap α} {l c : List α}

theorem taken_pop (count : ℤ) (popped : ℕ) (l : List α) :
    taken nonce (fun (popped : ℕ) _ => popped < count) (· + 1) popped l =
      min (count.toNat - popped) l.length := by
  induction l generalizing popped with
  | nil => simp [taken]
  | cons a l ih =>
    simp only [taken, decide_eq_true_eq, ih, length_cons]
    split <;> omega

theorem take_eq_take_iff {n : ℕ} (hn : n ≠ 0) (hsuffix : l <:+ c)
    (hc : c.Pairwise (nonce · < nonce ·)) : c.take n = l.take n ↔ c = l := by
  refine ⟨fun h => ?_, fun h => by rw [h]⟩
  obtain ⟨popped, rfl⟩ := hsuffix
  cases popped with
  | nil => rfl
  | cons a popped =>
    -- the first item of the slice is below all that are left
    obtain ⟨k, rfl⟩ := Nat.exists_eq_succ_of_ne_zero hn
    rw [cons_append, take_succ_cons] at h
    have ha : a ∈ l.take (k + 1) := h ▸ mem_cons_self
    exact absurd ((pairwise_cons.mp hc).1 a (mem_append_right _ (mem_of_mem_take ha))) (lt_irrefl _)

theorem firstItems_eq (c : List α) (count : ℤ) : ItemSortedMap.firstItems c count =
    if count < 0 then .error .sliceBounds
    else .ok (if count = 0 then c else c.take count.toNat) := by
  unfold ItemSortedMap.firstItems
  rcases lt_trichotomy count 0 with hneg | rfl | hpos
  · have hcut : count ≠ 0 ∧ count < c.length := by omega
    simp only [if_pos hcut, if_pos hneg]
  · simp
  · by_cases hlt : count < c.length
    · simp [hlt, hpos.ne', not_lt.mpr hpos.le]
    · have hlen : c.length ≤ count.toNat := by omega
      simp [hlt, hpos.ne', not_lt.mpr hpos.le, take_of_length_le hlen]

/-- An operation keeps the invariant, and does and answers what it would on the plain map. -/
structure Refines (nonce : α → Nonce) (m : ItemSortedMap α) (op : Op α) : Prop where
  wf : (m.step nonce op).2.Wf nonce
  items : (m.step nonce op).2.items = after nonce m.sizeLimit m.items op
  behind : (m.step nonce op).2.behind = popped nonce m.sizeLimit m.items m.behind op
  answer : (m.step nonce op).1 = .ok (answer nonce m.sizeLimit m.items op) ↔ Fresh m.behind op

open ItemSortedMap

theorem Refines.of_step {op : Op α} {s : SortedMap α Nonce} (hwf : s.Wf nonce)
    (hitems : s.items = after nonce m.sizeLimit m.items op)
    (hbehind : s.behind = popped nonce m.sizeLimit m.items m.behind op) (hfresh : Fresh m.behind op)
    (hstep : m.step nonce op = (.ok (Bridge.answer nonce m.sizeLimit m.items op), s)) :
    Refines nonce m op := by
  constructor <;> rw [hstep]
  · exact hwf
  · exact hitems
  · exact hbehind
  · exact iff_of_true rfl hfresh

/-- The first items are taken out, which the slice keeps. -/
theorem Refines.of_drop {op : Op α} {k : ℕ} {index : List Nonce} (h : m.Wf nonce)
    (hwf : Wf nonce { m.toSortedMap with items := m.items.drop k, index })
    (hitems : m.items.drop k = after nonce m.sizeLimit m.items op)
    (hpopped : popped nonce m.sizeLimit m.items m.behind op =
      m.behind.map (· + (m.items.length - (after nonce m.sizeLimit m.items op).length)))
    (hfresh : Fresh m.behind op)
    (hstep : m.step nonce op = (.ok (Bridge.answer nonce m.sizeLimit m.items op),
      { m.toSortedMap with items := m.items.drop k, index })) : Refines nonce m op := by
  refine .of_step hwf hitems ?_ hfresh hstep
  rw [h.behind_drop, hpopped, hitems]

theorem refines_ready (h : m.Wf nonce) (start : Nonce) : Refines nonce m (.ready start) := by
  have hhead := h.head?_index
  have hnone (hready : readied nonce Nonce.next start m.items = [])
      (hcode : m.ready nonce start = ([], m.toSortedMap)) : Refines nonce m (.ready start) :=
    .of_drop (k := 0) h h (by simp [after, hready]) rfl trivial
      (by rw [step, hcode, answer, hready]; rfl)
  cases hitems : m.items with
  | nil =>
    rw [hitems] at hhead
    exact hnone (by simp [readied, hitems]) (by simp [ready, hhead])
  | cons a l =>
    rw [hitems] at hhead
    by_cases hstart : start < nonce a
    · exact hnone (by simp [readied, hitems, hstart]) (by simp [ready, hhead, hstart])
    · obtain ⟨hlen, htake⟩ := @taken_run α Nonce _ nonce Nonce.next a l
      have hready : readied nonce Nonce.next start m.items =
          SortedMap.run nonce Nonce.next m.items := by
        simp [readied, hitems, not_lt.mp hstart]
      obtain ⟨index, heq, hwf⟩ := h.drain (fun next n => n = next) Nonce.next (nonce a)
      rw [← hitems] at hlen htake
      rw [hlen] at heq hwf
      rw [← htake] at heq
      exact .of_drop h hwf (by rw [after, hready]) rfl trivial
        (by simp [step, ready, hhead, answer, hready, hstart, heq])

theorem refines_flatten (h : m.Wf nonce) (order : Visit α) (count : ℤ) :
    Refines nonce m (.flattenByCount order count) := by
  obtain ⟨hwf, hitems, hbehind, hfresh⟩ := h.flatten order
  obtain ⟨hsorted, hsuffix⟩ := hwf.cache _ (cache_flatten order)
  rw [hitems] at hsuffix
  refine ⟨hwf, hitems, hbehind, ?_⟩
  show (firstItems (m.flatten nonce order).1 count).map _ = _ ↔ 0 ≤ count ∧ _
  rw [← hfresh, firstItems_eq]
  rcases lt_trichotomy count 0 with hneg | rfl | hpos
  · simp [hneg, Except.map, not_le.mpr hneg]
  · simp [Except.map, answer, map_inj_right (Option.some_injective _)]
  · have hiff := take_eq_take_iff (n := count.toNat) (by omega) hsuffix hsorted
    simp [-map_take, Except.map, answer, map_inj_right (Option.some_injective _), hpos.ne', hpos.le,
      not_lt.mpr hpos.le, hiff]

theorem step_refines (h : m.Wf nonce) (op : Op α) : Refines nonce m op := by
  cases op with
  | get n | exist n => exact .of_step h rfl rfl trivial rfl
  | len => exact .of_step h rfl rfl trivial rfl
  | put event =>
    by_cases hput : refused nonce m.sizeLimit m.items event = true
    · have hcode : m.put nonce event = (some (nonce event, m.sizeLimit), m.toSortedMap) :=
        if_pos (of_decide_eq_true hput)
      exact .of_step h (if_pos hput).symm (if_pos hput).symm trivial
        (by rw [step, hcode, answer, if_pos hput]; rfl)
    · have hcode : m.put nonce event = (none, m.toSortedMap.put nonce event) :=
        if_neg fun hc => hput (decide_eq_true hc)
      exact .of_step (h.put event) (if_neg hput).symm (if_neg hput).symm trivial
        (by rw [step, hcode, answer, if_neg hput]; rfl)
  | pop count =>
    obtain ⟨index, heq, hwf⟩ := h.drain (fun (popped : ℕ) _ => popped < count) (· + 1) 0
    rw [taken_pop] at heq hwf
    exact .of_drop h hwf (by simp [after]) rfl trivial (by simp [step, pop, heq, answer])
  | ready start => exact refines_ready h start
  | filter order f =>
    refine .of_step (h.filter order f).1 (h.filter order f).2 ?_ trivial rfl
    have hnone : ((order.1 m.items).filter f).isEmpty = !m.items.any f := by
      rw [← (order.2 m.items).any_eq, Bool.eq_iff_iff, List.isEmpty_iff,
        filter_eq_nil_iff]
      simp
    simp only [SortedMap.filter, popped, hnone]
    cases m.items.any f <;> rfl
  | remove n =>
    obtain ⟨hwf, hitems, hfound⟩ := h.remove n
    refine .of_step hwf hitems ?_ trivial (Prod.ext (congrArg (Except.ok ∘ Result.found) hfound) rfl)
    show (SortedMap.remove nonce _ n).2.behind =
      if (m.get nonce n).isSome then none else m.behind
    unfold SortedMap.remove
    cases (m.get nonce n).isSome <;> rfl
  | forward threshold =>
    obtain ⟨index, heq, hwf⟩ := h.drain (fun _ n => n < threshold) id ()
    obtain ⟨cache, hshift, hwf, hbehind⟩ := h.shift hwf
    obtain ⟨htake, hdrop⟩ := taken_forward threshold h.sorted
    refine .of_step hwf hdrop hbehind trivial ?_
    simp only [step, forward, heq, length_map, length_take, hshift]
    rw [htake]
    rfl
  | flatten order =>
    obtain ⟨hwf, hitems, hbehind, hanswer⟩ := refines_flatten h order 0
    exact ⟨hwf, hitems, hbehind, hanswer.trans (and_iff_right le_rfl)⟩
  | flattenByCount order count => exact refines_flatten h order count

theorem results_eq_iff (h : m.Wf nonce) (ops : List (Op α)) :
    m.results nonce ops = (answers nonce m.sizeLimit m.items ops).map .ok ↔
      AlwaysFresh nonce m.sizeLimit m.items m.behind ops := by
  induction ops generalizing m with
  | nil => exact iff_of_true rfl trivial
  | cons op ops ih =>
    obtain ⟨hwf, hitems, hbehind, hanswer⟩ := step_refines h op
    rw [results, answers, map_cons, cons.injEq, hanswer, AlwaysFresh, ← hitems, ← hbehind]
    exact and_congr_right fun _ => ih hwf

/-- All results are those of the plain map if no items are flattened that were popped since they
were last sorted. -/
theorem sorted_map_answers_iff (nonce : α → Nonce) (size : ℤ) (ops : List (Op α)) :
    (newItemSortedMap size).results nonce ops = (answers nonce size [] ops).map .ok ↔
      AlwaysFresh nonce size [] none ops :=
  results_eq_iff (m := newItemSortedMap size) wf_empty ops

/-- The item with nonce `1` is flattened after it was popped. -/
theorem popped_item_flattened :
    let order : Visit Nonce := ⟨id, .refl⟩
    let ops : List (Op Nonce) := [.put 1, .put 2, .flatten order, .pop 1, .flatten order,
      .flattenByCount order (-1)]
    ((newItemSortedMap (-1)).results id ops).drop 4 =
      [.ok (.items [some 1, some 2]), .error .sliceBounds] ∧
    (answers id (-1) [] ops).drop 4 = [.items [some 2], .items []] := by
  decide +kernel

end Kaia.Bridge
