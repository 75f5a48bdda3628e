import Kaia.Core.Handlers
import Kaia.Foundation.HeapOrder

/-! # Processing the backlog

The backlog of a sender is taken apart up to the first message that is still in the future. By
their priorities these come after all others, so nothing that can be handled stays behind.
-/

namespace Kaia

open Foundation List

/-- A message whose code and view fit into its priority. -/
structure Message.Storable (m : Message) : Prop where
  code : m.code ≠ .other
  fits : ∀ view, m.view? = some view → view.round ≤ 99 ∧ view.sequence * 1000 + 999 < 2 ^ 63

namespace Core

variable (c : Core)

/-- Backlogs that are stored message by message, and processed in between, in any states of the
core. -/
inductive Stored : List (Address × Prque Message) → Prop
  | empty : Stored []
  | store (c : Core) (msg : Message) :
      Stored c.backlogs → msg.Storable → Stored (c.storeBacklog msg).backlogs
  | process (c : Core) : Stored c.backlogs → Stored c.processBacklog.backlogs

def isReady (m : Message) : Bool :=
  match m.view? with
  | some view => c.checkMessage m.code view = none
  | none => false

def isFuture (m : Message) : Bool :=
  match m.view? with
  | some view => c.checkMessage m.code view = some .futureMessage
  | none => false

def isOld (m : Message) : Bool :=
  match m.view? with
  | some view => c.checkMessage m.code view = some .oldMessage
  | none => false

variable {code code' : MsgCode} {view view' : View} {q : Prque Message}

theorem msgPriority_le (code : MsgCode) : msgPriority code ≤ 3 := by cases code <;> decide

theorem toPriority_eq (hround : view.round ≤ 99) (hseq : view.sequence * 1000 + 999 < 2 ^ 63) :
    toPriority code view = if code = .roundChange then -(view.sequence * 1000 : ℤ)
      else -(view.sequence * 1000 + view.round * 10 + msgPriority code : ℤ) := by
  have hseq64 : uint64 view.sequence = view.sequence := by unfold uint64; omega
  have hround64 : uint64 view.round = view.round := by unfold uint64; omega
  have hint : ∀ n : ℕ, n < 2 ^ 63 → int64 (-int64 (n : ℤ)) = -(n : ℤ) := by
    intro n hn
    unfold int64
    rw [Int.bmod_def, Int.bmod_def]
    omega
  have hpriority := msgPriority_le code
  have hrc := hint (view.sequence * 1000) (lt_of_le_of_lt (Nat.le_add_right _ 999) hseq)
  have hother := hint (view.sequence * 1000 + view.round * 10 + msgPriority code)
    (lt_of_le_of_lt (by omega) hseq)
  push_cast at hrc hother
  unfold toPriority
  rw [hseq64, hround64]
  split
  · exact hrc
  · next hcode => rw [if_neg (by simpa using hcode), hother]

theorem cmp_eq_gt_iff : view.cmp view' = .gt ↔
    view'.sequence < view.sequence ∨ view'.sequence = view.sequence ∧ view'.round < view.round := by
  rw [View.cmp, Ordering.then_eq_gt, Nat.compare_eq_gt, Nat.compare_eq_gt, Nat.compare_eq_eq,
    eq_comm (a := view.sequence)]

theorem checkMessage_eq_future_iff : c.checkMessage code view = some .futureMessage ↔
    c.current.sequence < view.sequence ∨ code ≠ .roundChange ∧ c.current.sequence = view.sequence ∧
      (c.current.round < view.round ∨ c.current.round = view.round ∧
        (c.waitingForRoundChange = true ∨ c.state = .acceptRequest ∧ code ≠ .preprepare)) := by
  have hgt : view.cmp c.currentView = .gt ↔ c.current.sequence < view.sequence ∨
      c.current.sequence = view.sequence ∧ c.current.round < view.round := cmp_eq_gt_iff
  have hlt : view.cmp c.currentView = .lt ↔ view.sequence < c.current.sequence ∨
      view.sequence = c.current.sequence ∧ view.round < c.current.round := View.cmp_eq_lt
  unfold checkMessage
  split
  · next hcode =>
    split
    · next hseq => exact iff_of_true rfl (.inl hseq)
    · next hseq =>
      refine iff_of_false ?_ ?_
      · split <;> simp
      · rintro (h | ⟨h, -⟩)
        · exact hseq h
        · exact h hcode
  · next hcode =>
    split
    · next h =>
      rw [hgt] at h
      refine iff_of_true rfl ?_
      rcases h with h | ⟨h, hround⟩
      · exact .inl h
      · exact .inr ⟨hcode, h, .inl hround⟩
    · next hngt =>
      rw [hgt, not_or] at hngt
      split
      · next h =>
        rw [hlt] at h
        refine iff_of_false (by simp) ?_
        omega
      · next hnlt =>
        -- the view is the current one
        rw [hlt, not_or] at hnlt
        have hseq : c.current.sequence = view.sequence := by omega
        have hround : c.current.round = view.round := by omega
        split
        · next hwait => exact iff_of_true rfl (.inr ⟨hcode, hseq, .inr ⟨hround, .inl hwait⟩⟩)
        · next hwait =>
          split
          · next hstate =>
            split
            · next hpre =>
              exact iff_of_true rfl (.inr ⟨hcode, hseq, .inr ⟨hround, .inr ⟨hstate, hpre⟩⟩⟩)
            · next hpre =>
              refine iff_of_false (by simp) ?_
              rintro (h | ⟨-, -, h | ⟨-, h | ⟨-, h⟩⟩⟩)
              · omega
              · omega
              · exact hwait h
              · exact hpre h
          · next hstate =>
            refine iff_of_false (by simp) ?_
            rintro (h | ⟨-, -, h | ⟨-, h | ⟨h, -⟩⟩⟩)
            · omega
            · omega
            · exact hwait h
            · exact hstate h

theorem msgPriority_spec (hcode : code ≠ .other) (hrc : code ≠ .roundChange) :
    1 ≤ msgPriority code ∧ (code ≠ .preprepare ↔ 2 ≤ msgPriority code) := by
  cases code <;> simp_all [msgPriority]

theorem checkMessage_future_of_le (hcode : code ≠ .other) (hcode' : code' ≠ .other)
    (hround : view.round ≤ 99) (hseq : view.sequence * 1000 + 999 < 2 ^ 63)
    (hround' : view'.round ≤ 99) (hseq' : view'.sequence * 1000 + 999 < 2 ^ 63)
    (hle : toPriority code' view' ≤ toPriority code view)
    (h : c.checkMessage code view = some .futureMessage) :
    c.checkMessage code' view' = some .futureMessage := by
  rw [toPriority_eq hround hseq, toPriority_eq hround' hseq'] at hle
  rw [checkMessage_eq_future_iff] at h ⊢
  have hmax' := msgPriority_le code'
  rcases h with h | ⟨hrc, hcs, h⟩
  · -- sequences come in their order
    left
    split at hle <;> split at hle <;> omega
  · obtain ⟨hpos, hpre⟩ := msgPriority_spec hcode hrc
    rw [if_neg hrc] at hle
    by_cases hrc' : code' = .roundChange
    · rw [if_pos hrc'] at hle
      left
      omega
    · obtain ⟨hpos', hpre'⟩ := msgPriority_spec hcode' hrc'
      by_cases hseqs : view.sequence = view'.sequence
      · -- in a sequence, rounds come in their order, and in a round the PREPREPARE comes first
        refine .inr ⟨hrc', hcs.trans hseqs, ?_⟩
        rcases h with h | ⟨hcr, h⟩
        · left
          omega
        · by_cases hrounds : view.round = view'.round
          · refine .inr ⟨hcr.trans hrounds, h.imp_right fun ⟨hstate, hcode⟩ => ⟨hstate, ?_⟩⟩
            rw [hpre']
            rw [hpre] at hcode
            omega
          · left
            omega
      · left
        omega

/-- A message with the priority of its view. -/
structure Entry (e : Message × ℤ) : Prop where
  code : e.1.code ≠ .other
  view : ∃ view, e.1.view? = some view ∧ view.round ≤ 99 ∧ view.sequence * 1000 + 999 < 2 ^ 63 ∧
    e.2 = toPriority e.1.code view

/-- The messages of a queue have their priorities, and the first one goes first. -/
structure Queue (q : Prque Message) : Prop where
  entries : ∀ e ∈ q, Entry e
  ordered : Heap.Ordered Prod.snd q q.length

variable {c} {rest : Prque Message} {e e' : Message × ℤ} {m : Message} {prio : ℤ}
  {msgs : List Message}

theorem Entry.bounds (h : Entry e) : -2 ^ 63 < e.2 ∧ e.2 ≤ 0 := by
  obtain ⟨view, -, hround, hseq, hprio⟩ := h.view
  have hmax := msgPriority_le e.1.code
  rw [hprio, toPriority_eq hround hseq]
  have hseq' : (view.sequence * 1000 + 999 : ℤ) < 2 ^ 63 := by exact_mod_cast hseq
  generalize (2 : ℤ) ^ 63 = bound at hseq' ⊢
  split <;> omega

theorem agrees_of_entries (h : ∀ e ∈ q, Entry e) : Heap.Agrees prqueLess Prod.snd q := by
  intro a ha b hb
  obtain ⟨hal, hau⟩ := (h a ha).bounds
  obtain ⟨hbl, hbu⟩ := (h b hb).bounds
  have hint : int64 (a.2 - b.2) = a.2 - b.2 := by
    unfold int64
    rw [Int.bmod_def]
    omega
  rw [prqueLess, hint, decide_eq_true_eq, sub_pos]

theorem Queue.push (h : Queue q) (he : Entry (m, prio)) : Queue (q.push m prio) := by
  have hentries : ∀ e ∈ q.push m prio, Entry e := by
    intro e hmem
    rcases Heap.mem_push.mp hmem with rfl | hmem
    · exact he
    · exact h.entries e hmem
  have hlength : (q.push m prio).length = q.length + 1 := (Heap.push_perm q (m, prio)).length_eq
  refine ⟨hentries, ?_⟩
  rw [hlength]
  refine Heap.push_ordered (agrees_of_entries ?_) h.ordered
  simpa [or_imp, forall_and] using And.intro h.entries he

theorem Queue.pop (h : Queue q) (hpop : q.pop = some (e, rest)) :
    Entry e ∧ Queue rest ∧ ∀ e' ∈ rest, e'.2 ≤ e.2 := by
  have hperm := Heap.pop_perm hpop
  obtain ⟨hmax, hordered⟩ := Heap.pop_ordered (agrees_of_entries h.entries) h.ordered hpop
  have hentries : ∀ e' ∈ e :: rest, Entry e' := fun e' he' => h.entries e' (hperm.mem_iff.mp he')
  obtain ⟨he, hrest⟩ := forall_mem_cons.mp hentries
  exact ⟨he, ⟨hrest, hordered⟩, hmax⟩

theorem isFuture_of_le (he : Entry e) (he' : Entry e') (hle : e'.2 ≤ e.2)
    (h : c.isFuture e.1 = true) : c.isFuture e'.1 = true := by
  obtain ⟨view, hview, hround, hseq, hprio⟩ := he.view
  obtain ⟨view', hview', hround', hseq', hprio'⟩ := he'.view
  unfold isFuture at h ⊢
  rw [hview, decide_eq_true_eq] at h
  rw [hview', decide_eq_true_eq]
  rw [hprio, hprio'] at hle
  exact checkMessage_future_of_le c he.code he'.code hround hseq hround' hseq' hle h

theorem isReady_eq_false (h : c.isFuture m = true) : c.isReady m = false := by
  unfold isFuture at h
  unfold isReady
  split at h
  · rw [decide_eq_true_eq] at h
    simp [h]
  · cases h

theorem drainBacklog_spec (c : Core) (fuel : ℕ) (q : Prque Message) (msgs : List Message)
    (hq : Queue q) (hfuel : q.length ≤ fuel) :
    Queue (c.drainBacklog fuel q msgs).1 ∧
    ((c.drainBacklog fuel q msgs).1.map Prod.fst).Perm ((q.map Prod.fst).filter c.isFuture) ∧
    (c.drainBacklog fuel q msgs).2.Perm ((q.map Prod.fst).filter c.isReady ++ msgs) := by
  induction fuel generalizing q msgs with
  | zero =>
    obtain rfl : q = [] := length_eq_zero_iff.mp (Nat.le_zero.mp hfuel)
    exact ⟨hq, .refl _, .refl _⟩
  | succ fuel ih =>
    unfold drainBacklog
    split
    · next hpop =>
      obtain rfl := Heap.pop_eq_none_iff.mp hpop
      exact ⟨hq, .refl _, .refl _⟩
    · next m prio rest hpop =>
      have hperm : (m :: rest.map Prod.fst).Perm (q.map Prod.fst) := (Heap.pop_perm hpop).map Prod.fst
      obtain ⟨he, hrest, hmax⟩ := hq.pop hpop
      have hlength : rest.length ≤ fuel := by
        have := (Heap.pop_perm hpop).length_eq
        rw [length_cons] at this
        omega
      obtain ⟨view, hview, -⟩ := he.view
      have hfuture := hperm.filter c.isFuture
      have hready := hperm.filter c.isReady
      rw [hview]
      dsimp only
      split
      · next hcheck =>
        -- everything that is left is in the future
        have hm : c.isFuture m = true := by simp [isFuture, hview, hcheck]
        have hall : ∀ m' ∈ q.map Prod.fst, c.isFuture m' = true := by
          intro m' hm'
          rcases mem_cons.mp (hperm.mem_iff.mpr hm') with rfl | hm'
          · exact hm
          · obtain ⟨e', he', rfl⟩ := mem_map.mp hm'
            exact isFuture_of_le he (hrest.entries e' he') (hmax e' he') hm
        have hnone : ∀ m' ∈ q.map Prod.fst, ¬ c.isReady m' = true :=
          fun m' hm' => Bool.not_eq_true _ ▸ isReady_eq_false (hall m' hm')
        refine ⟨hrest.push he, ?_, ?_⟩
        · rw [filter_eq_self.mpr hall]
          exact ((Heap.push_perm rest (m, prio)).map Prod.fst).trans hperm
        · rw [filter_eq_nil_iff.mpr hnone]
          exact .refl _
      · next hne hcheck =>
        have hm : ¬ c.isFuture m = true := by
          simpa [isFuture, hview, hcheck] using hne
        have hm' : ¬ c.isReady m = true := by simp [isReady, hview, hcheck]
        rw [filter_cons_of_neg hm] at hfuture
        rw [filter_cons_of_neg hm'] at hready
        obtain ⟨hqueue, hleft, hposted⟩ := ih rest msgs hrest hlength
        exact ⟨hqueue, hleft.trans hfuture, hposted.trans (hready.append_right msgs)⟩
      · next hcheck =>
        have hm : ¬ c.isFuture m = true := by simp [isFuture, hview, hcheck]
        have hm' : c.isReady m = true := by simp [isReady, hview, hcheck]
        rw [filter_cons_of_neg hm] at hfuture
        rw [filter_cons_of_pos hm'] at hready
        obtain ⟨hqueue, hleft, hposted⟩ := ih rest (m :: msgs) hrest hlength
        refine ⟨hqueue, hleft.trans hfuture, ?_⟩
        exact hposted.trans (perm_middle.trans (hready.append_right msgs))

theorem storeBacklog_queues {msg : Message} (h : ∀ b ∈ c.backlogs, Queue b.2)
    (hmsg : msg.Storable) : ∀ b ∈ (c.storeBacklog msg).backlogs, Queue b.2 := by
  unfold storeBacklog
  dsimp only
  split
  · exact h
  · have hold : Queue ((c.backlogs.lookup msg.address).getD []) := by
      cases hlookup : c.backlogs.lookup msg.address with
      | none => exact ⟨nofun, nofun⟩
      | some q =>
        obtain ⟨l₁, l₂, heq, -⟩ := lookup_eq_some_iff.mp hlookup
        refine h (msg.address, q) ?_
        rw [heq]
        exact mem_append_right _ mem_cons_self
    refine forall_mem_cons.mpr ⟨?_, fun b hb => h b (mem_filter.mp hb).1⟩
    split
    · next view hview =>
      obtain ⟨hround, hseq⟩ := hmsg.fits view hview
      exact hold.push ⟨hmsg.code, view, hview, hround, hseq, rfl⟩
    · exact hold

theorem processBacklog_queues (h : ∀ b ∈ c.backlogs, Queue b.2) :
    ∀ b ∈ c.processBacklog.backlogs, Queue b.2 := by
  intro b hb
  simp only [processBacklog, map_map, mem_map, Function.comp_apply] at hb
  obtain ⟨b', hb', rfl⟩ := hb
  exact (drainBacklog_spec c _ b'.2 [] (h b' hb') le_rfl).1

theorem Stored.queues {backlogs : List (Address × Prque Message)} (h : Stored backlogs) :
    ∀ b ∈ backlogs, Queue b.2 := by
  induction h with
  | empty => exact nofun
  | store c msg _ hmsg ih => exact storeBacklog_queues ih hmsg
  | process c _ ih => exact processBacklog_queues ih

def queued (c : Core) : List Message := c.backlogs.flatMap fun b => b.2.map Prod.fst

/-- Future messages are kept, messages that can be handled are posted once, old ones dropped. -/
structure Processed (c c' : Core) : Prop where
  queues : List.Forall₂ (fun b b' => b'.1 = b.1 ∧
    (b'.2.map Prod.fst).Perm ((b.2.map Prod.fst).filter c.isFuture)) c.backlogs c'.backlogs
  posted : ∃ msgs, c'.posted = msgs ++ c.posted ∧ msgs.Perm (c.queued.filter c.isReady)
  none_ready : ∀ m ∈ c'.queued, c'.isReady m = false
  sorted : ∀ m ∈ c.queued, c.isFuture m = true ∨ c.isReady m = true ∨ c.isOld m = true

theorem checkMessage_cases (c : Core) (code : MsgCode) (view : View) :
    c.checkMessage code view = none ∨ c.checkMessage code view = some .futureMessage ∨
      c.checkMessage code view = some .oldMessage := by
  unfold checkMessage
  repeat' split
  all_goals simp

theorem processBacklog_complete (c : Core) (h : Stored c.backlogs) :
    Processed c c.processBacklog := by
  have hqueues := h.queues
  have hdrain : ∀ b ∈ c.backlogs, _ := fun b hb =>
    drainBacklog_spec c b.2.length b.2 [] (hqueues b hb) le_rfl
  have hbacklogs : c.processBacklog.backlogs =
      c.backlogs.map fun b => (b.1, (c.drainBacklog b.2.length b.2 []).1) := by
    simp only [processBacklog, map_map, Function.comp_def]
  have hkept : List.Forall₂ (fun b b' => b'.1 = b.1 ∧
      (b'.2.map Prod.fst).Perm ((b.2.map Prod.fst).filter c.isFuture)) c.backlogs
      c.processBacklog.backlogs := by
    rw [hbacklogs, forall₂_map_right_iff, forall₂_same]
    exact fun b hb => ⟨rfl, (hdrain b hb).2.1⟩
  refine ⟨hkept, ?_, ?_, ?_⟩
  · refine ⟨_, rfl, ?_⟩
    rw [queued, filter_flatMap, flatMap_map]
    refine List.Perm.flatMap_left _ fun b hb => ?_
    have hposted := (hdrain b hb).2.2
    rwa [append_nil] at hposted
  · intro m hm
    obtain ⟨b', hb', hm⟩ := mem_flatMap.mp hm
    rw [hbacklogs] at hb'
    obtain ⟨b, hb, rfl⟩ := mem_map.mp hb'
    have hfuture := (mem_filter.mp ((hdrain b hb).2.1.mem_iff.mp hm)).2
    exact isReady_eq_false hfuture
  · intro m hm
    obtain ⟨b, hb, hm⟩ := mem_flatMap.mp hm
    obtain ⟨e, he, rfl⟩ := mem_map.mp hm
    obtain ⟨view, hview, -⟩ := ((hqueues b hb).entries e he).view
    unfold isFuture isReady isOld
    rw [hview]
    simp only [decide_eq_true_eq]
    rcases c.checkMessage_cases e.1.code view with hnone | hfuture | hold
    · exact .inr (.inl hnone)
    · exact .inl hfuture
    · exact .inr (.inr hold)

def earlyPrepare : Message := ⟨0, .prepare, .subject ⟨⟨0, 1⟩, 1, 0⟩, 1, []⟩

def earlyCommit : Message := ⟨0, .commit, .subject ⟨⟨0, 2⟩, 2, 1⟩, 1, []⟩

def proposed : Core :=
  let c := Core.start (fun _ => .genesis (fullCommittee [1, 2, 3, 4])) .counting 3 true
  { (c.storeBacklog earlyCommit).storeBacklog earlyPrepare with state := .preprepared }

/-- The PREPARE is posted, and the COMMIT stays. -/
theorem proposed_processed : proposed.processBacklog.posted = [earlyPrepare] ∧
    proposed.processBacklog.queued = [earlyCommit] ∧
    Processed proposed proposed.processBacklog := by
  have hprepare : earlyPrepare.Storable := by
    refine ⟨by decide, ?_⟩
    rintro view ⟨⟩
    decide
  have hcommit : earlyCommit.Storable := by
    refine ⟨by decide, ?_⟩
    rintro view ⟨⟩
    decide
  have hempty : Stored (Core.start (fun _ => .genesis (fullCommittee [1, 2, 3, 4])) .counting 3
      true).backlogs := Stored.empty
  exact ⟨by decide +kernel, by decide +kernel,
    processBacklog_complete proposed (.store _ _ (.store _ _ hempty hcommit) hprepare)⟩

end Core

end Kaia
