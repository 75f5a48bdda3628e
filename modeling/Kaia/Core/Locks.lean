import Kaia.Core.Moves

/-! # View and lock discipline

The view only grows. While the locked digest is not declared bad, a lock belongs to the proposal;
while the sequence lasts and no commit fails, it stays, and all that is sent carries it.
-/

namespace Kaia

open Foundation

/-- Lexicographic order of views, sequences first. -/
def View.Le (v w : View) : Prop :=
  v.sequence < w.sequence ∨ v.sequence = w.sequence ∧ v.round ≤ w.round

theorem View.Le.trans {u v w : View} (h : u.Le v) (h' : v.Le w) : u.Le w := by
  unfold View.Le at *
  omega

theorem View.le_iff_cmp {v w : View} : v.Le w ↔ w.cmp v ≠ .lt := by
  rw [ne_eq, View.cmp_eq_lt]
  unfold View.Le
  omega

/-- A lock belongs to the kept proposal. -/
def RoundState.LockMatches (s : RoundState) : Prop :=
  s.lockedHash ≠ 0 → ∃ p, s.proposal = some p ∧ p.hash = s.lockedHash

/-- The digest that a PREPARE or COMMIT of `sendPrepare` or `sendCommit` carries. -/
def Effect.voted : Effect → Option Subject
  | .broadcast .sendPrepare msg => msg.decodeSubject
  | .broadcast .sendCommit msg => msg.decodeSubject
  | _ => none

variable {bk : Backend} {env : ChainEnv} {ctx : Option Message} {c c' : Core}

theorem Move.clock_le (h : Move bk env ctx c c') : c.clock ≤ c'.clock := by
  cases h with
  | idle h => exact h.clock_le
  | newSequence | newRound | catchUp | commit => exact Nat.le_succ _
  | send | reseal | lock | setState => exact le_rfl

theorem Move.view_le (h : Move bk env ctx c c') : c.currentView.Le c'.currentView := by
  cases h with
  | idle h =>
    obtain ⟨request, hcur⟩ := h.current
    rw [Core.currentView, Core.currentView, hcur]
    exact .inr ⟨rfl, le_rfl⟩
  | newSequence lp _ hle => exact .inl (Nat.lt_succ_of_le hle)
  | newRound round _ hle => exact .inr ⟨rfl, hle⟩
  | catchUp round hlt => exact .inr ⟨rfl, hlt.le⟩
  | lock => exact .inr (by simp [Core.currentView, RoundState.lockHash_view])
  | commit =>
    refine .inr ?_
    split <;> exact ⟨rfl, le_rfl⟩
  | send | reseal | setState => exact .inr ⟨rfl, le_rfl⟩

theorem step_view_le {ev : Event} (h : c.step bk env ev = some c') :
    c.currentView.Le c'.currentView := by
  refine Core.step_induct (P := fun d => c.currentView.Le d.currentView) h
    (fun _ d _ hr => .inr ?_) fun d d' hm hd => hd.trans hm.view_le
  have hview : d.currentView = c.currentView := hr.frame.view
  rw [hview]
  exact ⟨rfl, le_rfl⟩

variable {L : Hash} {T : ℕ}

/-- Locked on a digest that belongs to the kept proposal. -/
def RoundState.LockedOn (s : RoundState) (L : Hash) : Prop :=
  s.lockedHash = L ∧ ∃ p, s.proposal = some p ∧ p.hash = L

theorem isHashLocked_of_not_bad (hL : L ≠ 0) (hc : c.current.lockedHash = L)
    (hbad : (bk c.clock).hasBadProposal L = false) : c.isHashLocked bk = true := by
  have hne : emptyHash L = false := by simpa [emptyHash] using hL
  simp [Core.isHashLocked, hc, hne, hbad]

theorem Receive.lockedOn (hL : L ≠ 0) (h : Receive bk env ctx c c')
    (hbad : c.clock + 1 < c'.clock → (bk (c.clock + 1)).hasBadProposal L = false)
    (hc : c.current.LockedOn L) : c'.current.LockedOn L := by
  obtain ⟨hlock, p, hp, hpL⟩ := hc
  have hsame := h.frame.lockedHash
  rcases h.frame.preprepare with hkept | ⟨pp, hpp, hclock, hnew⟩
  · exact ⟨hsame.trans hlock, p, by rw [RoundState.proposal, hkept]; exact hp, hpL⟩
  · refine ⟨hsame.trans hlock, pp.proposal, by rw [RoundState.proposal, hpp]; rfl, ?_⟩
    rcases hnew with hhash | hunlocked
    · exact hhash.trans hlock
    · have hlocked : c.tick.isHashLocked bk = true :=
        isHashLocked_of_not_bad hL hlock (hbad (by omega))
      rw [hlocked] at hunlocked
      cases hunlocked

theorem nextRound_lockMatches {s : RoundState} (hL : L ≠ 0) (round : ℕ) (locked : Bool)
    (hs : s.lockedHash = L → s.LockedOn L) (h : (s.nextRound round locked).lockedHash = L) :
    (s.nextRound round locked).LockedOn L := by
  cases locked with
  | true => exact hs h
  | false => exact absurd h.symm hL

theorem resealPreprepare_lockedOn (hc : c.current.LockedOn L) :
    c.resealPreprepare.current.LockedOn L := by
  obtain ⟨hlock, p, hp, hpL⟩ := hc
  obtain ⟨kept, hkept, rfl⟩ := Option.map_eq_some_iff.mp hp
  exact ⟨hlock, kept.proposal.withRound c.current.round,
    by simp [Core.resealPreprepare, RoundState.proposal, hkept], hpL⟩

theorem Move.lockMatches (hL : L ≠ 0) (h : Move bk env ctx c c')
    (hc : c.current.lockedHash = L → c.current.LockedOn L) :
    c'.current.lockedHash = L → c'.current.LockedOn L := by
  intro hlock
  cases h with
  | idle h =>
    obtain ⟨request, hcur⟩ := h.current
    rw [hcur] at hlock ⊢
    exact hc hlock
  | newSequence => exact absurd hlock.symm hL
  | newRound round | catchUp round => exact nextRound_lockMatches hL round _ hc hlock
  | reseal => exact resealPreprepare_lockedOn (hc hlock)
  | lock =>
    refine ⟨hlock, ?_⟩
    rw [Core.sameRound_lockHash.proposal]
    cases hp : c.current.proposal with
    | none =>
      simp only [RoundState.lockHash, hp] at hlock
      obtain ⟨_, p, hp', _⟩ := hc hlock
      rw [hp] at hp'
      cases hp'
    | some p => exact ⟨p, rfl, by simpa [RoundState.lockHash, hp] using hlock⟩
  | commit =>
    split at hlock
    · rename_i hins
      rw [if_pos hins]
      exact hc hlock
    · exact absurd hlock.symm hL
  | send | setState => exact hc hlock

theorem View.Le.sequence_le {v w : View} (h : v.Le w) : v.sequence ≤ w.sequence := by
  unfold View.Le at h
  omega

theorem Move.lockedOn {σ : ℕ} (hL : L ≠ 0) (h : Move bk env ctx c c')
    (hbad : c.clock < c'.clock → (bk c.clock).hasBadProposal L = false)
    (hcommit : c.clock < c'.clock → ∀ p seals, (bk c.clock).commit p seals = true)
    (hc : σ < c.current.sequence ∨ c.current.sequence = σ ∧ c.current.LockedOn L) :
    σ < c'.current.sequence ∨ c'.current.sequence = σ ∧ c'.current.LockedOn L := by
  rcases hc with hlater | ⟨hseq, hlock, p, hp, hpL⟩
  · exact .inl (Nat.lt_of_lt_of_le hlater h.view_le.sequence_le)
  have hlocked : c.clock < c'.clock → c.isHashLocked bk = true := fun hlt =>
    isHashLocked_of_not_bad hL hlock (hbad hlt)
  cases h with
  | idle h =>
    obtain ⟨request, hcur⟩ := h.current
    rw [hcur]
    exact .inr ⟨hseq, hlock, p, hp, hpL⟩
  | newSequence lp _ hle => exact .inl (hseq ▸ Nat.lt_succ_of_le hle)
  | newRound round =>
    simp only [hlocked (Nat.lt_succ_self _), RoundState.nextRound, if_true]
    exact .inr ⟨hseq, hlock, p, hp, hpL⟩
  | catchUp round =>
    simp only [Core.catchUpRound, hlocked (Nat.lt_succ_self _), RoundState.nextRound, if_true]
    exact .inr ⟨hseq, hlock, p, hp, hpL⟩
  | reseal => exact .inr ⟨hseq, resealPreprepare_lockedOn ⟨hlock, p, hp, hpL⟩⟩
  | lock =>
    rw [Core.lockHash_of_proposal hp]
    exact .inr ⟨hseq, hpL, p, hp, hpL⟩
  | commit q =>
    rw [if_pos (hcommit (Nat.lt_succ_self _) _ _)]
    exact .inr ⟨hseq, hlock, p, hp, hpL⟩
  | send | setState => exact .inr ⟨hseq, hlock, p, hp, hpL⟩

theorem Core.Logs.voted {e : Effect} (h : c.Logs e) {sub : Subject} (hsub : e.voted = some sub) :
    c.current.subject = some sub := by
  cases h with
  | send origin msg hsend =>
    obtain ⟨_, hsend⟩ := hsend
    cases origin with
    | sendPrepare =>
      obtain ⟨_, sub', hbody, hcur⟩ := hsend
      simpa [Effect.voted, Message.decodeSubject, hbody, hcur] using hsub
    | sendCommit =>
      obtain ⟨_, sub', hbody, hcur, _⟩ := hsend
      simpa [Effect.voted, Message.decodeSubject, hbody, hcur] using hsub
    | sendPreprepare | sendCommitForOldBlock | sendRoundChange => cases hsub
  | commit => cases hsub

/-- Up to a tick the sequence has ended, or is locked on `L` and all its votes carry `L`. -/
def LockLasts (s : Core) (L : Hash) (d : Core) : Prop :=
  s.clock ≤ d.clock ∧
    (s.current.sequence < d.current.sequence ∨
      d.current.sequence = s.current.sequence ∧ d.current.LockedOn L) ∧
    ∃ new, d.log = new ++ s.log ∧ ∀ e ∈ new, ∀ sub, e.voted = some sub →
      sub.view.sequence = s.current.sequence → sub.digest = L

variable {s : Core} {ev : Event}

theorem step_lockMatches (hL : L ≠ 0) (hbad : ∀ t < T, (bk t).hasBadProposal L = false)
    (h : c.step bk env ev = some c')
    (hc : c.clock ≤ T → c.current.lockedHash = L → c.current.LockedOn L) :
    c'.clock ≤ T → c'.current.lockedHash = L → c'.current.LockedOn L := by
  refine Core.step_induct
    (P := fun d => d.clock ≤ T → d.current.lockedHash = L → d.current.LockedOn L) h
    (fun _ d _ hr hT hlock => ?_) fun d d' hm hd hT =>
      hm.lockMatches hL (hd (hm.clock_le.trans hT))
  have hold : c.current.LockedOn L :=
    hc (hr.frame.clock_le.trans hT) (hr.frame.lockedHash.symm.trans hlock)
  exact hr.lockedOn hL (fun hlt => hbad _ (Nat.lt_of_lt_of_le hlt hT)) hold

section LockLasts

variable (hL : L ≠ 0) (hbad : ∀ t, s.clock ≤ t → t < T → (bk t).hasBadProposal L = false)
  (hcommit : ∀ t, s.clock ≤ t → t < T → ∀ p seals, (bk t).commit p seals = true)

include hL hbad

theorem Receive.lockLasts (h : Receive bk env ctx c c') (hT : c'.clock ≤ T)
    (hc : LockLasts s L c) : LockLasts s L c' := by
  obtain ⟨hle, hlock, new, hlog, hvotes⟩ := hc
  have hseq : c'.current.sequence = c.current.sequence :=
    congrArg View.sequence h.frame.view
  refine ⟨hle.trans h.frame.clock_le, ?_, ?_⟩
  · rw [hseq]
    exact hlock.imp_right (And.imp_right (h.lockedOn hL fun hlt =>
      hbad _ (hle.trans (Nat.le_succ _)) (by omega)))
  · obtain ⟨more, hmore, hreply⟩ := h.log
    refine ⟨more ++ new, by rw [hmore, hlog, List.append_assoc], fun e he sub hsub => ?_⟩
    rcases List.mem_append.mp he with he | he
    · cases hreply e he <;> cases hsub
    · exact hvotes e he sub hsub

include hcommit

theorem Move.lockLasts (h : Move bk env ctx c c') (hT : c'.clock ≤ T) (hc : LockLasts s L c) :
    LockLasts s L c' := by
  obtain ⟨hle, hlock, new, hlog, hvotes⟩ := hc
  refine ⟨hle.trans h.clock_le, h.lockedOn hL (fun hlt => hbad _ hle (by omega))
    (fun hlt => hcommit _ hle (by omega)) hlock, ?_⟩
  obtain ⟨more, hmore, hcur⟩ := h.log
  refine ⟨more ++ new, by rw [hmore, hlog, List.append_assoc], fun e he sub hsub hseq => ?_⟩
  rcases List.mem_append.mp he with he | he
  · obtain ⟨p, hp, rfl⟩ := Core.subject_digest ((hcur e he).voted hsub)
    rcases hlock with hlater | ⟨_, _, q, hq, hqL⟩
    · exact absurd hseq (Nat.ne_of_gt hlater)
    · rw [hp] at hq
      obtain rfl := Option.some.inj hq
      exact hqL
  · exact hvotes e he sub hsub hseq

theorem step_lockLasts (h : c.step bk env ev = some c') (hc : c.clock ≤ T → LockLasts s L c) :
    c'.clock ≤ T → LockLasts s L c' :=
  Core.step_induct (P := fun d => d.clock ≤ T → LockLasts s L d) h
    (fun _ _ _ hr hT => hr.lockLasts hL hbad hT (hc (hr.frame.clock_le.trans hT)))
    fun _ _ hm hd hT => hm.lockLasts hL hbad hcommit hT (hd (hm.clock_le.trans hT))

end LockLasts

/-- Views do not decrease, and a lock belongs to the proposal and lasts as long as the sequence. -/
theorem view_and_lock_discipline (bk : Backend) (env : ChainEnv) (address : Address) (node : Bool)
    {es es' : List Event} {s t : Core} (hs : CoreRuns bk env (.start bk env address node) es s)
    (ht : CoreRuns bk env s es' t) :
    t.currentView.cmp s.currentView ≠ .lt ∧
      ((∀ tick < s.clock, (bk tick).hasBadProposal s.current.lockedHash = false) →
        s.current.LockMatches) ∧
      (s.current.lockedHash ≠ 0 → s.current.LockMatches →
        (∀ tick, s.clock ≤ tick → tick < t.clock →
          (bk tick).hasBadProposal s.current.lockedHash = false ∧
            ∀ p seals, (bk tick).commit p seals = true) →
        (t.current.sequence = s.current.sequence →
          t.current.lockedHash = s.current.lockedHash ∧ t.current.LockMatches) ∧
        ∃ new, t.log = new ++ s.log ∧ ∀ e ∈ new, ∀ sub, e.voted = some sub →
          sub.view.sequence = s.current.sequence → sub.digest = s.current.lockedHash) := by
  refine ⟨?_, fun hbad hL => ?_, fun hL hmatch hgood => ?_⟩
  · rw [← View.le_iff_cmp]
    exact ht.related (R := fun a b => a.currentView.Le b.currentView)
      (fun _ => .inr ⟨rfl, le_rfl⟩) View.Le.trans fun _ _ _ _ hstep => step_view_le hstep
  · refine (hs.invariant (P := fun d : Core => d.clock ≤ s.clock →
      d.current.lockedHash = s.current.lockedHash → d.current.LockedOn s.current.lockedHash)
      (fun _ hzero => ?_) (fun _ _ _ _ hstep => step_lockMatches hL hbad hstep) le_rfl rfl).2
    exact absurd hzero.symm hL
  · have hlast := ht.invariant (P := fun d : Core => d.clock ≤ t.clock →
      LockLasts s s.current.lockedHash d)
      (fun _ => ⟨le_rfl, .inr ⟨rfl, rfl, hmatch hL⟩, [], rfl, by simp⟩)
      (fun _ _ _ _ hstep => step_lockLasts hL (fun tick h h' => (hgood tick h h').1)
        (fun tick h h' => (hgood tick h h').2) hstep) le_rfl
    obtain ⟨_, hlock, hnew⟩ := hlast
    refine ⟨fun hseq => ?_, hnew⟩
    rcases hlock with hlater | ⟨_, heq, hp⟩
    · exact absurd hseq (Nat.ne_of_gt hlater)
    · exact ⟨heq, fun _ => heq ▸ hp⟩

/-- Block 1 is proposed and locked in round 0, and the other validators move on to
round 1. -/
def lockedRound : List Event :=
  .message (.signed 1 0 .preprepare (.preprepare ⟨⟨0, 1⟩, .block 1 0 1⟩) []) ::
  ([1, 2, 4].map fun a => .message (.signed a 0 .prepare (.subject ⟨⟨0, 1⟩, 1, 0⟩) [])) ++
  ([1, 2, 4].map fun a => .message (.signed a 0 .roundChange (.subject ⟨⟨1, 1⟩, 0, 0⟩) []))

/-- A good block stays locked over the round change. -/
theorem lockedRound_keeps_lock :
    let bk : Backend := fun _ => .genesis (fullCommittee [1, 2, 3, 4])
    ∃ s t, CoreRuns bk .counting (.start bk .counting 3 true) (lockedRound.take 4) s ∧
      CoreRuns bk .counting s (lockedRound.drop 4) t ∧ s.current.lockedHash = 1 ∧
      t.currentView = ⟨1, 1⟩ ∧ t.current.lockedHash = 1 ∧ t.current.LockMatches := by
  intro bk
  obtain ⟨s, t, hs, ht, hseen⟩ := Runs.exists_of_exec_exec (Core.step bk .counting)
    (.start bk .counting 3 true) (lockedRound.take 4) (lockedRound.drop 4)
    (fun c d => (c.current.lockedHash, c.current.sequence, d.currentView))
    (1, 1, ⟨1, 1⟩) (by decide +kernel)
  simp only [Prod.mk.injEq] at hseen
  obtain ⟨hlock, hseq, hview⟩ := hseen
  obtain ⟨_, hmatch, hkeep⟩ := view_and_lock_discipline bk .counting 3 true hs ht
  have hsame := (hkeep (by rw [hlock]; decide) (hmatch fun _ _ => rfl)
    fun _ _ _ => ⟨rfl, fun _ _ => rfl⟩).1 ((congrArg View.sequence hview).trans hseq.symm)
  exact ⟨s, t, hs, ht, hlock, hview, hsame.1.trans hlock, hsame.2⟩

/-- Once the locked block is declared bad, another proposal is accepted while the lock
stays. -/
theorem bad_lock_outlives_its_proposal :
    let bk : Backend := fun tick =>
      { Host.genesis (fullCommittee [1, 2, 3, 4]) with hasBadProposal := fun _ => 10 ≤ tick }
    ∃ t, CoreRuns bk .counting (.start bk .counting 3 true)
        (lockedRound ++ [.message (.signed 2 0 .preprepare
          (.preprepare ⟨⟨1, 1⟩, .block 1 0 2⟩) [])]) t ∧
      t.current.lockedHash = 1 ∧ t.current.proposal = some (.block 1 0 2) ∧
      ¬ t.current.LockMatches := by
  intro bk
  obtain ⟨t, ht, hy⟩ := Runs.exists_of_exec (Core.step bk .counting)
    (.start bk .counting 3 true)
    (lockedRound ++ [.message (.signed 2 0 .preprepare (.preprepare ⟨⟨1, 1⟩, .block 1 0 2⟩) [])])
    (fun c => (c.current.lockedHash, c.current.proposal))
    (1, some (.block 1 0 2)) (by decide +kernel)
  obtain ⟨hlock, hprop⟩ := Prod.mk.inj hy
  refine ⟨t, ht, hlock, hprop, fun hmatch => ?_⟩
  obtain ⟨p, hp, hpL⟩ := hmatch (by rw [hlock]; decide)
  cases hprop.symm.trans hp
  rw [hlock] at hpL
  exact absurd hpL (by decide)

end Kaia
