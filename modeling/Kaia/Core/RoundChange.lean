import Mathlib
import Kaia.Core.Moves

/-! # Round change certificates

ROUND CHANGE messages are collected by the machine word of their round, while the round that is
entered is exact. Unless a bucket mixes rounds, entering one is backed by a quorum for it.
-/

namespace Kaia

open Foundation List

/-- A validator's ROUND CHANGE message for a view. -/
structure RoundChangeFor (es : List Event) (V : ValidatorSet) (v : View) (m : Message) : Prop where
  sent : Sent es m
  validator : m.address ∈ addresses V.list
  code : m.code = .roundChange
  view : ∃ sub, m.decodeSubject = some sub ∧ sub.view = v

/-- At least `n` validators have each sent a ROUND CHANGE message for the view. -/
def Certificate (es : List Event) (V : ValidatorSet) (v : View) (n : ℤ) : Prop :=
  ∃ senders : Finset Address, n ≤ senders.card ∧
    ∀ a ∈ senders, ∃ m, m.address = a ∧ RoundChangeFor es V v m

/-- A round change of `handleRoundChange` has its certificate. -/
def Effect.Certified (es : List Event) : Effect → Prop
  | .startNewRound V v => Certificate es V v (requiredMessageCount V)
  | .sendRoundChange V v => Certificate es V v (V.f + 1)
  | _ => True

variable {bk : Backend} {env : ChainEnv} {ctx : Option Message} {c c' : Core}
  {es : List Event} {V : ValidatorSet} {v : View}

theorem RoundChangeFor.mono {m : Message} (h : RoundChangeFor es V v m) (fs : List Event) :
    RoundChangeFor (es ++ fs) V v m :=
  { h with sent := h.sent.mono fs }

theorem Certificate.mono {n : ℤ} (h : Certificate es V v n) (fs : List Event) :
    Certificate (es ++ fs) V v n :=
  h.imp fun _ ⟨hn, hall⟩ => ⟨hn, fun a ha =>
    (hall a ha).imp fun _ ⟨hadr, hrc⟩ => ⟨hadr, hrc.mono fs⟩⟩

theorem Effect.Certified.mono {e : Effect} (h : e.Certified es) (fs : List Event) :
    e.Certified (es ++ fs) := by
  cases e with
  | startNewRound | sendRoundChange => exact Certificate.mono h fs
  | broadcast | commit => trivial

theorem certificate_of_messages {ms : MessageSet}
    (h : ∀ m ∈ ms.messages, RoundChangeFor es V v m) : Certificate es V v ms.size := by
  refine ⟨(ms.messages.map Message.address).toFinset, ?_, fun a ha => ?_⟩
  · rw [toFinset_card_of_nodup ms.nodup, length_map]
    exact le_rfl
  · obtain ⟨m, hm, rfl⟩ := mem_map.mp (mem_toFinset.mp ha)
    exact ⟨m, rfl, h m hm⟩

/-- A bucket of messages for one round. -/
def OneRound (es : List Event) (V : ValidatorSet) (sequence : ℕ) (ms : MessageSet) : Prop :=
  ∃ r, ∀ m ∈ ms.messages, RoundChangeFor es V ⟨r, sequence⟩ m

/-- What a core knows of the ROUND CHANGE messages it has collected. -/
structure Core.CollectsRoundChanges (es : List Event) (c : Core) : Prop where
  stored : ∀ m ∈ c.stored, Sent es m
  buckets : ∀ entry ∈ c.roundChangeSet, OneRound es c.valSet c.current.sequence entry.2
  log : ∀ e ∈ c.log, e.Certified es

theorem Core.CollectsRoundChanges.mono (h : c.CollectsRoundChanges es) (fs : List Event) :
    c.CollectsRoundChanges (es ++ fs) where
  stored m hm := (h.stored m hm).mono fs
  buckets entry he := (h.buckets entry he).imp fun _ hall m hm => (hall m hm).mono fs
  log e he := (h.log e he).mono fs

theorem Move.roundChangeSet (h : Move bk env ctx c c') : c'.roundChangeSet = [] ∨
    c'.valSet = c.valSet ∧ c'.current.sequence = c.current.sequence ∧
      c'.roundChangeSet ⊆ c.roundChangeSet := by
  cases h with
  | idle h =>
    obtain ⟨-, hvalSet, -, hrcs, -⟩ := h.frame
    obtain ⟨request, hcur⟩ := h.current
    exact .inr ⟨hvalSet, by rw [hcur], fun _ hm => hrcs ▸ hm⟩
  | newSequence | newRound => exact .inl rfl
  | catchUp => exact .inr ⟨rfl, rfl, filter_subset_self _⟩
  | lock =>
    exact .inr ⟨rfl, congrArg View.sequence (RoundState.lockHash_view _), List.Subset.refl _⟩
  | commit =>
    refine .inr ⟨rfl, ?_, List.Subset.refl _⟩
    dsimp only
    split <;> rfl
  | send | reseal | setState => exact .inr ⟨rfl, rfl, List.Subset.refl _⟩

theorem Move.collectsRoundChanges (hctx : ∀ m, ctx = some m → Sent es m)
    (h : Move bk env ctx c c') (hc : c.CollectsRoundChanges es) : c'.CollectsRoundChanges es := by
  refine ⟨fun m hm => (h.stored m hm).elim (hc.stored m) (hctx m), fun entry he => ?_,
    fun e he => ?_⟩
  · rcases h.roundChangeSet with hnil | ⟨hvalSet, hseq, hsub⟩
    · simp [hnil] at he
    · rw [hvalSet, hseq]
      exact hc.buckets entry (hsub he)
  · rcases h.mem_log he with hold | hnew
    · exact hc.log e hold
    · cases hnew <;> trivial

/-- A bucket holds no message of another sender for a different round. -/
def BucketOfOneRound (c : Core) (ev : Event) : Prop :=
  ∀ msg ∈ ev.handled c, msg.code = .roundChange → ∀ rc ∈ msg.decodeSubject,
    ∀ m ∈ (c.roundChangeSet.get (uint64 rc.view.round)).messages, m.address ≠ msg.address →
      ∀ sub ∈ m.decodeSubject, sub.view.round = rc.view.round

instance (c : Core) (ev : Event) : Decidable (BucketOfOneRound c ev) :=
  inferInstanceAs (Decidable (∀ msg ∈ ev.handled c, _))

theorem RoundChangeSet.get_eq (rcs : RoundChangeSet) (round : ℕ) :
    rcs.get round = .empty ∨ (round, rcs.get round) ∈ rcs := by
  unfold RoundChangeSet.get
  cases h : rcs.lookup round with
  | none => exact .inl rfl
  | some ms =>
    obtain ⟨l₁, l₂, heq, -⟩ := lookup_eq_some_iff.mp h
    exact .inr (by simp [heq])

theorem RoundChangeSet.add_cases (V : ValidatorSet) (rcs : RoundChangeSet) (r : ℕ) (msg : Message) :
    ∃ ms num, rcs.add V r msg =
        ((uint64 r, ms) :: rcs.filter (fun entry => entry.1 ≠ uint64 r), num) ∧
      (ms = rcs.get (uint64 r) ∧ num = none ∨
        (V.getByAddress msg.address).isSome ∧ ms = (rcs.get (uint64 r)).insert msg ∧
          num = some ms.size) := by
  unfold RoundChangeSet.add MessageSet.add
  by_cases h : (V.getByAddress msg.address).isSome
  · simp only [h, if_true]
    exact ⟨_, _, rfl, .inr ⟨trivial, rfl, rfl⟩⟩
  · simp only [h, Bool.false_eq_true, if_false]
    exact ⟨_, _, rfl, .inl ⟨rfl, rfl⟩⟩

theorem Core.CollectsRoundChanges.add {msg : Message} {rc : Subject}
    (hc : c.CollectsRoundChanges es) (hsent : Sent es msg) (hmsg : msg.decodeSubject = some rc)
    (hcode : msg.code = .roundChange) (hcheck : c.checkMessage .roundChange rc.view = none)
    (hone : ∀ m ∈ (c.roundChangeSet.get (uint64 rc.view.round)).messages,
      m.address ≠ msg.address → ∀ sub ∈ m.decodeSubject, sub.view.round = rc.view.round) :
    (∀ entry ∈ (c.roundChangeSet.add c.valSet rc.view.round msg).1,
      OneRound es c.valSet c.current.sequence entry.2) ∧
    ∀ num, (c.roundChangeSet.add c.valSet rc.view.round msg).2 = some num →
      Certificate es c.valSet ⟨rc.view.round, c.current.sequence⟩ num := by
  have hget : OneRound es c.valSet c.current.sequence
      (c.roundChangeSet.get (uint64 rc.view.round)) := by
    rcases c.roundChangeSet.get_eq (uint64 rc.view.round) with hempty | hmem
    · exact ⟨0, by simp [hempty, MessageSet.empty]⟩
    · exact hc.buckets _ hmem
  obtain ⟨ms, num, hadd, hcases⟩ := RoundChangeSet.add_cases c.valSet c.roundChangeSet
    rc.view.round msg
  rw [hadd]
  have hothers : ∀ entry ∈ c.roundChangeSet.filter (fun entry => entry.1 ≠ uint64 rc.view.round),
      OneRound es c.valSet c.current.sequence entry.2 :=
    fun entry he => hc.buckets entry (mem_filter.mp he).1
  rcases hcases with ⟨rfl, rfl⟩ | ⟨hsrc, rfl, rfl⟩
  · exact ⟨forall_mem_cons.mpr ⟨hget, hothers⟩, fun num hnum => by cases hnum⟩
  · -- the earlier messages of the bucket are for the round of the new one
    have hall : ∀ m ∈ ((c.roundChangeSet.get (uint64 rc.view.round)).insert msg).messages,
        RoundChangeFor es c.valSet ⟨rc.view.round, c.current.sequence⟩ m := by
      intro m hm
      rcases mem_cons.mp hm with rfl | hm
      · have hseq := (Core.checkMessage_roundChange_none hcheck).1
        exact ⟨hsent, getByAddress_isSome.mp hsrc, hcode, rc, hmsg, by rw [← hseq]⟩
      · obtain ⟨hold, hne⟩ := mem_filter.mp hm
        obtain ⟨r, hr⟩ := hget
        obtain ⟨sub, hsub, hview⟩ := (hr m hold).view
        have hround : r = rc.view.round := by
          rw [← hone m hold (by simpa using hne) sub hsub, hview]
        exact hround ▸ hr m hold
    exact ⟨forall_mem_cons.mpr ⟨⟨_, hall⟩, hothers⟩, fun num hnum =>
      Option.some.inj hnum ▸ certificate_of_messages hall⟩

theorem Receive.collectsRoundChanges (hctx : ∀ m, ctx = some m → Sent es m)
    (h : Receive bk env ctx c c') (hc : c.CollectsRoundChanges es)
    (hone : ∀ msg, ctx = some msg → msg.code = .roundChange → ∀ rc ∈ msg.decodeSubject,
      ∀ m ∈ (c.roundChangeSet.get (uint64 rc.view.round)).messages, m.address ≠ msg.address →
        ∀ sub ∈ m.decodeSubject, sub.view.round = rc.view.round) :
    c'.CollectsRoundChanges es := by
  cases h with
  | nothing | accept | acceptLocked => exact ⟨hc.stored, hc.buckets, hc.log⟩
  | prepare msg =>
    unfold Core.acceptPrepare
    split <;> exact ⟨hc.stored, hc.buckets, hc.log⟩
  | commit msg =>
    unfold Core.acceptCommit
    split <;> exact ⟨hc.stored, hc.buckets, hc.log⟩
  | roundChange msg rc hmsg hcode hcheck =>
    exact ⟨hc.stored, (hc.add (hctx _ rfl) hmsg hcode hcheck (hone _ rfl hcode rc hmsg)).1, hc.log⟩
  | startNewRound msg rc hmsg hcode hcheck hnum =>
    obtain ⟨hbuckets, hcert⟩ := hc.add (hctx _ rfl) hmsg hcode hcheck (hone _ rfl hcode rc hmsg)
    exact ⟨hc.stored, hbuckets, forall_mem_cons.mpr ⟨hcert _ hnum, hc.log⟩⟩
  | sendRoundChange msg rc num hmsg hcode hcheck hadd hnum =>
    obtain ⟨hbuckets, hcert⟩ := hc.add (hctx _ rfl) hmsg hcode hcheck (hone _ rfl hcode rc hmsg)
    refine ⟨hc.stored, hbuckets, forall_mem_cons.mpr ⟨?_, hc.log⟩⟩
    rw [Effect.Certified, ← hnum]
    exact hcert num hadd
  | oldBlock => exact ⟨hc.stored, hc.buckets, forall_mem_cons.mpr ⟨trivial, hc.log⟩⟩

theorem step_collectsRoundChanges {ev : Event} (h : c.step bk env ev = some c')
    (hone : BucketOfOneRound c ev) (hc : c.CollectsRoundChanges es) :
    c'.CollectsRoundChanges (es ++ [ev]) := by
  have hctx : ∀ m, ev.handled c = some m → Sent (es ++ [ev]) m :=
    fun m hm => sent_of_handled h hc.stored hm
  refine Core.step_induct (P := Core.CollectsRoundChanges (es ++ [ev])) h
    (fun posted d hsub hr => ?_) fun _ _ hm => hm.collectsRoundChanges hctx
  obtain ⟨hstored, hbuckets, hlog⟩ := hc.mono [ev]
  exact hr.collectsRoundChanges hctx
    ⟨fun m hm => hstored m (Core.stored_of_posted hsub hm), hbuckets, hlog⟩ hone

/-- Rounds that are started or joined have their certificates, while no bucket mixes rounds. -/
theorem roundChange_certified (bk : Backend) (env : ChainEnv) (address : Address) (node : Bool)
    {es : List Event} {c : Core}
    (h : Runs (Core.step bk env) BucketOfOneRound (.start bk env address node) es c) :
    (∀ V v, .startNewRound V v ∈ c.log → Certificate es V v (requiredMessageCount V)) ∧
      ∀ V v, .sendRoundChange V v ∈ c.log → Certificate es V v (V.f + 1) := by
  obtain ⟨hrcs, hstored, hlog⟩ := start_empty bk env address node
  have hc : c.CollectsRoundChanges es :=
    h.history ⟨by simp [hstored], by simp [hrcs], by simp [hlog]⟩
      fun _ _ _ _ hok hstep hd => step_collectsRoundChanges hstep hok hd
  exact ⟨fun V v hv => hc.log _ hv, fun V v hv => hc.log _ hv⟩

def threeRoundChanges (rounds : ℕ × ℕ × ℕ) : List Event :=
  [(1, rounds.1), (2, rounds.2.1), (4, rounds.2.2)].map fun (a, r) =>
    .message (.signed a 0 .roundChange (.subject ⟨⟨r, 1⟩, 0, 0⟩) [])

/-- The rounds that `handleRoundChange` has started. -/
def Core.startedRounds (c : Core) : List (ValidatorSet × View) :=
  c.log.filterMap fun
    | .startNewRound V v => some (V, v)
    | _ => none

theorem Core.mem_startedRounds (h : (V, v) ∈ c.startedRounds) : .startNewRound V v ∈ c.log := by
  obtain ⟨e, he, heq⟩ := mem_filterMap.mp h
  cases e with
  | startNewRound => cases heq; exact he
  | broadcast | commit | sendRoundChange => cases heq

/-- Three messages for round 1 start round 1, and they are its certificate. -/
theorem three_roundChanges_certify :
    let bk : Backend := fun _ => .genesis (fullCommittee [1, 2, 3, 4])
    ∃ c V, Runs (Core.step bk .counting) BucketOfOneRound (.start bk .counting 3 true)
        (threeRoundChanges (1, 1, 1)) c ∧ .startNewRound V ⟨1, 1⟩ ∈ c.log ∧
      Certificate (threeRoundChanges (1, 1, 1)) V ⟨1, 1⟩ (requiredMessageCount V) := by
  intro bk
  obtain ⟨c, hrun, hlog⟩ := Runs.exists_of_exec
    (guarded (Core.step bk .counting) BucketOfOneRound)
    (.start bk .counting 3 true) (threeRoundChanges (1, 1, 1))
    Core.startedRounds
    [((fullCommittee [1, 2, 3, 4]).withProposer .counting 0 0, ⟨1, 1⟩)] (by decide +kernel)
  have hmem := Core.mem_startedRounds (hlog ▸ mem_singleton.mpr rfl)
  exact ⟨c, _, hrun.of_guarded, hmem,
    (roundChange_certified bk .counting 3 true hrun.of_guarded).1 _ _ hmem⟩

/-- Messages for rounds 1 and `2 ^ 64 + 1` start the latter, for which one validator has asked. -/
theorem wrapped_round_starts_uncertified :
    let bk : Backend := fun _ => .genesis (fullCommittee [1, 2, 3, 4])
    let es := threeRoundChanges (1, 1, 2 ^ 64 + 1)
    ∃ c V, CoreRuns bk .counting (.start bk .counting 3 true) es c ∧
      c.currentView = ⟨2 ^ 64 + 1, 1⟩ ∧ .startNewRound V ⟨2 ^ 64 + 1, 1⟩ ∈ c.log ∧
      ¬ Certificate es V ⟨2 ^ 64 + 1, 1⟩ (requiredMessageCount V) := by
  intro bk es
  obtain ⟨c, hrun, hseen⟩ := Runs.exists_of_exec (Core.step bk .counting)
    (.start bk .counting 3 true) es (fun c => (c.startedRounds, c.currentView))
    ([((fullCommittee [1, 2, 3, 4]).withProposer .counting 0 0, ⟨2 ^ 64 + 1, 1⟩)],
      ⟨2 ^ 64 + 1, 1⟩) (by decide +kernel)
  obtain ⟨hlog, hview⟩ := Prod.mk.inj hseen
  have hmem := Core.mem_startedRounds (hlog ▸ mem_singleton.mpr rfl)
  refine ⟨c, _, hrun, hview, hmem, ?_⟩
  rintro ⟨senders, hcard, hall⟩
  have honly : senders ⊆ {4} := by
    intro a ha
    obtain ⟨m, rfl, ⟨⟨payload, hpayload, rfl, -⟩, -, -, sub, hsub, hv⟩⟩ := hall a ha
    simp only [es, threeRoundChanges, map_cons, map_nil, mem_cons,
      Event.message.injEq, not_mem_nil, or_false] at hpayload
    rcases hpayload with rfl | rfl | rfl
    · cases hsub
      cases hv
    · cases hsub
      cases hv
    · exact Finset.mem_singleton.mpr rfl
  have hle := Finset.card_le_card honly
  have hthree : requiredMessageCount ((fullCommittee [1, 2, 3, 4]).withProposer .counting 0 0) = 3 :=
    by decide +kernel
  rw [hthree] at hcard
  simp only [Finset.card_singleton] at hle
  omega

end Kaia
