import Kaia.Core.Decisions

/-! # Agreement of the network

Honest nodes run the core over their own backends, the others send whatever they like under their
own names, and events come in any order. A decided digest is certified by a quorum whose honest
members have sent COMMIT for it on their lock, and two certificates share an honest member.
-/

namespace Kaia

open Foundation Function

abbrev Network := Address → Core

def Core.broadcasts (c : Core) : List Message :=
  c.log.filterMap fun
    | .broadcast _ m => some m
    | _ => none

def Event.signed : Event → Option (Address × Message)
  | .message payload => payload.signer.map fun signer => (signer, payload.msg)
  | _ => none

namespace Network

variable (bk : Address → Backend) (env : ChainEnv)

def start (node : Address → Bool) : Network := fun a => .start (bk a) env a (node a)

variable (byz : Finset Address) (net : Network)

variable (e : Address × Event)

def step : Option Network :=
  ((net e.1).step (bk e.1) env e.2).map (Function.update net e.1)

/-- The node is honest, and signatures of honest nodes are only on what they broadcast. -/
def Authentic : Prop :=
  e.1 ∉ byz ∧ ∀ x ∈ e.2.signed, x.1 ∉ byz → x.2 ∈ (net x.1).broadcasts

instance (byz : Finset Address) (net : Network) (e : Address × Event) :
    Decidable (Authentic byz net e) :=
  inferInstanceAs (Decidable (_ ∧ _))

/-- No proposed block has the digest that stands for the absence of a lock. -/
def NonzeroDigests : Prop :=
  ∀ m ∈ e.2.handled (net e.1), ∀ pp ∈ m.decodePreprepare, pp.proposal.hash ≠ 0

/-- An honest node has committed a block of the digest in the sequence. -/
def Committed (σ : ℕ) (net : Network) (d : Hash) : Prop :=
  ∃ a ∉ byz, ∃ v p seals, .commit v p seals ∈ (net a).log ∧ v.sequence = σ ∧ p.hash = d

/-- Old PRE-PREPARE messages are only answered for blocks committed in the sequence. -/
def OldAnswersCommitted (σ : ℕ) (net : Network) (e : Address × Event) : Prop :=
  ∀ m ∈ e.2.handled (net e.1), m.code = .preprepare → ∀ pp ∈ m.decodePreprepare,
    (net e.1).checkMessage .preprepare pp.view = some .oldMessage →
    ∀ sub ∈ (net e.1).oldBlockCommit (bk e.1) env pp m.address, sub.view.sequence = σ →
      Committed byz σ net sub.digest

/-- A message whose sender is honest has been broadcast. -/
def Received (m : Message) : Prop :=
  m.address ∉ byz → ∃ origin, .broadcast origin m ∈ (net m.address).log

/-- A quorum of the committee whose honest members have sent a COMMIT for the digest. -/
def Certified (byz C : Finset Address) (n σ : ℕ) (net : Network) (d : Hash) : Prop :=
  ∃ Q : Finset Address, Q ⊆ C ∧ Q.Nonempty ∧ quorum n ≤ Q.card ∧
    ∀ a ∈ Q, a ∉ byz → (net a).SentCommit σ d

end Network

open Network

variable {bk : Address → Backend} {env : ChainEnv} {byz C : Finset Address} {n σ : ℕ}
  {net net' : Network} {V : ValidatorSet} {c c' : Core} {e : Address × Event} {d : Hash}
  {m : Message}

theorem step_log_subset {bk : Backend} {ev : Event} (h : c.step bk env ev = some c') :
    ∀ e ∈ c.log, e ∈ c'.log := by
  refine Core.step_induct (P := fun d => ∀ e ∈ c.log, e ∈ d.log) h (fun _ d _ hr e he => ?_)
    fun d d' hm hd e he => ?_
  · obtain ⟨new, hlog, -⟩ := hr.log
    rw [hlog]
    exact List.mem_append_right new he
  · obtain ⟨new, hlog, -⟩ := hm.log
    rw [hlog]
    exact List.mem_append_right new (hd e he)

theorem network_step_cases (h : step bk env net e = some net') :
    ∃ c', (net e.1).step (bk e.1) env e.2 = some c' ∧ net' = Function.update net e.1 c' ∧
      ∀ a, ∀ x ∈ (net a).log, x ∈ (net' a).log := by
  obtain ⟨c', hstep, rfl⟩ := Option.map_eq_some_iff.mp h
  refine ⟨c', hstep, rfl, fun a x hx => ?_⟩
  rcases eq_or_ne a e.1 with rfl | hne
  · rw [update_self]
    exact step_log_subset hstep x hx
  · rw [update_of_ne hne]
    exact hx

theorem Core.SentCommit.mono (h : c.SentCommit σ d) (hlog : ∀ e ∈ c.log, e ∈ c'.log) :
    c'.SentCommit σ d :=
  h.imp fun _ ⟨sub, hmem, hrest⟩ => ⟨sub, hlog _ hmem, hrest⟩

theorem certified_mono (hlog : ∀ a, ∀ x ∈ (net a).log, x ∈ (net' a).log) (d : Hash)
    (h : Certified byz C n σ net d) : Certified byz C n σ net' d :=
  h.imp fun _ ⟨hsub, hne, hq, hall⟩ => ⟨hsub, hne, hq, fun a ha hb => (hall a ha hb).mono (hlog a)⟩

/-- Every honest node is in an honest state. -/
def AllHonest (env : ChainEnv) (V : ValidatorSet) (byz C : Finset Address) (σ : ℕ)
    (net : Network) : Prop :=
  ∀ a ∉ byz, (net a).Honest env V C σ (Received byz net) (Certified byz C V.groupSize σ net)

theorem certified_of_commitQuorum (hnet : AllHonest env V byz C σ net)
    (h : CommitQuorum V.groupSize σ C (Received byz net) d) :
    Certified byz C V.groupSize σ net d := by
  by_contra hnot
  obtain ⟨Q, hsub, hne, hq, hall⟩ := h
  refine hnot ⟨Q, hsub, hne, hq, fun a ha hb => ?_⟩
  obtain ⟨m, sub, hrec, rfl, hcode, hdec, hseq, rfl⟩ := hall a ha
  obtain ⟨origin, hmem⟩ := hrec hb
  rcases (hnet m.address hb).sent origin m hmem hcode sub hdec hseq with rfl | hcert
  · exact ⟨m, sub, hmem, hdec, hseq, rfl⟩
  · exact absurd hcert hnot

theorem mem_broadcasts (h : m ∈ c.broadcasts) : ∃ origin, .broadcast origin m ∈ c.log := by
  obtain ⟨e, he, heq⟩ := List.mem_filterMap.mp h
  cases e with
  | broadcast origin m' =>
    cases heq
    exact ⟨origin, he⟩
  | commit | startNewRound | sendRoundChange => cases heq

theorem received_of_handled (hauth : Authentic byz net e) (hstep : step bk env net e = some net')
    (hstored : ∀ m ∈ (net e.1).stored, Received byz net m) (hm : e.2.handled (net e.1) = some m) :
    Received byz net m := by
  obtain ⟨c', hcore, -⟩ := network_step_cases hstep
  rcases handled_cases hcore hm with ⟨payload, hev, rfl, hsigner⟩ | hold
  · intro hne
    refine mem_broadcasts (hauth.2 (payload.msg.address, payload.msg) ?_ hne)
    simp [hev, Event.signed, hsigner]
  · exact hstored m hold

/-- The honest backends agree on the council, no commit fails and no proposal is bad. -/
structure GoodBackends (bk : Address → Backend) (byz : Finset Address) (V : ValidatorSet) (σ : ℕ) :
    Prop where
  council : ∀ a ∉ byz, ∀ t lp, lp.number + 1 = σ → ∃ q, (bk a t).validators lp = V.setProposer q
  commit : ∀ a ∉ byz, ∀ t p seals, (bk a t).commit p seals = true
  notBad : ∀ a ∉ byz, ∀ t d, (bk a t).hasBadProposal d = false

theorem network_step_allHonest (hgood : GoodBackends bk byz V σ) (hfixed : FixedCommittee env V σ C)
    (hauth : Authentic byz net e) (hnonzero : NonzeroDigests net e)
    (hold : OldAnswersCommitted bk env byz σ net e) (h : step bk env net e = some net')
    (hnet : AllHonest env V byz C σ net) : AllHonest env V byz C σ net' := by
  obtain ⟨c', hcore, rfl, hlog⟩ := network_step_cases h
  intro b hb
  suffices h' : (update net e.1 c' b).Honest env V C σ (Received byz net)
      (Certified byz C V.groupSize σ net) from h'.mono
        (fun _ hm hne => (hm hne).imp fun _ hmem => hlog _ _ hmem) (certified_mono hlog)
  rcases eq_or_ne b e.1 with rfl | hne
  · rw [update_self]
    refine step_honest (hgood.notBad _ hb) (hgood.commit _ hb) (hgood.council _ hb)
      (fun d => certified_of_commitQuorum hnet) hfixed
      (fun m hm => received_of_handled hauth h (hnet _ hb).stored hm)
      (fun m pp hm hpp => hnonzero m hm pp hpp) (fun m pp sub hm hcode hpp hcheck hsub hseq => ?_)
      hcore (hnet _ hb)
    -- the block of an answered PRE-PREPARE was decided before, so it is certified
    obtain ⟨a, ha, v, p, seals, hmem, hv, hp⟩ := hold m hm hcode pp hpp hcheck sub hsub hseq
    rw [← hp]
    exact (hnet a ha).decided v p seals hmem hv
  · rw [update_of_ne hne]
    exact hnet b hb

theorem certified_unique (hfixed : FixedCommittee env V σ C)
    (hf : ((C.filter (· ∈ byz)).card : ℤ) ≤ V.f) (hnet : AllHonest env V byz C σ net) {d' : Hash}
    (h : Certified byz C V.groupSize σ net d) (h' : Certified byz C V.groupSize σ net d') :
    d = d' := by
  obtain ⟨Q, hsub, hne, hq, hall⟩ := h
  obtain ⟨Q', hsub', -, hq', hall'⟩ := h'
  have hpos : 0 < V.groupSize :=
    (Finset.card_pos.mpr (hne.mono hsub)).trans_le hfixed.card
  rw [V.f_eq] at hf
  obtain ⟨a, ha, ha', hhonest⟩ :=
    exists_common_not_faulty hsub hsub' hfixed.card hpos hq hq' hf
  exact ((hnet a hhonest).once d' (hall' a ha' hhonest)).1 d (hall a ha hhonest)

/-- Signatures are not forged, digests are not zero, and old answers repeat what was committed. -/
structure AgreementStep (bk : Address → Backend) (env : ChainEnv) (byz : Finset Address) (σ : ℕ)
    (net : Network) (e : Address × Event) : Prop where
  authentic : Authentic byz net e
  nonzero : NonzeroDigests net e
  oldAnswers : OldAnswersCommitted bk env byz σ net e

/-- With at most `F` Byzantine committee members, honest nodes do not commit different blocks. -/
theorem honest_nodes_agree (bk : Address → Backend) (env : ChainEnv) (node : Address → Bool)
    (byz C : Finset Address) (V : ValidatorSet) (σ : ℕ) (hC : SequenceCommittee env V σ C)
    (hf : ((C.filter (· ∈ byz)).card : ℤ) ≤ V.f) (hgood : GoodBackends bk byz V σ)
    {es : List (Address × Event)} {net : Network}
    (hrun : Runs (step bk env) (AgreementStep bk env byz σ) (start bk env node) es net) :
    ∀ a ∉ byz, ∀ b ∉ byz, ∀ v p seals v' p' seals',
      .commit v p seals ∈ (net a).log → .commit v' p' seals' ∈ (net b).log →
      v.sequence = σ → v'.sequence = σ → p.hash = p'.hash := by
  have hnet : AllHonest env V byz C σ net :=
    hrun.invariant (fun a ha => start_honest (hgood.council a ha) a (node a))
      fun _ _ _ hok hstep => network_step_allHonest hgood hC.fixed hok.authentic hok.nonzero
        hok.oldAnswers hstep
  intro a ha b hb v p seals v' p' seals' hmem hmem' hv hv'
  exact certified_unique hC.fixed hf hnet ((hnet a ha).decided v p seals hmem hv)
    ((hnet b hb).decided v' p' seals' hmem' hv')

/-- Four validators over four blocks, each proposed by the validator of its number. -/
def fourBlocks : Host :=
  { Host.genesis (fullCommittee [1, 2, 3, 4]) with
    lastProposal := (.block 4 13 14, 4)
    getProposer := fun n => .ofNat 160 n
    hasProposal := fun h n => n ≤ 4 ∧ h = .ofNat 256 (10 + n) }

/-- The PRE-PREPARE of validator 1 for sequence 5 and round 0. -/
def proposeTo (receiver : Address) (p : Proposal) : Address × Event :=
  (receiver, .message (.signed 1 p.parentHash .preprepare (.preprepare ⟨⟨0, 5⟩, p⟩) []))

/-- A vote in sequence 5 and round 0. -/
def voteTo (receiver sender : Address) (code : MsgCode) (p : Proposal) : Address × Event :=
  (receiver, .message (.signed sender p.parentHash code (.subject ⟨⟨0, 5⟩, p.hash, p.parentHash⟩) []))

/-- Validators 3 and 4 lock block 5, and validator 3 commits it. -/
def lockAndCommit (p : Proposal) : List (Address × Event) :=
  [proposeTo 3 p, proposeTo 4 p,
   voteTo 3 1 .commit p, voteTo 3 3 .prepare p, voteTo 3 4 .prepare p,
   voteTo 4 1 .commit p, voteTo 4 4 .prepare p, voteTo 4 3 .prepare p,
   voteTo 3 3 .commit p, voteTo 3 4 .commit p]

/-- Validator 1 proposes the old block to validator 2, and later to validators 3 and 4. -/
def commitOldBlock (p : Proposal) : List (Address × Event) :=
  [(3, .timeout ⟨1, 5⟩), (4, .timeout ⟨1, 5⟩), proposeTo 3 p, proposeTo 4 p, proposeTo 2 p,
   voteTo 2 1 .commit p, voteTo 2 3 .commit p, voteTo 2 4 .commit p]

def Core.decisions (c : Core) : List (View × Hash) :=
  c.log.filterMap fun
    | .commit v p _ => some (v, p.hash)
    | _ => none

theorem Core.mem_decisions {v : View} (h : (v, d) ∈ c.decisions) :
    ∃ p seals, .commit v p seals ∈ c.log ∧ p.hash = d := by
  obtain ⟨e, he, heq⟩ := List.mem_filterMap.mp h
  cases e with
  | commit v' p seals =>
    cases heq
    exact ⟨p, seals, he, rfl⟩
  | broadcast | startNewRound | sendRoundChange => cases heq

/-- An authentic delivery of a message that is not an old PRE-PREPARE. -/
def FreshDelivery (byz : Finset Address) (net : Network) (e : Address × Event) : Prop :=
  Authentic byz net e ∧ ∀ m ∈ e.2.handled (net e.1), ∀ pp ∈ m.decodePreprepare,
    pp.proposal.hash ≠ 0 ∧ (net e.1).checkMessage .preprepare pp.view ≠ some .oldMessage

instance (byz : Finset Address) (net : Network) (e : Address × Event) :
    Decidable (FreshDelivery byz net e) :=
  inferInstanceAs (Decidable (_ ∧ _))

theorem FreshDelivery.agreementStep (h : FreshDelivery byz net e) :
    AgreementStep bk env byz σ net e where
  authentic := h.1
  nonzero m hm pp hpp := (h.2 m hm pp hpp).1
  oldAnswers m hm _ pp hpp hcheck := absurd hcheck (h.2 m hm pp hpp).2

/-- Validators 3 and 4 both commit block 5, and nobody commits another one. -/
theorem four_validators_agree :
    let bk : Address → Backend := fun _ _ => fourBlocks
    ∃ net, Runs (step bk .counting) (AgreementStep bk .counting {1} 5)
        (start bk .counting fun _ => true)
        (lockAndCommit (.block 5 14 15) ++
          [voteTo 4 3 .commit (.block 5 14 15), voteTo 4 4 .commit (.block 5 14 15)]) net ∧
      (net 3).decisions = [(⟨0, 5⟩, 15)] ∧ (net 4).decisions = [(⟨0, 5⟩, 15)] ∧
      ∀ a ∉ ({1} : Finset Address), ∀ v p seals, .commit v p seals ∈ (net a).log →
        v.sequence = 5 → p.hash = 15 := by
  intro bk
  obtain ⟨net, hrun, hseen⟩ := Runs.exists_of_exec
    (guarded (step bk .counting) (FreshDelivery {1})) (start bk .counting fun _ => true)
    (lockAndCommit (.block 5 14 15) ++
      [voteTo 4 3 .commit (.block 5 14 15), voteTo 4 4 .commit (.block 5 14 15)])
    (fun net => ((net 3).decisions, (net 4).decisions)) ([(⟨0, 5⟩, 15)], [(⟨0, 5⟩, 15)])
    (by decide +kernel)
  have hruns : Runs (step bk .counting) (AgreementStep bk .counting {1} 5) _ _ net :=
    hrun.of_guarded.mono fun _ _ h => h.agreementStep
  obtain ⟨h3, h4⟩ := Prod.mk.inj hseen
  refine ⟨net, hruns, h3, h4, fun a ha v p seals hmem hv => ?_⟩
  obtain ⟨p', seals', hmem', hp'⟩ := Core.mem_decisions (h3 ▸ List.mem_singleton.mpr rfl)
  rw [← hp']
  exact honest_nodes_agree bk .counting _ {1} _ (fullCommittee [1, 2, 3, 4]) 5
    (.inl ⟨by decide, rfl⟩) (by decide)
    ⟨fun _ _ _ _ _ => ⟨none, rfl⟩, fun _ _ _ _ _ => rfl, fun _ _ _ _ => rfl⟩ hruns
    a ha 3 (by decide) v p seals _ p' seals' hmem hmem' hv rfl

/-- Answers for an old block in the view of block 5: validator 2 commits the one, 3 the other. -/
theorem old_block_breaks_agreement :
    let bk : Address → Backend := fun _ _ => fourBlocks
    SequenceCommittee .counting (fullCommittee [1, 2, 3, 4]) 5 {1, 2, 3, 4} ∧
      ((({1, 2, 3, 4} : Finset Address).filter (· ∈ ({1} : Finset Address))).card : ℤ) ≤
        (fullCommittee [1, 2, 3, 4]).f ∧
      GoodBackends bk {1} (fullCommittee [1, 2, 3, 4]) 5 ∧
      ∃ net, Runs (step bk .counting) (Authentic {1}) (start bk .counting fun _ => true)
          (lockAndCommit (.block 5 14 15) ++ commitOldBlock (.block 1 10 11)) net ∧
        (∃ p seals, .commit ⟨0, 5⟩ p seals ∈ (net 2).log ∧ p.hash = 11) ∧
        ∃ p seals, .commit ⟨0, 5⟩ p seals ∈ (net 3).log ∧ p.hash = 15 := by
  intro bk
  refine ⟨.inl ⟨by decide, rfl⟩, by decide,
    ⟨fun _ _ _ _ _ => ⟨none, rfl⟩, fun _ _ _ _ _ => rfl, fun _ _ _ _ => rfl⟩, ?_⟩
  obtain ⟨net, hrun, hseen⟩ := Runs.exists_of_exec
    (guarded (step bk .counting) (Authentic {1})) (start bk .counting fun _ => true)
    (lockAndCommit (.block 5 14 15) ++ commitOldBlock (.block 1 10 11))
    (fun net => ((net 2).decisions, (net 3).decisions)) ([(⟨0, 5⟩, 11)], [(⟨0, 5⟩, 15)])
    (by decide +kernel)
  obtain ⟨h2, h3⟩ := Prod.mk.inj hseen
  exact ⟨net, hrun.of_guarded, Core.mem_decisions (h2 ▸ List.mem_singleton.mpr rfl),
    Core.mem_decisions (h3 ▸ List.mem_singleton.mpr rfl)⟩

end Kaia
