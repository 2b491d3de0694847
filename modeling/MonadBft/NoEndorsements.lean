import MonadBft.Instance

/-! # One no-endorsement certificate per round

`NoEndorsementState` builds an NEC for the first super-majority of a round and then raises
`earliest_round` above the round. `start_new_round` sets `earliest_round` to the current
round, which is lower when the NEC was for a round ahead of it, while the pending entries
of that round stay.
-/

namespace MonadBft

open NoEndorsementState ConsensusState List Option

/-! ## The state of one round -/

namespace NoEndorsementState

variable {crypto : Crypto} {ns : NoEndorsementState} {author : NodeId} {m : NoEndorsementMessage}
  {validators : ValidatorSet} {mapping : ValidatorMapping}

/-- The assertion fails when a round that has a certificate gets another super-majority. -/
theorem processNoEndorsement_eq_necExists :
    ns.processNoEndorsement crypto author m validators mapping = .error .necExists ↔
      ns.earliestRound ≤ m.msg.round ∧ (ns.getNec m.msg.round).isSome = true ∧
        ∃ sigcol pending, collect crypto validators mapping (.noEndorsement m.msg)
          (ns.bucket m.msg) author m.signature = .ok (some sigcol, pending) := by
  rw [getNec_eq]
  constructor
  · intro h
    obtain other | ⟨-, cause⟩ := processNoEndorsement_error h
    · cases other
    · exact cause
  · rintro ⟨notOver, second, sigcol, pending, collected⟩
    unfold bucket roundState at collected
    unfold roundState at second
    simp only [processNoEndorsement, if_neg (not_lt.mpr notOver), collected, if_pos second]

end NoEndorsementState

/-! ## The rounds that drive it -/

structure NecView where
  currentRound : Round
  state : NoEndorsementState

namespace NecView

inductive Label where
  /-- The pacemaker enters a round. -/
  | enter (round : Round)
  /-- The call at the end of `process_qc`; the view is the one before it. -/
  | startNewRound (before : NecView)
  | process (m : NoEndorsementMessage) (built : Option NoEndorsementCertificate)

/-- A message that `handle_no_endorsement_message` passes on. -/
def InRange (v : NecView) (m : NoEndorsementMessage) : Prop :=
  v.currentRound ≤ m.msg.round ∧ m.msg.round ≤ v.currentRound + futureVoteBound

def startNewRound (v : NecView) : NecView := { v with state := v.state.startNewRound v.currentRound }

inductive Step (crypto : Crypto) : NecView → Label → NecView → Prop where
  | enter {v : NecView} {round : Round} (later : v.currentRound ≤ round) :
      Step crypto v (.enter round) { v with currentRound := round }
  | startNewRound {v : NecView} : Step crypto v (.startNewRound v) v.startNewRound
  | process {v : NecView} {author : NodeId} {m : NoEndorsementMessage} {validators : ValidatorSet}
      {mapping : ValidatorMapping} {built : Option NoEndorsementCertificate} {state : NoEndorsementState}
      (inRange : v.InRange m)
      (done : v.state.processNoEndorsement crypto author m validators mapping = .ok (built, state)) :
      Step crypto v (.process m built) { v with state }

def Free (v : NecView) : Prop := ∀ round, v.currentRound ≤ round → v.state.getNec round = none

/-- Some message fails the assertion that its round has no certificate. -/
def Clashes (crypto : Crypto) (v : NecView) : Prop :=
  ∃ author m validators mapping, v.InRange m ∧
    v.state.processNoEndorsement crypto author m validators mapping = .error .necExists

def builtRounds (labels : List Label) : List Round :=
  labels.filterMap fun
    | .process _ (some nec) => some nec.msg.round
    | _ => none

/-- A certificate that is held came from the signatures of its bucket, which are still there. -/
def Sourced (crypto : Crypto) (ns : NoEndorsementState) (nec : NoEndorsementCertificate) : Prop :=
  ∃ (validators : ValidatorSet) (mapping : ValidatorMapping),
    validators.hasSuperMajorityVotes (ns.bucket nec.msg).keys = .ok true ∧
      crypto.sctNew mapping (.noEndorsement nec.msg) (ns.bucket nec.msg).entries = .ok nec.signatures

structure Inv (crypto : Crypto) (labels : List Label) (v : NecView) : Prop where
  /-- The round of a certificate is over. -/
  ended : ∀ {round nec}, v.state.getNec round = some nec → round < v.state.earliestRound
  /-- A certificate is held until its round is passed. -/
  held : ∀ round ∈ builtRounds labels, (v.state.getNec round).isSome = true ∨ round < v.currentRound
  distinct : (builtRounds labels).Nodup
  sourced : ∀ {round nec}, v.state.getNec round = some nec → nec.msg.round = round ∧
    round ≤ v.currentRound + futureVoteBound ∧ Sourced crypto v.state nec

section Runs

variable {crypto : Crypto} {labels : List Label} {v v' : NecView}

theorem inv_new (round : Round) : Inv crypto [] ⟨round, .new round⟩ where
  ended := fun found => by cases found
  held := by simp [builtRounds]
  distinct := nodup_nil
  sourced := fun found => by cases found

theorem Inv.startNewRound (inv : Inv crypto labels v) (free : v.Free) :
    Inv crypto (labels ++ [.startNewRound v]) v.startNewRound := by
  have none : ∀ round, v.startNewRound.state.getNec round = none := by
    intro round
    rw [NecView.startNewRound, getNec_eq, roundState_startNewRound]
    split
    case isTrue kept => rw [← getNec_eq, free round kept]
    · rfl
  have same : builtRounds (labels ++ [.startNewRound v]) = builtRounds labels := by simp [builtRounds]
  refine ⟨fun {round nec} found => ?_, fun round mem => ?_, same ▸ inv.distinct, fun {round nec} found => ?_⟩
  · rw [none] at found
    cases found
  · obtain held | passed := inv.held round (same ▸ mem)
    · -- what was held is for a round before the current one
      refine .inr (lt_of_not_ge fun notPassed => ?_)
      rw [free round notPassed] at held
      cases held
    · exact .inr passed
  · rw [none] at found
    cases found

/-- A message that does not build a certificate only changes buckets of rounds that are not over. -/
theorem Inv.process (inv : Inv crypto labels v) {author : NodeId} {m : NoEndorsementMessage} {validators : ValidatorSet}
    {mapping : ValidatorMapping} {built : Option NoEndorsementCertificate} {state : NoEndorsementState}
    (inRange : v.InRange m)
    (done : v.state.processNoEndorsement crypto author m validators mapping = .ok (built, state)) :
    Inv crypto (labels ++ [.process m built]) { v with state } := by
  obtain ⟨rfl, rfl⟩ | ⟨sigcol?, pending, notOver, collected, ⟨rfl, rfl, rfl⟩ | ⟨sigcol, rfl, first, rfl, rfl⟩⟩ :=
    processNoEndorsement_cases done
  · have same : builtRounds (labels ++ [.process m none]) = builtRounds labels := by simp [builtRounds]
    exact ⟨inv.ended, same ▸ inv.held, same ▸ inv.distinct, inv.sourced⟩
  · have same : builtRounds (labels ++ [.process m none]) = builtRounds labels := by simp [builtRounds]
    have nec : ∀ round, (if round = m.msg.round then (v.state.roundState m.msg.round).certificate
        else v.state.getNec round) = v.state.getNec round := by
      intro round
      split
      case isTrue sameRound => rw [sameRound, getNec_eq]
      · rfl
    refine ⟨fun {round c} found => ?_, fun round mem => ?_, same ▸ inv.distinct, fun {round c} found => ?_⟩
    · rw [getNec_insert, nec] at found
      exact inv.ended found
    · rw [getNec_insert, nec]
      exact inv.held round (same ▸ mem)
    · rw [getNec_insert, nec] at found
      obtain ⟨isRound, bound, source⟩ := inv.sourced found
      refine ⟨isRound, bound, ?_⟩
      have other : c.msg.round ≠ m.msg.round := by
        have := inv.ended found
        lia
      unfold Sourced bucket at source ⊢
      rwa [roundState_insert, if_neg other]
  · -- the certificate is the first of its round
    have fresh : m.msg.round ∉ builtRounds labels := by
      intro mem
      obtain held | passed := inv.held _ mem
      · rw [getNec_eq, first] at held
        cases held
      · exact absurd inRange.1 (not_le.mpr passed)
    have rounds : builtRounds (labels ++ [.process m (some ⟨m.msg, sigcol⟩)]) = builtRounds labels ++
      [m.msg.round] := by
      simp [builtRounds]
    refine ⟨fun {round c} found => ?_, fun round mem => ?_, ?_, fun {round c} found => ?_⟩
    · rw [getNec_insert] at found
      split at found
      · lia
      · have := inv.ended found
        lia
    · rw [rounds] at mem
      rw [getNec_insert]
      obtain old | new := mem_append.mp mem
      · obtain held | passed := inv.held round old
        · refine .inl ?_
          split
          · rfl
          · exact held
        · exact .inr passed
      · simp [mem_singleton.mp new]
    · rw [rounds, nodup_append]
      refine ⟨inv.distinct, nodup_singleton _, ?_⟩
      rintro a old b new rfl
      exact fresh (mem_singleton.mp new ▸ old)
    · rw [getNec_insert] at found
      split at found
      case isTrue sameRound =>
        obtain rfl := some.inj found
        obtain ⟨enough, aggregated⟩ := (aggregate_eq_ok collected).2 sigcol rfl
        refine ⟨sameRound.symm, sameRound ▸ inRange.2, validators, mapping, ?_⟩
        simp only [bucket, roundState_insert, if_pos, SortedMap.get?_insert_self, getD_some]
        exact ⟨enough, aggregated⟩
      case isFalse otherRound =>
        obtain ⟨isRound, bound, source⟩ := inv.sourced found
        refine ⟨isRound, bound, ?_⟩
        unfold Sourced bucket at source ⊢
        rwa [roundState_insert, if_neg (isRound ▸ otherRound)]

theorem Inv.step (inv : Inv crypto labels v) {label : Label} (taken : Step crypto v label v')
    (free : ∀ before, label = .startNewRound before → before.Free) : Inv crypto (labels ++ [label]) v' := by
  cases taken with
  | enter later =>
    rename_i round
    have same : builtRounds (labels ++ [.enter round]) = builtRounds labels := by simp [builtRounds]
    refine ⟨inv.ended, fun r mem => ?_, same ▸ inv.distinct, fun {r nec} found => ?_⟩
    · exact (inv.held r (same ▸ mem)).imp_right fun passed => passed.trans_le later
    · obtain ⟨isRound, bound, source⟩ := inv.sourced found
      refine ⟨isRound, ?_, source⟩
      simp only
      lia
  | startNewRound => exact inv.startNewRound (free v rfl)
  | process inRange done => exact inv.process inRange done

theorem inv_of_trace {round : Round} (run : Trace (Step crypto) ⟨round, .new round⟩ labels v)
    (free : ∀ before, .startNewRound before ∈ labels → before.Free) : Inv crypto labels v := by
  induction run with
  | nil => exact inv_new round
  | snoc _ taken ih =>
    refine (ih fun before mem => free before (mem_append_left _ mem)).step taken ?_
    rintro before rfl
    exact free before (by simp)

theorem not_clashes (ended : ∀ {round nec}, v.state.getNec round = some nec → round < v.state.earliestRound) :
    ¬ v.Clashes crypto := by
  rintro ⟨author, m, validators, mapping, -, failed⟩
  obtain ⟨notOver, second, -⟩ := processNoEndorsement_eq_necExists.mp failed
  obtain ⟨nec, found⟩ := isSome_iff_exists.mp second
  exact absurd notOver (not_le.mpr (ended found))

/-- One more copy of a pending message brings the super-majority of a held certificate again. -/
theorem Inv.clashes (inv : Inv crypto labels v) (notFree : ¬ v.Free) : v.startNewRound.Clashes crypto := by
  obtain ⟨round, notPassed, isHeld⟩ : ∃ round, v.currentRound ≤ round ∧ v.state.getNec round ≠ none := by
    simpa [Free] using notFree
  obtain ⟨nec, found⟩ := ne_none_iff_exists'.mp isHeld
  obtain ⟨rfl, bound, validators, mapping, enough, aggregated⟩ := inv.sourced found
  have kept : v.startNewRound.state.roundState nec.msg.round = v.state.roundState nec.msg.round := by
    rw [NecView.startNewRound, roundState_startNewRound, if_pos notPassed]
  have sameBucket : v.startNewRound.state.bucket nec.msg = v.state.bucket nec.msg := by
    unfold bucket
    rw [kept]
  -- a super-majority is not empty
  obtain ⟨⟨a, sig⟩, mem⟩ : ∃ e, e ∈ v.state.bucket nec.msg := by
    by_contra empty
    have : (v.state.bucket nec.msg).keys = [] := by
      simpa [SortedMap.keys, SortedMap.mem_def, eq_nil_iff_forall_not_mem] using empty
    rw [this] at enough
    have threshold := (ValidatorSet.hasThresholdVotes_eq_ok_true.mp enough).2
    simp [ValidatorSet.superMajority] at threshold
  refine ⟨a, { msg := nec.msg, signature := sig }, validators, mapping, ⟨notPassed, bound⟩, ?_⟩
  refine processNoEndorsement_eq_necExists.mpr ⟨notPassed, ?_, nec.signatures, ?_⟩
  · rw [getNec_eq, kept, ← getNec_eq, found]
    rfl
  · refine ⟨v.state.bucket nec.msg, ?_⟩
    simp only [sameBucket, collect, SortedMap.insert_of_mem mem, aggregate, enough, aggregated]

/-- In a run whose calls of `start_new_round` all find no certificate for the current round or a later one, each round
gets at most one certificate and the assertion does not fail; and the assertion fails for some message after another
call exactly if that call finds one. -/
theorem nec_unique {round : Round} (run : Trace (Step crypto) ⟨round, .new round⟩ labels v)
    (free : ∀ before, .startNewRound before ∈ labels → before.Free) :
    (builtRounds labels).Nodup ∧ ¬ v.Clashes crypto ∧ (v.Free ↔ ¬ v.startNewRound.Clashes crypto) := by
  have inv := inv_of_trace run free
  refine ⟨inv.distinct, not_clashes inv.ended, fun isFree => not_clashes (inv.startNewRound isFree).ended,
    fun safe => ?_⟩
  by_contra notFree
  exact safe (inv.clashes notFree)

end Runs

section Witness

open FourValidators

/-- Validator `n` does not endorse a tip of round `round` on the genesis QC. -/
def noEndorsementBy (n : NodeId) (round : Round) : NoEndorsementMessage where
  msg := { epoch := 1, round, tipQcRound := 0 }
  signature := [n]

/-- The state with the signatures of some validators for round one. -/
def pendingOf (nodes : List NodeId) (certificate : Option NoEndorsementCertificate) (earliestRound : Round) :
    NoEndorsementState where
  pendingNoEndorsements := .insert .empty 1 {
    qcRoundNoEndorsements := .insert .empty 0 (nodes.foldl (fun sigs n => sigs.insert n [n]) .empty)
    certificate }
  earliestRound

/-- The certificate of round one by three validators. -/
def nec₁ : NoEndorsementCertificate := ⟨(noEndorsementBy 3 1).msg, [0, 1, 3]⟩

/-- An NEC of round one is built, and a QC leads to round two. -/
theorem nec_unique_passed : ∃ labels v, Trace (Step crypto) ⟨1, .new 1⟩ labels v ∧ builtRounds labels = [1] ∧
    v.currentRound = 2 ∧ (∃ before, .startNewRound before ∈ labels) ∧
    (builtRounds labels).Nodup ∧ ¬ v.Clashes crypto ∧ (v.Free ↔ ¬ v.startNewRound.Clashes crypto) := by
  have step₁ : Step crypto ⟨1, .new 1⟩ (.process (noEndorsementBy 0 1) none) ⟨1, pendingOf [0] none 1⟩ :=
    @Step.process crypto ⟨1, _⟩ 0 _ validators mapping _ _ ⟨by decide, by decide⟩ rfl
  have step₂ : Step crypto ⟨1, pendingOf [0] none 1⟩ (.process (noEndorsementBy 1 1) none)
    ⟨1, pendingOf [0, 1] none 1⟩ :=
    @Step.process crypto ⟨1, _⟩ 1 _ validators mapping _ _ ⟨by decide, by decide⟩ rfl
  have step₃ : Step crypto ⟨1, pendingOf [0, 1] none 1⟩ (.process (noEndorsementBy 3 1) (some nec₁))
      ⟨1, pendingOf [0, 1, 3] (some nec₁) 2⟩ :=
    @Step.process crypto ⟨1, _⟩ 3 _ validators mapping _ _ ⟨by decide, by decide⟩ rfl
  have entered := ((Trace.single step₁).snoc step₂).snoc step₃ |>.snoc (.enter (by decide : 1 ≤ 2))
  have inv := inv_of_trace entered (by simp)
  have started := entered.snoc .startNewRound
  refine ⟨_, _, started, rfl, rfl, ⟨⟨2, pendingOf [0, 1, 3] (some nec₁) 2⟩, by simp⟩, nec_unique started
    fun before mem => ?_⟩
  obtain rfl : before = ⟨2, pendingOf [0, 1, 3] (some nec₁) 2⟩ := by simpa using mem
  intro round notPassed
  by_contra isHeld
  obtain ⟨nec, found⟩ := ne_none_iff_exists'.mp isHeld
  exact absurd notPassed (not_le.mpr (inv.ended found))

end Witness

end NecView

/-! ## Replicas -/

def ConsensusState.necView (s : ConsensusState) : NecView := ⟨s.getCurrentRound, s.noEndorsementState⟩

section Replicas

variable {K : Evidence} {net : Network} {node : Node} {s s' : ConsensusState}

/-- A step of a replica enters a round, makes a call of `NoEndorsementState`, or keeps both. -/
theorem Step.necView_trace {label : Label} (taken : Step K net node s label s') :
    ∃ labels, Trace (NecView.Step net.crypto) s.necView labels s'.necView := by
  have mono := taken.round_mono
  have frame := taken.frame
  cases taken with
  | advance now evidence newer known => exact ⟨_, .single (.enter mono)⟩
  | noEndorse now author handled evidence inRound isTip done => exact ⟨[], .nil⟩
  | proposeTip now basis done =>
    obtain ⟨_, _, rfl⟩ := proposed_of_proposeTip done
    exact ⟨[], .nil⟩
  | proposeFresh now basis looked known leads inEpoch done =>
    obtain ⟨_, _, rfl⟩ := proposed_of_proposeFresh done
    exact ⟨[], .nil⟩
  | bookkeeping quiet =>
    have round := (frame trivial).round
    have view : s'.necView = { s.necView with state := s'.noEndorsementState } := by
      rw [necView, round]
      rfl
    have call := quiet.noEndorsements
    rw [view]
    generalize s'.noEndorsementState = ns at call ⊢
    cases call with
    | none => exact ⟨[], .nil⟩
    | startNewRound => exact ⟨_, .single .startNewRound⟩
    | process notOld notFuture done =>
      have inRange : s.necView.InRange _ := ⟨notOld, notFuture⟩
      exact ⟨_, .single (.process inRange done)⟩
  | vote | sendVote | timeout | addBlock | markCoherent | commit => exact ⟨[], .nil⟩

theorem necTrace_of_trace {labels : List Label} (run : Trace (Step K net node) s labels s') :
    ∃ labels, Trace (NecView.Step net.crypto) s.necView labels s'.necView := by
  induction run with
  | nil => exact ⟨[], .nil⟩
  | snoc _ taken ih =>
    obtain ⟨before, earlier⟩ := ih
    obtain ⟨after, last⟩ := taken.necView_trace
    exact ⟨before ++ after, earlier.append last⟩

variable {em : EpochManager} {root : RootInfo} {highCertificate : RoundCertificate} {history : List Replica.Handled}
  {r : Replica}

end Replicas

open FourValidators

/-- A leader gets three no-endorsements for round five in round one, then the QC of round one, then a fourth
no-endorsement. -/
theorem nec_exists_twice : ∃ history r, Replica.RunFrom net (node 0) epochManager genesisRoot
    (.qc crypto.genesisQc) history r ∧
    r.update (env 0) (signedBy 2 (.noEndorsement (NecView.noEndorsementBy 2 5))) = .panic .necExists := by
  obtain ⟨history, r, run, -, holds⟩ := exists_run 0
    [signedBy 0 (.noEndorsement (NecView.noEndorsementBy 0 5)),
     signedBy 1 (.noEndorsement (NecView.noEndorsementBy 1 5)),
     signedBy 3 (.noEndorsement (NecView.noEndorsementBy 3 5)),
       advanceRound (.qc (qcFor 1 (block 1 crypto.genesisQc 1 0)))]
    (fun r _ => decide ((r.update (env 0) (signedBy 2 (.noEndorsement (NecView.noEndorsementBy 2 5)))).reason? =
      some .necExists))
    (by decide +kernel)
  exact ⟨history, r, run, Outcome.reason?_eq_some.mp (of_decide_eq_true holds)⟩

end MonadBft
