import MonadBft.Invariants

/-! # The handlers are made of elementary steps

Every handler either returns after a run of elementary steps that emitted its commands, or
stops with a panic that is not one of the assertions of the safety module, the pacemaker
and the vote scheduler.
-/

namespace MonadBft

open SortedMap BlockTree Option Except

/-- The assertions of `Safety`, of `process_remote_timeout` and of `try_vote`. -/
def Panic.isProtocolAssertion : Panic → Bool
  | .safetyVote | .safetyTimeout | .safetyPropose | .safetyNoEndorse | .safetyRecoveryRequest
  | .safetyHandleProposal | .timeoutRound | .phaseZero | .voteScheduled => true
  | _ => false

/-- Neither one of these assertions nor the one that a round has no second NEC. -/
def Panic.isOther : Panic → Bool
  | .necExists => false
  | reason => !reason.isProtocolAssertion

theorem Panic.isOther_iff {reason : Panic} :
    reason.isOther = true ↔ reason.isProtocolAssertion = false ∧ reason ≠ .necExists := by
  cases reason <;> simp [isOther, isProtocolAssertion]

/-- A no-endorsement message that the replica would process makes it build a second NEC for its round. -/
def ConsensusState.NecClash (crypto : Crypto) (s : ConsensusState) : Prop :=
  ∃ author m validators mapping, s.getCurrentRound ≤ m.msg.round ∧
    m.msg.round ≤ s.getCurrentRound + ConsensusState.futureVoteBound ∧
    s.noEndorsementState.processNoEndorsement crypto author m validators mapping = .error .necExists

/-- A call from `s` may stop for this reason. -/
def PanicFrom (K : Evidence) (env : Env) (s : ConsensusState) (reason : Panic) : Prop :=
  reason.isProtocolAssertion = false ∧ (reason = .necExists → ∃ labels s',
    Trace (Step K env.net env.node) s labels s' ∧ s'.NecClash env.net.crypto)

/-- The call is a run of steps from `s` to a state with `Q`. -/
def Emits (K : Evidence) (env : Env) (e : ConsensusEvent) (s : ConsensusState) (x : Call)
    (Q : ConsensusState → Prop) : Prop :=
  Marks s → Supported K env.net.crypto s →
    x.Sat (PanicFrom K env s) fun s' commands =>
      ∃ labels, Trace (Step K env.net env.node) s labels s' ∧ commands = labels.flatMap (·.commands) ∧
        (∀ l ∈ labels, l.event = e) ∧ Q s'

section Rules

variable {K : Evidence} {net : Network} {node : Node} {s s' : ConsensusState}

variable {labels : List Label}

section

variable (run : Trace (Step K net node) s labels s')

include run

theorem marks_of_trace (marks : Marks s) : Marks s' := by
  induction run with
  | nil => exact marks
  | snoc _ taken ih => exact taken.marks ih

theorem supported_of_trace (supported : Supported K net.crypto s) : Supported K net.crypto s' := by
  induction run with
  | nil => exact supported
  | snoc _ taken ih => exact taken.supported ih

theorem round_mono_of_trace : s.getCurrentRound ≤ s'.getCurrentRound := by
  induction run with
  | nil => exact le_rfl
  | snoc _ taken ih => exact ih.trans taken.round_mono

end

theorem PanicFrom.of_trace {env : Env} {reason : Panic} (run : Trace (Step K env.net env.node) s labels s')
    (h : PanicFrom K env s' reason) : PanicFrom K env s reason := by
  refine ⟨h.1, fun clash => ?_⟩
  obtain ⟨labels', s'', run', clashes⟩ := h.2 clash
  exact ⟨labels ++ labels', s'', run.append run', clashes⟩

end Rules

namespace Emits

variable {K : Evidence} {env : Env} {e : ConsensusEvent} {s s₁ s' : ConsensusState} {x : Call}
  {P Q : ConsensusState → Prop}

theorem andThen {next : ConsensusState → Call} (first : Emits K env e s x P)
    (second : ∀ s₁, s.getCurrentRound ≤ s₁.getCurrentRound → P s₁ → Emits K env e s₁ (next s₁) Q) :
    Emits K env e s (x.andThen next) Q := by
  intro marks supported
  refine (first marks supported).andThen ?_
  rintro s₁ commands ⟨labels, run, rfl, tagged, post⟩
  have marks₁ := marks_of_trace run marks
  have supported₁ := supported_of_trace run supported
  refine (second s₁ (round_mono_of_trace run) post marks₁ supported₁).mono (fun _ => .of_trace run) ?_
  rintro s₂ commands₂ ⟨labels₂, run₂, rfl, tagged₂, post₂⟩
  refine ⟨labels ++ labels₂, run.append run₂, by simp, ?_, post₂⟩
  intro l member
  exact (List.mem_append.mp member).elim (tagged l) (tagged₂ l)

theorem stay (post : Q s) : Emits K env e s (.ok s []) Q := fun _ _ => ⟨[], .nil, rfl, by simp, post⟩

theorem panic {reason : Panic} (allowed : reason.isOther = true) : Emits K env e s (.panic reason) Q := by
  obtain ⟨noAssertion, noClash⟩ := Panic.isOther_iff.mp allowed
  exact fun _ _ => ⟨noAssertion, fun clash => absurd clash noClash⟩

theorem treePanic {reason : Panic} (h : BlockTree.IsTreePanic reason) : Emits K env e s (.panic reason) Q := by
  obtain rfl | rfl := h
  all_goals exact .panic rfl

theorem step {action : Action} {commands : List ConsensusCommand}
    (taken : Step K env.net env.node s ⟨e, action, commands⟩ s') (post : Q s') : Emits K env e s (.ok s' commands) Q :=
  fun _ _ => ⟨[_], .single taken, by simp, by simp, post⟩

/-- A step without commands before the call. -/
theorem prepend {action : Action} (taken : Step K env.net env.node s ⟨e, action, []⟩ s₁) (rest : Emits K env e s₁ x Q) :
    Emits K env e s x Q := by
  intro marks supported
  refine (rest (taken.marks marks) (taken.supported supported)).mono (fun _ => .of_trace (.single taken)) ?_
  rintro s' commands ⟨labels, run, rfl, tagged, post⟩
  exact ⟨_ :: labels, run.cons taken, by simp, by simpa using tagged, post⟩

theorem mono (h : Emits K env e s x P) (post : ∀ s', s.getCurrentRound ≤ s'.getCurrentRound → P s' → Q s') :
    Emits K env e s x Q := by
  intro marks supported
  refine (h marks supported).mono (fun _ allowed => allowed) ?_
  rintro s' commands ⟨labels, run, emitted, tagged, post'⟩
  exact ⟨labels, run, emitted, tagged, post s' (round_mono_of_trace run) post'⟩

theorem intro (h : Marks s → Supported K env.net.crypto s → Emits K env e s x Q) : Emits K env e s x Q :=
  fun marks supported => h marks supported marks supported

end Emits

namespace ConsensusState

variable {K : Evidence} {env : Env} {e : ConsensusEvent} {s : ConsensusState}

/-- What a proposal depends on, apart from the block tree. -/
def SameBasis (s s' : ConsensusState) : Prop :=
  s'.safety = s.safety ∧ s'.pacemaker = s.pacemaker ∧ s'.noEndorsementState = s.noEndorsementState ∧
    s.epochManager.Extends s'.epochManager

theorem SameBasis.refl (s : ConsensusState) : SameBasis s s := ⟨rfl, rfl, rfl, .refl _⟩

variable {s₁ s₂ s₃ s s' : ConsensusState} {qc : QuorumCertificate} {fresh : Option FreshProposalCertificate}
  {lastRoundTc : Option TimeoutCertificate}

theorem SameBasis.trans (h : SameBasis s₁ s₂) (h' : SameBasis s₂ s₃) : SameBasis s₁ s₃ :=
  ⟨h'.1.trans h.1, h'.2.1.trans h.2.1, h'.2.2.1.trans h.2.2.1, h.2.2.2.trans h'.2.2.2⟩

theorem SameBasis.round (h : SameBasis s s') : s'.getCurrentRound = s.getCurrentRound := by
  simp [getCurrentRound, h.2.1]

/-- No vote, timeout or no-endorsement happened between the states, and no timeout was recorded. -/
structure Unsigned (s s' : ConsensusState) : Prop where
  voted : s'.safety.highestVote = s.safety.highestVote
  noEndorsed : s'.safety.highestNoEndorse = s.safety.highestNoEndorse
  tip : s'.safety.maybeHighTip = s.safety.maybeHighTip ∨ s'.safety.maybeHighTip = none
  timeouts : (s'.getCurrentRound = s.getCurrentRound ∧ s'.pacemaker.pendingTimeouts = s.pacemaker.pendingTimeouts) ∨
    (s.getCurrentRound < s'.getCurrentRound ∧ s'.pacemaker.pendingTimeouts = .empty)

theorem SameBasis.unsigned (h : SameBasis s s') : Unsigned s s' := by
  obtain ⟨safety, pacemaker, -, -⟩ := h
  exact ⟨by rw [safety], by rw [safety], by simp [safety], .inl (by simp [getCurrentRound, pacemaker])⟩

theorem Unsigned.refl (s : ConsensusState) : Unsigned s s := (SameBasis.refl s).unsigned

theorem Unsigned.trans (h : Unsigned s₁ s₂) (h' : Unsigned s₂ s₃) : Unsigned s₁ s₃ where
  voted := h'.voted.trans h.voted
  noEndorsed := h'.noEndorsed.trans h.noEndorsed
  tip := by
    obtain same' | none' := h'.tip
    · obtain same | none := h.tip
      · exact .inl (same'.trans same)
      · exact .inr (same'.trans none)
    · exact .inr none'
  timeouts := by
    obtain ⟨round, same⟩ | ⟨round, cleared⟩ := h.timeouts <;>
      obtain ⟨round', same'⟩ | ⟨round', cleared'⟩ := h'.timeouts
    · exact .inl ⟨round'.trans round, same'.trans same⟩
    · exact .inr ⟨round ▸ round', cleared'⟩
    · exact .inr ⟨round'.symm ▸ round, same'.trans cleared⟩
    · exact .inr ⟨round.trans round', cleared'⟩

/-! ## Block sync requests -/

/-- New votes, no-endorsements and requests that have evidence are bookkeeping. -/
theorem bookkeeping_of_supported {commands : List ConsensusCommand} {voteState : VoteState}
    {noEndorsementState : NoEndorsementState} {requests : AList fun _ : BlockId => BlockSyncRequestStatus}
    (calls : NoEndorsementCall env.net.crypto s noEndorsementState) (quiet : ∀ c ∈ commands, c.IsQuiet)
    (silent : ∀ {target m}, .publish target m ∉ commands) (supported : Supported K env.net.crypto s →
      Supported K env.net.crypto { s with voteState, noEndorsementState, blockSyncRequests := requests }) :
    Step K env.net env.node s ⟨e, .bookkeeping, commands⟩
      { s with voteState, noEndorsementState, blockSyncRequests := requests } :=
  .bookkeeping ⟨rfl, rfl, ⟨_, rfl⟩, ⟨_, rfl⟩, .inl rfl, calls, quiet, fun mem => absurd mem silent, supported⟩

theorem requestRange_emits {range : BlockRange} {cancelRound : Round}
    (evidence : ∀ header, env.net.crypto.getId header = range.lastBlockId → K.block header) :
    Emits K env e s (s.requestRange range cancelRound) (SameBasis s) := by
  unfold requestRange
  split
  · exact .stay (.refl s)
  · refine .step (bookkeeping_of_supported .none (by simp [ConsensusCommand.IsQuiet]) (by simp) fun supported => ?_)
      ⟨rfl, rfl, rfl, .refl _⟩
    refine { supported with requests := ?_ }
    intro id status header found same
    by_cases new : id = range.lastBlockId
    · exact evidence header (same.trans new)
    · exact supported.requests ((AList.lookup_insert_ne new).symm.trans found) same

theorem requestBlocksIfMissingAncestor_emits (closed : K.Closed env.net) :
    Emits K env e s s.requestBlocksIfMissingAncestor (SameBasis s) := by
  refine .intro fun _ supported => ?_
  simp only [requestBlocksIfMissingAncestor]
  split
  case h_1 e failed => exact .treePanic (maybeFillPathToRoot_error failed)
  · exact .stay (.refl s)
  case h_3 range missing =>
    split
    · exact .panic rfl
    · refine requestRange_emits fun header same => ?_
      unfold maybeFillPathToRoot at missing
      split at missing
      · cases missing
      obtain ofQc | ⟨id, block, found, ofParent⟩ := fillPathToRoot_eq_ok missing
      · exact closed.certified (closed.qcOfCert supported.certificate) (same.trans ofQc)
      · obtain ⟨e, stored, rfl⟩ := map_eq_some_iff.mp found
        exact closed.certified (closed.qcOfBlock (supported.blocks stored)) (same.trans ofParent)

theorem requestTipIfMissing_emits (closed : K.Closed env.net) :
    Emits K env e s (s.requestTipIfMissing env) (SameBasis s) := by
  refine .intro fun _ supported => ?_
  unfold requestTipIfMissing
  split
  · exact .stay (.refl s)
  case h_2 tc high =>
    have evidence : K.tc tc := by simpa [high, Evidence.cert] using supported.certificate
    split
    · exact .stay (.refl s)
    case h_2 tip isTip =>
      simp only
      split
      · exact .stay (.refl s)
      · refine requestRange_emits fun header same => ?_
        exact closed.blockOfTc evidence isTip same

theorem lookup_foldl_erase {β : BlockId → Type} {entries : List (Sigma β)} {requests : AList β} {id : BlockId}
    {status : β id} (found : (entries.foldl (fun requests e => requests.erase e.1) requests).lookup id = some status) :
    requests.lookup id = some status := by
  induction entries generalizing requests with
  | nil => exact found
  | cons e rest ih =>
    have kept := ih found
    by_cases same : id = e.1
    · subst same
      simp at kept
    · rwa [AList.lookup_erase_ne same] at kept

theorem cancelObsoleteRequests_emits : Emits K env e s s.cancelObsoleteRequests (SameBasis s) := by
  refine .step (bookkeeping_of_supported .none ?_ (by simp) fun supported => ?_) ⟨rfl, rfl, rfl, .refl _⟩
  · intro c hc
    obtain ⟨e, -, rfl⟩ := List.mem_map.mp hc
    trivial
  · exact { supported with requests := fun found same => supported.requests (lookup_foldl_erase found) same }

/-! ## Committing and coherency -/

theorem tryCommit_emits (evidence : K.qc qc) : Emits K env e s (s.tryCommit env qc) (SameBasis s) := by
  unfold tryCommit
  split
  · exact .stay (.refl s)
  case h_2 qcParent parent =>
    split
    · exact .stay (.refl s)
    case h_2 committable isCommittable =>
      split
      · exact .stay (.refl s)
      split
      case h_1 failed => exact .treePanic (prune_error failed)
      case h_2 blocks bt pruned =>
        split
        · exact .panic rfl
        case h_2 em scheduled =>
          refine .step (.commit evidence parent isCommittable pruned scheduled) ⟨rfl, rfl, rfl, ?_⟩
          exact extends_scheduleEpochStarts scheduled

theorem tryUpdateCoherency_emits (closed : K.Closed env.net) {updated : BlockId} :
    Emits K env e s (s.tryUpdateCoherency env updated) (SameBasis s) := by
  unfold tryUpdateCoherency
  split
  case h_1 failed => exact .treePanic (tryUpdateCoherency_error failed)
  case h_2 bt newlyCoherent done =>
    refine Emits.andThen (P := SameBasis s) (.step (.markCoherent env.now done) ⟨rfl, rfl, rfl, .refl _⟩)
      fun s₁ _ same => ?_
    refine .intro fun _ supported => ?_
    split
    case h_1 failed => exact .treePanic (getHighCommittableQc_error failed)
    · exact .stay same
    case h_3 qc high =>
      obtain ⟨⟨⟩⟩ | ⟨id, block, found, rfl⟩ := highCommittableQc_eq_ok high
      obtain ⟨e, stored, rfl⟩ := map_eq_some_iff.mp found
      refine (tryCommit_emits ?_).mono fun s₂ _ same₂ => same.trans same₂
      exact closed.qcOfBlock (supported.blocks stored)

theorem maybeStatesync_emits : Emits K env e s (s.maybeStatesync env) (SameBasis s) := by
  unfold maybeStatesync
  split
  · exact .stay (.refl s)
  · split
    · exact .stay (.refl s)
    · exact .panic rfl

/-! ## Proposing -/

theorem proposalBasis_of_sameBasis (same : SameBasis s s') : s'.proposalBasis = s.proposalBasis := by
  simp [proposalBasis, getCurrentRound, same.2.1, same.2.2.1]

theorem unsigned_of_proposed (h : Proposed s s') : Unsigned s s' := by
  obtain ⟨_, _, rfl⟩ := h
  exact ⟨rfl, rfl, .inl rfl, .inl ⟨rfl, rfl⟩⟩

theorem proposeTip_emits {tip : ConsensusTip} (basis : s.proposalBasis = (.tip tip, fresh, lastRoundTc))
    (safe : s.safety.isSafeToPropose s.getCurrentRound = true) :
    Emits K env e s (s.proposeTip env tip lastRoundTc) (Unsigned s) := by
  cases done : s.proposeTip env tip lastRoundTc with
  | ok s' commands => exact .step (.proposeTip env.now basis done) (unsigned_of_proposed (proposed_of_proposeTip done))
  | panic e =>
    refine .panic ?_
    simp only [proposeTip, Safety.recoveryRequest, Safety.propose] at done
    grind [Panic.isOther, Panic.isProtocolAssertion]

theorem proposeFresh_emits {schedule : EpochManager} {epoch : Epoch} {validators : ValidatorSet}
    {mapping : ValidatorMapping} (basis : s.proposalBasis = (.qc qc, fresh, lastRoundTc))
    (looked : schedule.getEpoch s.getCurrentRound = some epoch)
    (known : env.net.valEpochMap epoch = some (validators, mapping))
    (leads : env.node.nodeid = env.net.getLeader s.getCurrentRound validators.validators)
    (inEpoch : s.getCurrentEpoch ≤ epoch ∧ ∀ e, s.epochManager.getEpoch s.getCurrentRound = some e → epoch ≤ e)
    (safe : s.safety.isSafeToPropose s.getCurrentRound = true) :
    Emits K env e s (s.proposeFresh env epoch qc fresh lastRoundTc) (Unsigned s) := by
  cases done : s.proposeFresh env epoch qc fresh lastRoundTc with
  | ok s' commands =>
    exact .step (.proposeFresh env.now basis looked known leads inEpoch done)
      (unsigned_of_proposed (proposed_of_proposeFresh done))
  | panic e =>
    refine .panic ?_
    simp only [proposeFresh, Safety.propose] at done
    grind [Panic.isOther, Panic.isProtocolAssertion]

theorem tryPropose_emits (closed : K.Closed env.net) : Emits K env e s (s.tryPropose env) (Unsigned s) := by
  refine .intro fun marks _ => ?_
  unfold tryPropose
  simp only
  split
  · exact .panic rfl
  case h_2 epoch looked =>
  have notBehind : s.getCurrentEpoch ≤ epoch := by
    obtain ⟨e, known, le⟩ := marks.epoch
    obtain rfl := some.inj (known.symm.trans looked)
    exact le
  split
  · exact .panic rfl
  case h_2 validators mapping known =>
  split
  · exact .stay (.refl s)
  case isFalse leads =>
  refine (requestTipIfMissing_emits closed).andThen fun s₁ _ same => ?_
  split
  · exact .stay same.unsigned
  case isFalse safe =>
    have safe₁ : s₁.safety.isSafeToPropose s.getCurrentRound = true := by simpa using safe
    -- marking blocks coherent and committing change neither the basis nor the safety marks
    have safeAfter : ∀ {s₂}, SameBasis s₁ s₂ → s₂.safety.isSafeToPropose s₂.getCurrentRound = true := by
      intro s₂ same₂
      rw [same₂.round, same.round, same₂.1]
      exact safe₁
    split
    case h_1 basis =>
      refine (tryUpdateCoherency_emits closed).andThen fun s₂ _ same₂ => ?_
      refine (proposeTip_emits ((proposalBasis_of_sameBasis same₂).trans basis) (safeAfter same₂)).mono ?_
      exact fun s₃ _ unsigned => ((same.trans same₂).unsigned).trans unsigned
    case h_2 basis =>
      refine (tryUpdateCoherency_emits closed).andThen fun s₂ _ same₂ => ?_
      have round := (same.trans same₂).round
      have inEpoch : s₂.getCurrentEpoch ≤ epoch ∧
          ∀ e, s₂.epochManager.getEpoch s₂.getCurrentRound = some e → epoch ≤ e := by
        obtain ⟨-, pacemaker, -, grows⟩ := same.trans same₂
        refine ⟨by simpa [getCurrentEpoch, pacemaker] using notBehind, fun e known => ?_⟩
        obtain ⟨e', known', le⟩ := grows _ _ looked
        rw [round] at known
        exact (some.inj (known'.symm.trans known)) ▸ le
      refine (proposeFresh_emits ((proposalBasis_of_sameBasis same₂).trans basis) (round ▸ looked) known
        (round ▸ not_not.mp leads) inEpoch (safeAfter same₂)).mono ?_
      exact fun s₃ _ unsigned => ((same.trans same₂).unsigned).trans unsigned

end ConsensusState

/-! ## Collecting votes -/

section Votes

variable {crypto : Crypto} {validators : ValidatorSet} {mapping : ValidatorMapping}

variable {msg : SignedMessage} {e : Panic} {author : NodeId} {voteMsg : VoteMessage} {backed : NodeId → Vote → Prop}
  {m : NoEndorsementMessage} {nec : NoEndorsementCertificate} {ns : NoEndorsementState}
  {pending : SortedMap NodeId Bytes} {vs : VoteState}

theorem aggregate_eq_ok {fuel : Nat} {pending' : SortedMap NodeId Bytes} {built : Option Bytes}
    (h : aggregate crypto validators mapping msg fuel pending = .ok (built, pending')) :
    (∀ e ∈ pending', e ∈ pending) ∧ ∀ sigcol, built = some sigcol →
      validators.hasSuperMajorityVotes pending'.keys = .ok true ∧
        crypto.sctNew mapping msg pending'.entries = .ok sigcol := by
  induction fuel generalizing pending with
  | zero => cases h
  | succ fuel ih =>
    unfold aggregate at h
    split at h
    · cases h
    · obtain ⟨rfl, rfl⟩ := Prod.mk.inj (ok.inj h)
      exact ⟨fun _ he => he, by simp⟩
    case h_3 enough =>
      split at h
      case h_1 sigcol aggregated =>
        obtain ⟨rfl, rfl⟩ := Prod.mk.inj (ok.inj h)
        refine ⟨fun _ he => he, ?_⟩
        rintro _ ⟨⟩
        exact ⟨enough, aggregated⟩
      case h_2 invalid _ =>
        obtain ⟨kept, result⟩ := ih h
        exact ⟨fun e he => (mem_filter.mp (kept e he)).1, result⟩
      case h_3 => cases h

theorem aggregate_error {fuel : Nat}
    (h : aggregate crypto validators mapping msg fuel pending = .error e) : e.isOther = true := by
  induction fuel generalizing pending with
  | zero =>
    obtain rfl := error.inj h
    rfl
  | succ fuel ih =>
    unfold aggregate at h
    grind [Panic.isOther, Panic.isProtocolAssertion]

theorem VoteState.processVote_eq_ok {vs' : VoteState} {built : Option QuorumCertificate}
    (h : vs.processVote crypto author voteMsg validators mapping = .ok (built, vs')) (old : vs.Backed backed)
    (new : backed author voteMsg.vote) :
    vs'.Backed backed ∧ ∀ qc, built = some qc → ∃ (pending : SortedMap NodeId Bytes) (sigcol : Bytes),
      qc = { info := voteMsg.vote, signatures := sigcol } ∧ (∀ n ∈ pending.keys, backed n voteMsg.vote) ∧
      validators.hasSuperMajorityVotes pending.keys = .ok true ∧
      crypto.sctNew mapping (.vote voteMsg.vote) pending.entries = .ok sigcol := by
  simp only [processVote] at h
  split at h
  · obtain ⟨rfl, rfl⟩ := Prod.mk.inj (ok.inj h)
    exact ⟨old, by simp⟩
  split at h
  · cases h
  case h_2 sigcol? pending' collected =>
    obtain ⟨kept, result⟩ := aggregate_eq_ok collected
    -- the votes of a round that was not seen before start from the empty map
    have oldRound : ∀ {vote pending n},
        ((vs.pendingVotes.get? voteMsg.vote.round).getD ∅).lookup vote = some pending → n ∈ pending.keys →
          backed n vote := by
      intro vote pending n found hn
      cases known : vs.pendingVotes.get? voteMsg.vote.round with
      | none => simp [known] at found
      | some roundState =>
        rw [known] at found
        exact old (get?_eq_some_iff.mp known) found hn
    have backed' : ∀ n ∈ pending'.keys, backed n voteMsg.vote := by
      intro n hn
      obtain ⟨sig, mem⟩ := mem_keys.mp hn
      obtain same | ⟨mem, -⟩ := mem_insert.mp (kept _ mem)
      · obtain rfl := congrArg Prod.fst same
        exact new
      · cases found : ((vs.pendingVotes.get? voteMsg.vote.round).getD ∅).lookup voteMsg.vote with
        | none => simp [found] at mem
        | some pending =>
          rw [found] at mem
          exact oldRound found (mem_keys.mpr ⟨sig, mem⟩)
    have inserted : ∀ earliestRound, VoteState.Backed
        ⟨vs.pendingVotes.insert voteMsg.vote.round
          (((vs.pendingVotes.get? voteMsg.vote.round).getD ∅).insert voteMsg.vote pending'), earliestRound⟩ backed := by
      intro earliestRound round roundState vote pending n mem found hn
      obtain ⟨rfl, rfl⟩ | ⟨mem, -⟩ := pair_mem_insert.mp mem
      · by_cases sameVote : vote = voteMsg.vote
        · subst sameVote
          obtain rfl : pending' = pending := by simpa using found
          exact backed' n hn
        · exact oldRound ((AList.lookup_insert_ne sameVote).symm.trans found) hn
      · exact old mem found hn
    split at h
    · obtain ⟨rfl, rfl⟩ := Prod.mk.inj (ok.inj h)
      exact ⟨inserted _, by simp⟩
    case h_2 sigcol =>
      obtain ⟨rfl, rfl⟩ := Prod.mk.inj (ok.inj h)
      refine ⟨inserted _, ?_⟩
      rintro _ ⟨⟩
      exact ⟨pending', sigcol, rfl, backed', result sigcol rfl⟩

theorem VoteState.processVote_error
    (h : vs.processVote crypto author voteMsg validators mapping = .error e) : e.isOther = true := by
  simp only [processVote] at h
  split at h
  · cases h
  split at h
  case h_1 failed =>
    obtain rfl := error.inj h
    exact aggregate_error failed
  · split at h <;> cases h

namespace NoEndorsementState

def roundState (ns : NoEndorsementState) (round : Round) : RoundNoEndorsementState :=
  (ns.pendingNoEndorsements.get? round).getD .default

theorem getNec_eq (ns : NoEndorsementState) (round : Round) : ns.getNec round = (ns.roundState round).certificate := by
  unfold getNec roundState
  cases ns.pendingNoEndorsements.get? round <;> rfl

section

variable {round round' earliestRound : Round} {rs : RoundNoEndorsementState}

/-- Only the state of the round changes. -/
theorem roundState_insert : roundState ⟨ns.pendingNoEndorsements.insert round rs, earliestRound⟩ round' =
      if round' = round then rs else ns.roundState round' := by
  unfold roundState
  by_cases same : round' = round
  · subst same
    simp
  · simp [same, get?_insert_ne same]

theorem getNec_insert : getNec ⟨ns.pendingNoEndorsements.insert round rs, earliestRound⟩ round' =
      if round' = round then rs.certificate else ns.getNec round' := by
  rw [getNec_eq, roundState_insert, getNec_eq]
  split <;> rfl

end

theorem roundState_startNewRound {newRound round : Round} :
    (ns.startNewRound newRound).roundState round = if newRound ≤ round then ns.roundState round else .default := by
  unfold roundState startNewRound
  rw [get?_filter]
  cases ns.pendingNoEndorsements.get? round with
  | none => simp
  | some rs => by_cases kept : newRound ≤ round <;> simp [Option.filter, kept]

def bucket (ns : NoEndorsementState) (msg : NoEndorsement) : SortedMap NodeId Bytes :=
  ((ns.roundState msg.round).qcRoundNoEndorsements.get? msg.tipQcRound).getD .empty

section

variable {ns' : NoEndorsementState} {built : Option NoEndorsementCertificate}
  (h : ns.processNoEndorsement crypto author m validators mapping = .ok (built, ns'))

include h

/-- What a processed message leaves: nothing, another bucket, or the first certificate of its round. -/
theorem processNoEndorsement_cases : (built = none ∧ ns' = ns) ∨ ∃ sigcol? pending, ns.earliestRound ≤ m.msg.round ∧
      collect crypto validators mapping (.noEndorsement m.msg) (ns.bucket m.msg) author m.signature =
        .ok (sigcol?, pending) ∧
      ((sigcol? = none ∧ built = none ∧ ns' = { ns with
          pendingNoEndorsements := ns.pendingNoEndorsements.insert m.msg.round { ns.roundState m.msg.round with
            qcRoundNoEndorsements :=
              (ns.roundState m.msg.round).qcRoundNoEndorsements.insert m.msg.tipQcRound pending } }) ∨
        ∃ sigcol, sigcol? = some sigcol ∧ (ns.roundState m.msg.round).certificate = none ∧
          built = some { msg := m.msg, signatures := sigcol } ∧ ns' = {
            pendingNoEndorsements := ns.pendingNoEndorsements.insert m.msg.round {
              qcRoundNoEndorsements :=
                (ns.roundState m.msg.round).qcRoundNoEndorsements.insert m.msg.tipQcRound pending
              certificate := some { msg := m.msg, signatures := sigcol } }
            earliestRound := m.msg.round + 1 }) := by
  simp only [processNoEndorsement] at h
  split at h
  · obtain ⟨rfl, rfl⟩ := Prod.mk.inj (ok.inj h)
    exact .inl ⟨rfl, rfl⟩
  case isFalse notOver =>
    split at h
    · cases h
    case h_2 sigcol? pending collected =>
      refine .inr ⟨sigcol?, pending, not_lt.mp notOver, collected, ?_⟩
      split at h
      · obtain ⟨rfl, rfl⟩ := Prod.mk.inj (ok.inj h)
        exact .inl ⟨rfl, rfl, rfl⟩
      case h_2 sigcol =>
        split at h
        · cases h
        case isFalse first =>
          obtain ⟨rfl, rfl⟩ := Prod.mk.inj (ok.inj h)
          exact .inr ⟨sigcol, rfl, by simpa [roundState] using first, rfl, rfl⟩

/-- The certificate of a round is for that round. -/
theorem processNoEndorsement_eq_ok
    (old : ∀ {round nec}, ns.getNec round = some nec → nec.msg.round = round) {round : Round}
    (found : ns'.getNec round = some nec) : nec.msg.round = round := by
  obtain ⟨-, rfl⟩ | ⟨_, pending, -, -, ⟨-, -, rfl⟩ | ⟨sigcol, -, -, -, rfl⟩⟩ := processNoEndorsement_cases h
  · exact old found
  all_goals
    -- only the round of the message changes
    rw [getNec_insert] at found
    split at found
  case inr.inl.isTrue same => exact same ▸ old ((getNec_eq ..).trans found)
  case inr.inr.isTrue same =>
    cases found
    exact same.symm
  all_goals exact old found

end

theorem getNec_startNewRound {newRound round : Round} (found : (ns.startNewRound newRound).getNec round = some nec) :
    ns.getNec round = some nec := by
  rw [getNec_eq] at found ⊢
  rw [roundState_startNewRound] at found
  split at found
  · exact found
  · cases found

theorem processNoEndorsement_error (h : ns.processNoEndorsement crypto author m validators mapping = .error e) :
    e.isOther = true ∨ e = .necExists ∧ ns.earliestRound ≤ m.msg.round ∧
      (ns.roundState m.msg.round).certificate.isSome = true ∧
      ∃ sigcol pending, collect crypto validators mapping (.noEndorsement m.msg) (ns.bucket m.msg) author m.signature =
        .ok (some sigcol, pending) := by
  simp only [processNoEndorsement] at h
  split at h
  · cases h
  case isFalse notOver =>
    split at h
    case h_1 failed =>
      obtain rfl := error.inj h
      exact .inl (aggregate_error failed)
    case h_2 sigcol? pending collected =>
      split at h
      · cases h
      case h_2 sigcol =>
        split at h
        case isTrue second =>
          obtain rfl := error.inj h
          exact .inr ⟨rfl, not_lt.mp notOver, second, sigcol, pending, collected⟩
        · cases h

end NoEndorsementState

end Votes

end MonadBft
