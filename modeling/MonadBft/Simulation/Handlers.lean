import MonadBft.Simulation

/-! # The message handlers as runs of steps -/

namespace MonadBft

open List Option

namespace ConsensusState

variable {K : Evidence} {env : Env} {e : ConsensusEvent} {s : ConsensusState}

/-! ## The pacemaker -/

theorem runPacemaker_andThen (x : Pacemaker.Call) (next : Pacemaker × Safety → Pacemaker.Call) :
    s.runPacemaker env (x.andThen next) =
      (s.runPacemaker env x).andThen fun s₁ => s₁.runPacemaker env (next (s₁.pacemaker, s₁.safety)) := by
  cases x with
  | panic e => rfl
  | ok state commands =>
    obtain ⟨pacemaker, safety⟩ := state
    cases second : next (pacemaker, safety) with
    | panic e => simp [runPacemaker, Outcome.andThen, second]
    | ok state' commands' => simp [runPacemaker, Outcome.andThen, second]

/-- A pacemaker call does not read the pacemaker of the state it is run from. -/
theorem runPacemaker_setPacemaker (pacemaker : Pacemaker) (x : Pacemaker.Call) :
    ConsensusState.runPacemaker env { s with pacemaker } x = s.runPacemaker env x := by
  cases x with
  | panic e => rfl
  | ok state commands => rfl

theorem filter_eq_self_or_none {α : Type} (p : α → Bool) (o : Option α) : o.filter p = o ∨ o.filter p = none := by
  cases o with
  | none => exact .inl rfl
  | some a =>
    rw [filter_some]
    split
    · exact .inl rfl
    · exact .inr rfl

theorem processCertificate_emits (certificate : RoundCertificate) (evidence : K.cert certificate) : Emits K env e s
      (s.runPacemaker env (s.pacemaker.processCertificate env.node.roundTimer s.epochManager s.safety certificate))
      fun s' => certificate.round < s'.getCurrentRound ∧ Unsigned s s' := by
  unfold Pacemaker.processCertificate
  split
  case isTrue old => exact .stay ⟨Nat.lt_succ_of_le old, .refl s⟩
  case isFalse newer =>
    have newer := not_le.mp newer
    simp only
    split
    · exact .panic rfl
    case h_2 epoch known =>
      refine .step (.advance env.now evidence newer known) ⟨Nat.lt_succ_self _, rfl, rfl, ?_, .inr ⟨?_, rfl⟩⟩
      · exact filter_eq_self_or_none _ _
      · exact Nat.succ_lt_succ newer

theorem localTimeoutRound_eq {timer : RoundTimer} {pacemaker : Pacemaker} {safety : Safety}
    (safe : safety.highestVote ≤ pacemaker.getCurrentRound) : Pacemaker.localTimeoutRound timer pacemaker safety =
      .ok (pacemaker, { safety with highestVote := pacemaker.getCurrentRound })
        [.scheduleReset,
         .prepareTimeout (pacemaker.timeoutInfo safety) (pacemaker.highExtend safety)
          (pacemaker.lastRoundCertificate safety),
         .schedule pacemaker.getCurrentRound (timer.getRoundTimer pacemaker.getCurrentRound)] := by
  simp only [Pacemaker.localTimeoutRound, Safety.timeout, safe, ↓reduceIte]
  rfl

theorem processLocalTimeout_emits (may : K.mayTimeOut s) :
    Emits K env e s (s.runPacemaker env (s.pacemaker.processLocalTimeout env.node.roundTimer s.safety))
      fun _ => True := by
  refine .intro fun marks _ => ?_
  have safe : s.safety.highestVote ≤ Pacemaker.getCurrentRound { s.pacemaker with phase := .one } := marks.voted
  rw [Pacemaker.processLocalTimeout, localTimeoutRound_eq safe]
  exact .step (.timeout env.now marks.voted may) trivial

variable {validators : ValidatorSet} {mapping : ValidatorMapping} {round : Round} {timeout : TimeoutMessage}
  {author : NodeId} {p : ProposalMessage} {block : ConsensusFullBlock} {header : ConsensusBlockHeader}

theorem joinTimeout_emits (may : validators.hasHonestVote s.pacemaker.pendingTimeouts.keys = .ok true →
    K.mayTimeOut s) :
    Emits K env e s (s.runPacemaker env (s.pacemaker.joinTimeout env.node.roundTimer validators s.safety))
      fun s' => s'.getCurrentRound = s.getCurrentRound ∧ s'.epochManager = s.epochManager := by
  refine .intro fun marks _ => ?_
  unfold Pacemaker.joinTimeout
  split
  · exact .stay ⟨rfl, rfl⟩
  split
  · exact .panic rfl
  · exact .stay ⟨rfl, rfl⟩
  case h_3 honest =>
    rw [localTimeoutRound_eq marks.voted]
    exact .step (.timeout env.now marks.voted (may honest)) ⟨rfl, rfl⟩

/-- Dropping or adding pending timeouts. -/
theorem setPendingTimeouts_step (pendingTimeouts : SortedMap NodeId TimeoutMessage)
    (evidence : Supported K env.net.crypto s → ∀ {a t}, (a, t) ∈ pendingTimeouts →
      K.timeout a t ∧ t.tminfo.round = s.getCurrentRound ∧ t.highExtend.getQc.getRound < s.getCurrentRound)
    (together : Supported K env.net.crypto s → ∀ {a t a' t'}, (a, t) ∈ pendingTimeouts → (a', t') ∈ pendingTimeouts →
      K.together t t') :
    Step K env.net env.node s ⟨e, .bookkeeping, []⟩ { s with pacemaker := { s.pacemaker with pendingTimeouts } } :=
  .bookkeeping ⟨rfl, rfl, ⟨_, rfl⟩, ⟨_, rfl⟩, .inl rfl, .none, by simp, by simp,
    fun supported => { supported with timeouts := evidence supported, together := together supported }⟩

theorem mem_foldl_erase {invalid : List (NodeId × Bytes)} {pending : SortedMap NodeId TimeoutMessage}
    {e : NodeId × TimeoutMessage} (h : e ∈ invalid.foldl (fun pending sig => pending.erase sig.1) pending) :
    e ∈ pending := by
  induction invalid generalizing pending with
  | nil => exact h
  | cons sig rest ih => exact (SortedMap.mem_filter.mp (ih h)).1

theorem buildTimeoutCertificate_emits (closed : K.Closed env.net) {knownEpoch epoch : Epoch} {fuel : Nat}
    {em : EpochManager} (known : env.net.valEpochMap knownEpoch = some (validators, mapping))
    (inRound : s.getCurrentRound = round) (epochs : s.epochManager = em) : Emits K env e s
      (s.runPacemaker env (Pacemaker.buildTimeoutCertificate env.net.crypto env.node.roundTimer em validators
        mapping epoch round fuel s.pacemaker s.safety))
      fun _ => True := by
  subst inRound epochs
  induction fuel generalizing s with
  | zero => exact .panic rfl
  | succ fuel ih =>
    refine .intro fun _ supported => ?_
    unfold Pacemaker.buildTimeoutCertificate
    split
    · exact .stay trivial
    split
    · exact .panic rfl
    · exact .stay trivial
    case h_3 enough =>
      split
      case h_1 tc built =>
        have evidence := closed.tcOfTimeouts known (fun _ _ => supported.timeouts)
          (fun _ _ _ _ => supported.together) enough built
        have round : tc.round = s.pacemaker.highCertificate.round + 1 := by
          unfold TimeoutCertificate.new at built
          split at built <;> cases built
          rfl
        have newer : ¬ tc.round ≤ s.pacemaker.highCertificate.round := by lia
        simp only [Pacemaker.processCertificate, RoundCertificate.round_tc, newer, ↓reduceIte]
        cases epoch' : s.epochManager.getEpoch (tc.round + 1) with
        | none => exact .panic rfl
        | some next =>
          have cert : K.cert (.tc tc) := evidence
          exact .step (.advance env.now cert (not_le.mp newer) epoch') trivial
      case h_2 invalid _ =>
        refine .prepend (setPendingTimeouts_step (s.pacemaker.handleInvalidTimeout invalid).pendingTimeouts
          (fun supported _ _ mem => supported.timeouts (mem_foldl_erase mem))
          fun supported _ _ _ _ mem mem' => supported.together (mem_foldl_erase mem) (mem_foldl_erase mem')) ?_
        rw [← runPacemaker_setPacemaker (s.pacemaker.handleInvalidTimeout invalid)]
        exact ih
      case h_3 => exact .panic rfl

/-- What is needed of a timeout that a replica in state `s` gets. -/
structure TimeoutEvidence (K : Evidence) (net : Network) (s : ConsensusState) (author : NodeId)
    (timeout : TimeoutMessage) : Prop where
  valid : K.timeout author timeout
  self : K.together timeout timeout
  pending : timeout.tminfo.round = s.getCurrentRound → ∀ {a t}, (a, t) ∈ s.pacemaker.pendingTimeouts →
    K.together timeout t ∧ K.together t timeout
  join : ∀ {s' validators mapping}, Unsigned s s' → timeout.tminfo.round = s'.getCurrentRound →
    (s.epochManager.getEpoch timeout.tminfo.round).bind net.valEpochMap = some (validators, mapping) →
    validators.hasHonestVote (s'.pacemaker.pendingTimeouts.insert author timeout).keys = .ok true →
    K.mayTimeOut { s' with pacemaker :=
      { s'.pacemaker with pendingTimeouts := s'.pacemaker.pendingTimeouts.insert author timeout } }

theorem processRemoteTimeout_emits (closed : K.Closed env.net) {s₀ : ConsensusState}
    (known : s₀.validatorsOf env timeout.tminfo.round = some (validators, mapping))
    (evidence : TimeoutEvidence K env.net s₀ author timeout) (unsigned : Unsigned s₀ s)
    (entered : timeout.tminfo.round ≤ s.getCurrentRound) (processed : timeout.highExtend.getQc.getRound <
      s.getCurrentRound) :
    Emits K env e s
      (s.runPacemaker env (s.pacemaker.processRemoteTimeout env.net.crypto env.node.roundTimer s.epochManager validators
        mapping s.safety author timeout))
      fun _ => True := by
  obtain ⟨epoch, -, knownEpoch⟩ := bind_eq_some_iff.mp known
  simp only [Pacemaker.processRemoteTimeout]
  split
  · exact .stay trivial
  case isFalse notOld =>
    have inRound : timeout.tminfo.round = s.pacemaker.getCurrentRound := le_antisymm entered (not_lt.mp notOld)
    -- the timeouts pending here were pending when the handler started
    have old : ∀ {a t}, (a, t) ∈ s.pacemaker.pendingTimeouts → K.together timeout t ∧ K.together t timeout := by
      intro a t mem
      obtain ⟨sameRound, same⟩ | ⟨-, cleared⟩ := unsigned.timeouts
      · exact evidence.pending (inRound.trans sameRound) (same ▸ mem)
      · exact absurd (cleared ▸ mem) (SortedMap.not_mem_empty _)
    simp only [inRound, ne_eq, not_true_eq_false, ↓reduceIte]
    refine .prepend (setPendingTimeouts_step (s.pacemaker.pendingTimeouts.insert author timeout)
      (fun supported {a t} mem => ?_) (fun supported {a t a' t'} mem mem' => ?_)) ?_
    · obtain ⟨rfl, rfl⟩ | ⟨mem, -⟩ := SortedMap.pair_mem_insert.mp mem
      · exact ⟨evidence.valid, inRound, processed⟩
      · exact supported.timeouts mem
    · obtain same | ⟨isOld, -⟩ := SortedMap.mem_insert.mp mem <;>
        obtain same' | ⟨isOld', -⟩ := SortedMap.mem_insert.mp mem'
      · obtain ⟨rfl, rfl⟩ := Prod.mk.inj same
        obtain ⟨rfl, rfl⟩ := Prod.mk.inj same'
        exact evidence.self
      · obtain ⟨rfl, rfl⟩ := Prod.mk.inj same
        exact (old isOld').1
      · obtain ⟨rfl, rfl⟩ := Prod.mk.inj same'
        exact (old isOld).2
      · exact supported.together isOld isOld'
    · rw [← runPacemaker_setPacemaker, runPacemaker_andThen]
      refine (joinTimeout_emits (evidence.join unsigned inRound known)).andThen fun s₁ _ ⟨sameRound, sameEpochs⟩ => ?_
      exact buildTimeoutCertificate_emits closed knownEpoch sameRound sameEpochs

/-! ## Certificates -/

theorem startNewRound_step : Step K env.net env.node s ⟨e, .bookkeeping, []⟩ { s with
      voteState := s.voteState.startNewRound s.getCurrentRound
      noEndorsementState := s.noEndorsementState.startNewRound s.getCurrentRound } :=
  bookkeeping_of_supported .startNewRound (by simp) (by simp) fun supported =>
    { supported with
      votes := fun mem => supported.votes (mem_filter.mp mem).1
      necs := fun found => supported.necs (NoEndorsementState.getNec_startNewRound found) }

variable (closed : K.Closed env.net)

include closed

theorem processQc_emits {qc : QuorumCertificate} (evidence : K.qc qc) :
    Emits K env e s (s.processQc env qc) fun s' => qc.getRound < s'.getCurrentRound ∧ Unsigned s s' := by
  unfold processQc
  split
  case isTrue old => exact .stay ⟨old, .refl s⟩
  · refine (tryCommit_emits evidence).andThen fun s₁ _ same₁ => ?_
    refine cancelObsoleteRequests_emits.andThen fun s₂ _ same₂ => ?_
    refine maybeStatesync_emits.andThen fun s₃ _ same₃ => ?_
    refine (processCertificate_emits (.qc qc) evidence).andThen fun s₄ _ ⟨entered, unsigned₄⟩ => ?_
    refine (requestBlocksIfMissingAncestor_emits closed).andThen fun s₅ mono₅ same₅ => ?_
    refine .prepend startNewRound_step ((tryPropose_emits closed).mono fun s₆ mono₆ unsigned₆ => ?_)
    have before := (((same₁.trans same₂).trans same₃).unsigned.trans unsigned₄).trans same₅.unsigned
    exact ⟨(entered.trans_le mono₅).trans_le mono₆,
      before.trans ⟨unsigned₆.voted, unsigned₆.noEndorsed, unsigned₆.tip, unsigned₆.timeouts⟩⟩

theorem processTc_emits {tc : TimeoutCertificate} (evidence : K.tc tc) :
    Emits K env e s (s.processTc env tc) fun s' => tc.round < s'.getCurrentRound ∧ Unsigned s s' := by
  unfold processTc
  split
  case isTrue old => exact .stay ⟨old, .refl s⟩
  · refine (processCertificate_emits (.tc tc) evidence).andThen fun s₁ _ ⟨entered, unsigned₁⟩ => ?_
    exact (tryPropose_emits closed).mono fun s₂ mono₂ unsigned₂ => ⟨entered.trans_le mono₂, unsigned₁.trans unsigned₂⟩

theorem processRoundCertificate_emits {certificate : RoundCertificate} (evidence : K.cert certificate) :
    Emits K env e s (s.processRoundCertificate env certificate) fun s' =>
      certificate.round < s'.getCurrentRound ∧ Unsigned s s' := by
  cases certificate with
  | qc qc => exact processQc_emits closed evidence
  | tc tc => exact processTc_emits closed evidence

theorem processLastRoundCertificate_emits {certificate? : Option RoundCertificate}
    (evidence : ∀ certificate, certificate? = some certificate → K.cert certificate) :
    Emits K env e s (s.processLastRoundCertificate env certificate?) fun s' =>
      (∀ certificate, certificate? = some certificate → certificate.round < s'.getCurrentRound) ∧ Unsigned s s' := by
  cases certificate? with
  | none => exact .stay ⟨by simp, .refl s⟩
  | some certificate =>
    refine (processRoundCertificate_emits closed (evidence certificate rfl)).mono fun s' _ ⟨entered, unsigned⟩ => ?_
    refine ⟨?_, unsigned⟩
    rintro _ ⟨⟩
    exact entered

omit closed

/-! ## Voting -/

theorem sendVoteAndResetTimer_emits {vote : Vote} (scheduled : Option OutgoingVoteStatus)
    (ready : s.scheduledVote = some (.voteReady vote))
    (source : e = .sendVote round ∨ round = vote.round ∧ ∀ k, e ≠ .sendVote k) :
    Emits K env e s (ConsensusState.sendVoteAndResetTimer env { s with scheduledVote := scheduled } round vote)
      fun _ => True := by
  simp only [sendVoteAndResetTimer]
  split
  case h_1 next current =>
    refine .step (.sendVote env.now ready (fun c hc => ?_) source ?_) trivial
    case refine_2 =>
      have next' : s.leaderOf env (round + 1) = _ := next
      have current' : s.leaderOf env round = _ := current
      simp only [sendVoteAndResetTimer, next', current']
    simp only [cons_append, nil_append, mem_cons, mem_append, not_mem_nil, or_false] at hc
    obtain rfl | hc | rfl := hc
    · exact .inr ⟨_, rfl⟩
    · split at hc
      · obtain rfl := mem_singleton.mp hc
        exact .inr ⟨_, rfl⟩
      · cases hc
    · exact .inl ⟨_, _, rfl⟩
  · exact .panic rfl

theorem tryVote_emits (handled : e.message? = some (.proposal p)) (evidence : K.proposal p)
    (inRound : p.proposalRound = s.getCurrentRound) (processed : p.tip.blockHeader.qc.getRound < s.getCurrentRound) :
    Emits K env e s (s.tryVote env p.lastRoundTc p.tip) fun _ => True := by
  refine .intro fun marks _ => ?_
  simp only [tryVote]
  split
  case h_2 => exact .stay trivial
  case h_1 parentTimestamp parentBlockRound _ _ =>
    split
    · exact .stay trivial
    split
    · exact .stay trivial
    case isFalse coherent =>
      split
      · exact .stay trivial
      case isFalse safe =>
        have safe : s.safety.isSafeToVote s.getCurrentRound (tcTip env p.lastRoundTc) = true := by simpa using safe
        split
        case h_1 failed => simp [Safety.vote, safe] at failed
        case h_2 safety voted =>
          have coherent : s.pendingBlockTree.isCoherent (env.net.crypto.getId p.tip.blockHeader) = true := by
            simpa [Env.getId] using coherent
          have noTimer : ∀ k, e ≠ .sendVote k := by
            rintro k rfl
            cases handled
          refine .prepend (.vote env.now handled evidence inRound processed coherent voted) ?_
          simp only [sendOrScheduleVote]
          split
          · exact sendVoteAndResetTimer_emits s.scheduledVote rfl (.inr ⟨rfl, noTimer⟩)
          case h_2 r isReady =>
            -- a vote that waits is for an earlier round
            have earlier : r.round < s.getCurrentRound :=
              (marks.scheduled isReady).trans_lt (Safety.lt_of_isSafeToVote safe)
            rw [if_neg (not_le.mpr earlier)]
            split
            · exact sendVoteAndResetTimer_emits s.scheduledVote rfl (.inr ⟨rfl, noTimer⟩)
            · exact .stay trivial
          case h_3 =>
            split
            · exact sendVoteAndResetTimer_emits s.scheduledVote rfl (.inr ⟨rfl, noTimer⟩)
            · exact .stay trivial

theorem tryAddAndCommitBlocktree_emits (closed : K.Closed env.net)
    (source : block ∈ e.blocks ∨ s.pendingBlockTree.getBlock (env.net.crypto.getId block.header) = some block)
    (evidence : K.block block.header) (body : block.BodyMatches env.net.crypto) {candidate : Option VoteCandidate}
    (vote : ∀ {proposalRound lastRoundTc tip}, candidate = some (proposalRound, lastRoundTc, tip) →
      ∃ p, e.message? = some (.proposal p) ∧ K.proposal p ∧ p.proposalRound = proposalRound ∧
        p.lastRoundTc = lastRoundTc ∧ p.tip = tip ∧ tip.blockHeader.qc.getRound < s.getCurrentRound) :
    Emits K env e s (s.tryAddAndCommitBlocktree env block candidate) fun _ => True := by
  unfold tryAddAndCommitBlocktree
  split
  case h_1 failed => exact .treePanic (BlockTree.add_error failed)
  case h_2 bt added =>
    refine .prepend (.addBlock source evidence body added) ?_
    refine (tryUpdateCoherency_emits closed).andThen fun s₁ mono₁ _ => ?_
    refine Emits.andThen (P := fun _ => True) ?_ fun s₂ _ _ => ?_
    · unfold voteForCandidate
      split
      · exact .stay trivial
      case h_2 proposalRound lastRoundTc tip =>
        obtain ⟨p, handled, evidence, rfl, rfl, rfl, processed⟩ := vote rfl
        split
        case isTrue inRound => exact tryVote_emits handled evidence inRound (processed.trans_le mono₁)
        · exact .stay trivial
    · refine (tryPropose_emits closed).andThen fun s₃ _ _ => ?_
      refine maybeStatesync_emits.andThen fun s₄ _ _ => ?_
      exact (requestBlocksIfMissingAncestor_emits closed).mono fun _ _ _ => trivial

/-! ## Message handlers -/

theorem validateBlock_eq_ok (supported : Supported K env.net.crypto s) {body : Bytes} (evidence : K.block header)
    (h : s.validateBlock env header body = .ok (some block)) :
    (block = { header, body } ∨ s.pendingBlockTree.getBlock (env.net.crypto.getId block.header) = some block) ∧
      K.block block.header ∧ block.BodyMatches env.net.crypto := by
  unfold validateBlock at h
  split at h
  case h_1 validated found =>
    obtain ⟨e, stored, rfl⟩ := map_eq_some_iff.mp found
    obtain rfl : e.validatedBlock = block := by
      split at h
      · simp at h
      · simpa using h
    have stored' := stored
    exact ⟨.inr ((supported.keyed _ e stored').symm ▸ found), supported.blocks stored, supported.bodies stored⟩
  case h_2 =>
    split at h
    · cases h
    split at h
    · simp at h
    split at h
    · cases h
    split at h
    · cases h
    · split at h
      case isTrue valid =>
        obtain rfl : { header, body } = block := by simpa using h
        exact ⟨.inl rfl, evidence, valid.2⟩
      · simp at h

theorem validateBlock_error {body : Bytes} {e : Panic} (h : s.validateBlock env header body = .error e) :
    e = .epochUnavailable := by
  unfold validateBlock at h
  grind

theorem handleTimeoutExpiry_emits {timeoutRound : Round} (may : s.getCurrentRound ≤ timeoutRound → K.mayTimeOut s) :
    Emits K env e s (s.handleTimeoutExpiry env timeoutRound) fun _ => True := by
  unfold handleTimeoutExpiry
  split
  · exact .stay trivial
  case isFalse notOld => exact processLocalTimeout_emits (may (not_lt.mp notOld))

theorem setHandledProposals_step (handledProposals : SortedMap Round Unit) :
    Step K env.net env.node s ⟨e, .bookkeeping, []⟩ { s with safety := { s.safety with handledProposals } } :=
  .bookkeeping ⟨rfl, rfl, ⟨_, rfl⟩, ⟨_, rfl⟩, .inl rfl, .none, by simp, by simp, fun supported => { supported with }⟩

theorem mem_blocks_of_proposal {e : ConsensusEvent} (handled : e.message? = some (.proposal p)) :
    { header := p.tip.blockHeader, body := p.blockBody } ∈ e.blocks := by
  cases e with
  | message m => simp_all [ConsensusEvent.message?, ConsensusEvent.blocks]
  | _ => cases handled

variable (closed : K.Closed env.net)

include closed

theorem handleProposalBlock_emits (handled : e.message? = some (.proposal p))
    (evidence : K.proposal p) (processed : p.tip.blockHeader.qc.getRound < s.getCurrentRound) :
    Emits K env e s (s.handleProposalBlock env author p validators) fun _ => True := by
  unfold handleProposalBlock
  split
  · exact .stay trivial
  split
  · exact .stay trivial
  case isFalse safe =>
    have safe : s.safety.isSafeToHandleProposal p.proposalRound = true := by simpa using safe
    simp only [Safety.handleProposal, safe, ↓reduceIte]
    refine .prepend (setHandledProposals_step
      ((s.safety.handledProposals.insert p.proposalRound ()).keepLast Safety.handledProposalCacheSize))
      (.intro fun _ supported => ?_)
    split
    case h_1 failed =>
      obtain rfl := validateBlock_error failed
      exact .panic rfl
    · exact .stay trivial
    case h_3 block valid =>
      obtain ⟨source, evidence', body⟩ := validateBlock_eq_ok supported (closed.blockOfProposal evidence) valid
      refine tryAddAndCommitBlocktree_emits closed (source.imp_left ?_) evidence' body ?_
      · rintro rfl
        exact mem_blocks_of_proposal handled
      rintro _ _ _ ⟨⟩
      exact ⟨p, handled, evidence, rfl, rfl, rfl, processed⟩

theorem handleProposalMessage_emits (handled : e.message? = some (.proposal p)) (evidence : K.proposal p) :
    Emits K env e s (s.handleProposalMessage env author p) fun _ => True := by
  unfold handleProposalMessage
  split
  · exact .stay trivial
  split
  · exact .panic rfl
  · refine (processQc_emits closed (closed.qcOfBlock (closed.blockOfProposal evidence))).andThen fun s₁ _ processed =>
      ?_
    refine (processLastRoundCertificate_emits closed ?_).andThen fun s₂ mono₂ _ => ?_
    · intro certificate isTc
      obtain ⟨tc, isLast, rfl⟩ := map_eq_some_iff.mp isTc
      exact closed.tcOfProposal evidence isLast
    · exact handleProposalBlock_emits closed handled evidence (processed.1.trans_le mono₂)

theorem handleVoteMessage_emits {voteMsg : VoteMessage} (evidence : K.vote author voteMsg.vote) :
    Emits K env e s (s.handleVoteMessage env author voteMsg) (Unsigned s) := by
  simp only [handleVoteMessage]
  split
  · exact .stay (.refl s)
  split
  · exact .stay (.refl s)
  split
  · exact .panic rfl
  case h_2 validators mapping known =>
    obtain ⟨epoch, -, known⟩ := bind_eq_some_iff.mp known
    refine .intro fun _ supported => ?_
    have record : ∀ {built voteState},
        s.voteState.processVote env.net.crypto author voteMsg validators mapping = .ok (built, voteState) →
        Step K env.net env.node s ⟨e, .bookkeeping, []⟩ { s with voteState } := fun processed =>
      bookkeeping_of_supported .none (by simp) (by simp) fun supported =>
        { supported with votes := (VoteState.processVote_eq_ok processed supported.votes evidence).1 }
    split
    case h_1 failed => exact .panic (VoteState.processVote_error failed)
    case h_2 processed => exact .prepend (record processed) (.stay ⟨rfl, rfl, .inl rfl, .inl ⟨rfl, rfl⟩⟩)
    case h_3 qc voteState processed =>
      obtain ⟨pending, sigcol, rfl, backed, enough, aggregated⟩ :=
        (VoteState.processVote_eq_ok processed supported.votes evidence).2 qc rfl
      refine .prepend (record processed) ?_
      refine (processQc_emits closed (closed.qcOfVotes known backed enough aggregated)).andThen
        fun s₁ _ ⟨left, unsigned₁⟩ => ?_
      refine (tryPropose_emits closed).andThen fun s₂ mono₂ unsigned₂ => ?_
      have unsigned : Unsigned s s₂ :=
        Unsigned.trans ⟨unsigned₁.voted, unsigned₁.noEndorsed, unsigned₁.tip, unsigned₁.timeouts⟩ unsigned₂
      split
      · refine .step (.bookkeeping ⟨rfl, rfl, ⟨_, rfl⟩, ⟨_, rfl⟩, .inl rfl, .none, ?_, ?_, id⟩) unsigned
        · simp [ConsensusCommand.IsQuiet, Env.sign]
        · intro target m a mem isAdvance
          obtain ⟨-, rfl⟩ := ConsensusCommand.publish.inj (mem_singleton.mp mem)
          obtain rfl := ProtocolMessage.advanceRound.inj isAdvance
          exact left.trans_le mono₂
      · exact .stay unsigned

theorem handleTimeoutVote_emits (evidence : K.timeout author timeout) :
    Emits K env e s (s.handleTimeoutVote env author timeout) (Unsigned s) := by
  unfold handleTimeoutVote
  split
  · exact .stay (.refl s)
  case h_2 isTip => exact handleVoteMessage_emits closed (closed.voteOfTimeout evidence isTip)

/-- The certificates of a timeout bring the replica to the timeout's round. -/
theorem beforeRemoteTimeout_emits (valid : K.timeout author timeout) :
    Emits K env e s (s.beforeRemoteTimeout env author timeout) fun s' => Unsigned s s' ∧
      timeout.highExtend.getQc.getRound < s'.getCurrentRound ∧ timeout.tminfo.round ≤ s'.getCurrentRound := by
  unfold beforeRemoteTimeout
  refine (processQc_emits closed (closed.qcOfTimeout valid)).andThen fun s₁ _ ⟨processed, unsigned₁⟩ => ?_
  refine (handleTimeoutVote_emits closed valid).andThen fun s₂ mono₂ unsigned₂ => ?_
  refine (processLastRoundCertificate_emits closed fun certificate => closed.certOfTimeout valid).mono
    fun s₃ mono₃ ⟨entered, unsigned₃⟩ => ?_
  have processed₃ := (processed.trans_le mono₂).trans_le mono₃
  refine ⟨(unsigned₁.trans unsigned₂).trans unsigned₃, processed₃, ?_⟩
  obtain ofQc | ⟨certificate, isLast, ofLast⟩ := closed.roundOfTimeout valid
  · lia
  · have := entered certificate isLast
    lia

theorem handleTimeoutMessage_emits (evidence : TimeoutEvidence K env.net s author timeout) :
    Emits K env e s (s.handleTimeoutMessage env author timeout) fun _ => True := by
  unfold handleTimeoutMessage
  split
  · exact .stay trivial
  split
  · exact .panic rfl
  case h_2 validators mapping known =>
    refine (beforeRemoteTimeout_emits closed evidence.valid).andThen fun s₁ _ ⟨unsigned, processed, entered⟩ => ?_
    refine (processRemoteTimeout_emits closed known evidence unsigned entered processed).andThen fun s₂ _ _ => ?_
    exact (tryPropose_emits closed).mono fun _ _ _ => trivial

theorem handleRoundRecoveryMessage_emits {m : RoundRecoveryMessage}
    (handled : e.message? = some (.roundRecovery m)) (evidence : K.recovery m) :
    Emits K env e s (s.handleRoundRecoveryMessage env author m) fun _ => True := by
  unfold handleRoundRecoveryMessage
  split
  · exact .panic rfl
  split
  · exact .panic rfl
  · refine (processTc_emits closed (closed.tcOfRecovery evidence)).andThen fun s₁ _ _ => ?_
    split
    · exact .stay trivial
    case isFalse valid =>
      have inRound : m.round = s₁.getCurrentRound := by
        by_contra differs
        exact valid (.inl differs)
      split
      · exact .stay trivial
      case h_2 tip isTip =>
        simp only [noEndorseTip]
        split
        · exact .stay trivial
        split
        · exact .stay trivial
        case isFalse safe =>
          have safe : s₁.safety.isSafeToNoEndorse m.round = true := by simpa using safe
          split
          case h_1 failed => simp [Safety.noEndorse, safe] at failed
          case h_2 safety done =>
            exact .step (.noEndorse env.now author handled evidence inRound isTip done) trivial

theorem handleNoEndorsementMessage_emits {m : NoEndorsementMessage} :
    Emits K env e s (s.handleNoEndorsementMessage env author m) fun _ => True := by
  unfold handleNoEndorsementMessage
  split
  · exact .stay trivial
  case isFalse notOld =>
  split
  · exact .stay trivial
  case isFalse notFuture =>
  split
  · exact .panic rfl
  case h_2 validators mapping _ =>
    have record : ∀ {built noEndorsementState},
        s.noEndorsementState.processNoEndorsement env.net.crypto author m validators mapping =
          .ok (built, noEndorsementState) →
        Step K env.net env.node s ⟨e, .bookkeeping, []⟩ { s with noEndorsementState } := fun processed =>
      bookkeeping_of_supported (.process (not_lt.mp notOld) (not_lt.mp notFuture) processed) (by simp) (by simp)
        fun supported =>
        { supported with necs := NoEndorsementState.processNoEndorsement_eq_ok processed supported.necs }
    split
    case h_1 failed =>
      obtain other | ⟨rfl, -⟩ := NoEndorsementState.processNoEndorsement_error failed
      · exact .panic other
      · exact fun _ _ => ⟨rfl, fun _ => ⟨[], s, .nil, author, m, validators, mapping, not_lt.mp notOld,
          not_lt.mp notFuture, failed⟩⟩
    case h_2 processed => exact .prepend (record processed) (.stay trivial)
    case h_3 processed => exact .prepend (record processed) ((tryPropose_emits closed).mono fun _ _ _ => trivial)

theorem addSyncedBlocks_emits {blocks : List ConsensusFullBlock}
    (source : ∀ b ∈ blocks, b ∈ e.blocks) (evidence : ∀ b ∈ blocks, K.block b.header) :
      Emits K env e s (addSyncedBlocks env s blocks) fun _ => True := by
  induction blocks generalizing s with
  | nil => exact .stay trivial
  | cons block rest ih =>
    obtain ⟨first, others⟩ := forall_mem_cons.mp evidence
    obtain ⟨source₁, sources⟩ := forall_mem_cons.mp source
    refine .intro fun _ supported => ?_
    unfold addSyncedBlocks
    split
    · exact ih sources others
    split
    case h_1 failed =>
      obtain rfl := validateBlock_error failed
      exact .panic rfl
    · exact .stay trivial
    case h_3 validated valid =>
      obtain ⟨source', evidence', body⟩ := validateBlock_eq_ok supported first valid
      refine (tryAddAndCommitBlocktree_emits closed (source'.imp_left ?_) evidence' body (by simp)).andThen ?_
      · rintro rfl
        exact source₁
      · exact fun s₁ _ _ => ih sources others

/-- `synced` is what block sync promises: the blocks are an ancestor chain of the requested one. -/
theorem handleBlockSync_emits {range : BlockRange} {fullBlocks : List ConsensusFullBlock}
    (source : ∀ b ∈ fullBlocks, b ∈ e.blocks)
    (synced : (∀ header, env.net.crypto.getId header = range.lastBlockId → K.block header) →
      ∀ b ∈ fullBlocks, K.block b.header) :
    Emits K env e s (s.handleBlockSync env range fullBlocks) fun _ => True := by
  refine .intro fun _ supported => ?_
  unfold handleBlockSync
  split
  · exact .stay trivial
  case isFalse requested =>
    obtain ⟨status, requested⟩ : ∃ status, s.blockSyncRequests.lookup range.lastBlockId = some status := by
      simpa [isNone_iff_eq_none, ne_none_iff_exists'] using requested
    refine (addSyncedBlocks_emits closed source (synced fun header => supported.requests requested)).andThen
      fun s₁ _ _ => ?_
    refine .step (bookkeeping_of_supported .none (by simp) (by simp) fun supported₁ => ?_) trivial
    refine { supported₁ with requests := ?_ }
    intro id status header found same
    by_cases new : id = range.lastBlockId
    · subst new
      simp at found
    · exact supported₁.requests ((AList.lookup_erase_ne new).symm.trans found) same

omit closed

theorem handleVoteTimer_emits :
    Emits K env (.sendVote round) s (s.handleVoteTimer env round) fun _ => True := by
  unfold handleVoteTimer
  split
  case h_1 ready => exact sendVoteAndResetTimer_emits s.scheduledVote ready (.inl rfl)
  · refine .step (.bookkeeping ⟨rfl, rfl, ⟨_, rfl⟩, ⟨_, rfl⟩, .inr rfl, .none, by simp, by simp, ?_⟩) trivial
    exact fun supported => { supported with }

end ConsensusState

end MonadBft
