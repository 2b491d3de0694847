import MonadBft.Runs

/-! # A network of four validators

A concrete network for the runs that this development exhibits: four validators of equal
stake, a leader that never changes, a hash that is an injective encoding, and signatures
that name their signer.
-/

namespace MonadBft

open List

namespace FourValidators

/-! ## An injective encoding of headers -/

def encodeBytes (b : Bytes) : Bytes := b.length :: b

theorem encodeBytes_append_inj {a b l m : Bytes} (h : encodeBytes a ++ l = encodeBytes b ++ m) : a = b ∧ l = m := by
  simp only [encodeBytes, cons_append, List.cons.injEq] at h
  exact append_inj h.2 h.1

def encodeAll (l : List Bytes) : Bytes := l.length :: l.flatMap encodeBytes

theorem flatMap_encodeBytes_inj {a b : List Bytes} (length : a.length = b.length) {l m : Bytes}
    (h : a.flatMap encodeBytes ++ l = b.flatMap encodeBytes ++ m) : a = b ∧ l = m := by
  induction a generalizing b with
  | nil =>
    obtain rfl := length_eq_zero_iff.mp length.symm
    exact ⟨rfl, h⟩
  | cons x xs ih =>
    cases b with
    | nil => simp at length
    | cons y ys =>
      simp only [flatMap_cons, append_assoc] at h
      obtain ⟨rfl, rest⟩ := encodeBytes_append_inj h
      obtain ⟨rfl, same⟩ := ih (by simpa using length) rest
      exact ⟨rfl, same⟩

theorem encodeAll_append_inj {a b : List Bytes} {l m : Bytes} (h : encodeAll a ++ l = encodeAll b ++ m) :
    a = b ∧ l = m := by
  simp only [encodeAll, cons_append, List.cons.injEq] at h
  exact flatMap_encodeBytes_inj h.1 h.2

/-- The first letter keeps the encoding apart from the genesis id. -/
def encodeHeader (h : ConsensusBlockHeader) : BlockId :=
  [1, h.blockRound, h.epoch, h.author, h.seqNum, h.timestampNs, h.qc.info.epoch, h.qc.info.round] ++
    (encodeBytes h.qc.info.id ++ (encodeBytes h.qc.signatures ++ (encodeBytes h.roundSignature ++
      (encodeAll h.delayedExecutionResults ++ (encodeBytes h.executionInputs ++ (encodeBytes h.blockBodyId ++ []))))))

theorem encodeHeader_injective : Function.Injective encodeHeader := by
  rintro ⟨r, e, ⟨⟨id, qe, qr⟩, sigs⟩, a, n, t, rs, d, x, b⟩
    ⟨r', e', ⟨⟨id', qe', qr'⟩, sigs'⟩, a', n', t', rs', d', x', b'⟩ h
  simp only [encodeHeader, cons_append, List.cons.injEq, nil_append, true_and] at h
  obtain ⟨rfl, rfl, rfl, rfl, rfl, rfl, rfl, strings⟩ := h
  obtain ⟨rfl, afterId⟩ := encodeBytes_append_inj strings
  obtain ⟨rfl, afterSigs⟩ := encodeBytes_append_inj afterId
  obtain ⟨rfl, afterRoundSig⟩ := encodeBytes_append_inj afterSigs
  obtain ⟨rfl, afterResults⟩ := encodeAll_append_inj afterRoundSig
  obtain ⟨rfl, afterInputs⟩ := encodeBytes_append_inj afterResults
  obtain ⟨rfl, -⟩ := encodeBytes_append_inj afterInputs
  rfl

theorem encodeHeader_ne_genesisBlockId (h : ConsensusBlockHeader) : encodeHeader h ≠ genesisBlockId := by
  simp [encodeHeader, genesisBlockId, List.replicate]

/-! ## The network -/

/-- A signature is its signer, a collection the list of its signers. -/
def crypto : Crypto where
  getId := encodeHeader
  getBodyId := id
  noSignatures := []
  sigValidate := fun _ => true
  sctNew := fun _ _ sigs =>
    if sigs.all (fun s => s.2 = [s.1]) then .ok (sigs.map Prod.fst)
    else .error (.invalidSignaturesCreate (sigs.filter (fun s => s.2 ≠ [s.1])))
  sctVerify := fun _ _ collection => some collection
  tipAuthor := fun _ sig => sig.head?
  messageAuthor := fun _ sig => sig.head?

def validators : ValidatorSet where
  validators := ⟨[(0, 1), (1, 1), (2, 1), (3, 1)], by decide⟩
  fits := by decide

def mapping : ValidatorMapping := ⟨[(0, [0]), (1, [1]), (2, [2]), (3, [3])], by decide⟩

def net : Network where
  crypto := crypto
  valEpochMap := fun epoch => if epoch = 1 then some (validators, mapping) else none
  getLeader := fun _ _ => 3
  version := 1

def node (i : NodeId) : Node where
  nodeid := i
  signMessage := fun _ => [i]
  certSign := fun _ => [i]
  signTip := fun _ => [i]
  signRound := fun _ => [i]
  delta := 1
  chainParams := fun _ => ⟨1, 1, 1, 1⟩
  liveToStatesyncThreshold := 1000
  maxDeltaNs := 1000000
  beneficiary := []

def now : Surroundings where
  localTimeNs := 1000
  execution := fun _ _ _ => true
  validBlock := fun _ _ => true
  expectedExecutionResults := fun _ _ => some []

def env (i : NodeId) : Env := ⟨net, node i, now⟩

def epochManager : EpochManager where
  epochLength := 1000000
  epochStartDelay := 0
  epochStarts := ⟨[(1, 0)], by decide⟩
  epochLength_pos := by decide

def genesisRoot : RootInfo := ⟨genesisRound, genesisSeqNum, 1, genesisBlockId, 0⟩

def genesisReplica : Replica where
  consensus := {
    pendingBlockTree := .new genesisRoot
    voteState := .new 1
    noEndorsementState := .new 1
    scheduledVote := none
    safety := .new (.qc crypto.genesisQc) none
    pacemaker :=
      { currentEpoch := 1, highCertificate := .qc crypto.genesisQc, pendingTimeouts := .empty, phase := .zero }
    blockSyncRequests := ∅
    epochManager }
  certificateCache := .empty

theorem new_eq_genesisReplica :
    Replica.new epochManager genesisRoot (.qc crypto.genesisQc) = some genesisReplica := rfl

/-- A run with a decidable property, found by replaying events from genesis. -/
theorem exists_run (i : NodeId) (events : List ConsensusEvent) (P : Replica → List Replica.Handled → Bool)
    (h : (genesisReplica.replay (env i) (fun _ _ => true) events).map (fun (r, history) => P r history) = some true) :
    ∃ history r, Replica.RunFrom net (node i) epochManager genesisRoot (.qc crypto.genesisQc) history r ∧
      history.map (·.event) = events ∧ P r history = true :=
  Replica.exists_runFrom_of_replay (env i) new_eq_genesisReplica events P h

/-! ## Messages -/

def signedBy (author : NodeId) (message : ProtocolMessage) : ConsensusEvent :=
  .message { obj := { version := 1, message }, authorSignature := [author] }

def block (round : Round) (qc : QuorumCertificate) (seqNum : SeqNum) (body : Nat) : ConsensusFullBlock where
  header := {
    blockRound := round
    epoch := 1
    qc
    author := 3
    seqNum
    timestampNs := seqNum
    roundSignature := []
    delayedExecutionResults := []
    executionInputs := []
    blockBodyId := [body] }
  body := [body]

def tip (b : ConsensusFullBlock) (fresh : Option FreshProposalCertificate) : ConsensusTip where
  blockHeader := b.header
  signature := [3]
  freshCertificate := fresh

def qcFor (round : Round) (b : ConsensusFullBlock) : QuorumCertificate where
  info := { id := encodeHeader b.header, epoch := 1, round }
  signatures := [0, 1, 3]

def proposalMessage (round : Round) (b : ConsensusFullBlock) (fresh : Option FreshProposalCertificate)
    (lastRoundTc : Option TimeoutCertificate) : ProposalMessage where
  proposalRound := round
  proposalEpoch := 1
  tip := tip b fresh
  blockBody := b.body
  lastRoundTc

def proposal (round : Round) (b : ConsensusFullBlock) (fresh : Option FreshProposalCertificate)
    (lastRoundTc : Option TimeoutCertificate) : ConsensusEvent :=
  signedBy 3 (.proposal (proposalMessage round b fresh lastRoundTc))

def advanceRound (certificate : RoundCertificate) : ConsensusEvent :=
  signedBy 3 (.advanceRound { lastRoundCertificate := certificate })

/-- Three validators timed out in round `round` without a tip, the highest QC being `qc`. -/
def tcOverQc (round : Round) (qc : QuorumCertificate) : TimeoutCertificate where
  epoch := 1
  round
  tipRounds := [⟨qc.getRound, 0, [0, 1, 3]⟩]
  highExtend := .qc qc

def tc₁ : TimeoutCertificate := tcOverQc 1 crypto.genesisQc

/-- A timeout certificate without a tip, as the certificate of a fresh proposal. -/
def noTip (tc : TimeoutCertificate) : Option FreshProposalCertificate :=
  some (.noTip { epoch := tc.epoch, round := tc.round, tipRounds := tc.tipRounds, highQc := tc.highExtend.getQc })

def block₂ : ConsensusFullBlock := block 2 crypto.genesisQc 1 0

def fork₂ : ConsensusFullBlock := block 2 crypto.genesisQc 1 1

def tcWithTip (round : Round) (t : ConsensusTip) : TimeoutCertificate where
  epoch := 1
  round
  tipRounds := [⟨t.blockHeader.qc.getRound, t.blockHeader.blockRound, [0, 1, 3]⟩]
  highExtend := .tip t

def recovery (tc : TimeoutCertificate) : RoundRecoveryMessage where
  round := tc.round + 1
  epoch := 1
  tc

end FourValidators

end MonadBft
