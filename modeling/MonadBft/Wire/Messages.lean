import MonadBft.Wire.SignerMap

/-! # The wire format of consensus messages

The grammar of what consensus nodes send each other, with the numbers as wide as they are on
the wire, and for each type the codec of the source: derived ones as the list of their fields,
hand-written ones with their name and tag.
-/

namespace MonadBft.Wire

open Rlp

abbrev Round := BitVec 64
abbrev Epoch := BitVec 64
abbrev SeqNum := BitVec 64
abbrev Hash := ByteArrayOf 32
abbrev BlockId := Hash
abbrev ConsensusBlockBodyId := Hash

/-- The types that consensus takes from elsewhere: `ST`, the signature types of `SCT`, the keys
and the types of the execution protocol. -/
structure Leaves where
  Signature : Type
  BlsSignature : Type
  BlsAggregateSignature : Type
  PubKey : Type
  FinalizedHeader : Type
  ProposedHeader : Type
  Body : Type
  [signature : Codec Signature]
  [blsSignature : Codec BlsSignature]
  [blsAggregateSignature : Codec BlsAggregateSignature]
  [pubKey : Codec PubKey]
  [finalizedHeader : Codec FinalizedHeader]
  [proposedHeader : Codec ProposedHeader]
  [body : Codec Body]

attribute [instance] Leaves.signature Leaves.blsSignature Leaves.blsAggregateSignature
  Leaves.pubKey Leaves.finalizedHeader Leaves.proposedHeader Leaves.body

variable {L : Leaves}

/-! ## Certificates -/

structure BlsSignatureCollection (L : Leaves) where
  signers : SignerMap
  sig : L.BlsAggregateSignature

instance : Codec (BlsSignatureCollection L) :=
  (Fields.cons SignerMap <| .last L.BlsAggregateSignature).struct
    (fun a => (a.signers, a.sig)) (fun (signers, sig) => ⟨signers, sig⟩) fun _ => rfl

structure Vote where
  id : BlockId
  round : Round
  epoch : Epoch

instance : Codec Vote :=
  (Fields.cons BlockId <| .cons Round <| .last Epoch).struct
    (fun a => (a.id, a.round, a.epoch)) (fun (id, round, epoch) => ⟨id, round, epoch⟩) fun _ => rfl

structure QuorumCertificate (L : Leaves) where
  info : Vote
  signatures : BlsSignatureCollection L

instance : Codec (QuorumCertificate L) :=
  (Fields.cons Vote <| .last (BlsSignatureCollection L)).struct
    (fun a => (a.info, a.signatures)) (fun (info, signatures) => ⟨info, signatures⟩) fun _ => rfl

structure HighTipRoundSigColTuple (L : Leaves) where
  highQcRound : Round
  highTipRound : Round
  sigs : BlsSignatureCollection L

instance : Codec (HighTipRoundSigColTuple L) :=
  (Fields.cons Round <| .cons Round <| .last (BlsSignatureCollection L)).struct
    (fun a => (a.highQcRound, a.highTipRound, a.sigs))
    (fun (highQcRound, highTipRound, sigs) => ⟨highQcRound, highTipRound, sigs⟩) fun _ => rfl

structure NoTipCertificate (L : Leaves) where
  epoch : Epoch
  round : Round
  tipRounds : List (HighTipRoundSigColTuple L)
  highQc : QuorumCertificate L

instance : Codec (NoTipCertificate L) :=
  (Fields.cons Epoch <| .cons Round <| .cons (List (HighTipRoundSigColTuple L)) <|
    .last (QuorumCertificate L)).struct
    (fun a => (a.epoch, a.round, a.tipRounds, a.highQc))
    (fun (epoch, round, tipRounds, highQc) => ⟨epoch, round, tipRounds, highQc⟩) fun _ => rfl

structure NoEndorsement where
  epoch : Epoch
  round : Round
  tipQcRound : Round

instance : Codec NoEndorsement :=
  (Fields.cons Epoch <| .cons Round <| .last Round).struct
    (fun a => (a.epoch, a.round, a.tipQcRound))
    (fun (epoch, round, tipQcRound) => ⟨epoch, round, tipQcRound⟩) fun _ => rfl

structure NoEndorsementCertificate (L : Leaves) where
  msg : NoEndorsement
  signatures : BlsSignatureCollection L

instance : Codec (NoEndorsementCertificate L) :=
  (Fields.cons NoEndorsement <| .last (BlsSignatureCollection L)).struct
    (fun a => (a.msg, a.signatures)) (fun (msg, signatures) => ⟨msg, signatures⟩) fun _ => rfl

inductive FreshProposalCertificate (L : Leaves) where
  | nec (nec : NoEndorsementCertificate L)
  | noTip (noTip : NoTipCertificate L)

instance : Codec (FreshProposalCertificate L) :=
  .either "failed to decode unknown FreshProposalCertificate"
    (fun | .nec nec => .inl nec | .noTip noTip => .inr noTip) .nec .noTip
    (by rintro (_ | _) <;> rfl)

instance : IsList (FreshProposalCertificate L) where
  exists_payload := encodeEither_eq_encodeList _

/-! ## Blocks and tips -/

structure ConsensusBlockHeader (L : Leaves) where
  blockRound : Round
  epoch : Epoch
  qc : QuorumCertificate L
  author : L.PubKey
  seqNum : SeqNum
  timestampNs : BitVec 128
  roundSignature : L.BlsSignature
  delayedExecutionResults : List L.FinalizedHeader
  executionInputs : L.ProposedHeader
  blockBodyId : ConsensusBlockBodyId

instance : Codec (ConsensusBlockHeader L) :=
  (Fields.cons Round <| .cons Epoch <| .cons (QuorumCertificate L) <| .cons L.PubKey <|
    .cons SeqNum <| .cons (BitVec 128) <| .cons L.BlsSignature <|
    .cons (List L.FinalizedHeader) <| .cons L.ProposedHeader <|
    .last ConsensusBlockBodyId).struct
    (fun a => (a.blockRound, a.epoch, a.qc, a.author, a.seqNum, a.timestampNs, a.roundSignature,
      a.delayedExecutionResults, a.executionInputs, a.blockBodyId))
    (fun (blockRound, epoch, qc, author, seqNum, timestampNs, roundSignature,
      delayedExecutionResults, executionInputs, blockBodyId) =>
      ⟨blockRound, epoch, qc, author, seqNum, timestampNs, roundSignature,
        delayedExecutionResults, executionInputs, blockBodyId⟩)
    fun _ => rfl

structure ConsensusTip (L : Leaves) where
  blockHeader : ConsensusBlockHeader L
  signature : L.Signature
  freshCertificate : Option (FreshProposalCertificate L)

instance : Codec (ConsensusTip L) :=
  (Fields.cons (ConsensusBlockHeader L) <| .cons L.Signature <|
    .trailing (FreshProposalCertificate L)).struct
    (fun a => (a.blockHeader, a.signature, a.freshCertificate))
    (fun (blockHeader, signature, freshCertificate) => ⟨blockHeader, signature, freshCertificate⟩)
    fun _ => rfl

structure ConsensusBlockBodyInner (L : Leaves) where
  executionBody : L.Body

instance : Codec (ConsensusBlockBodyInner L) :=
  (Fields.last L.Body).struct (·.executionBody) (⟨·⟩) fun _ => rfl

structure ConsensusBlockBody (L : Leaves) where
  inner : ConsensusBlockBodyInner L

instance : Codec (ConsensusBlockBody L) := .wrapper (·.inner) (⟨·⟩) fun _ => rfl

/-! ## Timeouts -/

inductive HighExtend (L : Leaves) where
  | tip (tip : ConsensusTip L)
  | qc (qc : QuorumCertificate L)

instance : Codec (HighExtend L) :=
  .either "failed to decode unknown HighExtend"
    (fun | .tip tip => .inl tip | .qc qc => .inr qc) .tip .qc (by rintro (_ | _) <;> rfl)

inductive HighExtendVote (L : Leaves) where
  | tip (tip : ConsensusTip L) (voteSignature : L.BlsSignature)
  | qc (qc : QuorumCertificate L)

namespace HighExtendVote

def encode : HighExtendVote L → List Byte
  | .tip t voteSignature =>
    encodeList (Rlp.encode 1#8 ++ (Rlp.encode t ++ Rlp.encode voteSignature))
  | .qc certificate => encodeList (Rlp.encode 2#8 ++ Rlp.encode certificate)

/-- An unknown tag is reported with the name of the other type. -/
def decodeBody : Nat → List Byte → Except Error (HighExtendVote L × List Byte)
  | 1, payload => do
    let (t, payload) ← decode payload
    decodeAs (.tip t) payload
  | 2, payload => decodeAs .qc payload
  | _, _ => .error (.custom "failed to decode unknown HighExtend")

end HighExtendVote

instance : Codec (HighExtendVote L) where
  encode := HighExtendVote.encode
  decode := decodeTagged HighExtendVote.decodeBody
  encode_ne_nil a := by cases a <;> exact encodeList_ne_nil _
  decode_encode := by
    intro a fits rest
    cases a with
    | tip t voteSignature =>
      refine decodeTagged_encodeList (by decide) fits (fun short => ?_) rest
      rw [List.length_append] at short
      have first := Codec.decode_encode (show (encode t).length < 2 ^ 64 by omega)
        (encode voteSignature)
      have second := decodeAs_encode_nil (HighExtendVote.tip t)
        (show (encode voteSignature).length < 2 ^ 64 by omega)
      simp only [HighExtendVote.decodeBody, first, bind, Except.bind, second]
    | qc certificate =>
      refine decodeTagged_encodeList (by decide) fits (fun short => ?_) rest
      rw [HighExtendVote.decodeBody, decodeAs_encode_nil _ short]

structure TimeoutCertificate (L : Leaves) where
  epoch : Epoch
  round : Round
  tipRounds : List (HighTipRoundSigColTuple L)
  highExtend : HighExtend L

instance : Codec (TimeoutCertificate L) :=
  (Fields.cons Epoch <| .cons Round <| .cons (List (HighTipRoundSigColTuple L)) <|
    .last (HighExtend L)).struct
    (fun a => (a.epoch, a.round, a.tipRounds, a.highExtend))
    (fun (epoch, round, tipRounds, highExtend) => ⟨epoch, round, tipRounds, highExtend⟩)
    fun _ => rfl

instance : IsList (TimeoutCertificate L) where
  exists_payload _ := ⟨_, rfl⟩

inductive RoundCertificate (L : Leaves) where
  | qc (qc : QuorumCertificate L)
  | tc (tc : TimeoutCertificate L)

instance : Codec (RoundCertificate L) :=
  .either "failed to decode unknown RoundCertificate"
    (fun | .qc qc => .inl qc | .tc tc => .inr tc) .qc .tc (by rintro (_ | _) <;> rfl)

instance : IsList (RoundCertificate L) where
  exists_payload := encodeEither_eq_encodeList _

structure TimeoutInfo where
  epoch : Epoch
  round : Round
  highQcRound : Round
  highTipRound : Round

instance : Codec TimeoutInfo :=
  (Fields.cons Epoch <| .cons Round <| .cons Round <| .last Round).struct
    (fun a => (a.epoch, a.round, a.highQcRound, a.highTipRound))
    (fun (epoch, round, highQcRound, highTipRound) => ⟨epoch, round, highQcRound, highTipRound⟩)
    fun _ => rfl

structure Timeout (L : Leaves) where
  tminfo : TimeoutInfo
  timeoutSignature : L.BlsSignature
  highExtend : HighExtendVote L
  lastRoundCertificate : Option (RoundCertificate L)

instance : Codec (Timeout L) :=
  (Fields.cons TimeoutInfo <| .cons L.BlsSignature <| .cons (HighExtendVote L) <|
    .trailing (RoundCertificate L)).struct
    (fun a => (a.tminfo, a.timeoutSignature, a.highExtend, a.lastRoundCertificate))
    (fun (tminfo, timeoutSignature, highExtend, lastRoundCertificate) =>
      ⟨tminfo, timeoutSignature, highExtend, lastRoundCertificate⟩)
    fun _ => rfl

/-! ## Messages -/

structure ProposalMessage (L : Leaves) where
  proposalRound : Round
  proposalEpoch : Epoch
  tip : ConsensusTip L
  blockBody : ConsensusBlockBody L
  lastRoundTc : Option (TimeoutCertificate L)

instance : Codec (ProposalMessage L) :=
  (Fields.cons Round <| .cons Epoch <| .cons (ConsensusTip L) <| .cons (ConsensusBlockBody L) <|
    .trailing (TimeoutCertificate L)).struct
    (fun a => (a.proposalRound, a.proposalEpoch, a.tip, a.blockBody, a.lastRoundTc))
    (fun (proposalRound, proposalEpoch, tip, blockBody, lastRoundTc) =>
      ⟨proposalRound, proposalEpoch, tip, blockBody, lastRoundTc⟩)
    fun _ => rfl

structure VoteMessage (L : Leaves) where
  vote : Vote
  sig : L.BlsSignature

instance : Codec (VoteMessage L) :=
  (Fields.cons Vote <| .last L.BlsSignature).struct
    (fun a => (a.vote, a.sig)) (fun (vote, sig) => ⟨vote, sig⟩) fun _ => rfl

structure TimeoutMessage (L : Leaves) where
  timeout : Timeout L

instance : Codec (TimeoutMessage L) := .wrapper (·.timeout) (⟨·⟩) fun _ => rfl

structure RoundRecoveryMessage (L : Leaves) where
  round : Round
  epoch : Epoch
  tc : TimeoutCertificate L

instance : Codec (RoundRecoveryMessage L) :=
  (Fields.cons Round <| .cons Epoch <| .last (TimeoutCertificate L)).struct
    (fun a => (a.round, a.epoch, a.tc)) (fun (round, epoch, tc) => ⟨round, epoch, tc⟩) fun _ => rfl

structure NoEndorsementMessage (L : Leaves) where
  msg : NoEndorsement
  signature : L.BlsSignature

instance : Codec (NoEndorsementMessage L) :=
  (Fields.cons NoEndorsement <| .last L.BlsSignature).struct
    (fun a => (a.msg, a.signature)) (fun (msg, signature) => ⟨msg, signature⟩) fun _ => rfl

structure AdvanceRoundMessage (L : Leaves) where
  lastRoundCertificate : RoundCertificate L

instance : Codec (AdvanceRoundMessage L) :=
  (Fields.last (RoundCertificate L)).struct (·.lastRoundCertificate) (⟨·⟩) fun _ => rfl

inductive ProtocolMessage (L : Leaves) where
  | proposal (m : ProposalMessage L)
  | vote (m : VoteMessage L)
  | timeout (m : TimeoutMessage L)
  | roundRecovery (m : RoundRecoveryMessage L)
  | noEndorsement (m : NoEndorsementMessage L)
  | advanceRound (m : AdvanceRoundMessage L)

def protocolMessageName : String := "ProtocolMessage"

namespace ProtocolMessage

/-- The tag and the body that follow the name. -/
def tagged : ProtocolMessage L → List Byte
  | .proposal m => Rlp.encode 1#8 ++ Rlp.encode m
  | .vote m => Rlp.encode 2#8 ++ Rlp.encode m
  | .timeout m => Rlp.encode 3#8 ++ Rlp.encode m
  | .roundRecovery m => Rlp.encode 4#8 ++ Rlp.encode m
  | .noEndorsement m => Rlp.encode 5#8 ++ Rlp.encode m
  | .advanceRound m => Rlp.encode 6#8 ++ Rlp.encode m

def encode (m : ProtocolMessage L) : List Byte :=
  encodeList (Rlp.encode protocolMessageName ++ m.tagged)

def decodeBody : Nat → List Byte → Except Error (ProtocolMessage L × List Byte)
  | 1, payload => decodeAs .proposal payload
  | 2, payload => decodeAs .vote payload
  | 3, payload => decodeAs .timeout payload
  | 4, payload => decodeAs .roundRecovery payload
  | 5, payload => decodeAs .noEndorsement payload
  | 6, payload => decodeAs .advanceRound payload
  | _, _ => .error (.custom "failed to decode unknown ProtocolMessage")

def decode (buf : List Byte) : Except Error (ProtocolMessage L × List Byte) := do
  let (payload, rest) ← Header.decodeBytes true buf
  let (name, payload) ← Rlp.decode (α := String) payload
  if name ≠ protocolMessageName then
    throw (.custom "expected to decode type ProtocolMessage")
  let (m, _) ← decodeAlternative decodeBody payload
  return (m, rest)

theorem decodeAlternative_tagged {m : ProtocolMessage L} (fits : m.tagged.length < 2 ^ 64) :
    decodeAlternative decodeBody m.tagged = .ok (m, []) := by
  cases m <;> exact decodeAlternative_encode (by decide) fits fun short => by
    rw [decodeBody, decodeAs_encode_nil _ short]

end ProtocolMessage

instance : Codec (ProtocolMessage L) where
  encode := ProtocolMessage.encode
  decode := ProtocolMessage.decode
  encode_ne_nil m := encodeList_ne_nil _
  decode_encode := by
    intro m fits rest
    have payload := (length_le_encodeList _).trans_lt fits
    have parts := payload
    rw [List.length_append] at parts
    have name := Codec.decode_encode
      (show (encode protocolMessageName).length < 2 ^ 64 by omega) m.tagged
    have body := m.decodeAlternative_tagged (by omega)
    rw [ProtocolMessage.encode, ProtocolMessage.decode, Header.decodeBytes_list payload]
    simp only [bind, Except.bind, name, body]
    rfl

structure ConsensusMessage (L : Leaves) where
  version : BitVec 32
  message : ProtocolMessage L

instance : Codec (ConsensusMessage L) :=
  (Fields.cons (BitVec 32) <| .last (ProtocolMessage L)).struct
    (fun a => (a.version, a.message)) (fun (version, message) => ⟨version, message⟩) fun _ => rfl

/-- Decoding gives back the message and leaves what follows it, so that no two messages have
the same encoding; the encoding is one that fits into memory. -/
theorem decode_encode_consensusMessage (m : ConsensusMessage L) (fits : (encode m).length < 2 ^ 64) :
    (∀ suffix, decode (encode m ++ suffix) = .ok (m, suffix)) ∧
      ∀ m' : ConsensusMessage L, encode m' = encode m → m' = m :=
  ⟨Codec.decode_encode fits, fun _ same => (encode_injective fits same.symm).symm⟩

def byteLeaves : Leaves where
  Signature := BitVec 8
  BlsSignature := BitVec 8
  BlsAggregateSignature := BitVec 8
  PubKey := BitVec 8
  FinalizedHeader := BitVec 8
  ProposedHeader := BitVec 8
  Body := BitVec 8

def tenSigners : BlsSignatureCollection byteLeaves where
  signers := ⟨[true, false, true, true, false, false, false, false, true, true], by decide⟩
  sig := 9#8

def quorumOf300 : QuorumCertificate byteLeaves where
  info := ⟨⟨List.replicate 32 7#8, rfl⟩, 300, 2⟩
  signatures := tenSigners

def freshTip : ConsensusTip byteLeaves where
  blockHeader :=
    { blockRound := 301
      epoch := 2
      qc := quorumOf300
      author := 3#8
      seqNum := 250
      timestampNs := 1700000000000000000
      roundSignature := 5#8
      delayedExecutionResults := [1#8, 200#8]
      executionInputs := 4#8
      blockBodyId := ⟨List.replicate 32 8#8, rfl⟩ }
  signature := 6#8
  freshCertificate := some (.noTip ⟨2, 300, [⟨299, 0, tenSigners⟩], quorumOf300⟩)

def timeoutAfterTc : ConsensusMessage byteLeaves where
  version := 1
  message := .timeout ⟨⟨2, 302, 300, 301⟩, 11#8, .tip freshTip 12#8,
    some (.tc ⟨2, 301, [⟨300, 301, tenSigners⟩], .tip freshTip⟩)⟩

theorem decode_encode_timeoutAfterTc :
    decode (encode timeoutAfterTc ++ [0xC0#8]) = .ok (timeoutAfterTc, [0xC0#8]) :=
  (decode_encode_consensusMessage timeoutAfterTc (by decide +kernel)).1 [0xC0#8]

end MonadBft.Wire
