import MonadBft.Environment
import MonadBft.Lib.CachedCheck

/-! # Verification of certificates

`certificate_cache.rs` and the verifiers of `signing.rs`: `verify_qc`, `verify_nec`,
`verify_tc`, `verify_tip` and `verify_high_extend`. A verifier answers from the
cache when it can, and the cache it leaves also holds what it accepted before it
failed.

The source's `verify_tc` and `verify_tip` call each other, but a tip only carries a
timeout certificate without a tip, so the recursion has depth two. `verifyTcWith`
takes the check of the high extend as an argument, and is used at both depths.
-/

namespace MonadBft

inductive ValidationError where
  | invalidAuthor
  | notWellFormed
  | invalidSignature
  | invalidTcRound
  | duplicateTcTipRound
  | insufficientStake
  | validatorSetDataUnavailable
  | signaturesDuplicateNode
  | invalidVersion
  | invalidEpoch
  deriving DecidableEq

/-! ## The certificate cache -/

/-- Three LRU caches, the most recently stored certificate first. -/
structure CertificateCache where
  qcLru : List QuorumCertificate
  tcLru : List TimeoutCertificate
  necLru : List NoEndorsementCertificate

namespace CertificateCache

def capacity : Nat := 1000

/-- `LruCache::put`: the stored key becomes the most recent one, the oldest falls out. -/
def put {α : Type} [DecidableEq α] (lru : List α) (key : α) : List α := (key :: lru.erase key).take capacity

def empty : CertificateCache := ⟨[], [], []⟩

variable (c : CertificateCache)

def qcIsCachedValidated (qc : QuorumCertificate) : Bool := qc ∈ c.qcLru
def tcIsCachedValidated (tc : TimeoutCertificate) : Bool := tc ∈ c.tcLru
def necIsCachedValidated (nec : NoEndorsementCertificate) : Bool := nec ∈ c.necLru

def cacheValidatedQc (qc : QuorumCertificate) : CertificateCache :=
  { c with qcLru := put c.qcLru qc }
def cacheValidatedTc (tc : TimeoutCertificate) : CertificateCache :=
  { c with tcLru := put c.tcLru tc }
def cacheValidatedNec (nec : NoEndorsementCertificate) : CertificateCache :=
  { c with necLru := put c.necLru nec }

theorem mem_put {α : Type} [DecidableEq α] {lru : List α} {key a : α} (h : a ∈ put lru key) :
    a = key ∨ a ∈ lru := by
  rcases List.mem_cons.mp (List.mem_of_mem_take h) with rfl | inRest
  · exact .inl rfl
  · exact .inr (List.mem_of_mem_erase inRest)

end CertificateCache

abbrev Verify := CachedCheck ValidationError CertificateCache

open CachedCheck (lookup)

section Verifiers

variable (net : Network) (em : EpochManager)

/-- `epoch_to_validators`: validator set, certificate keys and leader of a round. -/
def epochToValidators (epoch : Epoch) (round : Round) :
    Except ValidationError (ValidatorSet × ValidatorMapping × NodeId) :=
  match em.getEpoch round with
  | none => .error .invalidEpoch
  | some e =>
    if epoch ≠ e then .error .invalidEpoch
    else match net.valEpochMap epoch with
      | none => .error .validatorSetDataUnavailable
      | some (validators, mapping) => .ok (validators, mapping, net.getLeader round validators.validators)

/-- The stake check shared by all certificates. -/
def checkSuperMajority (validators : ValidatorSet) (nodeIds : List NodeId) : Except ValidationError Unit :=
  match validators.hasSuperMajorityVotes nodeIds with
  | .error .duplicateValidator => .error .signaturesDuplicateNode
  | .ok false => .error .insufficientStake
  | .ok true => .ok ()

def signersOf (mapping : ValidatorMapping) (msg : SignedMessage) (sigs : Bytes) :
    Except ValidationError (List NodeId) :=
  match net.crypto.sctVerify mapping msg sigs with
  | none => .error .invalidSignature
  | some nodeIds => .ok nodeIds

def verifyQc (qc : QuorumCertificate) : Verify Unit :=
  lookup (·.qcIsCachedValidated qc) do
    let (validators, mapping, _) ← ofExcept (epochToValidators net em qc.getEpoch qc.getRound)
    -- the genesis QC has no signatures, and is accepted without being cached
    if qc.getRound = genesisRound then
      if qc ≠ net.crypto.genesisQc then throw .invalidSignature
      else pure ()
    else
      let nodeIds ← ofExcept (signersOf net mapping (.vote qc.info) qc.signatures)
      ofExcept (checkSuperMajority validators nodeIds)
      modify (·.cacheValidatedQc qc)

def verifyNec (nec : NoEndorsementCertificate) : Verify Unit :=
  lookup (·.necIsCachedValidated nec) do
    let (validators, mapping, _) ← ofExcept (epochToValidators net em nec.msg.epoch nec.msg.round)
    let nodeIds ← ofExcept (signersOf net mapping (.noEndorsement nec.msg) nec.signatures)
    ofExcept (checkSuperMajority validators nodeIds)
    modify (·.cacheValidatedNec nec)

def insertSigners (seen : List NodeId) : List NodeId → Except ValidationError (List NodeId)
  | [] => .ok seen
  | signer :: rest =>
    if signer ∈ seen then .error .signaturesDuplicateNode else insertSigners (signer :: seen) rest

/-- The accumulators of the loop over `tc.tip_rounds`. -/
structure TipRoundsSeen where
  nodeIds : List NodeId := []
  highestQcRound : Round := genesisRound
  highestTipRound : Round := genesisRound
  tipRounds : List (Round × Round) := []
  seenNodeIds : List NodeId := []

/-- What the signers of an entry of `tip_rounds` signed. -/
def TimeoutCertificate.timeoutInfo (tc : TimeoutCertificate) (t : HighTipRoundSigColTuple) : TimeoutInfo where
  epoch := tc.epoch
  round := tc.round
  highQcRound := t.highQcRound
  highTipRound := t.highTipRound

/-- One iteration of the loop over `tc.tip_rounds`. -/
def verifyTipRound (mapping : ValidatorMapping) (tc : TimeoutCertificate) (seen : TipRoundsSeen)
    (t : HighTipRoundSigColTuple) : Except ValidationError TipRoundsSeen :=
  if tc.round ≤ t.highQcRound then .error .invalidTcRound
  else if (t.highQcRound, t.highTipRound) ∈ seen.tipRounds then .error .duplicateTcTipRound
  else match signersOf net mapping (.timeout (tc.timeoutInfo t)) t.sigs with
    | .error e => .error e
    | .ok signers =>
      match insertSigners seen.seenNodeIds signers with
      | .error e => .error e
      | .ok seenNodeIds => .ok {
          nodeIds := seen.nodeIds ++ signers
          highestQcRound := if seen.highestQcRound < t.highQcRound then t.highQcRound else seen.highestQcRound
          highestTipRound := if seen.highestTipRound < t.highTipRound then t.highTipRound else seen.highestTipRound
          tipRounds := (t.highQcRound, t.highTipRound) :: seen.tipRounds
          seenNodeIds }

def verifyTipRounds (mapping : ValidatorMapping) (tc : TimeoutCertificate) :
    TipRoundsSeen → List HighTipRoundSigColTuple → Except ValidationError TipRoundsSeen
  | seen, [] => .ok seen
  | seen, t :: rest =>
    match verifyTipRound net mapping tc seen t with
    | .error e => .error e
    | .ok seen' => verifyTipRounds mapping tc seen' rest

/-- The high extend is the highest QC or tip that was reported. -/
def checkHighExtend (highExtend : HighExtend) (seen : TipRoundsSeen) : Except ValidationError Unit :=
  match highExtend with
  | .qc qc =>
    if qc.getRound ≠ seen.highestQcRound then .error .notWellFormed
    else if seen.highestQcRound < seen.highestTipRound then .error .notWellFormed
    else .ok ()
  | .tip tip =>
    if tip.blockHeader.blockRound ≠ seen.highestTipRound then .error .notWellFormed
    else if seen.highestTipRound ≤ seen.highestQcRound then .error .notWellFormed
    else .ok ()

def verifyTcWith (verifyExtend : HighExtend → Verify Unit) (tc : TimeoutCertificate) : Verify Unit :=
  lookup (·.tcIsCachedValidated tc) do
    let (validators, mapping, _) ← ofExcept (epochToValidators net em tc.epoch tc.round)
    let seen ← ofExcept (verifyTipRounds net mapping tc {} tc.tipRounds)
    ofExcept (checkSuperMajority validators seen.nodeIds)
    verifyExtend tc.highExtend
    ofExcept (checkHighExtend tc.highExtend seen)
    modify (·.cacheValidatedTc tc)

/-- `verify_tc` of the timeout certificate inside a fresh certificate, whose high extend is a QC. -/
def verifyNoTip (noTip : NoTipCertificate) : Verify Unit :=
  verifyTcWith net em (fun _ => verifyQc net em noTip.highQc) noTip.toTimeoutCertificate

def verifyFreshCertificate : Option FreshProposalCertificate → Verify Unit
  | some (.nec nec) => verifyNec net em nec
  | some (.noTip noTip) => verifyNoTip net em noTip
  | none => pure ()

/-- The tip was proposed on the QC of the previous round, or with a certificate that allows it not to. -/
def checkFreshCertificate (tip : ConsensusTip) : Except ValidationError Unit :=
  if tip.blockHeader.blockRound = tip.blockHeader.qc.getRound + 1 then
    if tip.freshCertificate.isSome then .error .notWellFormed else .ok ()
  else match tip.freshCertificate with
    | none => .error .notWellFormed
    | some (.nec nec) =>
      if nec.msg.round ≠ tip.blockHeader.blockRound then .error .notWellFormed
      else if nec.msg.tipQcRound ≠ tip.blockHeader.qc.getRound then .error .notWellFormed
      else .ok ()
    | some (.noTip noTip) =>
      if noTip.round + 1 ≠ tip.blockHeader.blockRound then .error .notWellFormed
      else if noTip.highQc.getRound ≠ tip.blockHeader.qc.getRound then .error .notWellFormed
      else .ok ()

/-- The tip is signed by its author, who led the block's round. -/
def checkTipAuthor (tip : ConsensusTip) (leader : NodeId) : Except ValidationError Unit :=
  match net.crypto.tipAuthor tip.blockHeader tip.signature with
  | none => .error .invalidSignature
  | some tipAuthor =>
    if tipAuthor ≠ leader ∨ tipAuthor ≠ tip.blockHeader.author then .error .invalidAuthor else .ok ()

def verifyTip (tip : ConsensusTip) : Verify Unit := do
  let (_, _, leader) ← ofExcept (epochToValidators net em tip.blockHeader.epoch tip.blockHeader.blockRound)
  ofExcept (checkTipAuthor net tip leader)
  verifyQc net em tip.blockHeader.qc
  verifyFreshCertificate net em tip.freshCertificate
  ofExcept (checkFreshCertificate tip)

def verifyHighExtend : HighExtend → Verify Unit
  | .qc qc => verifyQc net em qc
  | .tip tip => verifyTip net em tip

def verifyTc (tc : TimeoutCertificate) : Verify Unit := verifyTcWith net em (verifyHighExtend net em) tc

def verifyRoundCertificate : RoundCertificate → Verify Unit
  | .tc tc => verifyTc net em tc
  | .qc qc => verifyQc net em qc

end Verifiers

end MonadBft
