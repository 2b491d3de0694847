import MonadBft.Safety
import MonadBft.Lib.Outcome

/-! # The pacemaker

`pacemaker.rs`: the current round, the timeout a replica sends, and the timeout
certificate it builds from the timeouts of others (`TimeoutCertificate::new` in
`timeout.rs`).
-/

namespace MonadBft

/-! ## Building a timeout certificate -/

/-- `HighExtend::partial_cmp`. Two extends of one kind and round are not ordered; a QC comes
above a tip of the same round. -/
def HighExtend.partialCmp : HighExtend → HighExtend → Option Ordering
  | .qc qc₁, .qc qc₂ =>
    if qc₁.getRound = qc₂.getRound then none else some (compare qc₁.getRound qc₂.getRound)
  | .tip tip₁, .tip tip₂ =>
    if tip₁.blockHeader.blockRound = tip₂.blockHeader.blockRound then none
    else some (compare tip₁.blockHeader.blockRound tip₂.blockHeader.blockRound)
  | .qc qc₁, .tip tip₂ =>
    if qc₁.getRound = tip₂.blockHeader.blockRound then some .gt
    else some (compare qc₁.getRound tip₂.blockHeader.blockRound)
  | .tip tip₁, .qc qc₂ =>
    if tip₁.blockHeader.blockRound = qc₂.getRound then some .lt
    else some (compare tip₁.blockHeader.blockRound qc₂.getRound)

namespace TimeoutCertificate

/-- The highest extend of the timeouts; the first one wins among unordered ones. -/
def highestExtend (crypto : Crypto) (timeouts : List (NodeId × TimeoutMessage)) : HighExtend :=
  timeouts.foldl
    (fun highest timeout =>
      if timeout.2.highExtend.toHighExtend.partialCmp highest = some .gt then timeout.2.highExtend.toHighExtend
      else highest)
    (.qc crypto.genesisQc)

def pushSignature (info : TimeoutInfo) (sig : NodeId × Bytes) :
    List (TimeoutInfo × List (NodeId × Bytes)) → List (TimeoutInfo × List (NodeId × Bytes))
  | [] => [(info, [sig])]
  | (info', sigs) :: rest =>
    if info' = info then (info', sigs ++ [sig]) :: rest else (info', sigs) :: pushSignature info sig rest

def groupSignatures (timeouts : List (NodeId × TimeoutMessage)) : List (TimeoutInfo × List (NodeId × Bytes)) :=
  timeouts.foldl (fun groups timeout => pushSignature timeout.2.tminfo (timeout.1, timeout.2.timeoutSignature) groups)
    []

def aggregateGroups (crypto : Crypto) (mapping : ValidatorMapping) :
    List (TimeoutInfo × List (NodeId × Bytes)) → Except SignatureCollectionError (List HighTipRoundSigColTuple)
  | [] => .ok []
  | (info, sigs) :: rest =>
    match crypto.sctNew mapping (.timeout info) sigs with
    | .error e => .error e
    | .ok sct =>
      match aggregateGroups crypto mapping rest with
      | .error e => .error e
      | .ok tipRounds =>
        .ok ({ highQcRound := info.highQcRound, highTipRound := info.highTipRound, sigs := sct } :: tipRounds)

def new (crypto : Crypto) (epoch : Epoch) (round : Round) (timeouts : List (NodeId × TimeoutMessage))
    (mapping : ValidatorMapping) : Except SignatureCollectionError TimeoutCertificate :=
  match aggregateGroups crypto mapping (groupSignatures timeouts) with
  | .error e => .error e
  | .ok tipRounds => .ok { epoch, round, tipRounds, highExtend := highestExtend crypto timeouts }

end TimeoutCertificate

/-! ## Rounds and timeouts -/

inductive PhaseHonest where
  /-- No honest timeout of this round is known. -/
  | zero
  /-- This replica timed out, or an honest one did. -/
  | one
  deriving DecidableEq

structure Pacemaker where
  currentEpoch : Epoch
  /-- The certificate that advanced the replica to its current round. -/
  highCertificate : RoundCertificate
  /-- Timeouts of other replicas for the current round. -/
  pendingTimeouts : SortedMap NodeId TimeoutMessage
  phase : PhaseHonest

inductive PacemakerCommand where
  | enterRound (epoch : Epoch) (round : Round) (highCertificate : RoundCertificate)
  | prepareTimeout (timeout : TimeoutInfo) (highExtend : HighExtend) (lastRoundCertificate : Option RoundCertificate)
  | schedule (round : Round) (duration : Nat)
  | scheduleReset
  deriving DecidableEq

/-- How long a round may take (`delta`, `local_processing` and the vote pace of the chain config). -/
structure RoundTimer where
  delta : Nat
  votePace : Round → Nat
  localProcessing : Nat

def RoundTimer.getRoundTimer (timer : RoundTimer) (round : Round) : Nat :=
  timer.delta * 3 + timer.votePace round + timer.localProcessing

namespace Pacemaker

/-- `none` if the epoch of the first round is not known. -/
def new (em : EpochManager) (highCertificate : RoundCertificate) : Option Pacemaker :=
  (em.getEpoch (highCertificate.round + 1)).map fun currentEpoch =>
    { currentEpoch, highCertificate, pendingTimeouts := .empty, phase := .zero }

def getCurrentRound (pm : Pacemaker) : Round := pm.highCertificate.round + 1

/-- A pacemaker call changes the pacemaker and the safety module. -/
abbrev Call := Outcome Panic (Pacemaker × Safety) PacemakerCommand

/-- Enter the round after `certificate`, unless it is not ahead of the high certificate. -/
def processCertificate (timer : RoundTimer) (em : EpochManager) (pm : Pacemaker) (safety : Safety)
    (certificate : RoundCertificate) : Call :=
  if certificate.round ≤ pm.highCertificate.round then .ok (pm, safety) []
  else
    let round := certificate.round + 1
    match em.getEpoch round with
    | none => .panic .epochUnavailable
    | some currentEpoch =>
      .ok ({ currentEpoch, highCertificate := certificate, pendingTimeouts := .empty, phase := .zero },
          safety.processCertificate certificate)
        [.enterRound currentEpoch round certificate, .schedule round (timer.getRoundTimer round)]

/-- What the replica reports in a timeout: the tip it last voted for, or its highest QC. -/
def highExtend (pm : Pacemaker) (safety : Safety) : HighExtend :=
  match safety.maybeHighTip with
  | some tip => .tip tip
  | none => .qc pm.highCertificate.getQc

def timeoutInfo (pm : Pacemaker) (safety : Safety) : TimeoutInfo where
  epoch := pm.currentEpoch
  round := pm.getCurrentRound
  highQcRound := (pm.highExtend safety).getQc.getRound
  highTipRound :=
    match pm.highExtend safety with
    | .tip tip => tip.blockHeader.blockRound
    | .qc _ => genesisRound

/-- The certificate of the previous round, unless the high extend's QC is one. -/
def lastRoundCertificate (pm : Pacemaker) (safety : Safety) : Option RoundCertificate :=
  if (pm.highExtend safety).getQc.getRound + 1 = pm.getCurrentRound then none else some pm.highCertificate

def localTimeoutRound (timer : RoundTimer) (pm : Pacemaker) (safety : Safety) : Call :=
  match safety.timeout pm.getCurrentRound with
  | .error e => .panic e
  | .ok safety =>
    .ok (pm, safety)
      [.scheduleReset,
       .prepareTimeout (pm.timeoutInfo safety) (pm.highExtend safety) (pm.lastRoundCertificate safety),
       .schedule pm.getCurrentRound (timer.getRoundTimer pm.getCurrentRound)]

def processLocalTimeout (timer : RoundTimer) (pm : Pacemaker) (safety : Safety) : Call :=
  localTimeoutRound timer { pm with phase := .one } safety

/-- The f+1 rule: a replica that has not timed out does so when an honest one has. -/
def joinTimeout (timer : RoundTimer) (validators : ValidatorSet) (pm : Pacemaker) (safety : Safety) : Call :=
  match pm.phase with
  | .one => .ok (pm, safety) []
  | .zero =>
    match validators.hasHonestVote pm.pendingTimeouts.keys with
    | .error .duplicateValidator => .panic .duplicateAddress
    | .ok false => .ok (pm, safety) []
    | .ok true =>
      match localTimeoutRound timer pm safety with
      | .panic e => .panic e
      | .ok (pm, safety) commands => .ok ({ pm with phase := .one }, safety) commands

def handleInvalidTimeout (pm : Pacemaker) (invalid : List (NodeId × Bytes)) : Pacemaker :=
  { pm with pendingTimeouts := invalid.foldl (fun pending sig => pending.erase sig.1) pm.pendingTimeouts }

/-- The loop that builds a TC; each round of it drops a pending timeout. -/
def buildTimeoutCertificate (crypto : Crypto) (timer : RoundTimer) (em : EpochManager)
    (validators : ValidatorSet) (mapping : ValidatorMapping) (epoch : Epoch) (round : Round) :
    Nat → Pacemaker → Safety → Call
  | 0, _, _ => .panic .diverges
  | fuel + 1, pm, safety =>
    match pm.phase with
    | .zero => .ok (pm, safety) []
    | .one =>
      match validators.hasSuperMajorityVotes pm.pendingTimeouts.keys with
      | .error .duplicateValidator => .panic .duplicateAddress
      | .ok false => .ok (pm, safety) []
      | .ok true =>
        match TimeoutCertificate.new crypto epoch round pm.pendingTimeouts.entries mapping with
        | .ok tc =>
          match processCertificate timer em pm safety (.tc tc) with
          | .panic e => .panic e
          | .ok (pm, safety) commands =>
            if pm.phase = .zero then .ok (pm, safety) commands else .panic .phaseZero
        | .error (.invalidSignaturesCreate invalid) =>
          buildTimeoutCertificate crypto timer em validators mapping epoch round fuel
            (pm.handleInvalidTimeout invalid) safety
        | .error _ => .panic .signatureCollection

def processRemoteTimeout (crypto : Crypto) (timer : RoundTimer) (em : EpochManager)
    (validators : ValidatorSet) (mapping : ValidatorMapping) (pm : Pacemaker) (safety : Safety)
    (author : NodeId) (timeoutMsg : TimeoutMessage) : Call :=
  let tmInfo := timeoutMsg.tminfo
  if tmInfo.round < pm.getCurrentRound then .ok (pm, safety) []
  else if tmInfo.round ≠ pm.getCurrentRound then .panic .timeoutRound
  else
    let pm := { pm with pendingTimeouts := pm.pendingTimeouts.insert author timeoutMsg }
    (joinTimeout timer validators pm safety).andThen fun (pm, safety) =>
      buildTimeoutCertificate crypto timer em validators mapping tmInfo.epoch tmInfo.round
        (pm.pendingTimeouts.entries.length + 1) pm safety

end Pacemaker

end MonadBft
