import Mathlib.Data.List.AList
import MonadBft.Safety

/-! # Collecting votes and no-endorsements

`vote_state.rs` and `no_endorsement_state.rs`: signatures over one message are kept
until their authors hold a super-majority of the stake, and are then aggregated.
Signatures that turn out invalid are dropped, and aggregation is tried again. The
`node_votes` and `node_no_endorsements` fields only collect evidence and are left out.
-/

namespace MonadBft

/-- The aggregation loop of `process_vote` and `process_no_endorsement`. Each round of the
loop drops a signature, so `fuel` above the number of pending ones is enough. -/
def aggregate (crypto : Crypto) (validators : ValidatorSet) (mapping : ValidatorMapping) (msg : SignedMessage) :
    Nat → SortedMap NodeId Bytes → Except Panic (Option Bytes × SortedMap NodeId Bytes)
  | 0, _ => .error .diverges
  | fuel + 1, pending =>
    match validators.hasSuperMajorityVotes pending.keys with
    | .error .duplicateValidator => .error .duplicateAddress
    | .ok false => .ok (none, pending)
    | .ok true =>
      match crypto.sctNew mapping msg pending.entries with
      | .ok sigcol => .ok (some sigcol, pending)
      | .error (.invalidSignaturesCreate invalid) =>
        aggregate crypto validators mapping msg fuel (pending.filter fun node _ => node ∉ invalid.map Prod.fst)
      | .error _ => .error .signatureCollection

/-- Add a signature to the pending ones and try to aggregate. -/
def collect (crypto : Crypto) (validators : ValidatorSet) (mapping : ValidatorMapping) (msg : SignedMessage)
    (pending : SortedMap NodeId Bytes) (author : NodeId) (sig : Bytes) :
    Except Panic (Option Bytes × SortedMap NodeId Bytes) :=
  let pending := pending.insert author sig
  aggregate crypto validators mapping msg (pending.entries.length + 1) pending

/-! ## Votes -/

structure VoteState where
  /-- Pending votes by round, then by vote. -/
  pendingVotes : SortedMap Round (AList fun _ : Vote => SortedMap NodeId Bytes)
  /-- The earliest round votes are accepted for. -/
  earliestRound : Round

namespace VoteState

def new (round : Round) : VoteState := { pendingVotes := .empty, earliestRound := round }

def processVote (crypto : Crypto) (vs : VoteState) (author : NodeId) (voteMsg : VoteMessage)
    (validators : ValidatorSet) (mapping : ValidatorMapping) :
    Except Panic (Option QuorumCertificate × VoteState) :=
  let vote := voteMsg.vote
  if vote.round < vs.earliestRound then .ok (none, vs)
  else
    let roundState := (vs.pendingVotes.get? vote.round).getD ∅
    let pending := (roundState.lookup vote).getD .empty
    match collect crypto validators mapping (.vote vote) pending author voteMsg.sig with
    | .error e => .error e
    | .ok (built, pending') =>
      let pendingVotes := vs.pendingVotes.insert vote.round (roundState.insert vote pending')
      match built with
      | none => .ok (none, { vs with pendingVotes })
      | some sigcol =>
        .ok (some { info := vote, signatures := sigcol }, { pendingVotes, earliestRound := vote.round + 1 })

def startNewRound (vs : VoteState) (newRound : Round) : VoteState where
  earliestRound := newRound
  pendingVotes := vs.pendingVotes.filter fun round _ => newRound ≤ round

end VoteState

/-! ## No-endorsements -/

structure RoundNoEndorsementState where
  qcRoundNoEndorsements : SortedMap Round (SortedMap NodeId Bytes)
  certificate : Option NoEndorsementCertificate

def RoundNoEndorsementState.default : RoundNoEndorsementState :=
  { qcRoundNoEndorsements := .empty, certificate := none }

structure NoEndorsementState where
  pendingNoEndorsements : SortedMap Round RoundNoEndorsementState
  earliestRound : Round

namespace NoEndorsementState

def new (round : Round) : NoEndorsementState := { pendingNoEndorsements := .empty, earliestRound := round }

def processNoEndorsement (crypto : Crypto) (ns : NoEndorsementState) (author : NodeId)
    (m : NoEndorsementMessage) (validators : ValidatorSet) (mapping : ValidatorMapping) :
    Except Panic (Option NoEndorsementCertificate × NoEndorsementState) :=
  let round := m.msg.round
  if round < ns.earliestRound then .ok (none, ns)
  else
    let roundState := (ns.pendingNoEndorsements.get? round).getD .default
    let pending := (roundState.qcRoundNoEndorsements.get? m.msg.tipQcRound).getD .empty
    match collect crypto validators mapping (.noEndorsement m.msg) pending author m.signature with
    | .error e => .error e
    | .ok (built, pending') =>
      let roundState' := { roundState with
        qcRoundNoEndorsements := roundState.qcRoundNoEndorsements.insert m.msg.tipQcRound pending' }
      match built with
      | none => .ok (none, { ns with pendingNoEndorsements := ns.pendingNoEndorsements.insert round roundState' })
      | some sigcol =>
        if roundState.certificate.isSome then .error .necExists
        else
          let nec := { msg := m.msg, signatures := sigcol }
          .ok (some nec, {
            pendingNoEndorsements :=
              ns.pendingNoEndorsements.insert round { roundState' with certificate := some nec }
            earliestRound := round + 1 })

def startNewRound (ns : NoEndorsementState) (newRound : Round) : NoEndorsementState where
  earliestRound := newRound
  pendingNoEndorsements := ns.pendingNoEndorsements.filter fun round _ => newRound ≤ round

def getNec (ns : NoEndorsementState) (round : Round) : Option NoEndorsementCertificate :=
  (ns.pendingNoEndorsements.get? round).bind (·.certificate)

end NoEndorsementState

end MonadBft
