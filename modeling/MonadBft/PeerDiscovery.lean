import MonadBft.Lib.SortedMap
import MonadBft.Types

/-! # Peer discovery

`monad-peer-discovery/src/discovery.rs`: a table of signed name records. A record waits in a queue until its node
answers a ping that was sent to the record's address, and only then is it used for routing.
-/

namespace MonadBft

structure SocketAddr where
  ip : Nat
  port : Nat
deriving DecidableEq, Repr

structure NameRecord where
  address : SocketAddr
  seq : Nat
deriving DecidableEq, Repr

structure MonadNameRecord where
  nameRecord : NameRecord
  signature : Bytes
deriving DecidableEq, Repr

namespace MonadNameRecord

def address (record : MonadNameRecord) : SocketAddr := record.nameRecord.address

def seq (record : MonadNameRecord) : Nat := record.nameRecord.seq

end MonadNameRecord

/-! ## Messages, events and commands -/

structure Ping where
  id : Nat
  localNameRecord : MonadNameRecord
deriving DecidableEq, Repr

structure Pong where
  pingId : Nat
  localRecordSeq : Nat
deriving DecidableEq, Repr

structure PeerLookupRequest where
  lookupId : Nat
  target : NodeId
  openDiscovery : Bool
deriving DecidableEq, Repr

structure PeerLookupResponse where
  lookupId : Nat
  target : NodeId
  nameRecords : List MonadNameRecord
deriving DecidableEq, Repr

inductive PeerDiscoveryMessage where
  | ping (ping : Ping)
  | pong (pong : Pong)
  | peerLookupRequest (request : PeerLookupRequest)
  | peerLookupResponse (response : PeerLookupResponse)
  | fullNodeRaptorcastRequest
  | fullNodeRaptorcastResponse
deriving DecidableEq, Repr

structure PeerEntry where
  pubkey : NodeId
  addr : SocketAddr
  signature : Bytes
  recordSeqNum : Nat
deriving DecidableEq, Repr

inductive PeerDiscoveryEvent where
  | sendPing (target : NodeId) (address : SocketAddr) (ping : Ping)
  | pingRequest (sender : NodeId) (ping : Ping)
  | pongResponse (sender : NodeId) (pong : Pong)
  | pingTimeout (target : NodeId) (pingId : Nat)
  | sendPeerLookup (receiver target : NodeId) (openDiscovery : Bool)
  | peerLookupRequest (sender : NodeId) (request : PeerLookupRequest)
  | peerLookupResponse (sender : NodeId) (response : PeerLookupResponse)
  | peerLookupTimeout (receiver target : NodeId) (lookupId : Nat)
  | sendFullNodeRaptorcastRequest (target : NodeId)
  | fullNodeRaptorcastRequest (sender : NodeId)
  | fullNodeRaptorcastResponse (sender : NodeId)
  | updateCurrentRound (round : Round) (epoch : Epoch)
  | updateValidatorSet (epoch : Epoch) (validators : List NodeId)
  | updatePeers (peers : List PeerEntry)
  | updateConfirmGroup (endRound : Round) (peers : List NodeId)
  | refresh
deriving DecidableEq, Repr

inductive TimerKind where
  | pingTimeout
  | retryPeerLookup (lookupId : Nat)
  | refresh
  | fullNodeRaptorcastRequest
deriving DecidableEq, Repr

inductive PeerDiscoveryCommand where
  | router (target : NodeId) (message : PeerDiscoveryMessage)
  | pingPong (target : NodeId) (address : SocketAddr) (message : PeerDiscoveryMessage)
  | schedule (node : NodeId) (kind : TimerKind) (duration : Nat) (onTimeout : PeerDiscoveryEvent)
  | scheduleReset (node : NodeId) (kind : TimerKind)
  | metrics
deriving DecidableEq, Repr

/-! ## The state -/

inductive PeerDiscoveryRole where
  | validatorNone
  | validatorPublisher
  | fullNodeNone
  | fullNodeClient
deriving DecidableEq, Repr

structure ConnectionInfo where
  lastPing : Ping
  unresponsivePings : Nat
  nameRecord : MonadNameRecord
deriving DecidableEq, Repr

inductive SecondaryRaptorcastConnectionStatus where
  | connected
  | pending
  | none
deriving DecidableEq, Repr

structure SecondaryRaptorcastInfo where
  status : SecondaryRaptorcastConnectionStatus
  numRetries : Nat
  lastActive : Round
deriving DecidableEq, Repr

structure LookupInfo where
  numRetries : Nat
  receiver : NodeId
  openDiscovery : Bool
deriving DecidableEq, Repr

structure PeerDiscoveryConfig where
  refreshPeriod : Nat
  requestTimeout : Nat
  unresponsivePruneThreshold : Nat
  lastParticipationPruneThreshold : Round
  minNumPeers : Nat
  maxNumPeers : Nat
deriving DecidableEq, Repr

structure PeerDiscovery (Rng : Type) where
  selfId : NodeId
  selfRecord : MonadNameRecord
  selfRole : PeerDiscoveryRole
  currentRound : Round
  currentEpoch : Epoch
  epochValidators : SortedMap Epoch (List NodeId)
  pinnedFullNodes : List NodeId
  routingInfo : SortedMap NodeId MonadNameRecord
  participationInfo : SortedMap NodeId SecondaryRaptorcastInfo
  pendingQueue : SortedMap NodeId ConnectionInfo
  outstandingLookupRequests : SortedMap Nat LookupInfo
  config : PeerDiscoveryConfig
  rng : Rng

def maxPeerInResponse : Nat := 16
def numLookupPeers : Nat := 3
def numUpstreamValidators : Nat := 3

structure RandomSource (Rng : Type) where
  nextU32 : Rng → Nat × Rng
  chooseMultiple {α : Type} : Rng → List α → Nat → List α × Rng

namespace PeerDiscovery

variable {Rng : Type} (recover : NameRecord → Bytes → Option NodeId) (random : RandomSource Rng)

abbrev Reply (Rng : Type) := PeerDiscovery Rng × List PeerDiscoveryCommand

def forEach {α : Type} (body : PeerDiscovery Rng → α → Reply Rng) : List α → PeerDiscovery Rng → Reply Rng
  | [], state => (state, [])
  | item :: rest, state =>
    let first := body state item
    let others := forEach body rest first.1
    (others.1, first.2 ++ others.2)

def forEach? {α : Type} (body : PeerDiscovery Rng → α → Option (Reply Rng)) : List α → PeerDiscovery Rng →
    Option (Reply Rng)
  | [], state => some (state, [])
  | item :: rest, state => do
    let first ← body state item
    let others ← forEach? body rest first.1
    some (others.1, first.2 ++ others.2)

section Helpers

variable (state : PeerDiscovery Rng)

def recoverPubkey (record : MonadNameRecord) : Option NodeId := recover record.nameRecord record.signature

def checkValidatorMembership (peer : NodeId) : Bool :=
  ((state.epochValidators.get? state.currentEpoch).any fun validators => validators.contains peer) ||
    ((state.epochValidators.get? (state.currentEpoch + 1)).any fun validators => validators.contains peer)

def isPinnedNode (peer : NodeId) : Bool := state.checkValidatorMembership peer || state.pinnedFullNodes.contains peer

def sendPing (target : NodeId) (address : SocketAddr) (ping : Ping) : List PeerDiscoveryCommand :=
  [.schedule target .pingTimeout state.config.requestTimeout (.pingTimeout target ping.id),
    .pingPong target address (.ping ping)]

def newPing : Ping × PeerDiscovery Rng :=
  (⟨(random.nextU32 state.rng).1, state.selfRecord⟩, { state with rng := (random.nextU32 state.rng).2 })

def insertPeerToPending (peer : NodeId) (record : MonadNameRecord) : Reply Rng :=
  if peer = state.selfId then (state, [])
  else if (state.routingInfo.get? peer).any fun current => record.seq ≤ current.seq then (state, [])
  else if (state.pendingQueue.get? peer).any fun info => record.seq ≤ info.nameRecord.seq then (state, [])
  else
    let (ping, state) := state.newPing random
    ({ state with pendingQueue := state.pendingQueue.insert peer ⟨ping, 0, record⟩ },
      state.sendPing peer record.address ping)

def removePeerFromPending (peer : NodeId) : Reply Rng :=
  ({ state with pendingQueue := state.pendingQueue.erase peer }, [.scheduleReset peer .pingTimeout])

/-! ## Participation -/

def markActive (peer : NodeId) (round : Round) : PeerDiscovery Rng :=
  { state with
    participationInfo := state.participationInfo.insert peer
      (match state.participationInfo.get? peer with
      | some info => if info.lastActive < round then { info with lastActive := round } else info
      | none => ⟨.none, 0, round⟩) }

def isInactive (info : SecondaryRaptorcastInfo) : Bool :=
  state.config.lastParticipationPruneThreshold ≤ max state.currentRound info.lastActive - info.lastActive

/-- Record a request to a validator; `none` if no request is to be sent. -/
def recordRequest (target : NodeId) : PeerDiscovery Rng × Bool :=
  match state.participationInfo.get? target with
  | none => (state, false)
  | some info =>
    let put (info : SecondaryRaptorcastInfo) : PeerDiscovery Rng :=
      { state with participationInfo := state.participationInfo.insert target info }
    match info.status with
    | .none => (put { info with status := .pending, numRetries := 0 }, true)
    | .pending =>
      if state.config.unresponsivePruneThreshold ≤ info.numRetries + 1 then
        (put { info with status := .none, numRetries := 0 }, false)
      else (put { info with numRetries := info.numRetries + 1 }, true)
    | .connected => (state, false)

def sendFullNodeRaptorcastRequest (target : NodeId) : Reply Rng :=
  if state.selfRole ≠ .fullNodeClient then (state, [])
  else
    let (recorded, sends) := state.recordRequest target
    if sends then
      (recorded, [.router target .fullNodeRaptorcastRequest, .scheduleReset target .fullNodeRaptorcastRequest,
        .schedule target .fullNodeRaptorcastRequest state.config.requestTimeout
          (.sendFullNodeRaptorcastRequest target)])
    else (recorded, [])

/-- Advertise our name record to a validator and ask it for groups. -/
def connectUpstream (validator : NodeId) : Reply Rng :=
  let (ping, state) := state.newPing random
  let (state, cmds) := state.sendFullNodeRaptorcastRequest validator
  (state, .router validator (.ping ping) :: cmds)

def lookForUpstreamValidators : Reply Rng :=
  let state := { state with
    participationInfo := state.participationInfo.mapValues fun info =>
      if info.status = .connected ∧ state.isInactive info then { info with status := .none } else info }
  let connected := (state.participationInfo.filter fun _ info => info.status ≠ .none).keys
  let slotsToFill := numUpstreamValidators - connected.length
  if slotsToFill > 0 then
    let available := state.routingInfo.keys.filter fun node =>
      !connected.contains node && state.checkValidatorMembership node && node ≠ state.selfId
    let (chosen, rng) := random.chooseMultiple state.rng available slotsToFill
    forEach (connectUpstream random) chosen { state with rng }
  else (state, [])

def promotePeerToRoutingInfo (peer : NodeId) (record : MonadNameRecord) : Reply Rng :=
  let state := { state with routingInfo := state.routingInfo.insert peer record }.markActive peer state.currentRound
  let (state, cmds) := state.removePeerFromPending peer
  if state.selfRole = .fullNodeClient then
    let (state, cmds') := state.lookForUpstreamValidators random
    (state, cmds ++ cmds')
  else (state, cmds)

/-! ## Pings -/

def handlePing (sender : NodeId) (ping : Ping) : Reply Rng :=
  let record := ping.localNameRecord
  let pong : PeerDiscoveryCommand := .pingPong sender record.address (.pong ⟨ping.id, state.selfRecord.seq⟩)
  let peerListFull := state.config.maxNumPeers ≤ state.routingInfo.entries.length + state.pendingQueue.entries.length ∧
    ¬ state.checkValidatorMembership sender ∧ sender ∉ state.pinnedFullNodes ∧ ¬ state.routingInfo.contains sender
  if peerListFull then (state, [pong])
  else
    match state.routingInfo.get? sender with
    | none => insertVerified pong
    | some current =>
      if current.seq < record.seq then insertVerified pong
      else if record.seq < current.seq then (state, [])
      else if record ≠ current then (state, [])
      else (state, [pong])
where
  /-- Queue the sender's record if the sender signed it. -/
  insertVerified (pong : PeerDiscoveryCommand) : Reply Rng :=
    if recoverPubkey recover ping.localNameRecord = some sender then
      let (state, cmds) := state.insertPeerToPending random sender ping.localNameRecord
      (state, cmds ++ [pong])
    else (state, [])

def handlePong (sender : NodeId) (pong : Pong) : Reply Rng :=
  match state.pendingQueue.get? sender with
  | none => (state, [])
  | some info =>
    if info.lastPing.id = pong.pingId then state.promotePeerToRoutingInfo random sender info.nameRecord else (state, [])

def handlePingTimeout (target : NodeId) (pingId : Nat) : Reply Rng :=
  match state.pendingQueue.get? target with
  | none => (state, [])
  | some info =>
    if info.lastPing.id ≠ pingId then (state, [])
    else if state.config.unresponsivePruneThreshold ≤ info.unresponsivePings + 1 then state.removePeerFromPending target
    else
      let (ping, state) := state.newPing random
      let info := { info with lastPing := ping, unresponsivePings := info.unresponsivePings + 1 }
      ({ state with pendingQueue := state.pendingQueue.insert target info },
        state.sendPing target info.nameRecord.address ping)

/-! ## Lookups -/

/-- Draw until an identifier is unused, at most as often as the fuel allows. -/
def drawUnused (used : Nat → Bool) : Nat → Rng → Option (Nat × Rng)
  | 0, _ => none
  | fuel + 1, rng =>
    let (id, rng) := random.nextU32 rng
    if used id then drawUnused used fuel rng else some (id, rng)

/-- Ask a node for the record of another one under a new identifier. -/
def requestLookup (fuel : Nat) (receiver target : NodeId) (numRetries : Nat) (openDiscovery : Bool) :
    Option (Reply Rng) := do
  let (lookupId, rng) ← drawUnused random (fun id => state.outstandingLookupRequests.contains id) fuel state.rng
  some ({ state with
    rng
    outstandingLookupRequests := state.outstandingLookupRequests.insert lookupId
      ⟨numRetries, receiver, openDiscovery⟩ },
    [.schedule receiver (.retryPeerLookup lookupId) state.config.requestTimeout
      (.peerLookupTimeout receiver target lookupId),
      .router receiver (.peerLookupRequest ⟨lookupId, target, openDiscovery⟩)])

def sendPeerLookupRequest (fuel : Nat) (receiver target : NodeId) (openDiscovery : Bool) : Option (Reply Rng) :=
  state.requestLookup random fuel receiver target 0 openDiscovery

def handlePeerLookupRequest (sender : NodeId) (request : PeerLookupRequest) : Reply Rng :=
  let found :=
    if request.target = state.selfId then [state.selfRecord] else (state.routingInfo.get? request.target).toList
  let (others, rng) :=
    if request.openDiscovery then
      random.chooseMultiple state.rng (state.routingInfo.filter fun node _ =>
        state.checkValidatorMembership node).entries (maxPeerInResponse - found.length)
    else ([], state.rng)
  ({ state with rng },
    [.router sender (.peerLookupResponse ⟨request.lookupId, request.target, found ++ others.map Prod.snd⟩)])

def insertRecovered (record : MonadNameRecord) : Reply Rng :=
  match recoverPubkey recover record with
  | none => (state, [])
  | some node => state.insertPeerToPending random node record

def handlePeerLookupResponse (sender : NodeId) (response : PeerLookupResponse) : Reply Rng :=
  match state.outstandingLookupRequests.get? response.lookupId with
  | none => (state, [])
  | some lookup =>
    if lookup.receiver ≠ sender then (state, [])
    else if maxPeerInResponse < response.nameRecords.length then (state, [])
    else
      let (state, cmds) := forEach (insertRecovered recover random) response.nameRecords state
      ({ state with outstandingLookupRequests := state.outstandingLookupRequests.erase response.lookupId }, cmds)

def handlePeerLookupTimeout (fuel : Nat) (receiver target : NodeId) (lookupId : Nat) : Option (Reply Rng) :=
  match state.outstandingLookupRequests.get? lookupId with
  | none => some (state, [])
  | some lookup =>
    let state := { state with outstandingLookupRequests := state.outstandingLookupRequests.erase lookupId }
    if state.config.unresponsivePruneThreshold ≤ lookup.numRetries then some (state, [])
    else state.requestLookup random fuel receiver target (lookup.numRetries + 1) lookup.openDiscovery

/-! ## Requests of full nodes -/

def handleFullNodeRaptorcastRequest (sender : NodeId) : Reply Rng :=
  if state.selfRole ≠ .validatorPublisher then (state, [])
  else
    match state.participationInfo.get? sender with
    | none => (state, [])
    | some info =>
      ({ state with participationInfo := state.participationInfo.insert sender { info with status := .connected } },
        [.router sender .fullNodeRaptorcastResponse])

def handleFullNodeRaptorcastResponse (sender : NodeId) : Reply Rng :=
  if state.selfRole ≠ .fullNodeClient then (state, [])
  else
    match state.participationInfo.get? sender with
    | none => (state, [])
    | some info =>
      if info.status = .pending then
        ({ state with
          participationInfo := state.participationInfo.insert sender
            { info with status := .connected, numRetries := 0 } }, [])
      else (state, [])

/-! ## Refreshing and updates -/

def removePeers (nodes : List NodeId) : PeerDiscovery Rng :=
  { state with
    participationInfo := state.participationInfo.filter fun node _ => !nodes.contains node
    routingInfo := state.routingInfo.filter fun node _ => !nodes.contains node }

def nonParticipating : List NodeId :=
  (state.participationInfo.filter fun node info => state.isInactive info && !state.isPinnedNode node).keys

/-- Prune random nodes while there are too many. -/
def pruneExcessive : PeerDiscovery Rng :=
  if state.config.maxNumPeers < state.routingInfo.entries.length then
    let excessive := state.routingInfo.keys.filter fun node => !state.isPinnedNode node
    let (pruned, rng) := random.chooseMultiple state.rng excessive
      (state.routingInfo.entries.length - state.config.maxNumPeers)
    { state with rng }.removePeers pruned
  else state

def missingValidators : List NodeId :=
  (((state.epochValidators.get? state.currentEpoch).getD [] ++
      (state.epochValidators.get? (state.currentEpoch + 1)).getD []).filter fun validator =>
    !state.routingInfo.contains validator && validator ≠ state.selfId).eraseDups

def lookupMissing (fuel : Nat) : Option (Reply Rng) :=
  let (missing, rng) := random.chooseMultiple state.rng state.missingValidators numLookupPeers
  let (chosen, rng) := random.chooseMultiple rng state.routingInfo.keys numLookupPeers
  let openDiscovery : Bool := state.routingInfo.entries.length < state.config.minNumPeers
  forEach? (fun state pair => state.sendPeerLookupRequest random fuel pair.2 pair.1 openDiscovery) (missing.zip chosen)
    { state with rng }

def refresh (fuel : Nat) : Option (Reply Rng) := do
  let state := (state.removePeers state.nonParticipating).pruneExcessive random
  let (state, cmds) ← state.lookupMissing random fuel
  let (state, cmds') := if state.selfRole = .fullNodeClient then state.lookForUpstreamValidators random else (state, [])
  some (state, cmds ++ cmds' ++ [.scheduleReset state.selfId .refresh,
    .schedule state.selfId .refresh state.config.refreshPeriod .refresh, .metrics])

def insertKnown (validator : NodeId) : Reply Rng :=
  match state.routingInfo.get? validator with
  | none => (state, [])
  | some record => state.insertPeerToPending random validator record

/-- A full node that has become a validator advertises its record to the validators. -/
def becomeValidator : Reply Rng :=
  if (state.selfRole = .fullNodeNone ∨ state.selfRole = .fullNodeClient) ∧
    state.checkValidatorMembership state.selfId then
    forEach (insertKnown random)
      (((state.epochValidators.get? state.currentEpoch).getD [] ++
        (state.epochValidators.get? (state.currentEpoch + 1)).getD []).eraseDups)
      { state with selfRole := .validatorNone }
  else (state, [])

def becomeFullNode : PeerDiscovery Rng :=
  if (state.selfRole = .validatorNone ∨ state.selfRole = .validatorPublisher) ∧
    ¬ state.checkValidatorMembership state.selfId then
    { state with selfRole := .fullNodeNone }
  else state

def updateCurrentRound (round : Round) (epoch : Epoch) : Reply Rng :=
  let state := { state with currentRound := max round state.currentRound }
  let (state, cmds) :=
    if state.currentEpoch < epoch then
      let (state, cmds) := { state with currentEpoch := epoch }.becomeValidator random
      (state.becomeFullNode, cmds)
    else (state, [])
  ({ state with epochValidators := state.epochValidators.filter fun epoch _ => state.currentEpoch ≤ epoch + 1 }, cmds)

def updateValidatorSet (epoch : Epoch) (validators : List NodeId) : Reply Rng :=
  ({ state with epochValidators := state.epochValidators.insert epoch validators }, [])

def insertEntry (peer : PeerEntry) : Reply Rng :=
  let record : MonadNameRecord := ⟨⟨peer.addr, peer.recordSeqNum⟩, peer.signature⟩
  if recoverPubkey recover record = some peer.pubkey then state.insertPeerToPending random peer.pubkey record
    else (state, [])

def updatePeers (peers : List PeerEntry) : Reply Rng := forEach (insertEntry recover random) peers state

def updatePeerParticipation (round : Round) (peers : List NodeId) : Reply Rng :=
  (peers.foldl (fun state peer => if peer = state.selfId then state else state.markActive peer round) state, [])

end Helpers

def update (fuel : Nat) (state : PeerDiscovery Rng) : PeerDiscoveryEvent → Option (Reply Rng)
  | .sendPing target address ping => some (state, state.sendPing target address ping)
  | .pingRequest sender ping => some (state.handlePing recover random sender ping)
  | .pongResponse sender pong => some (state.handlePong random sender pong)
  | .pingTimeout target pingId => some (state.handlePingTimeout random target pingId)
  | .sendPeerLookup receiver target openDiscovery =>
    state.sendPeerLookupRequest random fuel receiver target openDiscovery
  | .peerLookupRequest sender request => some (state.handlePeerLookupRequest random sender request)
  | .peerLookupResponse sender response => some (state.handlePeerLookupResponse recover random sender response)
  | .peerLookupTimeout receiver target lookupId => state.handlePeerLookupTimeout random fuel receiver target lookupId
  | .sendFullNodeRaptorcastRequest target => some (state.sendFullNodeRaptorcastRequest target)
  | .fullNodeRaptorcastRequest sender => some (state.handleFullNodeRaptorcastRequest sender)
  | .fullNodeRaptorcastResponse sender => some (state.handleFullNodeRaptorcastResponse sender)
  | .updateCurrentRound round epoch => some (state.updateCurrentRound random round epoch)
  | .updateValidatorSet epoch validators => some (state.updateValidatorSet epoch validators)
  | .updatePeers peers => some (state.updatePeers recover random peers)
  | .updateConfirmGroup endRound peers => some (state.updatePeerParticipation endRound peers)
  | .refresh => state.refresh random fuel

/-- `PeerDiscoveryBuilder::build`, of a state without peers; `none` also if an assertion fails. -/
def build (fuel : Nat) (initial : PeerDiscovery Rng) (bootstrapPeers : SortedMap NodeId MonadNameRecord) :
    Option (Reply Rng) :=
  let state := { initial with
    routingInfo := .empty
    participationInfo := .empty
    pendingQueue := .empty
    outstandingLookupRequests := .empty }
  if state.config.maxNumPeers ≤ state.config.minNumPeers then none
  else if (state.selfRole = .validatorNone ∨ state.selfRole = .validatorPublisher) ∧
      ¬ state.checkValidatorMembership state.selfId then none
  else do
    let (state, cmds) :=
      forEach (fun state peer => state.insertPeerToPending random peer.1 peer.2) bootstrapPeers.entries state
    let (state, cmds') ← state.refresh random fuel
    some (state, cmds ++ cmds')

end PeerDiscovery

end MonadBft
