import MonadBft.Lib.Outcome
import MonadBft.PeerDiscovery

/-! # The routing table

Every name record in the routing table and in the queue is signed by the node it is filed under, the node itself is in
neither, and a record reaches the routing table only when its node echoes the ping kept with it in the queue, the last
one that went to the record's address to check it. The router may have sent other pings there since. The sequence
number of a node in the table never decreases: a queued record is newer than the one in use.
-/

namespace MonadBft

open SortedMap Option

/-! ## Pings that were sent -/

abbrev SentPing := NodeId × SocketAddr × Nat

/-- A ping that goes to a given address, where `send_ping` checks a record. -/
def PeerDiscoveryCommand.probe : PeerDiscoveryCommand → Option SentPing
  | .pingPong target address (.ping ping) => some (target, address, ping.id)
  | _ => none

def probes (cmds : List PeerDiscoveryCommand) : List SentPing := cmds.filterMap PeerDiscoveryCommand.probe

@[simp] theorem probes_append (cmds cmds' : List PeerDiscoveryCommand) :
    probes (cmds ++ cmds') = probes cmds ++ probes cmds' := List.filterMap_append

/-- Where the last ping of a node went, and its identifier. -/
def lastPing (pings : List SentPing) (node : NodeId) : Option (SocketAddr × Nat) :=
  ((pings.filter fun ping => ping.1 = node).getLast?).map Prod.snd

namespace PeerDiscovery

variable {Rng : Type} {recover : NameRecord → Bytes → Option NodeId} {random : RandomSource Rng}
  {state state' : PeerDiscovery Rng}

/-! ## The invariant -/

/-- The records are signed by their nodes, none is our own, the queued ones have been pinged and are newer. -/
structure Authentic (recover : NameRecord → Bytes → Option NodeId) (pings : List SentPing) (state : PeerDiscovery Rng) :
    Prop where
  routingSigned : ∀ {node record}, (node, record) ∈ state.routingInfo → recoverPubkey recover record = some node
  pendingSigned : ∀ {node info}, (node, info) ∈ state.pendingQueue → recoverPubkey recover info.nameRecord = some node
  routingOther : ∀ {node record}, (node, record) ∈ state.routingInfo → node ≠ state.selfId
  pendingOther : ∀ {node info}, (node, info) ∈ state.pendingQueue → node ≠ state.selfId
  pinged : ∀ {node info}, (node, info) ∈ state.pendingQueue →
    lastPing pings node = some (info.nameRecord.address, info.lastPing.id)
  newer : ∀ {node info record}, (node, info) ∈ state.pendingQueue → (node, record) ∈ state.routingInfo →
    record.seq < info.nameRecord.seq

/-- A call that keeps the invariant and adds nothing to the routing table. -/
def Keeps (recover : NameRecord → Bytes → Option NodeId) (state : PeerDiscovery Rng) (reply : Reply Rng) : Prop :=
  ∀ pings, Authentic recover pings state →
    Authentic recover (pings ++ probes reply.2) reply.1 ∧ (∀ e ∈ reply.1.routingInfo, e ∈ state.routingInfo) ∧
      reply.1.selfId = state.selfId

namespace Keeps

theorem trans {first second : Reply Rng} (keeps : Keeps recover state first) (keeps' : Keeps recover first.1 second) :
    Keeps recover state (second.1, first.2 ++ second.2) := by
  intro pings authentic
  obtain ⟨between, sub, same⟩ := keeps pings authentic
  obtain ⟨after, sub', same'⟩ := keeps' _ between
  refine ⟨?_, fun e mem => sub e (sub' e mem), same'.trans same⟩
  rwa [probes_append, ← List.append_assoc]

variable {reply : Reply Rng}

/-- Calls that leave the queue alone, drop records from the table at most, and ping no address. -/
theorem quiet (routing : ∀ e ∈ reply.1.routingInfo, e ∈ state.routingInfo)
    (pending : reply.1.pendingQueue = state.pendingQueue) (self : reply.1.selfId = state.selfId)
    (silent : probes reply.2 = []) : Keeps recover state reply := by
  intro pings authentic
  rw [silent, List.append_nil]
  refine ⟨⟨?_, ?_, ?_, ?_, ?_, ?_⟩, routing, self⟩
  · exact fun mem => authentic.routingSigned (routing _ mem)
  · exact fun mem => authentic.pendingSigned (pending ▸ mem)
  · exact fun mem => self ▸ authentic.routingOther (routing _ mem)
  · exact fun mem => self ▸ authentic.pendingOther (pending ▸ mem)
  · exact fun mem => authentic.pinged (pending ▸ mem)
  · exact fun mem mem' => authentic.newer (pending ▸ mem) (routing _ mem')

theorem refl (state : PeerDiscovery Rng) : Keeps recover state (state, []) :=
  quiet (fun _ mem => mem) rfl rfl rfl

theorem after_quiet {middle : PeerDiscovery Rng} (keeps : Keeps recover middle reply)
    (routing : ∀ e ∈ middle.routingInfo, e ∈ state.routingInfo) (pending : middle.pendingQueue = state.pendingQueue)
    (self : middle.selfId = state.selfId) : Keeps recover state reply := by
  have first : Keeps recover state (middle, []) := quiet routing pending self rfl
  exact first.trans keeps

theorem then_quiet (keeps : Keeps recover state reply) {last : PeerDiscovery Rng} {more : List PeerDiscoveryCommand}
    (routing : last.routingInfo = reply.1.routingInfo) (pending : last.pendingQueue = reply.1.pendingQueue)
    (self : last.selfId = reply.1.selfId) (silent : probes more = []) :
    Keeps recover state (last, reply.2 ++ more) := by
  have second : Keeps recover reply.1 (last, more) := quiet (fun _ mem => routing ▸ mem) pending self silent
  exact keeps.trans second

theorem forEach {α : Type} {body : PeerDiscovery Rng → α → Reply Rng} {items : List α}
    (keeps : ∀ state, ∀ item ∈ items, Keeps recover state (body state item)) (state : PeerDiscovery Rng) :
    Keeps recover state (forEach body items state) := by
  induction items generalizing state with
  | nil => exact refl state
  | cons item rest ih =>
    rw [PeerDiscovery.forEach]
    exact (keeps state item (.head _)).trans (ih (fun state other mem => keeps state other (.tail _ mem)) _)

theorem forEach? {α : Type} {body : PeerDiscovery Rng → α → Option (Reply Rng)} {items : List α}
    (keeps : ∀ state item reply, body state item = some reply → Keeps recover state reply)
    (returns : PeerDiscovery.forEach? body items state = some reply) : Keeps recover state reply := by
  induction items generalizing state reply with
  | nil =>
    obtain rfl := some.inj returns
    exact refl state
  | cons item rest ih =>
    rw [PeerDiscovery.forEach?] at returns
    obtain ⟨first, one, returns⟩ := bind_eq_some_iff.mp returns
    obtain ⟨others, more, returns⟩ := bind_eq_some_iff.mp returns
    obtain rfl := some.inj returns
    exact (keeps state item first one).trans (ih more)

end Keeps

/-! ## The queue -/

variable {pings : List SentPing} {peer receiver target : NodeId} {fuel : Nat} {reply : Reply Rng}
  {info : ConnectionInfo}

/-- A record is queued with a ping to its address. -/
theorem Authentic.enqueue (authentic : Authentic recover pings state) (peer : NodeId) (info : ConnectionInfo)
    (signed : recoverPubkey recover info.nameRecord = some peer) (other : peer ≠ state.selfId)
    (newer : ∀ record, (peer, record) ∈ state.routingInfo → record.seq < info.nameRecord.seq) (rng : Rng) :
    Authentic recover (pings ++ [(peer, info.nameRecord.address, info.lastPing.id)])
      { state with rng, pendingQueue := state.pendingQueue.insert peer info } := by
  refine ⟨authentic.routingSigned, ?_, authentic.routingOther, ?_, ?_, ?_⟩
  · intro node queued mem
    obtain ⟨rfl, rfl⟩ | ⟨old, -⟩ := pair_mem_insert.mp mem
    · exact signed
    · exact authentic.pendingSigned old
  · intro node queued mem
    obtain ⟨rfl, rfl⟩ | ⟨old, -⟩ := pair_mem_insert.mp mem
    · exact other
    · exact authentic.pendingOther old
  · intro node queued mem
    obtain ⟨rfl, rfl⟩ | ⟨old, ne⟩ := pair_mem_insert.mp mem
    · simp [lastPing, List.filter_append]
    · simpa [lastPing, List.filter_append, ne.symm] using authentic.pinged old
  · intro node queued known mem inRouting
    obtain ⟨rfl, rfl⟩ | ⟨old, -⟩ := pair_mem_insert.mp mem
    · exact newer known inRouting
    · exact authentic.newer old inRouting

theorem insertPeerToPending_keeps {record : MonadNameRecord} (signed : recoverPubkey recover record = some peer) :
    Keeps recover state (state.insertPeerToPending random peer record) := by
  rw [insertPeerToPending]
  split
  · exact .refl state
  next other =>
    split
    · exact .refl state
    next newer =>
      split
      · exact .refl state
      · intro pings authentic
        have newest : ∀ known, (peer, known) ∈ state.routingInfo → known.seq < record.seq := by
          intro known inRouting
          rw [get?_eq_some_iff.mpr inRouting] at newer
          simpa using newer
        exact ⟨authentic.enqueue peer ⟨(state.newPing random).1, 0, record⟩ signed other newest
          (state.newPing random).2.rng, fun _ mem => mem, rfl⟩

theorem removePeerFromPending_keeps (peer : NodeId) : Keeps recover state (state.removePeerFromPending peer) := by
  intro pings authentic
  have old : ∀ {e}, e ∈ (state.pendingQueue.erase peer) → e ∈ state.pendingQueue := fun mem => (mem_erase.mp mem).1
  have silent : probes (state.removePeerFromPending peer).2 = [] := rfl
  rw [silent, List.append_nil]
  exact ⟨⟨authentic.routingSigned, fun mem => authentic.pendingSigned (old mem), authentic.routingOther,
    fun mem => authentic.pendingOther (old mem), fun mem => authentic.pinged (old mem),
    fun mem => authentic.newer (old mem)⟩, fun _ mem => mem, rfl⟩

theorem handlePingTimeout_keeps (target : NodeId) (pingId : Nat) :
    Keeps recover state (state.handlePingTimeout random target pingId) := by
  rw [handlePingTimeout]
  split
  · exact .refl state
  next info found =>
    split
    · exact .refl state
    · split
      · exact removePeerFromPending_keeps target
      · intro pings authentic
        have queued := get?_eq_some_iff.mp found
        have signed := authentic.pendingSigned queued
        have newer : ∀ record, (target, record) ∈ state.routingInfo → record.seq < info.nameRecord.seq :=
          fun _ inRouting => authentic.newer queued inRouting
        exact ⟨authentic.enqueue target ⟨(state.newPing random).1, info.unresponsivePings + 1, info.nameRecord⟩ signed
          (authentic.pendingOther queued) newer (state.newPing random).2.rng, fun _ mem => mem, rfl⟩

/-! ## Calls that leave the queue alone -/

theorem sendFullNodeRaptorcastRequest_keeps (target : NodeId) :
    Keeps recover state (state.sendFullNodeRaptorcastRequest target) := by
  have frame : (state.recordRequest target).1.routingInfo = state.routingInfo ∧
      (state.recordRequest target).1.pendingQueue = state.pendingQueue ∧
      (state.recordRequest target).1.selfId = state.selfId := by
    rw [recordRequest]
    split
    · exact ⟨rfl, rfl, rfl⟩
    · dsimp only
      split
      · exact ⟨rfl, rfl, rfl⟩
      · split <;> exact ⟨rfl, rfl, rfl⟩
      · exact ⟨rfl, rfl, rfl⟩
  obtain ⟨routing, pending, self⟩ := frame
  rw [sendFullNodeRaptorcastRequest]
  split
  · exact .refl state
  · dsimp only
    split
    · exact .quiet (fun _ mem => routing ▸ mem) pending self rfl
    · exact .quiet (fun _ mem => routing ▸ mem) pending self rfl

theorem connectUpstream_keeps (validator : NodeId) : Keeps recover state (state.connectUpstream random validator) := by
  have drawn : Keeps recover state ((state.newPing random).2, [.router validator (.ping (state.newPing random).1)]) :=
    .quiet (fun _ mem => mem) rfl rfl rfl
  exact drawn.trans (sendFullNodeRaptorcastRequest_keeps validator)

theorem lookForUpstreamValidators_keeps : Keeps recover state (state.lookForUpstreamValidators random) := by
  rw [lookForUpstreamValidators]
  dsimp only
  split
  · exact (Keeps.forEach (fun state validator _ => connectUpstream_keeps validator) _).after_quiet
      (fun _ mem => mem) rfl rfl
  · exact .quiet (fun _ mem => mem) rfl rfl rfl

theorem requestLookup_keeps {numRetries : Nat} {openDiscovery : Bool}
    (returns : state.requestLookup random fuel receiver target numRetries openDiscovery = some reply) :
    Keeps recover state reply := by
  rw [requestLookup] at returns
  obtain ⟨drawn, -, returns⟩ := bind_eq_some_iff.mp returns
  obtain rfl := some.inj returns
  exact .quiet (fun _ mem => mem) rfl rfl rfl

theorem removePeers_keeps (nodes : List NodeId) : Keeps recover state (state.removePeers nodes, []) :=
  .quiet (fun _ mem => (mem_filter.mp mem).1) rfl rfl rfl

theorem pruneExcessive_keeps : Keeps recover state (state.pruneExcessive random, []) := by
  rw [pruneExcessive]
  split
  · exact .quiet (fun _ mem => (mem_filter.mp mem).1) rfl rfl rfl
  · exact .refl state

theorem lookupMissing_keeps (returns : state.lookupMissing random fuel = some reply) :
    Keeps recover state reply := by
  rw [lookupMissing] at returns
  exact (Keeps.forEach? (fun state pair reply sent => requestLookup_keeps sent) returns).after_quiet
    (fun _ mem => mem) rfl rfl

theorem refresh_keeps (returns : state.refresh random fuel = some reply) : Keeps recover state reply := by
  rw [refresh] at returns
  obtain ⟨⟨looked, cmds⟩, lookup, returns⟩ := bind_eq_some_iff.mp returns
  have pruned : Keeps recover state ((state.removePeers state.nonParticipating).pruneExcessive random, []) :=
    (removePeers_keeps _).trans pruneExcessive_keeps
  have missing := pruned.trans (lookupMissing_keeps lookup)
  dsimp only at returns
  split at returns
  · obtain rfl := some.inj returns
    have upstream : Keeps recover looked (looked.lookForUpstreamValidators random) := lookForUpstreamValidators_keeps
    exact (missing.trans upstream).then_quiet rfl rfl rfl rfl
  · obtain rfl := some.inj returns
    exact (missing.then_quiet rfl rfl rfl rfl).then_quiet rfl rfl rfl rfl

/-! ## The other calls -/

theorem handlePing_keeps (sender : NodeId) (ping : Ping) : Keeps recover state
    (state.handlePing recover random sender ping) := by
  have answered : ∀ {state : PeerDiscovery Rng} address pong, Keeps recover state
    (state, [.pingPong sender address (.pong pong)]) :=
    fun _ _ => .quiet (fun _ mem => mem) rfl rfl rfl
  have verified : Keeps recover state (handlePing.insertVerified recover random state sender ping
      (.pingPong sender ping.localNameRecord.address (.pong ⟨ping.id, state.selfRecord.seq⟩))) := by
    rw [handlePing.insertVerified]
    split
    next signed => exact (insertPeerToPending_keeps signed).trans (answered _ _)
    next => exact .refl state
  rw [handlePing]
  split
  · exact answered _ _
  · split
    · exact verified
    · split
      · exact verified
      · split
        · exact .refl state
        · split
          · exact .refl state
          · exact answered _ _

theorem handlePeerLookupResponse_keeps (sender : NodeId) (response : PeerLookupResponse) :
    Keeps recover state (state.handlePeerLookupResponse recover random sender response) := by
  have inserts : ∀ (state : PeerDiscovery Rng) (record : MonadNameRecord),
      Keeps recover state (state.insertRecovered recover random record) := by
    intro state record
    rw [insertRecovered]
    split
    · exact .refl state
    next signed => exact insertPeerToPending_keeps signed
  rw [handlePeerLookupResponse]
  split
  · exact .refl state
  · split
    · exact .refl state
    · split
      · exact .refl state
      · have all : Keeps recover state (forEach (insertRecovered recover random) response.nameRecords state) :=
          .forEach (fun state record _ => inserts state record) state
        generalize forEach (insertRecovered recover random) response.nameRecords state = reply at all ⊢
        obtain ⟨inserted, cmds⟩ := reply
        rw [← List.append_nil cmds]
        exact all.then_quiet rfl rfl rfl rfl

theorem handlePeerLookupTimeout_keeps {lookupId : Nat}
    (returns : state.handlePeerLookupTimeout random fuel receiver target lookupId = some reply) :
    Keeps recover state reply := by
  rw [handlePeerLookupTimeout] at returns
  split at returns
  · obtain rfl := some.inj returns
    exact .refl state
  · dsimp only at returns
    split at returns
    · obtain rfl := some.inj returns
      exact .quiet (fun _ mem => mem) rfl rfl rfl
    · exact (requestLookup_keeps returns).after_quiet (fun _ mem => mem) rfl rfl

/-- A record that is in the table already is not newer than itself. -/
theorem insertKnown_eq (validator : NodeId) : state.insertKnown random validator = (state, []) := by
  rw [insertKnown]
  split
  · rfl
  next record found =>
    rw [insertPeerToPending, found]
    split
    · rfl
    · rw [if_pos (by simp)]

theorem becomeValidator_eq (random : RandomSource Rng) (state : PeerDiscovery Rng) :
    ∃ selfRole, state.becomeValidator random = ({ state with selfRole }, []) := by
  have unchanged : ∀ (validators : List NodeId) (state : PeerDiscovery Rng),
      PeerDiscovery.forEach (insertKnown random) validators state = (state, []) := by
    intro validators state
    induction validators with
    | nil => rfl
    | cons validator rest ih =>
      rw [PeerDiscovery.forEach, insertKnown_eq, ih]
      rfl
  rw [becomeValidator]
  split
  · exact ⟨_, unchanged _ _⟩
  · exact ⟨_, rfl⟩

/-- An update of the round sends nothing. -/
theorem updateCurrentRound_eq (round : Round) (epoch : Epoch) : ∃ currentRound currentEpoch epochValidators selfRole,
    state.updateCurrentRound random round epoch =
      ({ state with currentRound, currentEpoch, epochValidators, selfRole }, []) := by
  rw [updateCurrentRound]
  dsimp only
  split
  · obtain ⟨selfRole, becomes⟩ := becomeValidator_eq random
      { state with currentRound := max round state.currentRound, currentEpoch := epoch }
    rw [becomes, becomeFullNode]
    split <;> exact ⟨_, _, _, _, rfl⟩
  · exact ⟨_, _, _, _, rfl⟩

theorem updateCurrentRound_keeps (round : Round) (epoch : Epoch) :
    Keeps recover state (state.updateCurrentRound random round epoch) := by
  obtain ⟨_, _, _, _, same⟩ := updateCurrentRound_eq round epoch
  rw [same]
  exact .quiet (fun _ mem => mem) rfl rfl rfl

theorem updatePeers_keeps (peers : List PeerEntry) : Keeps recover state (state.updatePeers recover random peers) := by
  refine .forEach (fun state peer _ => ?_) state
  rw [insertEntry]
  split
  next signed => exact insertPeerToPending_keeps signed
  next => exact .refl state

theorem updatePeerParticipation_keeps (round : Round) (peers : List NodeId) :
    Keeps recover state (state.updatePeerParticipation round peers) := by
  rw [updatePeerParticipation]
  induction peers generalizing state with
  | nil => exact .refl state
  | cons peer rest ih =>
    rw [List.foldl_cons]
    split
    · exact ih
    · exact Keeps.after_quiet ih (fun _ mem => mem) rfl rfl

theorem handleFullNodeRaptorcastRequest_keeps (sender : NodeId) :
    Keeps recover state (state.handleFullNodeRaptorcastRequest sender) := by
  rw [handleFullNodeRaptorcastRequest]
  split
  · exact .refl state
  · split
    · exact .refl state
    · exact .quiet (fun _ mem => mem) rfl rfl rfl

theorem handleFullNodeRaptorcastResponse_keeps (sender : NodeId) :
    Keeps recover state (state.handleFullNodeRaptorcastResponse sender) := by
  rw [handleFullNodeRaptorcastResponse]
  split
  · exact .refl state
  · split
    · exact .refl state
    · split
      · exact .quiet (fun _ mem => mem) rfl rfl rfl
      · exact .refl state

/-! ## Promotion -/

/-- A queued record becomes the one in use. -/
theorem Authentic.promote (authentic : Authentic recover pings state) (queued : (peer, info) ∈ state.pendingQueue)
    (participationInfo : SortedMap NodeId SecondaryRaptorcastInfo) :
    Authentic recover pings { state with
      routingInfo := state.routingInfo.insert peer info.nameRecord
      participationInfo
      pendingQueue := state.pendingQueue.erase peer } := by
  have old : ∀ {e}, e ∈ (state.pendingQueue.erase peer) → e ∈ state.pendingQueue := fun mem => (mem_erase.mp mem).1
  refine ⟨?_, fun mem => authentic.pendingSigned (old mem), ?_, fun mem => authentic.pendingOther (old mem),
    fun mem => authentic.pinged (old mem), ?_⟩
  · intro node record mem
    obtain ⟨rfl, rfl⟩ | ⟨known, -⟩ := pair_mem_insert.mp mem
    · exact authentic.pendingSigned queued
    · exact authentic.routingSigned known
  · intro node record mem
    obtain ⟨rfl, rfl⟩ | ⟨known, -⟩ := pair_mem_insert.mp mem
    · exact authentic.pendingOther queued
    · exact authentic.routingOther known
  · intro node other record mem inRouting
    obtain ⟨stillQueued, ne⟩ := mem_erase.mp mem
    obtain new | ⟨known, -⟩ := mem_insert.mp inRouting
    · exact absurd (Prod.mk.inj new).1 ne
    · exact authentic.newer stillQueued known

theorem promotePeerToRoutingInfo_authentic (random : RandomSource Rng) (authentic : Authentic recover pings state)
    (queued : (peer, info) ∈ state.pendingQueue) :
    Authentic recover (pings ++ probes (state.promotePeerToRoutingInfo random peer info.nameRecord).2)
        (state.promotePeerToRoutingInfo random peer info.nameRecord).1 ∧
      (∀ e ∈ (state.promotePeerToRoutingInfo random peer info.nameRecord).1.routingInfo,
        e ∈ state.routingInfo ∨ e = (peer, info.nameRecord)) ∧
      (state.promotePeerToRoutingInfo random peer info.nameRecord).1.selfId = state.selfId := by
  have inserted : ∀ e ∈ state.routingInfo.insert peer info.nameRecord, e ∈ state.routingInfo ∨
    e = (peer, info.nameRecord) := by
    intro e mem
    obtain new | ⟨known, -⟩ := mem_insert.mp mem
    · exact .inr new
    · exact .inl known
  rw [promotePeerToRoutingInfo]
  dsimp only [removePeerFromPending, markActive]
  split
  · obtain ⟨kept, sub, self⟩ := lookForUpstreamValidators_keeps _ (authentic.promote queued _)
    exact ⟨kept, fun e mem => inserted e (sub e mem), self⟩
  · refine ⟨?_, inserted, rfl⟩
    have silent : probes [.scheduleReset peer .pingTimeout] = [] := rfl
    rw [silent, List.append_nil]
    exact authentic.promote queued _

/-! ## Whole runs -/

/-- All pings of a list of commands; the router sends its own to the address in use (`get_known_addrs`). -/
def pingsSent (state : PeerDiscovery Rng) (cmds : List PeerDiscoveryCommand) : List SentPing :=
  cmds.filterMap fun
    | .pingPong target address (.ping ping) => some (target, address, ping.id)
    | .router target (.ping ping) => (state.routingInfo.get? target).map fun record => (target, record.address, ping.id)
    | _ => none

/-- A node with the pings that check its queued records, and with all pings that it has sent. -/
structure Pinging (Rng : Type) where
  state : PeerDiscovery Rng
  pings : List SentPing
  sent : List SentPing

/-- After the handling of commands. -/
def Pinging.started (state : PeerDiscovery Rng) (cmds : List PeerDiscoveryCommand) : Pinging Rng :=
  ⟨state, probes cmds, pingsSent state cmds⟩

/-- The pings of an event that check a record; those that a caller asks for do not. -/
def ownProbes (event : PeerDiscoveryEvent) (cmds : List PeerDiscoveryCommand) : List SentPing :=
  match event with
  | .sendPing _ _ _ => []
  | _ => probes cmds

def Handles (recover : NameRecord → Bytes → Option NodeId) (random : RandomSource Rng) (before : Pinging Rng)
    (event : PeerDiscoveryEvent) (after : Pinging Rng) : Prop :=
  ∃ fuel cmds, update recover random fuel before.state event = some (after.state, cmds) ∧
    after.pings = before.pings ++ ownProbes event cmds ∧ after.sent = before.sent ++ pingsSent after.state cmds

theorem Handles.intro {before : Pinging Rng} {event : PeerDiscoveryEvent} {next : PeerDiscovery Rng}
    {cmds : List PeerDiscoveryCommand}
    (handled : update recover random 0 before.state event = some (next, cmds)) : Handles recover random before event
      ⟨next, before.pings ++ ownProbes event cmds, before.sent ++ pingsSent next cmds⟩ :=
  ⟨0, cmds, handled, rfl, rfl⟩

/-- The records that an event adds to the table: the queued one of a node that echoes the identifier of its ping. -/
def AddsEchoed (before : Pinging Rng) (event : PeerDiscoveryEvent) (after : Pinging Rng) : Prop :=
  ∀ node record, (node, record) ∈ after.state.routingInfo → (node, record) ∈ before.state.routingInfo ∨
    ∃ pong info, event = .pongResponse node pong ∧ (node, info) ∈ before.state.pendingQueue ∧ info.nameRecord = record ∧
      info.lastPing.id = pong.pingId

theorem Authentic.handles {before after : Pinging Rng} {event : PeerDiscoveryEvent}
    (authentic : Authentic recover before.pings before.state) (handles : Handles recover random before event after) :
    Authentic recover after.pings after.state ∧ after.state.selfId = before.state.selfId ∧
      AddsEchoed before event after := by
  obtain ⟨fuel, cmds, returns, pings, -⟩ := handles
  have kept : ∀ {reply : Reply Rng}, Keeps recover before.state reply → reply = (after.state, cmds) →
      ownProbes event cmds = probes cmds →
        Authentic recover after.pings after.state ∧ after.state.selfId = before.state.selfId ∧
          AddsEchoed before event after := by
    rintro _ keeps rfl own
    obtain ⟨kept, sub, self⟩ := keeps _ authentic
    rw [pings, own]
    exact ⟨kept, self, fun node record mem => .inl (sub _ mem)⟩
  cases event with
  | sendPing target address ping =>
    obtain ⟨same, -⟩ := Prod.mk.inj (some.inj returns)
    rw [pings, ownProbes, List.append_nil, ← same]
    exact ⟨authentic, rfl, fun node record mem => .inl (same ▸ mem)⟩
  | pongResponse sender pong =>
    -- the only event that adds a record
    have returned := some.inj returns
    rw [handlePong] at returned
    split at returned
    · exact kept (.refl _) returned rfl
    next info found =>
      split at returned
      next echoes =>
        have queued := get?_eq_some_iff.mp found
        obtain ⟨promoted, sub, self⟩ := promotePeerToRoutingInfo_authentic random authentic queued
        rw [returned] at promoted sub self
        rw [pings]
        refine ⟨promoted, self, fun node record mem => ?_⟩
        obtain known | new := sub _ mem
        · exact .inl known
        · obtain ⟨rfl, rfl⟩ := Prod.mk.inj new
          exact .inr ⟨pong, info, rfl, queued, rfl, echoes⟩
      next => exact kept (.refl _) returned rfl
  | pingRequest sender ping => exact kept (handlePing_keeps sender ping) (some.inj returns) rfl
  | pingTimeout target pingId => exact kept (handlePingTimeout_keeps target pingId) (some.inj returns) rfl
  | sendPeerLookup receiver target openDiscovery => exact kept (requestLookup_keeps returns) rfl rfl
  | peerLookupRequest sender request =>
    exact kept (.quiet (fun _ mem => mem) rfl rfl rfl) (some.inj returns) rfl
  | peerLookupResponse sender response =>
    exact kept (handlePeerLookupResponse_keeps sender response) (some.inj returns) rfl
  | peerLookupTimeout receiver target lookupId => exact kept (handlePeerLookupTimeout_keeps returns) rfl rfl
  | sendFullNodeRaptorcastRequest target =>
    exact kept (sendFullNodeRaptorcastRequest_keeps target) (some.inj returns) rfl
  | fullNodeRaptorcastRequest sender => exact kept (handleFullNodeRaptorcastRequest_keeps sender) (some.inj returns) rfl
  | fullNodeRaptorcastResponse sender =>
    exact kept (handleFullNodeRaptorcastResponse_keeps sender) (some.inj returns) rfl
  | updateCurrentRound round epoch => exact kept (updateCurrentRound_keeps round epoch) (some.inj returns) rfl
  | updateValidatorSet epoch validators =>
    exact kept (.quiet (fun _ mem => mem) rfl rfl rfl) (some.inj returns) rfl
  | updatePeers peers => exact kept (updatePeers_keeps peers) (some.inj returns) rfl
  | updateConfirmGroup endRound peers =>
    exact kept (updatePeerParticipation_keeps endRound peers) (some.inj returns) rfl
  | refresh => exact kept (refresh_keeps returns) rfl rfl

theorem Authentic.of_build {initial : PeerDiscovery Rng} {bootstrapPeers : SortedMap NodeId MonadNameRecord}
    {cmds : List PeerDiscoveryCommand} (built : build random fuel initial bootstrapPeers = some (state, cmds))
    (signed : ∀ {node record}, (node, record) ∈ bootstrapPeers → recoverPubkey recover record = some node) :
    Authentic recover (probes cmds) state ∧ state.selfId = initial.selfId ∧ ∀ e, e ∉ state.routingInfo := by
  rw [build] at built
  dsimp only at built
  split at built
  · cases built
  · split at built
    · cases built
    · obtain ⟨⟨refreshed, cmds'⟩, refreshes, returned⟩ := bind_eq_some_iff.mp built
      obtain ⟨rfl, rfl⟩ := Prod.mk.inj (some.inj returned)
      let bare : PeerDiscovery Rng := { initial with
        routingInfo := .empty
        participationInfo := .empty
        pendingQueue := .empty
        outstandingLookupRequests := .empty }
      have inserts : Keeps recover bare _ :=
        (Keeps.forEach (fun state peer mem => insertPeerToPending_keeps (signed mem)) _).trans (refresh_keeps refreshes)
      have empty : Authentic recover [] bare := by
        constructor <;> exact fun mem => absurd mem (not_mem_empty _)
      obtain ⟨kept, sub, self⟩ := inserts [] empty
      exact ⟨kept, self, fun e mem => not_mem_empty _ (sub e mem)⟩

/-- The record entered with a pong from its node that echoed the ping kept with it in the queue, the last one that went
out to check a record of the node, to the address in this one. -/
def EnteredByEcho (recover : NameRecord → Bytes → Option NodeId) (random : RandomSource Rng) (start : Pinging Rng)
    (events : List PeerDiscoveryEvent) (node : NodeId) (record : MonadNameRecord) : Prop :=
  ∃ before pong after earlier info, events = before ++ .pongResponse node pong :: after ∧
    Trace (Handles recover random) start before earlier ∧ (node, info) ∈ earlier.state.pendingQueue ∧
    info.nameRecord = record ∧ info.lastPing.id = pong.pingId ∧
    lastPing earlier.pings node = some (record.address, pong.pingId)

section Run

variable {fuel : Nat} {initial built : PeerDiscovery Rng} {bootstrapPeers : SortedMap NodeId MonadNameRecord}
  {cmds : List PeerDiscoveryCommand} {events : List PeerDiscoveryEvent} {session : Pinging Rng}

variable (builds : build random fuel initial bootstrapPeers = some (built, cmds))
  (signed : ∀ {node record}, (node, record) ∈ bootstrapPeers → recoverPubkey recover record = some node)
  (run : Trace (Handles recover random) (.started built cmds) events session)

include builds signed run

theorem Authentic.of_trace :
    Authentic recover session.pings session.state ∧ session.state.selfId = initial.selfId := by
  induction run with
  | nil =>
    obtain ⟨authentic, self, -⟩ := Authentic.of_build builds signed
    exact ⟨authentic, self⟩
  | snoc _ step ih =>
    obtain ⟨authentic, self, -⟩ := ih.1.handles step
    exact ⟨authentic, self.trans ih.2⟩

theorem echoed_of_mem {node : NodeId} {record : MonadNameRecord} (mem : (node, record) ∈ session.state.routingInfo) :
    EnteredByEcho recover random (.started built cmds) events node record := by
  induction run with
  | nil => exact absurd mem ((Authentic.of_build builds signed).2.2 _)
  | @snoc events _ _ event run step ih =>
    have authentic := (Authentic.of_trace builds signed run).1
    obtain known | ⟨pong, info, rfl, queued, rfl, echoes⟩ := (authentic.handles step).2.2 node record mem
    · obtain ⟨before, pong, after, earlier, info, rfl, echoed⟩ := ih known
      exact ⟨before, pong, after ++ [event], earlier, info, by simp, echoed⟩
    · exact ⟨events, pong, [], _, info, rfl, run, queued, rfl, echoes, echoes ▸ authentic.pinged queued⟩

end Run

/-- In every run from a build with validly signed bootstrap records, and with signatures that nobody else can make: the
records in the table and in the queue are signed by their nodes and none is our own; each record in the table entered
with a pong from its node that echoed the ping kept in `last_ping`; and no further event lowers the sequence number of
a node that stays. -/
theorem routing_table_is_authentic {recover : NameRecord → Bytes → Option NodeId} {random : RandomSource Rng}
    {Signed : NodeId → NameRecord → Prop}
    (unforgeable : ∀ {record signature node}, recover record signature = some node → Signed node record)
    {fuel : Nat} {initial built : PeerDiscovery Rng} {bootstrapPeers : SortedMap NodeId MonadNameRecord}
    {cmds : List PeerDiscoveryCommand} (builds : build random fuel initial bootstrapPeers = some (built, cmds))
    (signed : ∀ {node record}, (node, record) ∈ bootstrapPeers → recoverPubkey recover record = some node)
    {events : List PeerDiscoveryEvent} {session : Pinging Rng}
    (run : Trace (Handles recover random) (.started built cmds) events session) :
    (∀ node record, (node, record) ∈ session.state.routingInfo →
      Signed node record.nameRecord ∧ node ≠ initial.selfId) ∧
    (∀ node info, (node, info) ∈ session.state.pendingQueue →
      Signed node info.nameRecord.nameRecord ∧ node ≠ initial.selfId) ∧
    (∀ node record, (node, record) ∈ session.state.routingInfo →
      EnteredByEcho recover random (.started built cmds) events node record) ∧
    ∀ event next, Handles recover random session event next → ∀ node record record',
      (node, record) ∈ session.state.routingInfo → (node, record') ∈ next.state.routingInfo →
        record.seq ≤ record'.seq := by
  obtain ⟨authentic, self⟩ := Authentic.of_trace builds signed run
  refine ⟨fun node record mem => ?_, fun node info mem => ?_, fun node record mem =>
    echoed_of_mem builds signed run mem, ?_⟩
  · exact ⟨unforgeable (authentic.routingSigned mem), self ▸ authentic.routingOther mem⟩
  · exact ⟨unforgeable (authentic.pendingSigned mem), self ▸ authentic.pendingOther mem⟩
  · intro event next step node record record' mem mem'
    obtain known | ⟨pong, info, -, queued, rfl, -⟩ := (authentic.handles step).2.2 node record' mem'
    · rw [mem_unique mem known]
    · exact le_of_lt (authentic.newer queued mem)

namespace OneBootstrapPeer

def counting : RandomSource Nat := ⟨fun rng => (rng, rng + 1), fun rng items amount => (items.take amount, rng)⟩

def signer (record : NameRecord) : Bytes → Option NodeId
  | [node, seq] => if seq = record.seq then some node else none
  | _ => none

def record : MonadNameRecord := ⟨⟨⟨10, 8000⟩, 3⟩, [7, 3]⟩

def newer : MonadNameRecord := ⟨⟨⟨10, 8000⟩, 4⟩, [7, 4]⟩

/-- A full node that looks for upstream validators; node 7 is one. -/
def initial : PeerDiscovery Nat :=
  ⟨1, ⟨⟨⟨11, 8000⟩, 1⟩, [1, 1]⟩, .fullNodeClient, 0, 1, ⟨[(1, [7])], by simp⟩, [], .empty, .empty, .empty, .empty,
    ⟨30, 5, 1, 5000, 1, 9⟩, 0⟩

def bootstrapPeers : SortedMap NodeId MonadNameRecord := ⟨[(7, record)], by simp⟩

/-- Node 7 answers the ping of the start and is pinged by the router; it sends a newer record, which is checked with
ping 2; it does not answer the request for groups, and the router pings it again. -/
def events : List PeerDiscoveryEvent :=
  [.pongResponse 7 ⟨0, 3⟩, .pingRequest 7 ⟨50, newer⟩, .sendFullNodeRaptorcastRequest 7, .refresh]

theorem exists_run : ∃ built cmds session next, build counting 0 initial bootstrapPeers = some (built, cmds) ∧
    Trace (Handles signer counting) (.started built cmds) events session ∧
    Handles signer counting session (.pongResponse 7 ⟨2, 4⟩) next ∧ session.state.routingInfo.get? 7 = some record ∧
    next.state.routingInfo.get? 7 = some newer ∧
    session.sent = [(7, newer.address, 0), (7, newer.address, 1), (7, newer.address, 2), (7, newer.address, 3)] := by
  refine ⟨_, _, _, _, rfl, .cons (.intro rfl) (.cons (.intro rfl) (.cons (.intro rfl) (.single (.intro rfl)))),
    .intro rfl, ?_, ?_, ?_⟩
  all_goals rfl

theorem enters_with_pong : ∃ built cmds session, build counting 0 initial bootstrapPeers = some (built, cmds) ∧
    Trace (Handles signer counting) (.started built cmds) (events ++ [.pongResponse 7 ⟨2, 4⟩]) session ∧
    session.state.routingInfo.get? 7 = some newer ∧
    EnteredByEcho signer counting (.started built cmds) (events ++ [.pongResponse 7 ⟨2, 4⟩]) 7 newer := by
  obtain ⟨built, cmds, session, next, builds, run, step, -, inUse, -⟩ := exists_run
  have signed : ∀ {node record}, (node, record) ∈ bootstrapPeers → recoverPubkey signer record = some node := by
    intro node record mem
    obtain ⟨rfl, rfl⟩ := Prod.mk.inj (List.mem_singleton.mp mem)
    rfl
  obtain ⟨-, -, echoed, -⟩ := routing_table_is_authentic
    (fun recovered => (⟨_, recovered⟩ : ∃ signature, signer _ signature = some _)) builds signed (run.snoc step)
  exact ⟨built, cmds, next, builds, run.snoc step, inUse, echoed 7 newer (get?_eq_some_iff.mp inUse)⟩

/-- The newer record enters with the echo of ping 2, but the last ping to its address is the router's ping 3. -/
theorem echoes_earlier_ping : ∃ built cmds session next, build counting 0 initial bootstrapPeers = some (built, cmds) ∧
    Trace (Handles signer counting) (.started built cmds) events session ∧
    Handles signer counting session (.pongResponse 7 ⟨2, 4⟩) next ∧ session.state.routingInfo.get? 7 = some record ∧
    next.state.routingInfo.get? 7 = some newer ∧ session.sent.getLast? = some (7, newer.address, 3) := by
  obtain ⟨built, cmds, session, next, builds, run, step, before, after, sent⟩ := exists_run
  exact ⟨built, cmds, session, next, builds, run, step, before, after, by rw [sent]; rfl⟩

end OneBootstrapPeer

/-! ## A full node becomes a validator -/

/-- The receiver of a ping, and the record that the ping carries. -/
def pingOf : PeerDiscoveryCommand → Option (NodeId × MonadNameRecord)
  | .pingPong target _ (.ping ping) => some (target, ping.localNameRecord)
  | .router target (.ping ping) => some (target, ping.localNameRecord)
  | _ => none

/-- The other validators of an epoch and the next that are in the routing table. -/
def knownValidators (state : PeerDiscovery Rng) (epoch : Epoch) : List NodeId :=
  ((state.epochValidators.get? epoch).getD [] ++ (state.epochValidators.get? (epoch + 1)).getD []).filter
    fun validator =>
    validator ≠ state.selfId ∧ state.routingInfo.contains validator

/-- A ping with our own record goes to each of those validators, and no ping to anyone else. -/
def Announces (state : PeerDiscovery Rng) (epoch : Epoch) (cmds : List PeerDiscoveryCommand) : Prop :=
  (∀ validator ∈ state.knownValidators epoch, ∃ cmd ∈ cmds, pingOf cmd = some (validator, state.selfRecord)) ∧
    ∀ cmd ∈ cmds, ∀ node record, pingOf cmd = some (node, record) → node ∈ state.knownValidators epoch

/-- An update of the round, of a full node that becomes a validator like any other, announces the node exactly when the
routing table has no other validator. -/
theorem promoted_announces_iff {round : Round} {epoch : Epoch} :
    state.Announces epoch (state.updateCurrentRound random round epoch).2 ↔ state.knownValidators epoch = [] := by
  -- the record of a known validator counts as old
  obtain ⟨_, _, _, _, same⟩ := updateCurrentRound_eq round epoch
  rw [same, Announces]
  constructor
  · rintro ⟨reaches, -⟩
    refine List.eq_nil_iff_forall_not_mem.mpr fun validator known => ?_
    obtain ⟨cmd, sent, -⟩ := reaches validator known
    cases sent
  · intro nobody
    simp [nobody]

/-- Node 1 is a validator of epoch 2 and knows validator 7. -/
def promotable : PeerDiscovery Nat :=
  { OneBootstrapPeer.initial with
    selfRole := .fullNodeNone
    epochValidators := ⟨[(2, [1, 7])], by simp⟩
    routingInfo := OneBootstrapPeer.bootstrapPeers }

theorem promoted_announces_alone :
    { promotable with routingInfo := .empty }.Announces 2
      ({ promotable with routingInfo := .empty }.updateCurrentRound OneBootstrapPeer.counting 9 2).2 :=
  promoted_announces_iff.mpr (by decide)

theorem promoted_stays_silent : promotable.selfRole = .fullNodeNone ∧ promotable.currentEpoch < 2 ∧
      { promotable with currentEpoch := 2 }.checkValidatorMembership promotable.selfId = true ∧
      (promotable.updateCurrentRound OneBootstrapPeer.counting 9 2).2 = [] ∧
      ¬promotable.Announces 2 (promotable.updateCurrentRound OneBootstrapPeer.counting 9 2).2 := by
  refine ⟨rfl, by decide, by decide, by decide, fun announces => ?_⟩
  obtain ⟨cmd, sent, -⟩ := announces.1 7 (by decide)
  cases sent

end PeerDiscovery

end MonadBft
