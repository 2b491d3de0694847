import MonadBft.MonadState

/-! # A process that crashes and restarts

The commands of an update go to `ParentExecutor`, which runs its sub-executors one after
the other: first the router, which sends the messages, then the others, the checkpoint
executor among them. A crash loses everything but the checkpoint, from which the process
is built again.
-/

namespace MonadBft

/-- `EpochManager::new`; `none` is the assertion on conflicting start rounds. -/
def EpochManager.new (epochLength : SeqNum) (epochStartDelay : Round) (epochLength_pos : 0 < epochLength)
    (knownEpochs : List (Epoch × Round)) : Option EpochManager :=
  knownEpochs.foldlM (fun em (epoch, round) => em.insertEpochStart epoch round)
    { epochLength, epochStartDelay, epochStarts := .empty, epochLength_pos }

def Checkpoint.getEpochStarts (checkpoint : Checkpoint) : List (Epoch × Round) :=
  checkpoint.validatorSets.map fun locked => (locked.epoch, locked.round)

/-! ## What the executors take from an update -/

/-- The messages of this validator that a command sends. A proposal for the full nodes is one of another validator that
is passed on. -/
def ConsensusCommand.published : ConsensusCommand → List ConsensusMessage
  | .publish _ m => [m.obj]
  | .publishToFullNodes _ m =>
    match m.obj.message with
    | .advanceRound _ => [m.obj]
    | _ => []
  | _ => []

def Command.published : Command → List ConsensusMessage
  | .consensus command => command.published
  | _ => []

/-- A block that the transaction pool is asked for. -/
def Command.created : Command → Option ProposalRequest
  | .consensus (.createProposal request) => some request
  | _ => none

/-- The checkpoint executor overwrites the last checkpoint. -/
def Checkpoint.after (checkpoint : Checkpoint) (commands : List Command) : Checkpoint :=
  commands.foldl (fun
    | _, .checkpoint _ newer => newer
    | older, _ => older) checkpoint

/-! ## The process -/

structure ProcessConfig where
  net : Network
  node : Node
  executionDelay : SeqNum
  statesyncToLiveThreshold : SeqNum
  epochLength : SeqNum
  epochStartDelay : Round
  epochLength_pos : 0 < epochLength

structure Moment where
  now : Surroundings
  database : Database

def ProcessConfig.env (cfg : ProcessConfig) (moment : Moment) : MonadEnv where
  env := { net := cfg.net, node := cfg.node, now := moment.now }
  database := moment.database
  executionDelay := cfg.executionDelay

structure Process where
  state : MonadState
  /-- Requests that the transaction pool has not answered. -/
  requests : List ProposalRequest
  /-- The commands of the last update that wait for the executors after the router. -/
  pending : List Command

inductive Occurrence where
  | sent (message : ConsensusMessage)
  | restarted
  deriving DecidableEq

structure Life where
  process : Option Process
  durable : Checkpoint
  history : List Occurrence

inductive Incident where
  | restart
  /-- An event, and the router. -/
  | event (event : MonadEvent)
  /-- The transaction pool answers a request. -/
  | answer (request : ProposalRequest) (executionInputs executionBody : Bytes)
  /-- The other executors. -/
  | exec
  | crash

namespace Life

def start (checkpoint : Checkpoint) : Life where
  process := none
  durable := checkpoint
  history := []

/-- An update whose messages are sent. One that panics is a crash before it. -/
def update (life : Life) (requests : List ProposalRequest) : MonadCall → Option Life
  | .panic _ => none
  | .ok state commands => some { life with
      process := some { state, requests, pending := commands }
      history := life.history ++ (commands.flatMap Command.published).map .sent }

/-- `none` if the incident is not possible now. -/
def handle (cfg : ProcessConfig) (life : Life) (moment : Moment) : Incident → Option Life
  | .restart =>
    match life.process with
    | some _ => none
    | none =>
      (EpochManager.new cfg.epochLength cfg.epochStartDelay cfg.epochLength_pos life.durable.getEpochStarts).bind
        fun epochManager =>
        Life.update { life with history := life.history ++ [.restarted] } []
          (MonadState.build (cfg.env moment) epochManager life.durable.root life.durable.highCertificate
            cfg.statesyncToLiveThreshold)
  | .event event =>
    match life.process, event with
    | none, _ => none
    -- blocks come from the transaction pool
    | some _, .mempool _ => none
    | some p, event => if p.pending = [] then life.update p.requests (p.state.update (cfg.env moment) event) else none
  | .answer request executionInputs executionBody =>
    match life.process with
    | none => none
    | some p =>
      if p.pending = [] ∧ request ∈ p.requests then
        life.update (p.requests.erase request)
          (p.state.update (cfg.env moment) (.mempool (request.answer executionInputs executionBody)))
      else none
  | .exec =>
    match life.process with
    | none => none
    | some p => some { life with
        process := some { p with requests := p.requests ++ p.pending.filterMap Command.created, pending := [] }
        durable := life.durable.after p.pending }
  | .crash => some { life with process := none }

end Life

end MonadBft
