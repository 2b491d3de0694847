import Mathlib.Algebra.Ring.Nat
import Mathlib.Data.List.Sort
import MonadBft.Types

/-! # Full-node groups

Spans of rounds, RaptorCast groups and the messages by which a validator forms a group of full nodes
(`monad-types`, `util.rs` and `group_message.rs`).
-/

namespace MonadBft

def maxRound : Round := 2 ^ 64 - 1

/-- Rounds from `start` on and before `stop` (the source's `end`). -/
structure RoundSpan where
  start : Round
  stop : Round
deriving DecidableEq, Repr

namespace RoundSpan

def new (start stop : Round) : Option RoundSpan := if stop ≤ start then none else some ⟨start, stop⟩

def contains (span : RoundSpan) (round : Round) : Prop := span.start ≤ round ∧ round < span.stop

def overlaps (span other : RoundSpan) : Prop := span.start < other.stop ∧ other.start < span.stop

instance (span : RoundSpan) (round : Round) : Decidable (span.contains round) :=
  inferInstanceAs (Decidable (_ ∧ _))

instance (span other : RoundSpan) : Decidable (span.overlaps other) :=
  inferInstanceAs (Decidable (_ ∧ _))

variable {start stop round : Round} {span : RoundSpan} {other : RoundSpan}

theorem new_of_lt (lt : start < stop) : new start stop = some ⟨start, stop⟩ := if_neg (not_le.mpr lt)

theorem new_eq_some (made : new start stop = some span) : span = ⟨start, stop⟩ ∧ start < stop := by
  rw [new] at made
  split at made
  · cases made
  next lt => exact ⟨(Option.some.inj made).symm, not_le.mp lt⟩

theorem overlaps_of_contains (first : span.contains round) (second : other.contains round) : span.overlaps other :=
  ⟨lt_of_le_of_lt first.1 second.2, lt_of_le_of_lt second.1 first.2⟩

theorem overlaps_comm : span.overlaps other ↔ other.overlaps span := And.comm

end RoundSpan

/-- A group to broadcast to: of full nodes if it has a validator, otherwise of validators. -/
structure Group where
  validatorId : Option NodeId
  roundSpan : RoundSpan
  sortedOtherPeers : List NodeId
deriving DecidableEq, Repr

namespace Group

def empty : Group := ⟨none, ⟨0, 0⟩, []⟩

/-- `new_fullnode_group`; a full node has to find itself among the peers, otherwise this panics. -/
def newFullnodeGroup (allPeers : List NodeId) (selfId validatorId : NodeId) (roundSpan : RoundSpan) : Option Group :=
  if selfId = validatorId then some ⟨some validatorId, roundSpan, allPeers.insertionSort (· ≤ ·)⟩
  else if selfId ∈ allPeers then some ⟨some validatorId, roundSpan, (allPeers.erase selfId).insertionSort (· ≤ ·)⟩
  else none

theorem newFullnodeGroup_eq_some {allPeers : List NodeId} {selfId validatorId : NodeId} {roundSpan : RoundSpan}
    {group : Group} (made : newFullnodeGroup allPeers selfId validatorId roundSpan = some group) :
    group.validatorId = some validatorId ∧ group.roundSpan = roundSpan := by
  rw [newFullnodeGroup] at made
  split at made
  · cases made
    exact ⟨rfl, rfl⟩
  · split at made
    · cases made
      exact ⟨rfl, rfl⟩
    · cases made

end Group

structure PrepareGroup where
  validatorId : NodeId
  maxGroupSize : Nat
  startRound : Round
  endRound : Round
deriving DecidableEq, Repr

structure PrepareGroupResponse where
  req : PrepareGroup
  nodeId : NodeId
  accept : Bool
deriving DecidableEq, Repr

structure ConfirmGroup where
  prepare : PrepareGroup
  peers : List NodeId
deriving DecidableEq, Repr

inductive FullNodesGroupMessage where
  | prepareGroup (message : PrepareGroup)
  | prepareGroupResponse (message : PrepareGroupResponse)
  | confirmGroup (message : ConfirmGroup)
deriving DecidableEq, Repr

def PrepareGroup.span (message : PrepareGroup) : RoundSpan := ⟨message.startRound, message.endRound⟩

/-! ## Panics of both sides -/

inductive SecondaryPanic where
  /-- An addition of rounds. -/
  | overflow
  | spanTooShort
  | lookaheadTooShort
  /-- `assert_ne!(new_round, Round::MAX)`. -/
  | lastRound
  | beforeCurrentGroup
  | roundSpan
  | ownNodeId
  /-- `max_num_group must be greater than 0`. -/
  | noGroups
  /-- The asserts of `overlaps`. -/
  | invertedSpan
deriving DecidableEq, Repr

abbrev SecondaryResult := Except SecondaryPanic

def addRound (a b : Round) : SecondaryResult Round := if a + b ≤ maxRound then .ok (a + b) else .error .overflow

theorem addRound_eq {a b : Round} (fits : a + b ≤ maxRound) : addRound a b = .ok (a + b) := if_pos fits

end MonadBft
