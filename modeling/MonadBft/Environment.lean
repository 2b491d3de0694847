import Mathlib.Algebra.BigOperators.Group.List.Basic
import Mathlib.Algebra.Ring.Nat
import MonadBft.Types
import MonadBft.Lib.SortedMap

/-! # Signatures, validator sets and epochs

What consensus gets from `monad-crypto` and `monad-validator`: the hash and
signature functions (parameters, since the code is generic in them), the stake
thresholds of `validator_set.rs`, and the epoch schedule of `epoch_manager.rs`.
-/

namespace MonadBft

open SortedMap List Option

/-! ## Hashes and signatures -/

/-- `ValidatorMapping`: a validator's certificate public key. -/
abbrev ValidatorMapping := SortedMap NodeId Bytes

/-- The variants of `SignatureCollectionError` that `SignatureCollection::new` returns. -/
inductive SignatureCollectionError where
  | nodeIdNotInMapping (sigs : List (NodeId × Bytes))
  | conflictingSignatures (node : NodeId) (first second : Bytes)
  | invalidSignaturesCreate (sigs : List (NodeId × Bytes))
  deriving DecidableEq

/-- The functions the consensus code is generic in. -/
structure Crypto where
  /-- `ConsensusBlockHeader::get_id`. -/
  getId : ConsensusBlockHeader → BlockId
  /-- `ConsensusBlockBody::get_id`. -/
  getBodyId : Bytes → Bytes
  /-- The collection of no signatures, inside the genesis QC. -/
  noSignatures : Bytes
  /-- `CertificateSignature::validate`: the signature is an element of the right group. -/
  sigValidate : Bytes → Bool
  /-- `SignatureCollection::new`. -/
  sctNew : ValidatorMapping → SignedMessage → List (NodeId × Bytes) → Except SignatureCollectionError Bytes
  /-- `SignatureCollection::verify`, the signers if the collection is valid. -/
  sctVerify : ValidatorMapping → SignedMessage → Bytes → Option (List NodeId)
  /-- `ConsensusTip::signature_author`. -/
  tipAuthor : ConsensusBlockHeader → Bytes → Option NodeId
  /-- `recover_pubkey` of a message signature. -/
  messageAuthor : ConsensusMessage → Bytes → Option NodeId

def Crypto.genesisQc (crypto : Crypto) : QuorumCertificate where
  info := { id := genesisBlockId, epoch := 1, round := genesisRound }
  signatures := crypto.noSignatures

/-! ## Validator sets -/

/-- Stakes are `U256`; `fits` is what keeps the code's `total_stake * 2` from wrapping. -/
structure ValidatorSet where
  validators : SortedMap NodeId Stake
  fits : 2 * (validators.entries.map Prod.snd).sum < 2 ^ 256

inductive ValidatorSetError where
  | duplicateValidator
  deriving DecidableEq

namespace ValidatorSet

variable (vs : ValidatorSet)

def totalStake : Stake := (vs.validators.entries.map Prod.snd).sum

def isMember (node : NodeId) : Bool := vs.validators.contains node

def calculateCurrentStake (addrs : List NodeId) : Except ValidatorSetError Stake :=
  if addrs.Nodup then .ok (addrs.filterMap vs.validators.get?).sum else .error .duplicateValidator

def hasThresholdVotes (addrs : List NodeId) (threshold : Stake) : Except ValidatorSetError Bool :=
  (vs.calculateCurrentStake addrs).map fun voterStake => decide (threshold ≤ voterStake)

def superMajority : Stake := vs.totalStake * 2 / 3 + 1

def hasSuperMajorityVotes (addrs : List NodeId) : Except ValidatorSetError Bool :=
  vs.hasThresholdVotes addrs vs.superMajority

def hasHonestVote (addrs : List NodeId) : Except ValidatorSetError Bool :=
  vs.hasThresholdVotes addrs (vs.totalStake / 3 + 1)

variable {vs} {addrs : List NodeId}

theorem hasThresholdVotes_eq_ok_true {threshold : Stake} : vs.hasThresholdVotes addrs threshold = .ok true ↔
      addrs.Nodup ∧ threshold ≤ (addrs.filterMap vs.validators.get?).sum := by
  unfold hasThresholdVotes calculateCurrentStake
  split_ifs with distinct <;> simp [Except.map, distinct]

/-- The only failure is a repeated address. -/
theorem hasThresholdVotes_of_nodup (vs : ValidatorSet) (distinct : addrs.Nodup) (threshold : Stake) :
    vs.hasThresholdVotes addrs threshold =
      .ok (decide (threshold ≤ (addrs.filterMap vs.validators.get?).sum)) := by
  simp [hasThresholdVotes, calculateCurrentStake, distinct, Except.map]

end ValidatorSet

/-! ## Epochs -/

def SeqNum.isEpochEnd (n : SeqNum) (epochLength : SeqNum) : Bool := n % epochLength = epochLength - 1

def SeqNum.toEpoch (n : SeqNum) (epochLength : SeqNum) : Epoch := n / epochLength + 1

structure EpochManager where
  epochLength : SeqNum
  epochStartDelay : Round
  /-- An entry `(e, r)` says that epoch `e` starts in round `r`. -/
  epochStarts : SortedMap Epoch Round
  epochLength_pos : 0 < epochLength

namespace EpochManager

/-- `none` is the `assert_eq!` on a conflicting start round. -/
def insertEpochStart (em : EpochManager) (epoch : Epoch) (round : Round) : Option EpochManager :=
  match em.epochStarts.get? epoch with
  | none => some { em with epochStarts := em.epochStarts.insert epoch round }
  | some start => if start = round then some em else none

def scheduleEpochStart (em : EpochManager) (blockNum : SeqNum) (blockRound : Round) : Option EpochManager :=
  if SeqNum.isEpochEnd blockNum em.epochLength then
    em.insertEpochStart (SeqNum.toEpoch blockNum em.epochLength + 1) (blockRound + em.epochStartDelay)
  else some em

/-- The last known epoch that has started by `round`. -/
def getEpoch (em : EpochManager) (round : Round) : Option Epoch :=
  (em.epochStarts.entries.reverse.find? (fun e => e.2 ≤ round)).map Prod.fst

variable {em em' : EpochManager} {round : Round} {e : Epoch} {blockNum : SeqNum} {blockRound : Round}

/-- The epoch of a round is the highest one that has started by then. -/
theorem getEpoch_eq_some_iff : em.getEpoch round = some e ↔ (∃ start, (e, start) ∈ em.epochStarts ∧ start ≤ round) ∧
      ∀ e' start', (e', start') ∈ em.epochStarts → start' ≤ round → e' ≤ e := by
  have sound : ∀ {x}, em.epochStarts.entries.reverse.find? (fun e => e.2 ≤ round) = some x →
      x ∈ em.epochStarts ∧ x.2 ≤ round ∧ ∀ y ∈ em.epochStarts, y.2 ≤ round → y.1 ≤ x.1 := by
    intro x found
    obtain ⟨started, above, below, split, notStarted⟩ := find?_eq_some_iff_append.mp found
    have mem : x ∈ em.epochStarts.entries := by
      rw [← mem_reverse, split]
      simp
    refine ⟨mem, by simpa using started, fun y known startedY => ?_⟩
    have descending : (above ++ x :: below).Pairwise fun a b => b.1 < a.1 := by
      rw [← split]
      exact pairwise_reverse.mpr em.epochStarts.sorted
    have place : y ∈ above ++ x :: below := by
      rw [← split]
      exact mem_reverse.mpr known
    obtain higher | rfl | lower := by simpa using place
    · exact absurd startedY (by simpa using notStarted y higher)
    · exact le_rfl
    · exact ((pairwise_cons.mp (pairwise_append.mp descending).2.1).1 y lower).le
  constructor
  · intro known
    obtain ⟨x, found, rfl⟩ := map_eq_some_iff.mp known
    obtain ⟨mem, started, highest⟩ := sound found
    exact ⟨⟨x.2, mem, started⟩, fun e' start' => highest (e', start')⟩
  · rintro ⟨⟨start, mem, started⟩, highest⟩
    cases found : em.epochStarts.entries.reverse.find? (fun e => e.2 ≤ round) with
    | none =>
      have := find?_eq_none.mp found (e, start) (mem_reverse.mpr mem)
      exact absurd started (by simpa using this)
    | some x =>
      obtain ⟨memX, startedX, highestX⟩ := sound found
      rw [getEpoch, found, map_some, some_inj]
      exact le_antisymm (highest x.1 x.2 memX startedX) (highestX _ mem started)

/-- The later schedule gives every round at least the epoch it had. -/
def Extends (em em' : EpochManager) : Prop :=
  ∀ round e, em.getEpoch round = some e → ∃ e', em'.getEpoch round = some e' ∧ e ≤ e'

theorem Extends.refl (em : EpochManager) : em.Extends em := fun _ e known => ⟨e, known, le_rfl⟩

theorem Extends.trans {em₁ em₂ em₃ : EpochManager} (first : em₁.Extends em₂) (second : em₂.Extends em₃) :
    em₁.Extends em₃ := by
  intro round e known
  obtain ⟨e₂, known₂, le₂⟩ := first round e known
  obtain ⟨e₃, known₃, le₃⟩ := second round e₂ known₂
  exact ⟨e₃, known₃, le₂.trans le₃⟩

/-- A new start moves the rounds from it on to its epoch, unless they are in a later one. -/
theorem getEpoch_insertEpochStart {epoch : Epoch} {start : Round} (h : em.insertEpochStart epoch start = some em')
    (known : em.getEpoch round = some e) :
    em'.getEpoch round = some (if start ≤ round ∧ e < epoch then epoch else e) := by
  obtain ⟨⟨start₀, mem₀, started₀⟩, highest⟩ := getEpoch_eq_some_iff.mp known
  unfold insertEpochStart at h
  split at h
  case h_1 new =>
    obtain rfl := some.inj h
    have absent : ∀ start', (epoch, start') ∉ em.epochStarts := by
      intro start' mem
      rw [get?_eq_some_iff.mpr mem] at new
      cases new
    refine getEpoch_eq_some_iff.mpr ?_
    split
    case isTrue moves =>
      refine ⟨⟨start, mem_insert.mpr (.inl rfl), moves.1⟩, fun e' start' mem started => ?_⟩
      obtain same | ⟨old, -⟩ := mem_insert.mp mem
      · exact (congrArg Prod.fst same).le
      · exact (highest e' start' old started).trans moves.2.le
    case isFalse stays =>
      have other : e ≠ epoch := fun same => absent start₀ (same ▸ mem₀)
      refine ⟨⟨start₀, mem_insert.mpr (.inr ⟨mem₀, other⟩), started₀⟩, fun e' start' mem started => ?_⟩
      obtain ⟨rfl, rfl⟩ | ⟨old, -⟩ := pair_mem_insert.mp mem
      · exact not_lt.mp fun higher => stays ⟨started, higher⟩
      · exact highest e' start' old started
  case h_2 start' scheduled =>
    split at h
    case isTrue same =>
      obtain rfl := some.inj h
      subst same
      have stays : ¬ (start' ≤ round ∧ e < epoch) := fun moves =>
        absurd moves.2 (not_lt.mpr (highest _ _ (get?_eq_some_iff.mp scheduled) moves.1))
      rw [if_neg stays, known]
    · cases h

/-- Committing the block moves the round to the next epoch. -/
def Moves (em : EpochManager) (blockNum : SeqNum) (blockRound round : Round) (e : Epoch) : Prop :=
  SeqNum.isEpochEnd blockNum em.epochLength = true ∧ blockRound + em.epochStartDelay ≤ round ∧
    e < SeqNum.toEpoch blockNum em.epochLength + 1

instance (em : EpochManager) (blockNum : SeqNum) (blockRound round : Round) (e : Epoch) :
    Decidable (em.Moves blockNum blockRound round e) := inferInstanceAs (Decidable (_ ∧ _ ∧ _))

variable (h : em.scheduleEpochStart blockNum blockRound = some em')

include h

theorem getEpoch_scheduleEpochStart (known : em.getEpoch round = some e) :
    em'.getEpoch round = some (if em.Moves blockNum blockRound round e then
      SeqNum.toEpoch blockNum em.epochLength + 1 else e) := by
  unfold scheduleEpochStart at h
  split at h
  case isTrue ends =>
    simp only [Moves, ends, true_and]
    exact getEpoch_insertEpochStart h known
  case isFalse inside =>
    obtain rfl := some.inj h
    simp [Moves, inside, known]

theorem scheduleEpochStart_params :
    em'.epochLength = em.epochLength ∧ em'.epochStartDelay = em.epochStartDelay := by
  simp only [scheduleEpochStart, insertEpochStart] at h
  grind

end EpochManager

/-- What all replicas of one network share. -/
structure Network where
  crypto : Crypto
  valEpochMap : Epoch → Option (ValidatorSet × ValidatorMapping)
  /-- `LeaderElection::get_leader`. -/
  getLeader : Round → SortedMap NodeId Stake → NodeId
  /-- The client version that consensus messages must carry. -/
  version : Nat

end MonadBft
