import MonadBft.Proposing
import MonadBft.Stakes
import MonadBft.Voting

/-! # Certificates of one round

An honest validator signs votes for one block in a round, and one no-endorsement. Two quorums share an honest
validator, so the certificates of a round agree, whoever built them and whatever the other validators send.
-/

namespace MonadBft

open Replica List

/-! ## One no-endorsement in a round -/

structure OneNoEndorsement (signed : List SignedMessage) (s : ConsensusState) : Prop where
  past : ∀ {m}, .noEndorsement m ∈ signed → m.round ≤ s.safety.highestNoEndorse.round
  agree : ∀ {m m'}, .noEndorsement m ∈ signed → .noEndorsement m' ∈ signed → m.round = m'.round →
    m.tipQcRound = m'.tipQcRound

section Steps

variable {K : Evidence} {net : Network} {node : Node} {s s' : ConsensusState} {label : Label}
  {signed : List SignedMessage}

/-- A step signs no no-endorsement, or raises the mark to the round of the one that it signs. -/
theorem Step.noEndorsement_cases (taken : Step K net node s label s') :
    (∀ m, .noEndorsement m ∉ signedIn net.crypto label.commands) ∧
      s'.safety.highestNoEndorse = s.safety.highestNoEndorse ∨
    s.safety.highestNoEndorse.round < s'.safety.highestNoEndorse.round ∧ ∃ qcRound,
      ∀ m, .noEndorsement m ∈ signedIn net.crypto label.commands →
        m.round = s'.safety.highestNoEndorse.round ∧ m.tipQcRound = qcRound := by
  have signs := fun m (mem : .noEndorsement m ∈ signedIn net.crypto label.commands) => taken.signed_cases mem
  have frame := taken.frame
  cases taken with
  | @noEndorse _ _ _ tip _ _ now author handled evidence inRound isTip done =>
    obtain ⟨newer, -, rfl⟩ := Safety.noEndorse_eq_ok done
    refine .inr ⟨newer, tip.blockHeader.qc.getRound, fun m mem => ?_⟩
    obtain ⟨_, isVote, -⟩ | ⟨isTimeout, -⟩ | ⟨_, _, _, same, isMsg⟩ := signs m mem
    · cases isVote
    · cases isTimeout
    · cases same
      cases isMsg
      exact ⟨rfl, rfl⟩
  | vote now handled evidence inRound processed coherent voted =>
    obtain ⟨-, rfl⟩ := Safety.vote_eq_ok voted
    exact .inl ⟨fun m mem => by simpa using signs m mem, rfl⟩
  | advance | timeout => exact .inl ⟨fun m mem => by simpa using signs m mem, rfl⟩
  | _ => exact .inl ⟨fun m mem => by simpa using signs m mem, (frame trivial).noEndorsed⟩

theorem Step.oneNoEndorsement (taken : Step K net node s label s') (h : OneNoEndorsement signed s) :
    OneNoEndorsement (signed ++ signedIn net.crypto label.commands) s' := by
  obtain ⟨none, same⟩ | ⟨newer, qcRound, new⟩ := taken.noEndorsement_cases
  · constructor <;> simp only [mem_append, none, or_false, same]
    exacts [h.past, h.agree]
  -- the old ones are earlier
  have past : ∀ {m}, .noEndorsement m ∈ signed → m.round < s'.safety.highestNoEndorse.round := fun old =>
    (h.past old).trans_lt newer
  constructor
  · intro m mem
    obtain old | mem := mem_append.mp mem
    · exact (past old).le
    · exact (new m mem).1.le
  · intro m m' mem mem' sameRound
    obtain old | mem := mem_append.mp mem <;> obtain old' | mem' := mem_append.mp mem'
    · exact h.agree old old' sameRound
    · exact absurd (sameRound.trans (new m' mem').1) (past old).ne
    · exact absurd (sameRound.symm.trans (new m mem).1) (past old').ne
    · exact (new m mem).2.trans (new m' mem').2.symm

theorem oneNoEndorsement_of_trace {labels : List Label} (run : Trace (Step K net node) s labels s') :
    OneNoEndorsement (signedIn net.crypto (labels.flatMap (·.commands))) s' := by
  induction run with
  | nil => exact ⟨by simp, by simp⟩
  | snoc _ taken ih =>
    rw [flatMap_append, signedIn_append]
    simpa using taken.oneNoEndorsement ih

end Steps

/-! ## The network -/

/-- Honest validators run the code, each in a run of its own. The others may do anything but sign for an honest one,
and hold less than a third of the stake. -/
structure HonestNetwork (net : Network) where
  honest : NodeId → Prop
  signed : NodeId → List SignedMessage
  runs : ∀ {n}, honest n → ∃ node em root highCertificate history r, node.nodeid = n ∧
    RunFrom net node em root highCertificate history r ∧ signed n = signedIn net.crypto (emitted history)
  unforgeable : ∀ {epoch validators mapping msg sigs signers}, net.valEpochMap epoch = some (validators, mapping) →
    net.crypto.sctVerify mapping msg sigs = some signers → ∀ n ∈ signers, honest n → msg ∈ signed n
  minority : ∀ {epoch validators mapping}, net.valEpochMap epoch = some (validators, mapping) →
    ∀ nodes : Finset NodeId, (∀ n ∈ nodes, ¬honest n) →
      3 * ∑ n ∈ nodes, StakeTable.stakeOf ⟨validators.validators, validators.totalStake⟩ n < validators.totalStake

namespace HonestNetwork

variable {net : Network} (sys : HonestNetwork net)

theorem exists_signing {n : NodeId} (honest : sys.honest n) :
    ∃ s, OneVote net.crypto (sys.signed n) s ∧ OneNoEndorsement (sys.signed n) s := by
  obtain ⟨_, _, _, _, _, _, -, run, signed⟩ := sys.runs honest
  obtain ⟨s₀, labels, started, trace, explains⟩ := run.steps
  rw [signed, explains.emitted]
  exact ⟨_, oneVote_of_trace trace (ConsensusState.marks_new started) (oneVote_new started),
    oneNoEndorsement_of_trace trace⟩

/-- A super-majority of the validators of `epoch` signed `msg`, as some replica checks it. -/
def Collected (net : Network) (epoch : Epoch) (msg : SignedMessage) : Prop :=
  ∃ em round v, epochToValidators net em epoch round = .ok v ∧ ∃ sigs signers,
    net.crypto.sctVerify v.2.1 msg sigs = some signers ∧ v.1.hasSuperMajorityVotes signers = .ok true

/-- Two quorums of an epoch share an honest validator, who signed for both. -/
theorem exists_signer {epoch : Epoch} {msg msg' : SignedMessage} (collected : Collected net epoch msg)
    (collected' : Collected net epoch msg') : ∃ n, sys.honest n ∧ msg ∈ sys.signed n ∧ msg' ∈ sys.signed n := by
  obtain ⟨_, _, ⟨validators, _, _⟩, looked, _, A, verified, quorum⟩ := collected
  obtain ⟨_, _, ⟨_, _, _⟩, looked', _, B, verified', quorum'⟩ := collected'
  obtain ⟨-, known, -⟩ := epochToValidators_eq_ok.mp looked
  obtain ⟨-, known', -⟩ := epochToValidators_eq_ok.mp looked'
  obtain ⟨rfl, rfl⟩ := Prod.mk.inj (Option.some.inj (known.symm.trans known'))
  obtain ⟨distinct, enough⟩ := ValidatorSet.hasThresholdVotes_eq_ok_true.mp quorum
  obtain ⟨distinct', enough'⟩ := ValidatorSet.hasThresholdVotes_eq_ok_true.mp quorum'
  by_contra nobody
  have dishonest : ∀ n ∈ A.toFinset ∩ B.toFinset, ¬sys.honest n := by
    intro n mem honest
    obtain ⟨inA, inB⟩ : n ∈ A ∧ n ∈ B := by simpa using mem
    exact nobody ⟨n, honest, sys.unforgeable known verified n inA honest, sys.unforgeable known verified' n inB honest⟩
  let t : StakeTable := ⟨validators.validators, validators.totalStake⟩
  have few : 3 * ∑ n ∈ A.toFinset ∩ B.toFinset, t.stakeOf n < t.totalStake := sys.minority known _ dishonest
  have total : ∑ n ∈ A.toFinset ∪ B.toFinset, t.stakeOf n ≤ t.totalStake := StakeTable.sum_subset_le _
  have both : ∑ n ∈ A.toFinset ∪ B.toFinset, t.stakeOf n + ∑ n ∈ A.toFinset ∩ B.toFinset, t.stakeOf n = _ :=
    Finset.sum_union_inter
  rw [StakeTable.sum_filterMap_eq (t := t) distinct] at enough
  rw [StakeTable.sum_filterMap_eq (t := t) distinct'] at enough'
  change t.totalStake * 2 / 3 + 1 ≤ _ at enough enough'
  lia

/-- Certificates of one epoch and round that pass the checks of any two replicas agree. -/
theorem certificates_agree (sys : HonestNetwork net) (em em' : EpochManager) :
    (∀ qc qc', QcChecked net em qc → QcChecked net em' qc' → qc.getEpoch = qc'.getEpoch → qc.getRound = qc'.getRound →
      qc.info.id = qc'.info.id) ∧
    ∀ nec nec', NecChecked net em nec → NecChecked net em' nec' → nec.msg.epoch = nec'.msg.epoch →
      nec.msg.round = nec'.msg.round → nec.msg = nec'.msg := by
  constructor
  · rintro qc qc' ⟨v, known, checked⟩ ⟨v', known', checked'⟩ sameEpoch sameRound
    rw [← sameRound] at checked'
    split at checked
    case isTrue genesis =>
      rw [if_pos genesis] at checked'
      rw [checked, checked']
    case isFalse later =>
      rw [if_neg later] at checked'
      obtain ⟨n, honest, signed, signed'⟩ := sys.exists_signer ⟨em, _, v, known, _, checked⟩
        ⟨em', _, v', sameEpoch ▸ known', _, checked'⟩
      obtain ⟨s, votes, -⟩ := sys.exists_signing honest
      exact votes.agree (.inl signed) (.inl signed') sameRound
  · rintro ⟨⟨epoch, round, qcRound⟩, _⟩ ⟨⟨_, _, qcRound'⟩, _⟩ ⟨v, known, checked⟩ ⟨v', known', checked'⟩ rfl rfl
    obtain ⟨n, honest, signed, signed'⟩ := sys.exists_signer ⟨em, _, v, known, _, checked⟩
      ⟨em', _, v', known', _, checked'⟩
    obtain ⟨s, -, noEndorsements⟩ := sys.exists_signing honest
    rw [show qcRound = qcRound' from noEndorsements.agree signed signed' rfl]

end HonestNetwork

namespace FourValidators

/-- What is collected: timeouts, votes for `block₂` and a no-endorsement of `fork₂`. -/
def collected : List SignedMessage :=
  [.timeout ⟨1, 1, 0, 0⟩, .vote (qcFor 2 block₂).info, .timeout ⟨1, 2, 0, 2⟩, .vote (qcFor 2 block₂).info,
    .noEndorsement ⟨1, 3, 0⟩]

def collectedNet : Network :=
  { net with crypto := { crypto with sctVerify := fun _ msg sigs => if msg ∈ collected then some sigs else none } }

def threeHonest : HonestNetwork collectedNet where
  honest n := n ∈ [0, 1, 3]
  signed _ := collected
  runs {n} honest := by
    have replayed : ∃ history r, RunFrom collectedNet (node n) epochManager genesisRoot
        (.qc crypto.genesisQc) history r ∧
        history.map (·.event) = [.timeout 1, proposal 2 block₂ (noTip tc₁) (some tc₁), .timeout 2,
          signedBy 3 (.roundRecovery (recovery (tcWithTip 2 (tip fork₂ (noTip tc₁)))))] ∧
        decide (signedIn collectedNet.crypto (emitted history) = collected) = true := by
      obtain rfl | rfl | rfl : n = 0 ∨ n = 1 ∨ n = 3 := by simpa using honest
      all_goals exact exists_runFrom_of_replay ⟨collectedNet, node _, now⟩ new_eq_genesisReplica _ _ (by decide +kernel)
    obtain ⟨history, r, run, -, same⟩ := replayed
    exact ⟨node n, _, _, _, history, r, rfl, run, (of_decide_eq_true same).symm⟩
  unforgeable := by
    intro _ _ _ msg _ _ _ verified _ _ _
    by_contra other
    simp [collectedNet, other] at verified
  minority := by
    intro _ _ _ known nodes dishonest
    obtain ⟨-, rfl, rfl⟩ : _ ∧ validators = _ ∧ mapping = _ := by simpa [collectedNet, net] using known
    refine (Nat.mul_le_mul_left 3 (Finset.sum_le_sum_of_ne_zero fun n mem staked => ?_)).trans_lt
      (show 3 * ∑ n ∈ {2}, StakeTable.stakeOf ⟨validators.validators, 4⟩ n < 4 by decide)
    have := dishonest n mem
    simp [StakeTable.stakeOf, SortedMap.get?, validators, List.find?] at staked ⊢
    grind

theorem certificates_agree_collected :
    QcChecked collectedNet epochManager (qcFor 2 block₂) ∧ NecChecked collectedNet epochManager ⟨⟨1, 3, 0⟩, [0, 1, 3]⟩ ∧
    (∀ qc, QcChecked collectedNet epochManager qc → qc.getEpoch = 1 → qc.getRound = 2 →
      qc.info.id = encodeHeader block₂.header) ∧
    ∀ nec, NecChecked collectedNet epochManager nec → nec.msg.epoch = 1 → nec.msg.round = 3 → nec.msg = ⟨1, 3, 0⟩ := by
  have agree := threeHonest.certificates_agree epochManager epochManager
  have qc : QcChecked collectedNet epochManager (qcFor 2 block₂) := ⟨_, rfl, _, rfl, by decide⟩
  have nec : NecChecked collectedNet epochManager ⟨⟨1, 3, 0⟩, [0, 1, 3]⟩ := ⟨_, rfl, _, rfl, by decide⟩
  exact ⟨qc, nec, fun _ other => agree.1 _ _ other qc, fun _ other => agree.2 _ _ other nec⟩

end FourValidators

end MonadBft
