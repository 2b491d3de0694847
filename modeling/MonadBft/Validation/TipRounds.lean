import MonadBft.Validation.Sound

/-! # The rounds in a timeout certificate

What the loop of `verify_tc` over `tip_rounds` checks, and what its accumulators hold
after it.
-/

namespace MonadBft

open TipRoundsSeen List

theorem insertSigners_eq_ok {seen seen' signers : List NodeId} : insertSigners seen signers = .ok seen' ↔
      signers.Nodup ∧ (∀ n ∈ signers, n ∉ seen) ∧ seen' = signers.reverse ++ seen := by
  induction signers generalizing seen with
  | nil => simp [insertSigners, eq_comm]
  | cons signer rest ih =>
    unfold insertSigners
    split
    case isTrue known => simp [known]
    case isFalse new =>
      rw [ih, nodup_cons]
      constructor
      · rintro ⟨distinct, others, rfl⟩
        refine ⟨⟨fun mem => others signer mem (by simp), distinct⟩, ?_, by simp⟩
        intro n mem
        obtain rfl | mem := mem_cons.mp mem
        · exact new
        · exact fun known => others n mem (mem_cons_of_mem _ known)
      · rintro ⟨⟨notRepeated, distinct⟩, others, rfl⟩
        refine ⟨distinct, fun n mem => ?_, by simp⟩
        rw [mem_cons, not_or]
        exact ⟨fun same => notRepeated (same ▸ mem), others n (mem_cons_of_mem _ mem)⟩

namespace TipRoundsSeen

def add (seen : TipRoundsSeen) (t : HighTipRoundSigColTuple) (signers : List NodeId) : TipRoundsSeen where
  nodeIds := seen.nodeIds ++ signers
  highestQcRound := if seen.highestQcRound < t.highQcRound then t.highQcRound else seen.highestQcRound
  highestTipRound := if seen.highestTipRound < t.highTipRound then t.highTipRound else seen.highestTipRound
  tipRounds := (t.highQcRound, t.highTipRound) :: seen.tipRounds
  seenNodeIds := signers.reverse ++ seen.seenNodeIds

variable {seen : TipRoundsSeen} {l : List HighTipRoundSigColTuple} {signers : HighTipRoundSigColTuple → List NodeId}

theorem foldl_add_nodeIds :
    (l.foldl (fun seen t => seen.add t (signers t)) seen).nodeIds = seen.nodeIds ++ l.flatMap signers := by
  induction l generalizing seen with
  | nil => simp
  | cons t rest ih =>
    rw [foldl_cons, ih, flatMap_cons, ← append_assoc]
    rfl

theorem foldl_add_highestQcRound :
    (l.foldl (fun seen t => seen.add t (signers t)) seen).highestQcRound =
      l.foldl (fun round t => max round t.highQcRound) seen.highestQcRound := by
  refine (foldl_hom highestQcRound fun seen t => ?_).symm
  simp only [add]
  split <;> lia

theorem foldl_add_highestTipRound :
    (l.foldl (fun seen t => seen.add t (signers t)) seen).highestTipRound =
      l.foldl (fun round t => max round t.highTipRound) seen.highestTipRound := by
  refine (foldl_hom highestTipRound fun seen t => ?_).symm
  simp only [add]
  split <;> lia

end TipRoundsSeen

section Loop

variable {net : Network} {mapping : ValidatorMapping} {tc : TimeoutCertificate} {seen seen' : TipRoundsSeen}

def tipRoundSigners (net : Network) (mapping : ValidatorMapping) (tc : TimeoutCertificate)
    (t : HighTipRoundSigColTuple) : List NodeId :=
  (net.crypto.sctVerify mapping (.timeout (tc.timeoutInfo t)) t.sigs).getD []

/-- What is checked of an entry on its own. -/
def TipRoundChecked (net : Network) (mapping : ValidatorMapping) (tc : TimeoutCertificate)
    (t : HighTipRoundSigColTuple) : Prop :=
  t.highQcRound < tc.round ∧ (net.crypto.sctVerify mapping (.timeout (tc.timeoutInfo t)) t.sigs).isSome = true

theorem verifyTipRound_eq_ok {t : HighTipRoundSigColTuple} : verifyTipRound net mapping tc seen t = .ok seen' ↔
      TipRoundChecked net mapping tc t ∧ (t.highQcRound, t.highTipRound) ∉ seen.tipRounds ∧
        (tipRoundSigners net mapping tc t).Nodup ∧
        (∀ n ∈ tipRoundSigners net mapping tc t, n ∉ seen.seenNodeIds) ∧
        seen' = seen.add t (tipRoundSigners net mapping tc t) := by
  unfold verifyTipRound TipRoundChecked tipRoundSigners
  split
  case isTrue old => simp [not_lt.mpr old]
  case isFalse notOld =>
    split
    case isTrue known => simp [known]
    case isFalse new =>
      cases verified : net.crypto.sctVerify mapping (.timeout (tc.timeoutInfo t)) t.sigs with
      | none => simp [signersOf, verified]
      | some signers =>
        simp only [signersOf, verified]
        cases inserted : insertSigners seen.seenNodeIds signers with
        | error e =>
          have refused : ¬ (signers.Nodup ∧ ∀ n ∈ signers, n ∉ seen.seenNodeIds) := fun ⟨distinct, others⟩ => by
            simp [insertSigners_eq_ok.mpr ⟨distinct, others, rfl⟩] at inserted
          simp only [reduceCtorEq, false_iff]
          rintro ⟨-, -, distinct, others, -⟩
          exact refused ⟨distinct, others⟩
        | ok seenNodeIds =>
          obtain ⟨distinct, others, rfl⟩ := insertSigners_eq_ok.mp inserted
          simp only [Option.getD_some, Option.isSome_some, and_true]
          constructor
          · intro same
            exact ⟨not_le.mp notOld, new, distinct, others, (Except.ok.inj same).symm⟩
          · rintro ⟨-, -, -, -, rfl⟩
            rfl

theorem verifyTipRounds_eq_ok {l : List HighTipRoundSigColTuple} :
    verifyTipRounds net mapping tc seen l = .ok seen' ↔
      (∀ t ∈ l, TipRoundChecked net mapping tc t) ∧
        (l.map fun t => (t.highQcRound, t.highTipRound)).Nodup ∧
        (∀ t ∈ l, (t.highQcRound, t.highTipRound) ∉ seen.tipRounds) ∧
        (l.flatMap (tipRoundSigners net mapping tc)).Nodup ∧
        (∀ n ∈ l.flatMap (tipRoundSigners net mapping tc), n ∉ seen.seenNodeIds) ∧
        seen' = l.foldl (fun seen t => seen.add t (tipRoundSigners net mapping tc t)) seen := by
  induction l generalizing seen with
  | nil => simp [verifyTipRounds, eq_comm]
  | cons t rest ih =>
    have unfolded : verifyTipRounds net mapping tc seen (t :: rest) = .ok seen' ↔
        ∃ seen₁, verifyTipRound net mapping tc seen t = .ok seen₁ ∧
          verifyTipRounds net mapping tc seen₁ rest = .ok seen' := by
      rw [verifyTipRounds]
      split <;> simp_all
    simp only [unfolded, verifyTipRound_eq_ok, ih, forall_mem_cons, map_cons, nodup_cons,
      flatMap_cons, nodup_append, mem_append, foldl_cons]
    constructor
    · rintro ⟨_, ⟨checked, newPair, distinct, newIds, rfl⟩, checks, pairs, newPairs, signers, newSigners, rfl⟩
      simp only [add, mem_cons, not_or, mem_append, mem_reverse] at newPairs newSigners
      refine ⟨⟨checked, checks⟩, ⟨fun mem => ?_, pairs⟩, ⟨newPair, fun t' mem => (newPairs t' mem).2⟩,
        ⟨distinct, signers, ?_⟩, ?_, rfl⟩
      · obtain ⟨t', mem', same⟩ := mem_map.mp mem
        exact (newPairs t' mem').1 same
      · rintro n mem _ mem' rfl
        exact (newSigners n mem').1 mem
      · rintro n (mem | mem)
        · exact newIds n mem
        · exact (newSigners n mem).2
    · rintro ⟨⟨checked, checks⟩, ⟨notRepeated, pairs⟩, ⟨newPair, newPairs⟩, ⟨distinct, signers, disjoint⟩, newIds, rfl⟩
      refine ⟨_, ⟨checked, newPair, distinct, fun n mem => newIds n (.inl mem), rfl⟩, checks, pairs, ?_, signers, ?_,
        rfl⟩
      · intro t' mem
        simp only [add, mem_cons, not_or]
        exact ⟨fun same => notRepeated (mem_map.mpr ⟨t', mem, same⟩), newPairs t' mem⟩
      · intro n mem
        simp only [add, mem_append, mem_reverse, not_or]
        exact ⟨fun mem' => disjoint n mem' n mem rfl, newIds n (.inr mem)⟩

end Loop

/-- The largest of the values, or the start value. -/
theorem foldl_max_spec {α : Type} (f : α → Nat) (l : List α) (init : Nat) :
    (∀ a ∈ l, f a ≤ l.foldl (fun m a => max m (f a)) init) ∧
      (l.foldl (fun m a => max m (f a)) init = init ∨ ∃ a ∈ l, l.foldl (fun m a => max m (f a)) init = f a) ∧
      init ≤ l.foldl (fun m a => max m (f a)) init := by
  induction l generalizing init with
  | nil => simp
  | cons a rest ih =>
    obtain ⟨bound, attained, start⟩ := ih (max init (f a))
    rw [foldl_cons]
    refine ⟨forall_mem_cons.mpr ⟨(le_max_right _ _).trans start, bound⟩, ?_, (le_max_left _ _).trans start⟩
    obtain same | ⟨b, mem, same⟩ := attained
    · obtain smaller | larger := le_total (f a) init
      · exact .inl (same.trans (max_eq_left smaller))
      · exact .inr ⟨a, by simp, same.trans (max_eq_right larger)⟩
    · exact .inr ⟨b, mem_cons_of_mem _ mem, same⟩

variable {seen : TipRoundsSeen}

theorem checkHighExtend_qc {qc : QuorumCertificate} : checkHighExtend (.qc qc) seen = .ok () ↔
      qc.getRound = seen.highestQcRound ∧ seen.highestTipRound ≤ seen.highestQcRound := by
  simp only [checkHighExtend]
  split_ifs <;> simp_all

theorem checkHighExtend_tip {tip : ConsensusTip} : checkHighExtend (.tip tip) seen = .ok () ↔
      tip.blockHeader.blockRound = seen.highestTipRound ∧ seen.highestQcRound < seen.highestTipRound := by
  simp only [checkHighExtend]
  split_ifs <;> simp_all

section Certificate

variable {net : Network} {em : EpochManager} {V : CertPreds} {tc : TimeoutCertificate}

/-- The entries of an accepted timeout certificate, with the highest rounds among them. -/
structure TipRoundsAccepted (net : Network) (mapping : ValidatorMapping) (validators : ValidatorSet)
    (tc : TimeoutCertificate) (seen : TipRoundsSeen) : Prop where
  entry : ∀ t ∈ tc.tipRounds, TipRoundChecked net mapping tc t
  signers : seen.nodeIds = tc.tipRounds.flatMap (tipRoundSigners net mapping tc)
  enough : validators.hasSuperMajorityVotes seen.nodeIds = .ok true
  qcBound : ∀ t ∈ tc.tipRounds, t.highQcRound ≤ seen.highestQcRound
  tipBound : ∀ t ∈ tc.tipRounds, t.highTipRound ≤ seen.highestTipRound
  qcAttained : seen.highestQcRound = genesisRound ∨ ∃ t ∈ tc.tipRounds, seen.highestQcRound = t.highQcRound

variable {validators : ValidatorSet} {mapping : ValidatorMapping} {seen : TipRoundsSeen}

theorem tipRoundsAccepted (rounds : verifyTipRounds net mapping tc {} tc.tipRounds = .ok seen)
    (enough : validators.hasSuperMajorityVotes seen.nodeIds = .ok true) :
    TipRoundsAccepted net mapping validators tc seen := by
  obtain ⟨entries, -, -, -, -, rfl⟩ := verifyTipRounds_eq_ok.mp rounds
  have highestQc := foldl_max_spec (fun t : HighTipRoundSigColTuple => t.highQcRound) tc.tipRounds genesisRound
  have highestTip := foldl_max_spec (fun t : HighTipRoundSigColTuple => t.highTipRound) tc.tipRounds genesisRound
  refine ⟨entries, by simp [foldl_add_nodeIds], enough, ?_, ?_, ?_⟩
  · rw [foldl_add_highestQcRound]
    exact highestQc.1
  · rw [foldl_add_highestTipRound]
    exact highestTip.1
  · rw [foldl_add_highestQcRound]
    exact highestQc.2.1

/-- An accepted timeout certificate has signers, so its entries bound the highest QC round. -/
theorem TipRoundsAccepted.highestQcRound_lt (h : TipRoundsAccepted net mapping validators tc seen) :
    seen.highestQcRound < tc.round := by
  obtain genesis | ⟨t, mem, same⟩ := h.qcAttained
  · cases nonempty : tc.tipRounds with
    | nil =>
      have none : seen.nodeIds = [] := by simp [h.signers, nonempty]
      have enough := h.enough
      rw [none, ValidatorSet.hasSuperMajorityVotes, ValidatorSet.hasThresholdVotes_eq_ok_true] at enough
      simp [ValidatorSet.superMajority] at enough
    | cons t rest =>
      have below := (h.entry t (by simp [nonempty])).1
      rw [genesis]
      exact Nat.zero_lt_of_lt below
  · rw [same]
    exact (h.entry t mem).1

/-- A QC that a timeout certificate extends is older than the certificate. -/
theorem TcChecked.qcRound_lt (checked : TcChecked net em V tc) {qc : QuorumCertificate}
    (extends_ : tc.highExtend = .qc qc) : qc.getRound < tc.round := by
  obtain ⟨v, -, seen, rounds, enough, -, high⟩ := checked
  have below := (tipRoundsAccepted rounds enough).highestQcRound_lt
  rw [extends_, checkHighExtend_qc] at high
  rwa [high.1]

end Certificate

end MonadBft
