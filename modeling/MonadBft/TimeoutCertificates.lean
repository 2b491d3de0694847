import MonadBft.Instance
import MonadBft.Validation.TipRounds

/-! # The timeout certificates a replica builds

A replica groups the pending timeouts by what they sign, aggregates each group, and takes
the highest extend among them. Other replicas accept the result unless one of the
timeouts reports a QC round that is not below the round of the certificate, which
`TimeoutMessage::validate` lets pass for a timeout with a tip of a later round.
-/

namespace MonadBft

open TimeoutCertificate SortedMap Outcome List CertPreds Except

/-! ## The highest extend -/

namespace HighExtend

/-- The order of `partial_cmp`: by round, a QC above a tip of the same round. -/
def rank : HighExtend → Nat
  | .qc c => 2 * c.getRound + 1
  | .tip t => 2 * t.blockHeader.blockRound

theorem partialCmp_eq_gt {a b : HighExtend} : a.partialCmp b = some .gt ↔ b.rank < a.rank := by
  cases a <;> cases b <;> simp only [partialCmp, rank] <;> split <;>
    simp only [reduceCtorEq, Option.some.injEq, false_iff, true_iff, compare_gt_iff_gt] <;> lia

end HighExtend

namespace TimeoutCertificate

variable {crypto : Crypto}

theorem highestExtend_spec (timeouts : List (NodeId × TimeoutMessage)) :
    (∀ e ∈ timeouts, e.2.highExtend.toHighExtend.rank ≤ (highestExtend crypto timeouts).rank) ∧
      (highestExtend crypto timeouts = .qc crypto.genesisQc ∨
        ∃ e ∈ timeouts, e.2.highExtend.toHighExtend = highestExtend crypto timeouts) := by
  -- the fold keeps the highest of its start and what it has seen
  have fold : ∀ (l : List (NodeId × TimeoutMessage)) (start : HighExtend),
      let result := l.foldl (fun highest timeout =>
        if timeout.2.highExtend.toHighExtend.partialCmp highest = some .gt then timeout.2.highExtend.toHighExtend
        else highest) start
      start.rank ≤ result.rank ∧ (∀ e ∈ l, e.2.highExtend.toHighExtend.rank ≤ result.rank) ∧
        (result = start ∨ ∃ e ∈ l, e.2.highExtend.toHighExtend = result) := by
    intro l
    induction l with
    | nil => simp
    | cons e rest ih =>
      intro start
      simp only [foldl_cons, HighExtend.partialCmp_eq_gt, forall_mem_cons, exists_mem_cons_iff] at ih ⊢
      split
      case isTrue higher =>
        obtain ⟨bound, others, source⟩ := ih e.2.highExtend.toHighExtend
        refine ⟨higher.le.trans bound, ⟨bound, others⟩, ?_⟩
        obtain same | found := source
        · exact .inr (.inl same.symm)
        · exact .inr (.inr found)
      case isFalse lower =>
        obtain ⟨bound, others, source⟩ := ih start
        refine ⟨bound, ⟨(not_lt.mp lower).trans bound, others⟩, ?_⟩
        obtain same | found := source
        · exact .inl same
        · exact .inr (.inr found)
  obtain ⟨-, bound, source⟩ := fold timeouts (.qc crypto.genesisQc)
  exact ⟨bound, source⟩

/-! ## The groups -/

/-- The signature of a pending timeout, with its signer. -/
def signatureOf (e : NodeId × TimeoutMessage) : NodeId × Bytes := (e.1, e.2.timeoutSignature)

/-- The groups have different infos, and hold the signatures of timeouts with their info. -/
structure Grouped (timeouts : List (NodeId × TimeoutMessage)) (groups : List (TimeoutInfo × List (NodeId × Bytes))) :
    Prop where
  distinct : (groups.map (·.1)).Nodup
  signed : ∀ g ∈ groups, g.2 ≠ [] ∧ ∀ sig ∈ g.2, ∃ e ∈ timeouts, e.2.tminfo = g.1 ∧ signatureOf e = sig
  all : (groups.flatMap (·.2)).Perm (timeouts.map signatureOf)

variable {groups : List (TimeoutInfo × List (NodeId × Bytes))} {mapping : ValidatorMapping}

theorem mem_map_pushSignature {info i : TimeoutInfo} {sig : NodeId × Bytes} :
    i ∈ (pushSignature info sig groups).map (·.1) ↔ i = info ∨ i ∈ groups.map (·.1) := by
  induction groups with
  | nil => simp [pushSignature]
  | cons g rest ih =>
    simp only [pushSignature]
    split
    case isTrue same => simp_all
    case isFalse differs =>
      simp only [map_cons, mem_cons, ih]
      tauto

theorem pushSignature_grouped {timeouts : List (NodeId × TimeoutMessage)} (e : NodeId × TimeoutMessage)
    (h : Grouped timeouts groups) :
    Grouped (timeouts ++ [e]) (pushSignature e.2.tminfo (signatureOf e) groups) := by
  have widen : ∀ {info sig}, (∃ e ∈ timeouts, e.2.tminfo = info ∧ signatureOf e = sig) →
      ∃ e' ∈ timeouts ++ [e], e'.2.tminfo = info ∧ signatureOf e' = sig := fun ⟨e', mem, rest⟩ =>
    ⟨e', mem_append_left _ mem, rest⟩
  have source : ∃ e' ∈ timeouts ++ [e], e'.2.tminfo = e.2.tminfo ∧ signatureOf e' = signatureOf e :=
    ⟨e, by simp, rfl, rfl⟩
  obtain ⟨distinct, signed, all⟩ := h
  refine ⟨?_, ?_, ?_⟩
  · clear signed all
    induction groups with
    | nil => simp [pushSignature]
    | cons g rest ih =>
      obtain ⟨new, others⟩ := nodup_cons.mp distinct
      simp only [pushSignature]
      split
      case isTrue => exact distinct
      case isFalse differs =>
        refine nodup_cons.mpr ⟨fun mem => ?_, ih others⟩
        obtain same | mem := mem_map_pushSignature.mp mem
        · exact differs same
        · exact new mem
  · clear distinct all
    induction groups with
    | nil =>
      simp only [pushSignature, forall_mem_singleton]
      exact ⟨by simp, source⟩
    | cons g rest ih =>
      obtain ⟨⟨nonempty, first⟩, others⟩ := forall_mem_cons.mp signed
      simp only [pushSignature]
      split
      case isTrue same =>
        refine forall_mem_cons.mpr ⟨⟨by simp, fun sig mem => ?_⟩, fun g' mem => ?_⟩
        · obtain old | new := mem_append.mp mem
          · exact widen (first sig old)
          · rw [mem_singleton.mp new, same]
            exact source
        · exact ⟨(others g' mem).1, fun sig mem' => widen ((others g' mem).2 sig mem')⟩
      case isFalse =>
        exact forall_mem_cons.mpr ⟨⟨nonempty, fun sig mem => widen (first sig mem)⟩, ih others⟩
  · have pushed : (pushSignature e.2.tminfo (signatureOf e) groups).flatMap (·.2) |>.Perm
        (groups.flatMap (·.2) ++ [signatureOf e]) := by
      clear distinct signed all
      induction groups with
      | nil => simp [pushSignature]
      | cons g rest ih =>
        simp only [pushSignature]
        split
        · simp only [flatMap_cons, append_assoc]
          exact perm_append_comm.append_left g.2
        · simp only [flatMap_cons, append_assoc]
          exact ih.append_left g.2
    rw [map_append]
    exact pushed.trans (all.append_right _)

theorem groupSignatures_grouped (timeouts : List (NodeId × TimeoutMessage)) :
    Grouped timeouts (groupSignatures timeouts) := by
  induction timeouts using List.reverseRecOn with
  | nil => exact ⟨nodup_nil, by simp [groupSignatures], .refl _⟩
  | append_singleton timeouts e ih =>
    have unfolded : groupSignatures (timeouts ++ [e]) =
        pushSignature e.2.tminfo (signatureOf e) (groupSignatures timeouts) := by
      simp [groupSignatures, signatureOf]
    rw [unfolded]
    exact pushSignature_grouped e ih

/-- The entries of the certificate, one for each group. -/
theorem aggregateGroups_eq_ok {tipRounds : List HighTipRoundSigColTuple} :
    aggregateGroups crypto mapping groups = .ok tipRounds ↔
      List.Forall₂ (fun g t => crypto.sctNew mapping (.timeout g.1) g.2 = .ok t.sigs ∧
        t.highQcRound = g.1.highQcRound ∧ t.highTipRound = g.1.highTipRound) groups tipRounds := by
  induction groups generalizing tipRounds with
  | nil => simp [aggregateGroups, eq_comm]
  | cons g rest ih =>
    obtain ⟨info, sigs⟩ := g
    simp only [aggregateGroups]
    constructor
    · intro built
      split at built
      · cases built
      case h_2 sct aggregated =>
        split at built
        · cases built
        case h_2 others aggregatedOthers =>
          obtain rfl := ok.inj built
          exact .cons ⟨aggregated, rfl, rfl⟩ (ih.mp aggregatedOthers)
    · rintro (_ | ⟨⟨aggregated, qcRound, tipRound⟩, others⟩)
      simp only at aggregated qcRound tipRound
      simp only [aggregated, ih.mpr others, ← qcRound, ← tipRound]

theorem aggregateGroups_eq_error {e : SignatureCollectionError} (h : aggregateGroups crypto mapping groups = .error e) :
    ∃ g ∈ groups, crypto.sctNew mapping (.timeout g.1) g.2 = .error e := by
  induction groups with
  | nil => cases h
  | cons g rest ih =>
    obtain ⟨info, sigs⟩ := g
    simp only [aggregateGroups] at h
    split at h
    case h_1 failed =>
      obtain rfl := error.inj h
      exact ⟨(info, sigs), by simp, failed⟩
    · split at h
      case h_1 failed =>
        obtain rfl := error.inj h
        obtain ⟨g, mem, refused⟩ := ih failed
        exact ⟨g, mem_cons_of_mem _ mem, refused⟩
      · cases h

end TimeoutCertificate

section Lists

variable {α β : Type} {R : α → β → Prop} {l₁ : List α} {l₂ : List β}

variable (h : List.Forall₂ R l₁ l₂)

include h

theorem exists_left_of_forall₂ {b : β} (mem : b ∈ l₂) : ∃ a ∈ l₁, R a b := by
  induction h with
  | nil => cases mem
  | cons related _ ih =>
    obtain rfl | mem := mem_cons.mp mem
    · exact ⟨_, by simp, related⟩
    · obtain ⟨a, known, related⟩ := ih mem
      exact ⟨a, mem_cons_of_mem _ known, related⟩

theorem exists_right_of_forall₂ {a : α} (mem : a ∈ l₁) : ∃ b ∈ l₂, R a b :=
  exists_left_of_forall₂ (R := flip R) h.flip mem

theorem perm_flatMap_of_forall₂ {γ : Type} {f : α → List γ} {g : β → List γ}
    (perm : ∀ a b, a ∈ l₁ → R a b → (g b).Perm (f a)) : (l₂.flatMap g).Perm (l₁.flatMap f) := by
  induction h with
  | nil => exact .refl _
  | cons related _ ih =>
    rw [flatMap_cons, flatMap_cons]
    exact (perm _ _ (by simp) related).append (ih fun a b mem => perm a b (mem_cons_of_mem _ mem))

theorem map_eq_of_forall₂ {γ : Type} {f : α → γ} {g : β → γ}
    (same : ∀ a b, R a b → g b = f a) : l₂.map g = l₁.map f := by
  induction h with
  | nil => rfl
  | cons related _ ih => rw [map_cons, map_cons, same _ _ related, ih]

end Lists

/-! ## What others check -/

/-- Signatures that were aggregated verify, and only signatures that are not valid are refused. -/
structure Crypto.Aggregates (crypto : Crypto) (mapping : ValidatorMapping)
    (signed : SignedMessage → NodeId → Bytes → Prop) : Prop where
  verifies : ∀ {msg sigs collection}, crypto.sctNew mapping msg sigs = .ok collection →
    (∀ s ∈ sigs, signed msg s.1 s.2) ∧
      ∃ signers, crypto.sctVerify mapping msg collection = some signers ∧ signers.Perm (sigs.map (·.1))
  refuses : ∀ {msg sigs invalid}, crypto.sctNew mapping msg sigs = .error (.invalidSignaturesCreate invalid) →
    ∀ s ∈ invalid, s ∈ sigs ∧ ¬ signed msg s.1 s.2

def TimeoutMessage.IsSigned (signed : SignedMessage → NodeId → Bytes → Prop) (e : NodeId × TimeoutMessage) : Prop :=
  signed (.timeout e.2.tminfo) e.1 e.2.timeoutSignature

namespace TimeoutCertificate

variable {net : Network} {em : EpochManager} {mapping : ValidatorMapping} {validators : ValidatorSet} {epoch : Epoch}
  {round : Round} {tc : TimeoutCertificate} {used : SortedMap NodeId TimeoutMessage}
  {signed : SignedMessage → NodeId → Bytes → Prop}

/-- The entries of a certificate against the timeouts it was built from. -/
structure BuiltFrom (net : Network) (mapping : ValidatorMapping) (used : SortedMap NodeId TimeoutMessage)
    (tc : TimeoutCertificate) : Prop where
  entry : ∀ t ∈ tc.tipRounds, (net.crypto.sctVerify mapping (.timeout (tc.timeoutInfo t)) t.sigs).isSome = true ∧
    ∃ e ∈ used, e.2.tminfo = tc.timeoutInfo t
  covered : ∀ e ∈ used, ∃ t ∈ tc.tipRounds, e.2.tminfo = tc.timeoutInfo t
  distinct : (tc.tipRounds.map fun t => (t.highQcRound, t.highTipRound)).Nodup
  signers : (tc.tipRounds.flatMap (tipRoundSigners net mapping tc)).Perm used.keys

variable {e : NodeId × TimeoutMessage}

/-- Each signer has one pending timeout. -/
theorem eq_of_signer {e' : NodeId × TimeoutMessage} (mem : e ∈ used) (mem' : e' ∈ used) (same : e'.1 = e.1) : e' = e :=
  Prod.ext same (mem_unique (k := e.1) (by rw [← same]; exact mem') mem)

/-- A pending timeout is in the group of its info. -/
theorem mem_group {groups : List (TimeoutInfo × List (NodeId × Bytes))} (grouped : Grouped used.entries groups)
    (mem : e ∈ used) : ∃ g ∈ groups, g.1 = e.2.tminfo ∧ signatureOf e ∈ g.2 := by
  have listed := grouped.all.mem_iff.mpr (mem_map_of_mem mem)
  obtain ⟨g, known, inGroup⟩ := mem_flatMap.mp listed
  obtain ⟨e', mem', info, same⟩ := (grouped.signed g known).2 _ inGroup
  obtain rfl := eq_of_signer mem mem' (Prod.mk.inj same).1
  exact ⟨g, known, info.symm, inGroup⟩

section

variable (built : TimeoutCertificate.new net.crypto epoch round used.entries mapping = .ok tc)

include built

theorem builtFrom_of_new (aggregates : net.crypto.Aggregates mapping signed)
    (same : ∀ e ∈ used, e.2.tminfo.round = round ∧ e.2.tminfo.epoch = epoch) :
    BuiltFrom net mapping used tc ∧ tc.epoch = epoch ∧ tc.round = round ∧
      tc.highExtend = highestExtend net.crypto used.entries := by
  have grouped := groupSignatures_grouped used.entries
  unfold TimeoutCertificate.new at built
  split at built
  · cases built
  case h_2 tipRounds aggregated =>
    obtain rfl := ok.inj built
    let tc : TimeoutCertificate := { epoch, round, tipRounds, highExtend := highestExtend net.crypto used.entries }
    have pairs := aggregateGroups_eq_ok.mp aggregated
    -- the info of a group is what its entry is verified against
    have infos : ∀ g ∈ groupSignatures used.entries, g.1.epoch = epoch ∧ g.1.round = round := by
      intro g mem
      obtain ⟨nonempty, fromPending⟩ := grouped.signed g mem
      obtain ⟨sig, inGroup⟩ := exists_mem_of_ne_nil _ nonempty
      obtain ⟨e, known, info, -⟩ := fromPending sig inGroup
      exact info ▸ ⟨(same e known).2, (same e known).1⟩
    have info : ∀ {g t}, g ∈ groupSignatures used.entries → t.highQcRound = g.1.highQcRound →
        t.highTipRound = g.1.highTipRound → tc.timeoutInfo t = g.1 := by
      intro g t mem qcRound tipRound
      obtain ⟨sameEpoch, sameRound⟩ := infos g mem
      simp [timeoutInfo, tc, qcRound, tipRound, ← sameEpoch, ← sameRound]
    refine ⟨⟨?_, ?_, ?_, ?_⟩, rfl, rfl, rfl⟩
    · intro t mem
      obtain ⟨g, known, aggregated, qcRound, tipRound⟩ := exists_left_of_forall₂ pairs mem
      obtain ⟨-, signers, verifies, -⟩ := aggregates.verifies aggregated
      obtain ⟨nonempty, fromPending⟩ := grouped.signed g known
      obtain ⟨sig, inGroup⟩ := exists_mem_of_ne_nil _ nonempty
      obtain ⟨e, pending, sameInfo, -⟩ := fromPending sig inGroup
      rw [info known qcRound tipRound]
      exact ⟨by simp [verifies], e, pending, sameInfo⟩
    · intro e mem
      obtain ⟨g, known, sameInfo, -⟩ := mem_group grouped mem
      obtain ⟨t, listed, -, qcRound, tipRound⟩ := exists_right_of_forall₂ pairs known
      exact ⟨t, listed, by rw [info known qcRound tipRound, sameInfo]⟩
    · have rounds : tipRounds.map (fun t => (t.highQcRound, t.highTipRound)) =
          (groupSignatures used.entries).map fun g => (g.1.highQcRound, g.1.highTipRound) :=
        map_eq_of_forall₂ pairs fun g t ⟨_, qcRound, tipRound⟩ => by rw [qcRound, tipRound]
      show (tipRounds.map fun t => (t.highQcRound, t.highTipRound)).Nodup
      rw [rounds]
      refine (nodup_map_iff_inj_on grouped.distinct.of_map).mpr fun g mem g' mem' same => ?_
      refine inj_on_of_nodup_map grouped.distinct mem mem' ?_
      obtain ⟨qcRound, tipRound⟩ := Prod.mk.inj same
      obtain ⟨sameEpoch, sameRound⟩ := infos g mem
      obtain ⟨sameEpoch', sameRound'⟩ := infos g' mem'
      exact TimeoutInfo.ext (sameEpoch.trans sameEpoch'.symm) (sameRound.trans sameRound'.symm) qcRound tipRound
    · have signers : (tipRounds.flatMap (tipRoundSigners net mapping tc)).Perm
          ((groupSignatures used.entries).flatMap fun g => g.2.map (·.1)) := by
        refine perm_flatMap_of_forall₂ pairs fun g t known ⟨aggregated, qcRound, tipRound⟩ => ?_
        obtain ⟨-, signers, verifies, perm⟩ := aggregates.verifies aggregated
        rw [tipRoundSigners, info known qcRound tipRound, verifies]
        exact perm
      refine signers.trans ?_
      have listed := (grouped.all.map (·.1))
      rw [map_flatMap, map_map] at listed
      exact listed

theorem isSigned_of_new
    (aggregates : net.crypto.Aggregates mapping signed) : ∀ e ∈ used, TimeoutMessage.IsSigned signed e := by
  intro e mem
  unfold TimeoutCertificate.new at built
  split at built
  · cases built
  case h_2 tipRounds aggregated =>
    obtain ⟨g, known, sameInfo, inGroup⟩ := mem_group (groupSignatures_grouped used.entries) mem
    obtain ⟨t, -, aggregated, -⟩ := exists_right_of_forall₂ (aggregateGroups_eq_ok.mp aggregated) known
    have valid := (aggregates.verifies aggregated).1 _ inGroup
    rwa [sameInfo] at valid

end

/-- The timeouts whose signatures are refused are not signed. -/
theorem not_isSigned_of_new {invalid : List (NodeId × Bytes)}
    (refused : TimeoutCertificate.new net.crypto epoch round used.entries mapping = .error
      (.invalidSignaturesCreate invalid))
    (aggregates : net.crypto.Aggregates mapping signed) (mem : e ∈ used) (listed : e.1 ∈ invalid.map (·.1)) :
    ¬ TimeoutMessage.IsSigned signed e := by
  unfold TimeoutCertificate.new at refused
  split at refused
  case h_2 => cases refused
  case h_1 failed =>
    obtain rfl := error.inj refused
    obtain ⟨g, known, failed⟩ := aggregateGroups_eq_error failed
    obtain ⟨s, mem', same⟩ := mem_map.mp listed
    obtain ⟨inGroup, notSigned⟩ := aggregates.refuses failed s mem'
    obtain ⟨e', pending, info, isSignature⟩ := ((groupSignatures_grouped used.entries).signed g known).2 s inGroup
    -- the refused signature is that of the author's pending timeout
    obtain rfl := eq_of_signer mem pending (by rw [← same, ← isSignature]; rfl)
    rw [← info, ← isSignature] at notSigned
    exact notSigned

/-- The rounds that an accepted timeout reports, against what it extends. -/
theorem reportedRounds_of_checked {V : CertPreds} {t : TimeoutMessage} (checked : TimeoutChecked net em V t) :
    match t.highExtend.toHighExtend with
    | .qc qc => t.tminfo.highQcRound = qc.getRound ∧ t.tminfo.highTipRound = genesisRound
    | .tip tip => t.tminfo.highQcRound < tip.blockHeader.blockRound ∧
        t.tminfo.highTipRound = tip.blockHeader.blockRound := by
  obtain ⟨-, -, -, reported, -, -⟩ := checked
  unfold TimeoutMessage.checkReportedRounds at reported
  cases isExtend : t.highExtend with
  | qc qc =>
    simp only [isExtend] at reported
    split_ifs at reported with tipRound qcRound
    exact ⟨not_not.mp qcRound, not_not.mp tipRound⟩
  | tip tip sig =>
    simp only [isExtend] at reported
    split_ifs at reported with tipRound qcRound
    exact ⟨not_le.mp qcRound, not_not.mp tipRound⟩

/-- The highest extend is one that others accept, and its rounds are the highest that the timeouts report. -/
theorem highestExtend_of_checked (nonempty : used.entries ≠ [])
    (valid : ∀ e ∈ used, TimeoutChecked net em (.exact net em) e.2) :
    ExtendChecked net em (.exact net em) (highestExtend net.crypto used.entries) ∧
    match highestExtend net.crypto used.entries with
    | .qc qc => (∀ e ∈ used, e.2.tminfo.highQcRound ≤ qc.getRound ∧ e.2.tminfo.highTipRound ≤ qc.getRound) ∧
        (qc.getRound = genesisRound ∨ ∃ e ∈ used, e.2.tminfo.highQcRound = qc.getRound)
    | .tip tip => (∀ e ∈ used, e.2.tminfo.highQcRound < tip.blockHeader.blockRound ∧
          e.2.tminfo.highTipRound ≤ tip.blockHeader.blockRound) ∧
        ∃ e ∈ used, e.2.tminfo.highTipRound = tip.blockHeader.blockRound := by
  obtain ⟨bound, source⟩ := @highestExtend_spec net.crypto used.entries
  have reported := fun e mem => reportedRounds_of_checked (valid e mem)
  constructor
  · obtain genesis | ⟨e, mem, same⟩ := source
    · -- all timeouts extend the genesis QC
      obtain ⟨e, mem⟩ := exists_mem_of_ne_nil _ nonempty
      have low := bound e mem
      have rounds := reported e mem
      obtain ⟨-, -, extended, -⟩ := valid e mem
      rw [genesis] at low ⊢
      cases isExtend : e.2.highExtend.toHighExtend with
      | qc qc =>
        rw [isExtend] at low extended
        have round : qc.getRound = genesisRound := by
          have : 2 * qc.getRound + 1 ≤ 2 * genesisRound + 1 := low
          have : genesisRound = 0 := rfl
          lia
        have isGenesis : qc = net.crypto.genesisQc := by
          obtain ⟨_, -, check⟩ := extended
          rwa [if_pos round] at check
        exact isGenesis ▸ extended
      | tip tip =>
        rw [isExtend] at low rounds
        have : 2 * tip.blockHeader.blockRound ≤ 2 * genesisRound + 1 := low
        have : genesisRound = 0 := rfl
        have := rounds.1
        lia
    · exact same ▸ (valid e mem).2.2.1
  · cases highest : highestExtend net.crypto used.entries
    all_goals refine ⟨fun e mem => ?_, ?_⟩
    case qc.refine_1 | tip.refine_1 =>
      have low := bound e mem
      have rounds := reported e mem
      cases isExtend : e.2.highExtend.toHighExtend <;>
        simp only [isExtend, highest, HighExtend.rank, genesisRound] at low rounds <;> lia
    case qc.refine_2 =>
      obtain genesis | ⟨e, mem, same⟩ := source
      · cases highest.symm.trans genesis
        exact .inl rfl
      · have rounds := reported e mem
        rw [same, highest] at rounds
        exact .inr ⟨e, mem, rounds.1⟩
    case tip.refine_2 =>
      obtain genesis | ⟨e, mem, same⟩ := source
      · cases highest.symm.trans genesis
      · have rounds := reported e mem
        rw [same, highest] at rounds
        exact ⟨e, mem, rounds.2⟩

section Highest

variable {f : HighTipRoundSigColTuple → Round} {report : TimeoutInfo → Round}

section

variable (built : BuiltFrom net mapping used tc) (same : ∀ t, f t = report (tc.timeoutInfo t))

include built same

/-- The highest round of the entries is one that a timeout reports, or the start. -/
theorem BuiltFrom.highest_reported
    {P : Round → Prop} (start : P genesisRound) (reported : ∀ e ∈ used, P (report e.2.tminfo)) :
    P (tc.tipRounds.foldl (fun highest t => max highest (f t)) genesisRound) := by
  obtain ⟨-, atStart | ⟨t, mem, reached⟩, -⟩ := foldl_max_spec f tc.tipRounds genesisRound
  · rwa [atStart]
  · obtain ⟨-, e, pending, info⟩ := built.entry t mem
    rw [reached, same, ← info]
    exact reported e pending

/-- The highest rounds of the entries are the highest that the timeouts report. -/
theorem BuiltFrom.highest {round : Round} (bound : ∀ e ∈ used, report e.2.tminfo ≤ round)
    (attained : round = genesisRound ∨ ∃ e ∈ used, report e.2.tminfo = round) :
    tc.tipRounds.foldl (fun highest t => max highest (f t)) genesisRound = round := by
  apply le_antisymm
  · exact built.highest_reported (P := (· ≤ round)) same (Nat.zero_le round) bound
  · obtain rfl | ⟨e, pending, rfl⟩ := attained
    · exact Nat.zero_le _
    · obtain ⟨t, mem, info⟩ := built.covered e pending
      rw [info, ← same]
      exact (foldl_max_spec f tc.tipRounds genesisRound).1 t mem

end

end Highest

/-- Others accept a certificate built from accepted timeouts if and only if each of these reports a QC of an
earlier round. -/
theorem tcChecked_iff_of_new (built : TimeoutCertificate.new net.crypto epoch round used.entries mapping = .ok tc)
    {leader : NodeId} (known : epochToValidators net em epoch round = .ok (validators, mapping, leader))
    (aggregates : net.crypto.Aggregates mapping signed)
    (enough : validators.hasSuperMajorityVotes used.keys = .ok true)
    (same : ∀ e ∈ used, e.2.tminfo.round = round ∧ e.2.tminfo.epoch = epoch)
    (valid : ∀ e ∈ used, TimeoutChecked net em (.exact net em) e.2) :
    TcChecked net em (.exact net em) tc ↔ ∀ e ∈ used, e.2.tminfo.highQcRound < round := by
  obtain ⟨entries, rfl, rfl, extend⟩ := builtFrom_of_new built aggregates same
  have signers : validators.hasSuperMajorityVotes (tc.tipRounds.flatMap (tipRoundSigners net mapping tc)) =
    .ok true := by
    rw [ValidatorSet.hasSuperMajorityVotes, ValidatorSet.hasThresholdVotes_eq_ok_true] at enough ⊢
    rw [entries.signers.nodup_iff, (entries.signers.filterMap _).sum_eq]
    exact enough
  constructor
  · rintro ⟨v, known', seen, rounds, -⟩ e mem
    obtain rfl := ok.inj (known.symm.trans known')
    obtain ⟨t, listed, info⟩ := entries.covered e mem
    rw [info]
    exact ((verifyTipRounds_eq_ok.mp rounds).1 t listed).1
  · intro older
    have nonempty : used.entries ≠ [] := by
      intro none
      rw [ValidatorSet.hasSuperMajorityVotes, ValidatorSet.hasThresholdVotes_eq_ok_true] at enough
      simp [SortedMap.keys, none, ValidatorSet.superMajority] at enough
    obtain ⟨extended, highest⟩ := highestExtend_of_checked nonempty valid
    refine ⟨_, known, _, verifyTipRounds_eq_ok.mpr ⟨fun t mem => ?_, entries.distinct, by simp, ?_, by simp, rfl⟩, ?_,
      extend ▸ extended, ?_⟩
    · obtain ⟨verified, e, pending, info⟩ := entries.entry t mem
      have := older e pending
      rw [info] at this
      exact ⟨this, verified⟩
    · rw [entries.signers.nodup_iff]
      exact used.nodup_keys
    · simpa [TipRoundsSeen.foldl_add_nodeIds] using signers
    · rw [extend]
      cases isExtend : highestExtend net.crypto used.entries with
      | qc qc =>
        simp only [isExtend] at highest
        obtain ⟨bound, attained⟩ := highest
        have qcRound := entries.highest (f := (·.highQcRound)) (fun _ => rfl) (fun e mem => (bound e mem).1) attained
        rw [checkHighExtend_qc, TipRoundsSeen.foldl_add_highestQcRound, TipRoundsSeen.foldl_add_highestTipRound,
          qcRound]
        exact ⟨rfl, entries.highest_reported (P := (· ≤ qc.getRound)) (fun _ => rfl) (Nat.zero_le _)
          fun e mem => (bound e mem).2⟩
      | tip tip =>
        simp only [isExtend] at highest
        obtain ⟨bound, attained⟩ := highest
        have tipRound := entries.highest (f := (·.highTipRound)) (fun _ => rfl) (fun e mem => (bound e mem).2)
          (.inr attained)
        obtain ⟨e, pending, -⟩ := attained
        have later := Nat.zero_lt_of_lt (bound e pending).1
        rw [checkHighExtend_tip, TipRoundsSeen.foldl_add_highestQcRound, TipRoundsSeen.foldl_add_highestTipRound,
          tipRound]
        exact ⟨rfl, entries.highest_reported (P := (· < tip.blockHeader.blockRound)) (fun _ => rfl) later
          fun e mem => (bound e mem).1⟩

end TimeoutCertificate

/-! ## The certificate a replica builds -/

namespace Pacemaker

variable {net : Network} {timer : RoundTimer} {em : EpochManager} {validators : ValidatorSet}
  {mapping : ValidatorMapping} {pm pm' : Pacemaker} {safety safety' : Safety} {commands : List PacemakerCommand}
  {signed : SignedMessage → NodeId → Bytes → Prop}

theorem mem_handleInvalidTimeout {invalid : List (NodeId × Bytes)} {e : NodeId × TimeoutMessage} :
    e ∈ (pm.handleInvalidTimeout invalid).pendingTimeouts ↔ e ∈ pm.pendingTimeouts ∧ e.1 ∉ invalid.map (·.1) := by
  have fold : ∀ pending : SortedMap NodeId TimeoutMessage,
      e ∈ invalid.foldl (fun pending sig => pending.erase sig.1) pending ↔ e ∈ pending ∧ e.1 ∉ invalid.map (·.1) := by
    induction invalid with
    | nil => simp
    | cons sig rest ih =>
      intro pending
      rw [foldl_cons, ih, erase, SortedMap.mem_filter]
      simp [and_assoc]
  exact fold pm.pendingTimeouts

/-- The loop builds the certificate from the timeouts that are signed. -/
theorem buildTimeoutCertificate_eq_ok {epoch : Epoch} {round : Round} {fuel : Nat}
    (aggregates : net.crypto.Aggregates mapping signed)
    (h : buildTimeoutCertificate net.crypto timer em validators mapping epoch round fuel pm safety =
      .ok (pm', safety') commands) :
    pm'.highCertificate = pm.highCertificate ∨ ∃ (used : SortedMap NodeId TimeoutMessage) (tc : TimeoutCertificate),
      (∀ e, e ∈ used ↔ e ∈ pm.pendingTimeouts ∧ TimeoutMessage.IsSigned signed e) ∧
      validators.hasSuperMajorityVotes used.keys = .ok true ∧
      TimeoutCertificate.new net.crypto epoch round used.entries mapping = .ok tc ∧ pm'.highCertificate = .tc tc := by
  induction fuel generalizing pm with
  | zero => cases h
  | succ fuel ih =>
    unfold buildTimeoutCertificate at h
    split at h
    · obtain ⟨rfl, -⟩ := Prod.mk.inj (ok.inj h).1
      exact .inl rfl
    split at h
    · cases h
    · obtain ⟨rfl, -⟩ := Prod.mk.inj (ok.inj h).1
      exact .inl rfl
    case h_3 enough =>
      split at h
      case h_1 tc built =>
        split at h
        · cases h
        case h_2 pm₁ safety₁ commands₁ entered =>
          split_ifs at h
          obtain ⟨rfl, -⟩ := Prod.mk.inj (ok.inj h).1
          simp only [processCertificate] at entered
          split at entered
          · obtain ⟨rfl, -⟩ := Prod.mk.inj (ok.inj entered).1
            exact .inl rfl
          · split at entered
            · cases entered
            · obtain ⟨rfl, -⟩ := Prod.mk.inj (ok.inj entered).1
              have signed := isSigned_of_new built aggregates
              exact .inr ⟨pm.pendingTimeouts, tc, fun e => ⟨fun mem => ⟨mem, signed e mem⟩, And.left⟩, enough, built,
                rfl⟩
      case h_2 invalid refused =>
        obtain same | ⟨used, tc, fromPending, rest⟩ := ih h
        · exact .inl same
        · refine .inr ⟨used, tc, fun e => ?_, rest⟩
          rw [fromPending, mem_handleInvalidTimeout]
          constructor
          · rintro ⟨⟨mem, -⟩, isSigned⟩
            exact ⟨mem, isSigned⟩
          · rintro ⟨mem, isSigned⟩
            exact ⟨⟨mem, fun listed => not_isSigned_of_new refused aggregates mem listed isSigned⟩,
              isSigned⟩
      case h_3 => cases h

theorem joinTimeout_eq_ok (h : joinTimeout timer validators pm safety = .ok (pm', safety') commands) :
    pm'.highCertificate = pm.highCertificate ∧ pm'.pendingTimeouts = pm.pendingTimeouts := by
  unfold joinTimeout localTimeoutRound at h
  grind

/-- What a replica builds when it gets a timeout of its round. -/
theorem processRemoteTimeout_eq_ok {author : NodeId} {timeout : TimeoutMessage}
    (aggregates : net.crypto.Aggregates mapping signed)
    (h : processRemoteTimeout net.crypto timer em validators mapping pm safety author timeout =
      .ok (pm', safety') commands) (built : pm'.highCertificate ≠ pm.highCertificate) :
    timeout.tminfo.round = pm.getCurrentRound ∧ ∃ (used : SortedMap NodeId TimeoutMessage) (tc : TimeoutCertificate),
      (∀ e, e ∈ used ↔ e ∈ pm.pendingTimeouts.insert author timeout ∧ TimeoutMessage.IsSigned signed e) ∧
      validators.hasSuperMajorityVotes used.keys = .ok true ∧
      TimeoutCertificate.new net.crypto timeout.tminfo.epoch timeout.tminfo.round used.entries mapping = .ok tc ∧
      pm'.highCertificate = .tc tc := by
  simp only [processRemoteTimeout] at h
  split at h
  · obtain ⟨rfl, -⟩ := Prod.mk.inj (ok.inj h).1
    exact absurd rfl built
  split at h
  · cases h
  case isFalse inRound =>
    obtain ⟨⟨pm₁, safety₁⟩, commands₁, commands₂, joined, loop, -⟩ := andThen_eq_ok.mp h
    obtain ⟨sameCertificate, samePending⟩ := joinTimeout_eq_ok joined
    obtain same | result := buildTimeoutCertificate_eq_ok aggregates loop
    · exact absurd (same.trans sameCertificate) built
    · rw [samePending] at result
      exact ⟨not_not.mp inRound, result⟩

end Pacemaker

namespace ConsensusState

/-- The certificate that `process_remote_timeout` builds while the replica handles a timeout. -/
def builtTc (env : Env) (s : ConsensusState) (author : NodeId) (timeout : TimeoutMessage) : Option TimeoutCertificate :=
  match s.validatorsOf env timeout.tminfo.round, s.beforeRemoteTimeout env author timeout with
  | some (validators, mapping), .ok s _ =>
    match s.pacemaker.processRemoteTimeout env.net.crypto env.node.roundTimer s.epochManager validators mapping s.safety
        author timeout with
    | .ok (pm, _) _ => if pm.highCertificate = s.pacemaker.highCertificate then none else pm.highCertificate.getTc
    | .panic _ => none
  | _, _ => none

/-- The pending timeouts of the round of a timeout that arrives, with it. -/
def timeoutsWith (s : ConsensusState) (author : NodeId) (timeout : TimeoutMessage) : SortedMap NodeId TimeoutMessage :=
  (if s.getCurrentRound = timeout.tminfo.round then s.pacemaker.pendingTimeouts else .empty).insert author timeout

theorem timeoutsWith_of_unsigned {s s' : ConsensusState} {author : NodeId} {timeout : TimeoutMessage}
    (unsigned : Unsigned s s') (inRound : timeout.tminfo.round = s'.getCurrentRound) :
    s.timeoutsWith author timeout = s'.pacemaker.pendingTimeouts.insert author timeout := by
  unfold timeoutsWith
  obtain ⟨sameRound, same⟩ | ⟨later, cleared⟩ := unsigned.timeouts
  · rw [if_pos (sameRound.symm.trans inRound.symm), same]
  · rw [if_neg (inRound ▸ later.ne), cleared]

end ConsensusState

section Built

variable {net : Network} {node : Node} {em : EpochManager} {root : RootInfo} {highCertificate : RoundCertificate}
  {history : List Replica.Handled} {r : Replica} {m : Unverified} {author : NodeId} {timeout : TimeoutMessage}
  {cache : CertificateCache} {validators : ValidatorSet} {mapping : ValidatorMapping} {tc : TimeoutCertificate}
  {now : Surroundings} {signed : SignedMessage → NodeId → Bytes → Prop}

variable (run : Replica.RunFrom net node em root highCertificate history r)
  (accepted : verifyAndValidate net r.consensus.epochManager r.certificateCache m = (some author, cache))
  (isTimeout : m.obj.message = .timeout timeout)
  (known : r.consensus.validatorsOf ⟨net, node, now⟩ timeout.tminfo.round = some (validators, mapping))
  (aggregates : net.crypto.Aggregates mapping signed)
  (built : r.consensus.builtTc ⟨net, node, now⟩ author timeout = some tc)

include run accepted isTimeout known aggregates built

/-- The timeouts that a reachable replica builds a certificate from. -/
theorem Replica.RunFrom.builtTc_eq_some :
    r.consensus.epochManager.getEpoch timeout.tminfo.round = some timeout.tminfo.epoch ∧
    ∃ used : SortedMap NodeId TimeoutMessage,
      (∀ e, e ∈ used ↔ e ∈ r.consensus.timeoutsWith author timeout ∧ TimeoutMessage.IsSigned signed e) ∧
      (∀ e ∈ r.consensus.timeoutsWith author timeout, e.2.tminfo.round = timeout.tminfo.round) ∧
      validators.hasSuperMajorityVotes used.keys = .ok true ∧
      TimeoutCertificate.new net.crypto timeout.tminfo.epoch timeout.tminfo.round used.entries mapping = .ok tc := by
  obtain ⟨marks, supported⟩ := run.invariants
  have checked := ((verifyAndValidate_cached (m := m) (any_sound net r.consensus.epochManager)
    (any_cached r.certificateCache)).2 author (by rw [accepted])).2
  rw [isTimeout] at checked
  have shows := TimeoutMessage.showsRound_of_checked checked
  obtain ⟨-, -, -, -, -, epoch⟩ := checked
  refine ⟨verifyEpoch_eq_ok.mp epoch, ?_⟩
  unfold ConsensusState.builtTc at built
  rw [known] at built
  split at built
  case h_2 => cases built
  case h_1 validators' mapping' s commands isKnown before =>
    obtain ⟨rfl, rfl⟩ := Prod.mk.inj (Option.some.inj isKnown)
    -- the state after the certificates and the vote of the timeout
    have emits : Emits (.wellFormed fun _ => True) ⟨net, node, now⟩ (.message m) r.consensus
        (r.consensus.beforeRemoteTimeout ⟨net, node, now⟩ author timeout) _ :=
      ConsensusState.beforeRemoteTimeout_emits (Evidence.wellFormed_closed net) shows
    obtain ⟨labels', trace', -, -, unsigned, -, -⟩ := (emits marks supported).of_ok before
    have supported' := supported_of_trace trace' supported
    split at built
    case h_2 => cases built
    case h_1 pm safety commands' remote =>
      split_ifs at built with same
      obtain ⟨inRound, used, tc', fromPending, enough, new, isTc⟩ :=
        Pacemaker.processRemoteTimeout_eq_ok aggregates remote same
      obtain rfl : tc' = tc := by simpa [isTc] using built
      rw [ConsensusState.timeoutsWith_of_unsigned unsigned inRound]
      refine ⟨used, fromPending, fun e mem => ?_, enough, new⟩
      obtain rfl | ⟨mem, -⟩ := mem_insert.mp mem
      · rfl
      · exact (supported'.timeouts mem).2.1.trans inRound.symm

end Built

section Examples

open FourValidators

def timeout₁ (author : NodeId) : TimeoutMessage where
  tminfo := { epoch := 1, round := 1, highQcRound := 0, highTipRound := 0 }
  timeoutSignature := [author]
  highExtend := .qc crypto.genesisQc
  lastRoundCertificate := none

/-- A timeout of round one with a tip of round three, which reports a QC of round one. -/
def aheadTimeout₁ (author : NodeId) : TimeoutMessage where
  tminfo := { epoch := 1, round := 1, highQcRound := 1, highTipRound := 3 }
  timeoutSignature := [author]
  highExtend := .tip (tip (block 3 crypto.genesisQc 1 0) (noTip (tcOverQc 2 crypto.genesisQc))) [author]
  lastRoundCertificate := none

theorem crypto_aggregates (mapping : ValidatorMapping) : crypto.Aggregates mapping fun _ n sig => sig = [n] where
  verifies := by
    intro msg sigs collection aggregated
    simp only [crypto] at aggregated
    split_ifs at aggregated with all
    obtain rfl := ok.inj aggregated
    exact ⟨by simpa using all, _, rfl, .refl _⟩
  refuses := by
    intro msg sigs invalid refused s mem
    simp only [crypto] at refused
    split_ifs at refused
    obtain rfl : sigs.filter (fun s => s.2 ≠ [s.1]) = invalid := by simpa using refused
    simpa using mem

def twoTimeouts : List ConsensusEvent :=
  [.timeout 1, signedBy 1 (.timeout (timeout₁ 1)), signedBy 2 (.timeout (timeout₁ 2))]

def fromThree (timeout : TimeoutMessage) : Unverified where
  obj := { version := 1, message := .timeout timeout }
  authorSignature := [3]

/-- The timeout of validator three is accepted, and so are those that are pending with it. -/
def acceptsWithPending (r : Replica) (timeout : TimeoutMessage) : Prop :=
  (verifyAndValidate net r.consensus.epochManager r.certificateCache (fromThree timeout)).1 = some 3 ∧
    ∀ e ∈ (r.consensus.timeoutsWith 3 timeout).entries, ((e.2.validate net epochManager).runCheck .empty).1 = .ok ()

instance (r : Replica) (timeout : TimeoutMessage) : Decidable (acceptsWithPending r timeout) :=
  inferInstanceAs (Decidable (_ ∧ ∀ e ∈ _, _))

end Examples

end MonadBft
