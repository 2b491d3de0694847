import MonadBft.Endorsing

/-! # What a replica reports in its timeouts

A timeout reports the tip that the replica last voted for, or else the QC of the
certificate it entered the round with. With a tip the report is above every QC the
replica advanced on. Without one it falls behind when the round was entered with a
timeout certificate whose QC is older than one the replica already advanced on.
-/

namespace MonadBft

open ConsensusState Pacemaker Replica List Option

/-- The highest round that a timeout vouches for. -/
def TimeoutInfo.reported (t : TimeoutInfo) : Round := max t.highTipRound t.highQcRound

def ConsensusState.nextTimeout (s : ConsensusState) : TimeoutInfo := s.pacemaker.timeoutInfo s.safety

def timeoutsIn (crypto : Crypto) (commands : List ConsensusCommand) : List TimeoutInfo :=
  (signedIn crypto commands).filterMap fun
    | .timeout t => some t
    | _ => none

@[simp] theorem timeoutsIn_append (crypto : Crypto) (l₁ l₂ : List ConsensusCommand) :
    timeoutsIn crypto (l₁ ++ l₂) = timeoutsIn crypto l₁ ++ timeoutsIn crypto l₂ := by
  rw [timeoutsIn, signedIn_append, filterMap_append]
  rfl

section Steps

variable {K : Evidence} {net : Network} {node : Node} {s s' : ConsensusState} {label : Label}

variable (taken : Step K net node s label s')

include taken

/-- What a step does to the data that reports are made of. -/
theorem Step.report_cases :
    (∃ c, label.action = .advance c ∧ s'.pacemaker.highCertificate = c ∧ s'.safety = s.safety.processCertificate c) ∨
    (∃ p, label.action = .vote p ∧ s'.pacemaker = s.pacemaker ∧
      s'.safety.highCertificateQcRound = s.safety.highCertificateQcRound ∧
      s'.safety.maybeHighTip =
        if s.safety.highCertificateQcRound < p.tip.blockHeader.blockRound then some p.tip else none) ∨
    (s'.pacemaker.highCertificate = s.pacemaker.highCertificate ∧
      s'.safety.highCertificateQcRound = s.safety.highCertificateQcRound ∧
      s'.safety.maybeHighTip = s.safety.maybeHighTip) := by
  have frame := taken.frame
  cases taken with
  | advance => exact .inl ⟨_, rfl, rfl, rfl⟩
  | vote now handled evidence inRound processed coherent voted =>
    obtain ⟨-, rfl⟩ := Safety.vote_eq_ok voted
    exact .inr (.inl ⟨_, rfl, rfl, rfl, rfl⟩)
  | timeout => exact .inr (.inr ⟨rfl, rfl, rfl⟩)
  | noEndorse now author handled evidence inRound isTip done =>
    obtain ⟨-, -, rfl⟩ := Safety.noEndorse_eq_ok done
    exact .inr (.inr ⟨rfl, rfl, rfl⟩)
  | _ =>
    have frame := frame trivial
    exact .inr (.inr ⟨frame.certificate, frame.qcRound, frame.tip⟩)

/-- A step that times out reports what `local_timeout_round` reports; no other step reports. -/
theorem Step.timeouts_cases : (label.action = .timeout ∧ timeoutsIn net.crypto label.commands = [s.nextTimeout]) ∨
      timeoutsIn net.crypto label.commands = [] := by
  by_cases timedOut : label.action = .timeout
  · refine .inl ⟨timedOut, ?_⟩
    cases taken <;> cases timedOut
    cases high : s.safety.maybeHighTip <;>
      simp [timeoutsIn, signedIn, Env.fromPacemakerCommand, ConsensusCommand.signed, Env.sign, Env.newTimeoutMessage,
        nextTimeout, highExtend, high]
  · refine .inr (filterMap_eq_nil_iff.mpr fun msg signed => ?_)
    obtain ⟨_, -, -, rfl⟩ | ⟨isTimeout, -⟩ | ⟨_, _, _, -, rfl⟩ := taken.signed_cases signed
    · rfl
    · exact absurd isTimeout timedOut
    · rfl

end Steps

/-! ## Reports against the certificates -/

/-- A high tip is above the QCs the replica advanced on, and the QC of the high certificate is one of those. -/
structure Reporting (s : ConsensusState) : Prop where
  tip : ∀ {t}, s.safety.maybeHighTip = some t → s.safety.highCertificateQcRound < t.blockHeader.blockRound
  certificate : s.pacemaker.highCertificate.getQc.getRound ≤ s.safety.highCertificateQcRound

namespace Reporting

variable {K : Evidence} {net : Network} {node : Node} {s s' : ConsensusState} {label : Label}

theorem processCertificate_qcRound (safety : Safety) (c : RoundCertificate) :
    (safety.processCertificate c).highCertificateQcRound = max safety.highCertificateQcRound c.getQc.getRound := by
  simp only [Safety.processCertificate]
  split <;> lia

theorem step (h : Reporting s) (taken : Step K net node s label s') : Reporting s' := by
  obtain ⟨c, -, high, safety⟩ | ⟨p, -, pacemaker, qcRound, tip⟩ | ⟨high, qcRound, tip⟩ := taken.report_cases
  · refine ⟨fun {t} held => ?_, ?_⟩
    · rw [safety] at held ⊢
      simpa [Safety.processCertificate] using (filter_eq_some_iff.mp held).2
    · rw [safety, high, processCertificate_qcRound]
      exact le_max_right _ _
  · refine ⟨fun {t} held => ?_, by rw [pacemaker, qcRound]; exact h.certificate⟩
    rw [tip] at held
    split at held
    case isTrue above => rw [qcRound, ← some.inj held]; exact above
    · cases held
  · exact ⟨fun held => by rw [qcRound]; exact h.tip (tip ▸ held), by rw [high, qcRound]; exact h.certificate⟩

theorem of_trace {labels : List Label} (h : Reporting s) (run : Trace (Step K net node) s labels s') :
    Reporting s' := by
  induction run with
  | nil => exact h
  | snoc _ taken ih => exact ih.step taken

theorem new {em : EpochManager} {root : RootInfo} {highCertificate : RoundCertificate}
    (started : ConsensusState.new em root highCertificate = some s) : Reporting s := by
  obtain ⟨pacemaker, isNew, rfl⟩ := map_eq_some_iff.mp started
  obtain ⟨epoch, -, rfl⟩ := map_eq_some_iff.mp isNew
  exact ⟨fun held => (some_ne_none _ held.symm).elim, le_rfl⟩

theorem reported_of_tip {t : ConsensusTip} (held : s.safety.maybeHighTip = some t) :
    s.nextTimeout.reported = max t.blockHeader.blockRound t.blockHeader.qc.getRound := by
  simp [nextTimeout, TimeoutInfo.reported, timeoutInfo, highExtend, held, HighExtend.getQc]

theorem reported_of_none (held : s.safety.maybeHighTip = none) :
    s.nextTimeout.reported = s.pacemaker.highCertificate.getQc.getRound := by
  simp [nextTimeout, TimeoutInfo.reported, timeoutInfo, highExtend, held, HighExtend.getQc, genesisRound]

/-- The report reaches the highest QC round unless there is no tip and the high certificate has an older QC. -/
theorem reaches_iff (h : Reporting s) : s.safety.highCertificateQcRound ≤ s.nextTimeout.reported ↔
    s.safety.maybeHighTip.isSome = true ∨
      s.safety.highCertificateQcRound ≤ s.pacemaker.highCertificate.getQc.getRound := by
  cases held : s.safety.maybeHighTip with
  | none => simp [reported_of_none held]
  | some t =>
    have above := h.tip held
    simp [reported_of_tip held, above.le]

end Reporting

/-! ## Successive reports -/

/-- A step that does not lower the report: a round is entered without a tip only with the highest QC, and the replica
votes only for tips that are not below its own, nor below their QC. -/
def ConsensusState.KeepsReport (s : ConsensusState) : Action → Prop
  | .advance c => s.safety.maybeHighTip = none → s.safety.highCertificateQcRound ≤ c.getQc.getRound
  | .vote p => p.tip.blockHeader.qc.getRound ≤ p.tip.blockHeader.blockRound ∧
    ∀ tip, s.safety.maybeHighTip = some tip → tip.blockHeader.blockRound ≤ p.tip.blockHeader.blockRound
  | _ => True

/-- The report is the round of the tip or else the highest QC round. -/
structure Reaching (s : ConsensusState) : Prop extends Reporting s where
  proper : ∀ {t}, s.safety.maybeHighTip = some t → t.blockHeader.qc.getRound ≤ t.blockHeader.blockRound
  current : s.safety.maybeHighTip = none →
    s.safety.highCertificateQcRound ≤ s.pacemaker.highCertificate.getQc.getRound

namespace Reaching

variable {K : Evidence} {net : Network} {node : Node} {s s' : ConsensusState} {label : Label} {labels : List Label}

open Reporting

theorem reported_eq (h : Reaching s) {t : ConsensusTip} (held : s.safety.maybeHighTip = some t) :
    s.nextTimeout.reported = t.blockHeader.blockRound :=
  (reported_of_tip held).trans (max_eq_left (h.proper held))

theorem reported_le (h : Reaching s) (held : s.safety.maybeHighTip = none) :
    s.nextTimeout.reported ≤ s.safety.highCertificateQcRound :=
  (reported_of_none held).trans_le h.certificate

theorem step (h : Reaching s) (taken : Step K net node s label s') (keeps : s.KeepsReport label.action) :
    Reaching s' ∧ s.nextTimeout.reported ≤ s'.nextTimeout.reported := by
  have after := h.toReporting.step taken
  -- without a tip the new report is the QC of the certificate
  have dropped (none : s'.safety.maybeHighTip = none)
      (current : s'.safety.highCertificateQcRound ≤ s'.pacemaker.highCertificate.getQc.getRound)
      (below : s.nextTimeout.reported ≤ s'.safety.highCertificateQcRound) :
      Reaching s' ∧ s.nextTimeout.reported ≤ s'.nextTimeout.reported :=
    ⟨⟨after, fun held => (by cases none.symm.trans held), fun _ => current⟩,
      (below.trans current).trans_eq (reported_of_none none).symm⟩
  have tipped {t : ConsensusTip} (held : s'.safety.maybeHighTip = some t)
      (proper : t.blockHeader.qc.getRound ≤ t.blockHeader.blockRound)
      (below : s.nextTimeout.reported ≤ t.blockHeader.blockRound) :
      Reaching s' ∧ s.nextTimeout.reported ≤ s'.nextTimeout.reported := by
    refine ⟨⟨after, fun held' => ?_, fun none => (by cases none.symm.trans held)⟩, ?_⟩
    · cases held.symm.trans held'
      exact proper
    · exact below.trans ((le_max_left _ _).trans_eq (reported_of_tip held).symm)
  obtain ⟨c, isAdvance, high, safety⟩ | ⟨p, isVote, pacemaker, qcRound, tip⟩ | ⟨high, qcRound, tip⟩ :=
    taken.report_cases
  · rw [isAdvance] at keeps
    have newRound : s'.safety.highCertificateQcRound = max s.safety.highCertificateQcRound c.getQc.getRound := by
      rw [safety, processCertificate_qcRound]
    have newTip : s'.safety.maybeHighTip = s.safety.maybeHighTip.filter fun t =>
        s'.safety.highCertificateQcRound < t.blockHeader.blockRound := by
      rw [safety]
      rfl
    cases held : s.safety.maybeHighTip with
    | none =>
      have reaches := keeps held
      have below := h.reported_le held
      refine dropped (by rw [newTip, held]; rfl) ?_ ?_ <;> rw [newRound]
      · rw [high]
        exact max_le reaches le_rfl
      · exact below.trans (le_max_left _ _)
    | some t =>
      have above := h.tip held
      rw [held, filter_some] at newTip
      split at newTip
      · exact tipped newTip (h.proper held) (h.reported_eq held).le
      next gone =>
        have reached : t.blockHeader.blockRound ≤ s'.safety.highCertificateQcRound := by simpa using gone
        refine dropped newTip ?_ ((h.reported_eq held).trans_le reached)
        rw [high]
        lia
  · rw [isVote] at keeps
    cases held : s.safety.maybeHighTip with
    | none =>
      have below := h.reported_le held
      split at tip
      next above => exact tipped tip keeps.1 (below.trans above.le)
      next => exact dropped tip (by rw [qcRound, pacemaker]; exact h.current held) (qcRound ▸ below)
    | some t =>
      have higher := keeps.2 t held
      rw [if_pos ((h.tip held).trans_le higher)] at tip
      exact tipped tip keeps.1 ((h.reported_eq held).trans_le higher)
  · cases held : s.safety.maybeHighTip with
    | none =>
      exact dropped (tip.trans held) (by rw [qcRound, high]; exact h.current held) (qcRound ▸ h.reported_le held)
    | some t => exact tipped (tip.trans held) (h.proper held) (h.reported_eq held).le

/-- Reports of a run of steps that do not lower the report. -/
theorem of_trace (h : Reaching s)
    (run : Trace (fun s label s' => Step K net node s label s' ∧ s.KeepsReport label.action) s labels s') :
    Reaching s' ∧ (∀ t ∈ timeoutsIn net.crypto (labels.flatMap (·.commands)), t.reported ≤ s'.nextTimeout.reported) ∧
      (timeoutsIn net.crypto (labels.flatMap (·.commands))).Pairwise (·.reported ≤ ·.reported) := by
  induction run with
  | nil => exact ⟨h, by simp [timeoutsIn], .nil⟩
  | @snoc labels s₁ s₂ label before taken ih =>
    obtain ⟨reaching, below, sorted⟩ := ih
    obtain ⟨reaching', le⟩ := reaching.step taken.1 taken.2
    simp only [flatMap_append, timeoutsIn_append, flatMap_singleton]
    obtain ⟨-, report⟩ | silent := taken.1.timeouts_cases
    · rw [report]
      refine ⟨reaching', fun t mem => ?_, pairwise_append.mpr ⟨sorted, pairwise_singleton _ _, ?_⟩⟩
      · obtain old | new := mem_append.mp mem
        · exact (below t old).trans le
        · rwa [mem_singleton.mp new]
      · intro t mem t' isNext
        rw [mem_singleton.mp isNext]
        exact below t mem
    · rw [silent, append_nil]
      exact ⟨reaching', fun t mem => (below t mem).trans le, sorted⟩

theorem new {em : EpochManager} {root : RootInfo} {highCertificate : RoundCertificate}
    (started : ConsensusState.new em root highCertificate = some s) : Reaching s := by
  have reporting := Reporting.new started
  obtain ⟨pacemaker, isNew, rfl⟩ := map_eq_some_iff.mp started
  obtain ⟨epoch, -, rfl⟩ := map_eq_some_iff.mp isNew
  exact ⟨reporting, fun held => (some_ne_none _ held.symm).elim, fun _ => le_rfl⟩

end Reaching

/-- In every run, a replica reports less than the highest QC round it advanced on exactly when it has no tip and entered
its round with a certificate over an older QC. In a run of steps that do not lower the report, it never does, and its
successive timeouts never report less. -/
theorem timeout_reports_certificate {K : Evidence} {net : Network} {node : Node} {em : EpochManager} {root : RootInfo}
    {highCertificate : RoundCertificate} {s₀ : ConsensusState}
    (started : ConsensusState.new em root highCertificate = some s₀) :
    (∀ history r, Replica.RunFrom net node em root highCertificate history r →
      (∃ labels, Trace (Step (.wellFormed fun _ => True) net node) s₀ labels r.consensus ∧
        Replica.emitted history = labels.flatMap (·.commands)) ∧
      (r.consensus.safety.highCertificateQcRound ≤ r.consensus.nextTimeout.reported ↔
        r.consensus.safety.maybeHighTip.isSome = true ∨
          r.consensus.safety.highCertificateQcRound ≤ r.consensus.pacemaker.highCertificate.getQc.getRound)) ∧
    ∀ labels s, Trace (fun s label s' => Step K net node s label s' ∧ s.KeepsReport label.action) s₀ labels s →
      s.safety.highCertificateQcRound ≤ s.nextTimeout.reported ∧
      (timeoutsIn net.crypto (labels.flatMap (·.commands))).Pairwise (·.reported ≤ ·.reported) := by
  constructor
  · intro history r run
    obtain ⟨s₀', labels, started', trace, explains⟩ := run.steps
    obtain rfl : s₀' = s₀ := some.inj (started'.symm.trans started)
    exact ⟨⟨labels, trace, explains.emitted⟩, ((Reporting.new started).of_trace trace).reaches_iff⟩
  · intro labels s run
    obtain ⟨reaching, -, sorted⟩ := (Reaching.new started).of_trace run
    refine ⟨reaching.toReporting.reaches_iff.mpr ?_, sorted⟩
    cases held : s.safety.maybeHighTip with
    | none => exact .inr (reaching.current held)
    | some t => exact .inl rfl

section Examples

open FourValidators

/-- Everything is evidence. -/
def anything : Evidence :=
  ⟨fun _ => True, fun _ => True, fun _ _ => True, fun _ _ => True, fun _ _ => True, fun _ => True, fun _ => True,
    fun _ => True, fun _ => True⟩

/-- A replica that voted for a block of round two reports it, and then the QC for it. -/
theorem timeout_reports_certificate_qc : ∃ labels s,
    Trace (fun s label s' => Step anything net (node 0) s label s' ∧
      s.KeepsReport label.action) genesisReplica.consensus
      labels s ∧ timeoutsIn crypto (labels.flatMap (·.commands)) = [⟨1, 2, 0, 2⟩, ⟨1, 3, 2, 0⟩] ∧
    s.safety.highCertificateQcRound ≤ s.nextTimeout.reported := by
  let p := proposalMessage 2 block₂ (noTip tc₁) (some tc₁)
  let event := signedBy 3 (.proposal p)
  let qc := qcFor 2 block₂
  let Kept := fun s (label : Label) s' => Step anything net (node 0) s label s' ∧ s.KeepsReport label.action
  have entered : Trace Kept genesisReplica.consensus [⟨event, .advance (.tc tc₁), _⟩] _ :=
    .single ⟨.advance now trivial (by decide) rfl, fun _ => by decide⟩
  have added := entered.snoc (show Kept _ ⟨event, .addBlock block₂, _⟩ _ from
    ⟨.addBlock (.inl (.head _)) trivial rfl rfl, trivial⟩)
  have coherent := added.snoc (show Kept _ ⟨event, .markCoherent _, _⟩ _ from
    ⟨@Step.markCoherent _ _ _ _ _ (encodeHeader block₂.header) _ _ now rfl, trivial⟩)
  have voted := coherent.snoc (show Kept _ ⟨event, .vote p, _⟩ _ from
    ⟨.vote now rfl trivial rfl (by decide) rfl rfl, by decide, fun _ held => by cases held⟩)
  have timedOut := voted.snoc (show Kept _ ⟨.timeout 2, .timeout, _⟩ _ from ⟨.timeout now (by decide) trivial, trivial⟩)
  have advanced := timedOut.snoc (show Kept _ ⟨advanceRound (.qc qc), .advance (.qc qc), _⟩ _ from
    ⟨.advance now trivial (by decide) rfl, fun none => by cases none⟩)
  have run := advanced.snoc (show Kept _ ⟨.timeout 3, .timeout, _⟩ _ from ⟨.timeout now (by decide) trivial, trivial⟩)
  have started : ConsensusState.new epochManager genesisRoot (.qc crypto.genesisQc) = some genesisReplica.consensus :=
    rfl
  exact ⟨_, _, run, by decide +kernel, ((timeout_reports_certificate started).2 _ _ run).1⟩

/-- A timeout certificate over an older QC makes the report fall behind. A vote for a reproposed tip makes the
next report smaller. -/
theorem timeout_reports_less :
    (∃ history r, Replica.RunFrom net (node 0) epochManager genesisRoot (.qc crypto.genesisQc) history r ∧
      r.consensus.nextTimeout.reported < r.consensus.safety.highCertificateQcRound) ∧
    ∃ history r t t', Replica.RunFrom net (node 0) epochManager genesisRoot (.qc crypto.genesisQc) history r ∧
      timeoutsIn crypto (emitted history) = [t, t'] ∧ t'.reported < t.reported := by
  constructor
  · obtain ⟨history, r, run, -, check⟩ := exists_run 0
      [advanceRound (.qc (qcFor 2 block₂)), advanceRound (.tc (tcWithTip 3 (tip block₂ (noTip tc₁))))]
      (fun r _ => decide (r.consensus.nextTimeout.reported < r.consensus.safety.highCertificateQcRound))
      (by decide +kernel)
    exact ⟨history, r, run, of_decide_eq_true check⟩
  · let tc₂ : TimeoutCertificate := { tc₁ with round := 2 }
    let block₃ := block 3 crypto.genesisQc 1 1
    obtain ⟨history, r, run, -, check⟩ := exists_run 0
      [proposal 3 block₃ (noTip tc₂) (some tc₂), .timeout 3,
        proposal 4 block₂ (noTip tc₁) (some (tcWithTip 3 (tip block₂ (noTip tc₁)))), .timeout 4]
      (fun _ history => decide (timeoutsIn crypto (emitted history) = [⟨1, 3, 0, 3⟩, ⟨1, 4, 0, 2⟩]))
      (by decide +kernel)
    exact ⟨history, r, _, _, run, of_decide_eq_true check, by decide⟩

end Examples

end MonadBft
