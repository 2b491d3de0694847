import Mathlib.Algebra.Order.BigOperators.Group.List
import Mathlib.Algebra.Order.Group.Nat
import MonadBft.Instance

/-! # Quorum collection

What `process_vote` returns over a sequence of calls. A bucket of pending signatures is
aggregated as soon as its authors have a super-majority; signatures found invalid are
dropped, so the bucket always holds every author whose latest signature is valid, and
nothing but latest signatures.
-/

namespace MonadBft

open SortedMap

/-! ## Aggregation -/

/-- Signatures that were aggregated verify. A failure names signatures, at least one, that are not valid on
their own. -/
structure Crypto.Collects (crypto : Crypto) (mapping : ValidatorMapping)
    (signed : SignedMessage → NodeId → Bytes → Prop) : Prop where
  verifies : ∀ {msg sigs collection}, crypto.sctNew mapping msg sigs = .ok collection →
    ∃ signers, crypto.sctVerify mapping msg collection = some signers ∧ signers.Perm (sigs.map (·.1))
  reports : ∀ {msg sigs e}, (sigs.map (·.1)).Nodup → (∀ s ∈ sigs, mapping.contains s.1 = true) →
    crypto.sctNew mapping msg sigs = .error e → ∃ invalid, e = .invalidSignaturesCreate invalid ∧ invalid ≠ [] ∧
      ∀ s ∈ invalid, s ∈ sigs ∧ ¬ signed msg s.1 s.2

/-- More addresses have at least as much stake. -/
theorem ValidatorSet.hasSuperMajorityVotes_mono {vs : ValidatorSet} {addrs addrs' : List NodeId}
    (enough : vs.hasSuperMajorityVotes addrs = .ok true) (subset : addrs ⊆ addrs') (distinct : addrs'.Nodup) :
    vs.hasSuperMajorityVotes addrs' = .ok true := by
  obtain ⟨nodup, reached⟩ := hasThresholdVotes_eq_ok_true.mp enough
  refine hasThresholdVotes_eq_ok_true.mpr ⟨distinct, reached.trans ?_⟩
  obtain ⟨some, perm, sublist⟩ := List.subperm_of_subset nodup subset
  calc (addrs.filterMap vs.validators.get?).sum
      = (some.filterMap vs.validators.get?).sum := (perm.filterMap _).sum_eq.symm
    _ ≤ (addrs'.filterMap vs.validators.get?).sum := (sublist.filterMap _).sum_le_sum fun _ _ => Nat.zero_le _

section Aggregate

variable {crypto : Crypto} (validators : ValidatorSet) {mapping : ValidatorMapping}
  {signed : SignedMessage → NodeId → Bytes → Prop} (msg : SignedMessage)

/-- The loop returns, keeps every valid signature, and only gives up without a super-majority. -/
theorem aggregate_returns (collects : crypto.Collects mapping signed) {fuel : Nat} {pending : SortedMap NodeId Bytes}
    (enoughFuel : pending.entries.length < fuel) (members : ∀ e ∈ pending, mapping.contains e.1 = true) :
    ∃ built pending', aggregate crypto validators mapping msg fuel pending = .ok (built, pending') ∧
      (∀ e ∈ pending, signed msg e.1 e.2 → e ∈ pending') ∧
      (built = none → validators.hasSuperMajorityVotes pending'.keys = .ok false) := by
  induction fuel generalizing pending with
  | zero => cases enoughFuel
  | succ fuel ih =>
    have distinct := validators.hasThresholdVotes_of_nodup pending.nodup_keys validators.superMajority
    unfold aggregate
    split
    case h_1 duplicate =>
      rw [ValidatorSet.hasSuperMajorityVotes, distinct] at duplicate
      cases duplicate
    case h_2 tooFew => exact ⟨none, pending, rfl, fun _ mem _ => mem, fun _ => tooFew⟩
    case h_3 enough =>
      cases aggregated : crypto.sctNew mapping msg pending.entries with
      | ok sigcol => exact ⟨some sigcol, pending, rfl, fun _ mem _ => mem, by simp⟩
      | error e =>
        obtain ⟨invalid, rfl, nonempty, isInvalid⟩ := collects.reports pending.nodup_keys members aggregated
        let rest := pending.filter fun node _ => node ∉ invalid.map Prod.fst
        -- at least one signature is dropped
        have shorter : rest.entries.length < pending.entries.length := by
          obtain ⟨s, mem⟩ := List.exists_mem_of_ne_nil _ nonempty
          refine List.length_filter_lt_length_iff_exists.mpr ⟨s, (isInvalid s mem).1, ?_⟩
          simpa using ⟨s.2, mem⟩
        have kept : ∀ e ∈ pending, signed msg e.1 e.2 → e ∈ rest := by
          intro e mem valid
          refine mem_filter.mpr ⟨mem, ?_⟩
          simp only [decide_eq_true_eq, List.mem_map, not_exists, not_and]
          rintro s listed same
          have : s = e := List.inj_on_of_nodup_map pending.nodup_keys (isInvalid s listed).1 mem same
          exact (isInvalid s listed).2 (this ▸ valid)
        obtain ⟨built, pending', returns, keeps, gaveUp⟩ := @ih rest (by omega) fun e mem =>
          members e (mem_filter.mp mem).1
        exact ⟨built, pending', returns, fun e mem valid => keeps e (kept e mem valid) valid, gaveUp⟩

end Aggregate

/-! ## Sequences of votes -/

structure VoteCall where
  author : NodeId
  message : VoteMessage

def latestSignature (calls : List VoteCall) (vote : Vote) (author : NodeId) : Option Bytes :=
  (calls.reverse.find? fun call => call.message.vote = vote ∧ call.author = author).map (·.message.sig)

theorem latestSignature_snoc (calls : List VoteCall) (call : VoteCall) (vote : Vote) (author : NodeId) :
    latestSignature (calls ++ [call]) vote author =
      if call.message.vote = vote ∧ call.author = author then some call.message.sig
      else latestSignature calls vote author := by
  unfold latestSignature
  rw [List.reverse_append, List.reverse_singleton, List.singleton_append, List.find?_cons]
  by_cases same : call.message.vote = vote ∧ call.author = author <;> simp [same]

namespace VoteState

def pendingOf (vs : VoteState) (vote : Vote) : SortedMap NodeId Bytes :=
  (((vs.pendingVotes.get? vote.round).getD ∅).lookup vote).getD .empty

section Calls

variable (crypto : Crypto) (validatorsOf : Round → ValidatorSet × ValidatorMapping)

def Accepts (vs : VoteState) (call : VoteCall) : Prop :=
  vs.earliestRound ≤ call.message.vote.round ∧ (validatorsOf call.message.vote.round).2.contains call.author = true

def process (vs : VoteState) (call : VoteCall) : Except Panic (Option QuorumCertificate × VoteState) :=
  vs.processVote crypto call.author call.message (validatorsOf call.message.vote.round).1
    (validatorsOf call.message.vote.round).2

def Processes (vs : VoteState) (call : VoteCall) (vs' : VoteState) : Prop :=
  vs.Accepts validatorsOf call ∧ ∃ built, vs.process crypto validatorsOf call = .ok (built, vs')

variable {crypto validatorsOf} {signed : SignedMessage → NodeId → Bytes → Prop}

/-- The buckets hold latest signatures of validators, and all the valid ones. -/
structure Holds (validatorsOf : Round → ValidatorSet × ValidatorMapping)
    (signed : SignedMessage → NodeId → Bytes → Prop) (calls : List VoteCall) (vs : VoteState) : Prop where
  latest : ∀ {vote a sig}, (a, sig) ∈ vs.pendingOf vote → latestSignature calls vote a = some sig
  member : ∀ {vote e}, e ∈ vs.pendingOf vote → (validatorsOf vote.round).2.contains e.1 = true
  valid : ∀ {vote a sig}, latestSignature calls vote a = some sig → signed (.vote vote) a sig →
    (a, sig) ∈ vs.pendingOf vote

theorem holds_new (round : Round) : Holds validatorsOf signed [] (VoteState.new round) where
  latest := fun mem => absurd mem (not_mem_empty _)
  member := fun mem => absurd mem (not_mem_empty _)
  valid := fun found => by cases found

variable {vs : VoteState} {calls : List VoteCall}

/-- Only the bucket of the vote changes. -/
theorem pendingOf_insert {vote vote' : Vote} {pending : SortedMap NodeId Bytes} {earliestRound : Round} :
    pendingOf ⟨vs.pendingVotes.insert vote.round
      (((vs.pendingVotes.get? vote.round).getD ∅).insert vote pending), earliestRound⟩ vote' =
      if vote' = vote then pending else vs.pendingOf vote' := by
  unfold pendingOf
  by_cases sameRound : vote'.round = vote.round
  · rw [sameRound, get?_insert_self]
    by_cases same : vote' = vote
    · subst same
      simp
    · simp [same, AList.lookup_insert_ne same]
  · have other : vote' ≠ vote := fun same => sameRound (same ▸ rfl)
    rw [get?_insert_ne sameRound, if_neg other]

section

variable (collects : ∀ round, crypto.Collects (validatorsOf round).2 signed)

include collects

/-- What one call returns, from the signatures it is made with. -/
theorem process_eq_ok
    (holds : Holds validatorsOf signed calls vs) {call : VoteCall} (accepts : vs.Accepts validatorsOf call) :
    ∃ built vs', vs.process crypto validatorsOf call = .ok (built, vs') ∧
      Holds validatorsOf signed (calls ++ [call]) vs' ∧
      (∀ qc, built = some qc → qc.info = call.message.vote ∧
        crypto.sctNew (validatorsOf call.message.vote.round).2 (.vote call.message.vote)
          (vs'.pendingOf call.message.vote).entries = .ok qc.signatures ∧
        (validatorsOf call.message.vote.round).1.hasSuperMajorityVotes (vs'.pendingOf call.message.vote).keys =
          .ok true) ∧
      (built = none →
        (validatorsOf call.message.vote.round).1.hasSuperMajorityVotes (vs'.pendingOf call.message.vote).keys =
          .ok false) := by
  obtain ⟨author, ⟨vote, sig⟩⟩ := call
  obtain ⟨notOver, isValidator⟩ := accepts
  simp only at notOver isValidator ⊢
  let pending := (vs.pendingOf vote).insert author sig
  -- the bucket with the new signature
  have members : ∀ e ∈ pending, (validatorsOf vote.round).2.contains e.1 = true := by
    intro e mem
    obtain rfl | ⟨old, -⟩ := mem_insert.mp mem
    · exact isValidator
    · exact holds.member old
  obtain ⟨sigcol?, pending', returns, keeps, gaveUp⟩ := aggregate_returns (validatorsOf vote.round).1
    (.vote vote) (collects vote.round) (Nat.lt_succ_self pending.entries.length) members
  obtain ⟨subset, result⟩ := aggregate_eq_ok returns
  have after : ∀ earliestRound, Holds validatorsOf signed (calls ++ [⟨author, ⟨vote, sig⟩⟩])
      ⟨vs.pendingVotes.insert vote.round (((vs.pendingVotes.get? vote.round).getD ∅).insert vote pending'),
        earliestRound⟩ := by
    intro earliestRound
    refine ⟨fun {v a s} mem => ?_, fun {v e} mem => ?_, fun {v a s} found isSigned => ?_⟩
    · rw [latestSignature_snoc]
      rw [pendingOf_insert] at mem
      by_cases sameVote : v = vote
      · subst sameVote
        rw [if_pos rfl] at mem
        obtain ⟨rfl, rfl⟩ | ⟨old, differs⟩ := pair_mem_insert.mp (subset _ mem)
        · simp
        · rw [if_neg fun same => differs same.2.symm]
          exact holds.latest old
      · rw [if_neg sameVote] at mem
        rw [if_neg fun same => sameVote same.1.symm]
        exact holds.latest mem
    · rw [pendingOf_insert] at mem
      split at mem
      case isTrue sameVote => exact sameVote ▸ members _ (subset _ mem)
      · exact holds.member mem
    · rw [latestSignature_snoc] at found
      rw [pendingOf_insert]
      by_cases sameVote : v = vote
      · subst sameVote
        rw [if_pos rfl]
        refine keeps _ (mem_insert.mpr ?_) isSigned
        by_cases sameAuthor : author = a
        · rw [if_pos ⟨rfl, sameAuthor⟩] at found
          exact .inl (Prod.ext sameAuthor.symm (Option.some.inj found).symm)
        · rw [if_neg fun same => sameAuthor same.2] at found
          exact .inr ⟨holds.valid found isSigned, fun same => sameAuthor same.symm⟩
      · rw [if_neg sameVote]
        rw [if_neg fun same => sameVote same.1.symm] at found
        exact holds.valid found isSigned
  have run : vs.process crypto validatorsOf ⟨author, ⟨vote, sig⟩⟩ = .ok
      (sigcol?.map fun sigcol => { info := vote, signatures := sigcol },
        ⟨vs.pendingVotes.insert vote.round (((vs.pendingVotes.get? vote.round).getD ∅).insert vote pending'),
          if sigcol?.isSome then vote.round + 1 else vs.earliestRound⟩) := by
    have collected : collect crypto (validatorsOf vote.round).1 (validatorsOf vote.round).2 (.vote vote)
        ((((vs.pendingVotes.get? vote.round).getD ∅).lookup vote).getD .empty) author sig = .ok (sigcol?, pending') :=
      returns
    simp only [process, processVote, if_neg (not_lt.mpr notOver), collected]
    cases sigcol? <;> rfl
  have bucket : ∀ earliestRound, pendingOf ⟨vs.pendingVotes.insert vote.round
      (((vs.pendingVotes.get? vote.round).getD ∅).insert vote pending'), earliestRound⟩ vote = pending' := by
    intro earliestRound
    rw [pendingOf_insert, if_pos rfl]
  refine ⟨_, _, run, after _, fun qc built => ?_, fun none => ?_⟩
  · obtain ⟨sigcol, rfl, rfl⟩ := Option.map_eq_some_iff.mp built
    rw [bucket]
    exact ⟨rfl, (result sigcol rfl).2, (result sigcol rfl).1⟩
  · rw [bucket]
    exact gaveUp (by simpa using none)

theorem holds_of_trace {round : Round}
    (run : Trace (Processes crypto validatorsOf) (VoteState.new round) calls vs) :
    Holds validatorsOf signed calls vs := by
  induction run with
  | nil => exact holds_new round
  | snoc _ taken ih =>
    obtain ⟨accepts, built, returned⟩ := taken
    obtain ⟨built', vs', returned', after, -⟩ := process_eq_ok collects ih accepts
    obtain ⟨-, rfl⟩ := Prod.mk.inj (Except.ok.inj (returned.symm.trans returned'))
    exact after

end

end Calls

section Witness

open FourValidators

theorem crypto_collects (mapping : ValidatorMapping) : crypto.Collects mapping fun _ n sig => sig = [n] where
  verifies := by
    intro msg sigs collection built
    simp only [crypto] at built
    split at built
    · obtain rfl := Except.ok.inj built
      exact ⟨_, rfl, List.Perm.refl _⟩
    · cases built
  reports := by
    intro msg sigs e distinct members failed
    simp only [crypto] at failed
    split at failed
    · cases failed
    case isFalse notAll =>
      obtain rfl := Except.error.inj failed
      refine ⟨_, rfl, ?_, by simp⟩
      simpa [List.filter_eq_nil_iff] using notAll

def vote₁ : Vote := { id := encodeHeader block₂.header, epoch := 1, round := 1 }

def voteBy (author : NodeId) (sig : Bytes) : VoteCall := ⟨author, { vote := vote₁, sig }⟩

end Witness

end VoteState

end MonadBft
