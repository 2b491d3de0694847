import MonadBft.Eth.BaseNonces

/-! # Assertions in `check_coherency`

On a chain of accepted blocks `check_coherency` answers every candidate without a panic, with one exception: it asserts
the number of the first block after the last commit before it compares the candidate's number with that of its parent.
Where the candidate extends the root, that first block is the candidate.
-/

namespace MonadBft.EthBlockPolicy

open FourValidators

section Answers

variable {crypto : Crypto} {chain : List EthValidatedBlock} {d chainId c : Nat} {policy : EthBlockPolicy}
  {nonce : Nat → Address → Nonce} {balance : Nat → Address → Balance}

def Panics {α : Type} (result : PolicyResult α) : Prop := ∃ reason, result = .error (.panic reason)

/-- The backend reports the accounts after a block of the chain, whenever it answers. -/
def ReportsAccounts (crypto : Crypto) (nonce : Nat → Address → Nonce) (balance : Nat → Address → Balance)
    (chain : List EthValidatedBlock) (backend : StateBackend) : Prop :=
  ReportsNonces crypto nonce chain backend ∧ ReportsBalances crypto chain balance backend

theorem Grown.mono {Reports Reports' : List EthValidatedBlock → StateBackend → Prop}
    (grown : Grown crypto d chainId Reports chain) (imp : ∀ chain backend, Reports chain backend →
      Reports' chain backend) :
    Grown crypto d chainId Reports' chain := by
  induction grown with
  | nil => exact .nil
  | append _ follows reports accepted ih => exact .append ih follows (imp _ _ reports) accepted

theorem Grown.accepted (grown : Grown crypto d chainId (ReportsAccounts crypto nonce balance) chain) :
    Accepted crypto d chainId balance chain := by
  induction grown with
  | nil => exact .nil
  | append _ follows reports accepted ih => exact .append ih follows reports.2 accepted

/-! ## The loops -/

theorem not_panics_checkTxns {txns : List Transaction} {nonces : SortedMap Address Nonce}
    {balances : SortedMap Address Balance}
    (known : ∀ tx ∈ txns, (∃ v, nonces.get? tx.signer = some v) ∧ ∃ v, balances.get? tx.signer = some v) :
    ¬Panics (checkTxns txns nonces balances) := by
  induction txns generalizing nonces balances with
  | nil => simp [Panics, checkTxns]
  | cons tx rest ih =>
    obtain ⟨⟨expected, isExpected⟩, balance, isBalance⟩ := known tx (.head _)
    rw [checkTxns, isExpected, isBalance]
    dsimp only
    split
    · simp [Panics]
    · split
      · simp [Panics]
      · -- What a transaction writes is at a key that is known already.
        refine ih fun later mem => ?_
        obtain ⟨⟨v, isNonce⟩, w, isLeft⟩ := known later (.tail _ mem)
        rw [SortedMap.get?_insert, SortedMap.get?_insert]
        by_cases same : later.signer = tx.signer
        · simp [same]
        · simp [same, isNonce, isLeft]

variable {block : EthValidatedBlock}

/-- Nonces and balances of a block that comes next. -/
theorem not_panics_checkNoncesAndBalances (positive : 1 ≤ d)
    (grown : Grown crypto d chainId (ReportsAccounts crypto nonce balance) chain) (advances : Advances nonce chain)
    (executes : Executes balance chain) (sync : InSync crypto d chain c policy) {backend : StateBackend}
    (reports : ReportsAccounts crypto nonce balance chain backend) (number : block.getSeqNum = chain.length + 1) :
    ¬Panics (policy.checkNoncesAndBalances crypto block (interval chain c chain.length) backend) := by
  have consecutive := grown.consecutive
  have continues := (grown.mono fun _ _ reports => reports.1).continues positive advances
  have covered : base d (chain.length + 1) ≤ chain.length →
      Covered balance chain (base d (chain.length + 1)) chain.length :=
    grown.accepted.covered executes le_rfl (base_le_base (Nat.le_succ _))
  rw [checkNoncesAndBalances, number]
  rcases getAccountBaseNonces_cases consecutive positive continues advances sync sync.inside le_rfl reports.1
    (block.validatedTxns.map (·.signer) ++ block.systemTxns.map SystemTransaction.signer) with
    ⟨-, -, -, error, -, failed⟩ | ⟨nonces, found, isNonce⟩
  · simp [failed, Panics, bind, Except.bind]
  rcases computeAccountBaseBalances_cases consecutive sync sync.inside (.inr rfl) (Nat.lt_succ_of_le sync.inside)
    reports.2 covered (block.validatedTxns.map (·.signer) ++ block.systemTxns.map SystemTransaction.signer) with
    ⟨failure, failed, index | ⟨error, rfl⟩⟩ | ⟨balances, computed, -, isBalance⟩
  · -- The balances panic only without an index of the base, and that exists from a delay of one on.
    obtain ⟨_, isIndex⟩ := exists_getBlockIndex consecutive positive sync sync.inside le_rfl
    cases isIndex.symm.trans index
  · simp [found, failed, Panics, bind, Except.bind]
  · simp only [found, computed, bind, Except.bind]
    rw [show checkSystemTxns block.systemTxns nonces = .ok nonces by rw [block.systemTxns_eq_nil, checkSystemTxns]]
    refine not_panics_checkTxns fun tx mem => ?_
    have signs : tx.signer ∈ block.validatedTxns.map (·.signer) ++ block.systemTxns.map SystemTransaction.signer :=
      List.mem_append_left _ (List.mem_map_of_mem mem)
    rw [isNonce, isBalance, if_pos signs, if_pos signs]
    exact ⟨⟨_, rfl⟩, _, rfl⟩

/-! ## The candidate -/

/-- The first assertion concerns the candidate only where it extends the root. -/
theorem first_iff (consecutive : Consecutive 1 chain) (sync : InSync crypto d chain c policy)
    (block : EthValidatedBlock) : ((interval chain c chain.length).head?.getD block).getSeqNum = policy.lastCommit + 1 ↔
      (interval chain c chain.length = [] → block.getSeqNum = policy.lastCommit + 1) := by
  rw [sync.lastCommit]
  cases shape : interval chain c chain.length with
  | nil => simp
  | cons extended rest =>
    have number := consecutive_interval consecutive c chain.length
    rw [shape] at number
    simp [number.1]

/-- The base of the expected execution result is found. -/
theorem not_panics_getExpectedExecutionResults (positive : 1 ≤ d) (consecutive : Consecutive 1 chain)
    (sync : InSync crypto d chain c policy) (backend : StateBackend) :
    ¬Panics (policy.getExpectedExecutionResults crypto (chain.length + 1) (interval chain c chain.length) backend) := by
  obtain ⟨index, isIndex⟩ := exists_getBlockIndex consecutive positive sync sync.inside le_rfl
  rw [getExpectedExecutionResults, sync.executionDelay]
  split
  · simp [Panics]
  next executed =>
    rw [show base d (chain.length + 1) = chain.length + 1 - d by rw [base]; lia] at isIndex
    rw [isIndex]
    dsimp only [bind, Except.bind]
    split <;> simp [Panics]

/-- Without a delay the candidate itself would have to be executed. -/
theorem getExpectedExecutionResults_of_zero (consecutive : Consecutive 1 chain) (sync : InSync crypto 0 chain c policy)
    (backend : StateBackend) :
    policy.getExpectedExecutionResults crypto (chain.length + 1) (interval chain c chain.length) backend =
      .error (.panic .missingExtendingBlock) := by
  have inside := sync.inside
  have absent : (interval chain c chain.length)[chain.length + 1 - 0 - (c + 1)]? = none := by
    rw [List.getElem?_eq_none_iff, length_interval le_rfl]
    omega
  rw [getExpectedExecutionResults, sync.executionDelay, if_neg (by lia), getBlockIndex, sync.lastCommit,
    if_neg (by lia)]
  rw [(consecutive_interval consecutive c chain.length).find? (by lia), absent]
  rfl

/-- On every chain of accepted blocks, at whatever number of committed blocks, `check_coherency` answers a candidate
without a panic exactly if the candidate extends a pending block or has the number after the last commit; with a delay
of zero, exactly if it is moreover rejected for its number or its timestamp. -/
theorem check_coherency_answers_iff (grown : Grown crypto d chainId (ReportsAccounts crypto nonce balance) chain)
    (advances : Advances nonce chain) (executes : Executes balance chain)
    (follows : Follows crypto d chainId chain c policy)
    {backend : StateBackend} (reports : ReportsAccounts crypto nonce balance chain backend) (block : EthValidatedBlock)
    (root : RootInfo) : ¬Panics (policy.checkCoherency crypto block (interval chain c chain.length) root backend) ↔
      (interval chain c chain.length = [] → block.getSeqNum = policy.lastCommit + 1) ∧
      (d = 0 → block.getSeqNum ≠ (extending (interval chain c chain.length) root).1 + 1 ∨
        block.getTimestamp ≤ (extending (interval chain c chain.length) root).2) := by
  have consecutive := grown.consecutive
  have sync := follows.inSync consecutive
  -- The checks in the order of the source: the assertion on the first block stands before those that reject.
  rw [← first_iff consecutive sync, checkCoherency]
  dsimp only
  by_cases first : ((interval chain c chain.length).head?.getD block).getSeqNum = policy.lastCommit + 1
  case neg => simp [first, Panics]
  rw [if_neg (not_not.mpr first)]
  by_cases next : block.getSeqNum = (extending (interval chain c chain.length) root).1 + 1
  case neg => simp [first, next, Panics]
  rw [if_neg (not_not.mpr next)]
  by_cases late : block.getTimestamp ≤ (extending (interval chain c chain.length) root).2
  case pos => simp [first, late, Panics]
  rw [if_neg late]
  have number := number_of_next consecutive sync first fun extended last => by rwa [extending, last] at next
  rw [number] at next ⊢
  obtain rfl | positive := Nat.eq_zero_or_pos d
  · simp [getExpectedExecutionResults_of_zero consecutive sync, Panics, bind, Except.bind, late, ← next]
  · simp only [first, next, true_and, Nat.ne_of_gt positive, false_implies, iff_true]
    have expects := not_panics_getExpectedExecutionResults positive consecutive sync backend
    rw [← next]
    cases expected : policy.getExpectedExecutionResults crypto (chain.length + 1)
      (interval chain c chain.length) backend with
    | error failure =>
      rw [expected] at expects
      rintro ⟨reason, same⟩
      exact expects ⟨reason, congrArg Except.error (Except.error.inj same)⟩
    | ok results =>
      dsimp only [bind, Except.bind]
      split
      · simp [Panics]
      · exact not_panics_checkNoncesAndBalances positive grown advances executes sync reports number

end Answers

section Examples

open TwoPayments

theorem reportsAccounts (chain : List EthValidatedBlock) : ReportsAccounts crypto nonceOf balance chain ledger := by
  refine ⟨reportsNonces chain, ?_⟩
  intro number id finalized addresses statuses _ answer
  cases answer
  rw [List.map_map]
  rfl

/-- With two pending blocks, a candidate with a wrong number is answered. -/
theorem answers_after_two_payments :
    ¬Panics ((EthBlockPolicy.new 0 2 1).checkCoherency crypto (block 9 []) [block 1 [], block 2 [[]]]
      genesisRoot ledger) :=
  (check_coherency_answers_iff (grown reportsAccounts) advances executes .new (reportsAccounts _) (block 9 [])
    genesisRoot).mpr ⟨by simp [interval], by simp⟩

/-- A leader numbers a block on the root 2 instead of 1. -/
theorem panics_on_number : (EthBlockPolicy.new 0 2 1).checkCoherency crypto (block 2 []) []
    genesisRoot ledger = .error (.panic .firstBlockSeqNum) := by
  decide +kernel

end Examples

end MonadBft.EthBlockPolicy
