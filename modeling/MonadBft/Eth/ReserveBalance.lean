import MonadBft.Eth.CommittedCache
import MonadBft.Instance

/-! # Reserve balances

Execution lags `d` blocks behind. A block is accepted when its transactions can be paid from the balances at the
block `d` before it, less the fees of the blocks in between. So the fees of the blocks that are not executed yet
never exceed a balance, and the policy's two assertions about incoherent fees never fail.
-/

namespace MonadBft

open CommittedBlkBuffer List

variable {crypto : Crypto} {chain : List EthValidatedBlock} {d : Nat}

/-! ## Fees of blocks -/

def EthValidatedBlock.feeOf (block : EthValidatedBlock) (address : Address) : Balance :=
    (block.txnFees.get? address).getD 0

def feesOf (blocks : List EthValidatedBlock) (address : Address) : Nat := (blocks.map (·.feeOf address)).sum

@[simp] theorem feesOf_nil (address : Address) : feesOf [] address = 0 := rfl

@[simp] theorem feesOf_cons (block : EthValidatedBlock) (rest : List EthValidatedBlock) (address : Address) :
    feesOf (block :: rest) address = block.feeOf address + feesOf rest address := by
  simp [feesOf]

@[simp] theorem feesOf_append (blocks blocks' : List EthValidatedBlock) (address : Address) :
    feesOf (blocks ++ blocks') address = feesOf blocks address + feesOf blocks' address := by
  simp [feesOf]

/-- What the transactions of an account can cost it. -/
def spent (address : Address) (txns : List Transaction) : Nat :=
  ((txns.filter fun tx => tx.signer = address).map (·.computeTxnMaxValue)).sum

theorem spent_cons (address : Address) (tx : Transaction) (rest : List Transaction) :
    spent address (tx :: rest) = (if tx.signer = address then tx.computeTxnMaxValue else 0) + spent address rest := by
  by_cases own : tx.signer = address <;> simp [spent, own]

theorem recordFees_le (txns : List Transaction) (address : Address) :
    ((recordFees txns).get? address).getD 0 ≤ spent address txns := by
  suffices general : ∀ fees : SortedMap Address Balance,
      ((txns.foldl (fun fees tx =>
        fees.insert tx.signer (saturatingAdd ((fees.get? tx.signer).getD 0) tx.computeTxnMaxValue))
        fees).get? address).getD 0 ≤ (fees.get? address).getD 0 + spent address txns by
    rw [recordFees]
    simpa using general .empty
  induction txns with
  | nil => simp [spent]
  | cons tx rest ih =>
    intro fees
    rw [foldl_cons, spent_cons]
    refine (ih _).trans ?_
    rw [SortedMap.get?_insert]
    by_cases own : address = tx.signer
    · have added := saturatingAdd_le ((fees.get? tx.signer).getD 0) tx.computeTxnMaxValue
      rw [if_pos own, if_pos own.symm, Option.getD_some, own]
      lia
    · rw [if_neg own, if_neg (Ne.symm own)]
      lia

/-! ## The loops of `compute_account_base_balances` -/

variable {address : Address} {blocks : List EthValidatedBlock}

theorem addFee_eq {fee : Balance} {block : EthValidatedBlock} (fits : fee + block.feeOf address ≤ maxBalance) :
    addFee fee (block.txnFees.get? address) = fee + block.feeOf address := by
  rw [EthValidatedBlock.feeOf] at fits ⊢
  cases found : block.txnFees.get? address with
  | none => rfl
  | some more =>
    rw [found] at fits
    exact Nat.min_eq_left fits

section

variable {fee next : Nat} (consecutive : Consecutive next blocks) (fits : fee + feesOf blocks address ≤ maxBalance)

include consecutive fits

theorem feeLoop_eq : feeLoop address (blocks.map (entryOf crypto)) fee next =
      .ok (fee + feesOf blocks address, next + blocks.length) := by
  induction blocks generalizing fee next with
  | nil => rfl
  | cons block rest ih =>
    obtain ⟨number, later⟩ := consecutive
    rw [feesOf_cons, ← Nat.add_assoc] at fits
    have sum := addFee_eq (le_trans (Nat.le_add_right _ _) fits)
    rw [map_cons, entryOf, feeLoop, if_neg (not_not.mpr number.symm)]
    change feeLoop address _ (addFee fee (block.txnFees.get? address)) (next + 1) = _
    rw [sum, ih later fits, feesOf_cons, length_cons]
    congr 2
    · lia
    · lia

theorem pendingFeeLoop_eq :
    EthBlockPolicy.pendingFeeLoop address blocks fee next = .ok (fee + feesOf blocks address) := by
  induction blocks generalizing fee next with
  | nil => rfl
  | cons block rest ih =>
    obtain ⟨number, later⟩ := consecutive
    rw [feesOf_cons, ← Nat.add_assoc] at fits
    have sum := addFee_eq (le_trans (Nat.le_add_right _ _) fits)
    rw [EthBlockPolicy.pendingFeeLoop, if_neg (not_not.mpr number.symm), sum, ih later fits, feesOf_cons, Nat.add_assoc]

end

namespace EthBlockPolicy

variable {policy : EthBlockPolicy} {c m n : Nat} {extendingBlocks : Option (List EthValidatedBlock)}

/-- The block whose state decides about block `n`. -/
def base (d n : Nat) : Nat := max n d - d

theorem feesOf_interval_split (chain : List EthValidatedBlock) (low c m : Nat) (upto : c ≤ m) (address : Address) :
    feesOf (interval chain low c) address + feesOf (interval chain (max low c) m) address =
      feesOf (interval chain low m) address := by
  by_cases below : low ≤ c
  · rw [Nat.max_eq_right below, ← feesOf_append, interval_append below upto]
  · rw [Nat.max_eq_left (by omega), interval_of_le (by omega), feesOf_nil, Nat.zero_add]

/-- The base balance of an account that can pay for the blocks after the base. -/
theorem accountBaseBalance_eq (consecutive : Consecutive 1 chain) (sync : InSync crypto d chain c policy) (upto : c ≤ m)
    (extend : Extends chain c m extendingBlocks) (later : c < n) {address : Address}
    {balance : Balance} (u256 : balance ≤ maxBalance) (pays : feesOf (interval chain (base d n) m) address ≤ balance) :
    policy.accountBaseBalance (base d n) extendingBlocks address balance =
      .ok (balance - feesOf (interval chain (base d n) m) address) := by
  obtain ⟨low, reach, holds⟩ := sync.holds
  have reaches : low ≤ base d n := by
    rw [base]
    omega
  generalize base d n = b at *
  have sum := feesOf_interval_split chain b c m upto address
  have committedFits : 0 + feesOf (interval chain b c) address ≤ maxBalance := by lia
  have committed : policy.committedCache.computeTxnFee b address =
      .ok (feesOf (interval chain b c) address, max b c + 1) := by
    rw [computeTxnFee, holds.filter consecutive, show low + (b + 1 - (low + 1)) = b by omega,
      feeLoop_eq (consecutive_interval consecutive b c) committedFits, length_interval sync.inside]
    congr 2
    · lia
    · lia
  rw [accountBaseBalance, committed]
  dsimp only [bind, Except.bind]
  rw [if_neg (by lia)]
  obtain ⟨rfl, rfl⟩ | rfl := extend
  · rw [if_neg (by lia)]
    rfl
  · dsimp only
    rw [(consecutive_interval consecutive c m).dropWhile, drop_interval,
      show c + (max b c + 1 - (c + 1)) = max b c by omega,
      pendingFeeLoop_eq (consecutive_interval consecutive (max b c) m) (by lia)]
    dsimp only
    rw [if_neg (by lia)]
    congr 1
    lia

/-! ## Base balances -/

def statusBalance (status : Option EthAccount) : Balance := (status.map (·.balance)).getD 0

theorem statusBalance_le (status : Option EthAccount) : statusBalance status ≤ maxBalance := by
  cases status with
  | none => exact Nat.zero_le _
  | some account => exact account.balance_le

/-- The backend reports the balances after a block of the chain, whenever it answers. -/
def ReportsBalances (crypto : Crypto) (chain : List EthValidatedBlock) (balance : Nat → Address → Balance)
    (backend : StateBackend) : Prop :=
  ∀ number id finalized addresses statuses, blockIdAt crypto chain number = some id →
    backend.getAccountStatuses id number finalized addresses = .ok statuses →
    statuses.map statusBalance = addresses.map (balance number)

theorem reported_of_mem_zip {addresses : List Address} {statuses : List (Option EthAccount)} {f : Address → Nat}
    {ofStatus : Option EthAccount → Nat} (values : statuses.map ofStatus = addresses.map f)
    {e : Address × Option EthAccount} (mem : e ∈ addresses.zip statuses) : ofStatus e.2 = f e.1 := by
  obtain ⟨i, hit⟩ := mem_iff_getElem?.mp mem
  obtain ⟨atAddress, atStatus⟩ := getElem?_zip_eq_some.mp hit
  have both := congrArg (·[i]?) values
  simpa [atAddress, atStatus] using both

variable {b m chainId : Nat} {extending : List EthValidatedBlock} {root : RootInfo}

section Covering

variable {balance : Nat → Address → Balance} {backend : StateBackend} {block : EthValidatedBlock}

theorem accountBaseBalances_eq {statuses : List (Address × Option EthAccount)} (left : Address → Balance)
    (each : ∀ e ∈ statuses, policy.accountBaseBalance b extendingBlocks e.1 (statusBalance e.2) = .ok (left e.1)) :
    ∃ balances, policy.accountBaseBalances b extendingBlocks statuses = .ok balances ∧
      ∀ address, balances.get? address = if address ∈ statuses.map Prod.fst then some (left address) else none := by
  induction statuses with
  | nil => exact ⟨.empty, rfl, by simp⟩
  | cons e rest ih =>
    obtain ⟨address, status⟩ := e
    obtain ⟨balances, found, values⟩ := ih fun e mem => each e (.tail _ mem)
    have first : policy.accountBaseBalance b extendingBlocks address ((status.map (·.balance)).getD 0) = .ok
      (left address) :=
      each (address, status) (.head _)
    refine ⟨balances.insert address (left address), ?_, fun address' => ?_⟩
    · rw [accountBaseBalances, first]
      dsimp only [bind, Except.bind]
      rw [found]
    · rw [SortedMap.get?_insert, values]
      by_cases same : address' = address
      · simp [same]
      · simp only [same, if_false, map_cons, mem_cons, false_or]

theorem not_fee_of_getBlockIndex {b : SeqNum} {failure : PolicyFailure}
    (failed : policy.getBlockIndex crypto extendingBlocks b = .error failure) :
    failure ≠ .panic .committedFee ∧ failure ≠ .panic .extendingFee := by
  constructor <;>
  · rintro rfl
    unfold getBlockIndex at failed
    split at failed
    · split at failed
      · cases failed
      · split at failed <;> cases failed
    · split at failed
      · cases failed
      · split at failed <;> cases failed

/-- The base balances of accounts that can pay for the blocks after the base: the lookup of the base or the backend
fails, or every account has its balance at the base less the fees since. -/
theorem computeAccountBaseBalances_cases (consecutive : Consecutive 1 chain) (sync : InSync crypto d chain c policy)
    (upto : c ≤ m) (extend : Extends chain c m extendingBlocks) (later : c < n)
    (reports : ReportsBalances crypto chain balance backend)
    (pays : base d n ≤ m → ∀ address, feesOf (interval chain (base d n) m) address ≤ balance (base d n) address)
    (addresses : List Address) :
    (∃ failure, policy.computeAccountBaseBalances crypto n backend extendingBlocks addresses = .error failure ∧
      (policy.getBlockIndex crypto extendingBlocks (base d n) = .error failure ∨ ∃ error,
        failure = .stateBackend error)) ∨
    ∃ balances, policy.computeAccountBaseBalances crypto n backend extendingBlocks addresses = .ok balances ∧
      base d n ≤ m ∧ ∀ address, balances.get? address = if address ∈ addresses then
        some (balance (base d n) address - feesOf (interval chain (base d n) m) address) else none := by
  have same : policy.baseSeqNum n = base d n := by rw [baseSeqNum, sync.executionDelay, base]
  rw [computeAccountBaseBalances, same, getAccountStatuses]
  dsimp only [bind, Except.bind]
  cases found : policy.getBlockIndex crypto extendingBlocks (base d n) with
  | error failure => exact .inl ⟨failure, rfl, .inl rfl⟩
  | ok index =>
    obtain ⟨atIndex, below⟩ := getBlockIndex_ok consecutive sync upto extend found
    dsimp only
    cases answer : backend.getAccountStatuses index.blockId (base d n) index.isFinalized addresses.eraseDups with
    | error error => exact .inl ⟨_, rfl, .inr ⟨error, rfl⟩⟩
    | ok statuses =>
      dsimp only
      have values := reports _ _ _ _ _ atIndex answer
      have length : addresses.eraseDups.length = statuses.length := by
        have both := congrArg List.length values
        rw [length_map, length_map] at both
        exact both.symm
      rw [if_neg (not_not.mpr length)]
      have each : ∀ e ∈ addresses.eraseDups.zip statuses,
          policy.accountBaseBalance (base d n) extendingBlocks e.1 (statusBalance e.2) =
            .ok (balance (base d n) e.1 - feesOf (interval chain (base d n) m) e.1) := by
        intro e mem
        have reported := reported_of_mem_zip values mem
        have pay := pays below e.1
        rw [← reported] at pay ⊢
        exact accountBaseBalance_eq consecutive sync upto extend later (statusBalance_le _) pay
      obtain ⟨balances, computed, value⟩ := accountBaseBalances_eq
        (fun address => balance (base d n) address - feesOf (interval chain (base d n) m) address) each
      refine .inr ⟨balances, computed, below, fun address => ?_⟩
      rw [value, map_fst_zip (le_of_eq length)]
      simp

/-! ## Accepted blocks -/

/-- Transactions that pass the loop can be paid from the balances it started with. -/
theorem spent_le_of_checkTxns {txns : List Transaction} {nonces : SortedMap Address Nonce}
    {balances : SortedMap Address Balance} (checked : checkTxns txns nonces balances = .ok ()) (address : Address) :
    spent address txns ≤ (balances.get? address).getD 0 := by
  induction txns generalizing nonces balances with
  | nil => exact Nat.zero_le _
  | cons tx rest ih =>
    rw [checkTxns] at checked
    split at checked
    · cases checked
    · split at checked
      · cases checked
      · split at checked
        · cases checked
        next balance found =>
          split at checked
          · cases checked
          next enough =>
            have later := ih checked
            rw [SortedMap.get?_insert] at later
            rw [spent_cons]
            by_cases own : tx.signer = address
            · rw [if_pos own.symm, Option.getD_some] at later
              rw [if_pos own, ← own, found, Option.getD_some]
              rw [← own] at later
              lia
            · rw [if_neg (Ne.symm own)] at later
              rwa [if_neg own, Nat.zero_add]

/-- Every account can pay, from its balance after block `b`, the fees of the blocks after that and up to `m`. -/
def Covered (balance : Nat → Address → Balance) (chain : List EthValidatedBlock) (b m : Nat) : Prop :=
  ∀ address, feesOf (interval chain b m) address ≤ balance b address

theorem checkNoncesAndBalances_ok (checked : policy.checkNoncesAndBalances crypto block extending backend = .ok ()) :
    ∃ base balances nonces, policy.getAccountBaseNonces crypto block.getSeqNum backend extending
        (block.validatedTxns.map (·.signer) ++ block.systemTxns.map SystemTransaction.signer) = .ok base ∧
      policy.computeAccountBaseBalances crypto block.getSeqNum backend (some extending)
        (block.validatedTxns.map (·.signer) ++ block.systemTxns.map SystemTransaction.signer) = .ok balances ∧
      checkSystemTxns block.systemTxns base = .ok nonces ∧ checkTxns block.validatedTxns nonces balances = .ok () := by
  rw [checkNoncesAndBalances] at checked
  simp only [bind, Except.bind] at checked
  split at checked
  · cases checked
  next base found =>
    split at checked
    · cases checked
    next balances computed =>
      split at checked
      · cases checked
      next nonces system => exact ⟨base, balances, nonces, found, computed, system, checked⟩

theorem checkCoherency_ok (accepted : policy.checkCoherency crypto block extending root backend = .ok ()) :
    (extending.head?.getD block).getSeqNum = policy.lastCommit + 1 ∧
      (∀ extended, extending.getLast? = some extended → block.getSeqNum = extended.getSeqNum + 1) ∧
      policy.checkNoncesAndBalances crypto block extending backend = .ok () := by
  rw [checkCoherency] at accepted
  dsimp only at accepted
  split at accepted
  · cases accepted
  next first =>
    split at accepted
    · cases accepted
    next next_ =>
      split at accepted
      · cases accepted
      · simp only [bind, Except.bind] at accepted
        split at accepted
        · cases accepted
        · split at accepted
          · cases accepted
          · refine ⟨not_not.mp first, fun extended last => ?_, accepted⟩
            rw [EthBlockPolicy.extending, last] at next_
            exact not_not.mp next_

section

variable (consecutive : Consecutive 1 chain) (sync : InSync crypto d chain c policy)

include consecutive sync

/-- A block that comes after the extended ones, or else after the last commit, is the next one of the chain. -/
theorem number_of_next (first : ((interval chain c chain.length).head?.getD block).getSeqNum = policy.lastCommit + 1)
    (next : ∀ extended, (interval chain c chain.length).getLast? = some extended →
      block.getSeqNum = extended.getSeqNum + 1) :
    block.getSeqNum = chain.length + 1 := by
  cases last : (interval chain c chain.length).getLast? with
  | none =>
    have empty := getLast?_eq_none_iff.mp last
    have length := congrArg List.length empty
    rw [length_interval le_rfl, length_nil] at length
    have inside := sync.inside
    rw [empty, sync.lastCommit] at first
    change block.getSeqNum = c + 1 at first
    lia
  | some extended =>
    have number := next extended last
    rw [getLast?_eq_getElem?] at last
    have same := (consecutive_interval consecutive c chain.length).getElem? last
    have bound := (List.getElem?_eq_some_iff.mp last).1
    rw [length_interval le_rfl] at same bound
    lia

theorem number_of_checkCoherency
    (accepted : policy.checkCoherency crypto block (interval chain c chain.length) root backend = .ok ()) :
    block.getSeqNum = chain.length + 1 :=
  number_of_next consecutive sync (checkCoherency_ok accepted).1 (checkCoherency_ok accepted).2.1

/-- The fees of a block that passes its checks are covered, together with those of its predecessors that are not
executed at its base. -/
theorem covered_of_checkCoherency (reports : ReportsBalances crypto chain balance backend)
    (covered : base d (chain.length + 1) ≤ chain.length → Covered balance chain
      (base d (chain.length + 1)) chain.length)
    (accepted : policy.checkCoherency crypto block (interval chain c chain.length) root backend = .ok ()) :
    base d (chain.length + 1) ≤ chain.length ∧
      Covered balance (chain ++ [block]) (base d (chain.length + 1)) (chain.length + 1) := by
  have number := number_of_checkCoherency consecutive sync accepted
  obtain ⟨-, balances, nonces, -, computed, -, paid⟩ :=
    checkNoncesAndBalances_ok (checkCoherency_ok accepted).2.2
  rw [number] at computed
  rcases computeAccountBaseBalances_cases consecutive sync sync.inside (.inr rfl) (Nat.lt_succ_of_le sync.inside)
    reports covered _ with ⟨failure, failed, -⟩ | ⟨balances', computed', below, value⟩
  · cases failed.symm.trans computed
  cases computed.symm.trans computed'
  refine ⟨below, fun address => ?_⟩
  have fee := (recordFees_le block.validatedTxns address).trans (spent_le_of_checkTxns paid address)
  rw [← block.txnFees_eq, ← EthValidatedBlock.feeOf] at fee
  have old := covered below address
  have whole : interval (chain ++ [block]) (base d (chain.length + 1)) (chain.length + 1) =
      interval chain (base d (chain.length + 1)) chain.length ++ [block] := by
    rw [interval_succ below getElem?_concat_length, interval_append_left le_rfl]
  rw [whole, feesOf_append, feesOf_cons, feesOf_nil, Nat.add_zero]
  rw [value] at fee
  split at fee
  · rw [Option.getD_some] at fee
    lia
  · rw [Option.getD_none] at fee
    lia

end

/-- The chains that grow by blocks that some policy following the chain accepts. -/
inductive Accepted (crypto : Crypto) (d chainId : Nat) (balance : Nat → Address → Balance) : List EthValidatedBlock →
    Prop where
  | nil : Accepted crypto d chainId balance []
  | append {chain : List EthValidatedBlock} {c : Nat} {policy : EthBlockPolicy} {backend : StateBackend}
      {block : EthValidatedBlock} {root : RootInfo} (before : Accepted crypto d chainId balance chain)
      (follows : Follows crypto d chainId chain c policy) (reports : ReportsBalances crypto chain balance backend)
      (accepted : policy.checkCoherency crypto block (interval chain c chain.length) root backend = .ok ()) :
      Accepted crypto d chainId balance (chain ++ [block])

/-- Executing a block takes at most the fees it records. -/
def Executes (balance : Nat → Address → Balance) (chain : List EthValidatedBlock) : Prop :=
  ∀ n block, chain[n]? = some block → ∀ address, balance n address - block.feeOf address ≤ balance (n + 1) address

theorem Covered.succ (executes : Executes balance chain) (lt : b < m)
    (inside : m ≤ chain.length) (covered : Covered balance chain b m) : Covered balance chain (b + 1) m := by
  intro address
  obtain ⟨block, found, shape⟩ := interval_cons lt inside
  have now := covered address
  have executed := executes b block found address
  rw [shape, feesOf_cons] at now
  lia

theorem Covered.later (executes : Executes balance chain) {b b' m : Nat} (le : b ≤ b')
    (upto : b' ≤ m) (inside : m ≤ chain.length) (covered : Covered balance chain b m) : Covered balance chain b' m := by
  induction b', le using Nat.le_induction with
  | base => exact covered
  | succ b' _ ih => exact (ih (by omega)).succ executes upto inside

theorem base_le_base {n n' : Nat} (le : n ≤ n') : base d n ≤ base d n' := by
  rw [base, base]
  omega

theorem Covered.append {later : List EthValidatedBlock}
    (covered : Covered balance chain b m) (inside : m ≤ chain.length) : Covered balance (chain ++ later) b m := by
  intro address
  rw [interval_append_left inside]
  exact covered address

variable (accepted : Accepted crypto d chainId balance chain)

include accepted

theorem Accepted.consecutive : Consecutive 1 chain := by
  induction accepted with
  | nil => trivial
  | append _ follows _ accepted ih =>
    refine Consecutive.append.mpr ⟨ih, ?_, trivial⟩
    rw [number_of_checkCoherency ih (follows.inSync ih) accepted, Nat.add_comm]

/-- Up to every block of an accepted chain the fees are covered from its base on. -/
theorem Accepted.covered
    (executes : Executes balance chain) (inside : m ≤ chain.length) (reach : base d m ≤ b) (upto : b ≤ m) :
    Covered balance chain b m := by
  induction accepted generalizing b m with
  | nil =>
    intro address
    rw [interval_of_le (by simpa using inside.trans (Nat.zero_le b))]
    exact Nat.zero_le _
  | @append chain c policy backend block root before follows reports accepted ih =>
    have earlier : Executes balance chain := fun n old found =>
      executes n old (List.getElem?_append_left (List.getElem?_eq_some_iff.mp found).1 ▸ found)
    rw [List.length_append, List.length_singleton] at inside
    by_cases old : m ≤ chain.length
    · exact (ih earlier old reach upto).append old
    · obtain rfl : m = chain.length + 1 := by omega
      have consecutive := before.consecutive
      obtain ⟨-, new⟩ := covered_of_checkCoherency consecutive (follows.inSync consecutive) reports
        (fun below => ih earlier le_rfl (base_le_base (Nat.le_succ _)) below) accepted
      exact new.later executes reach upto (by simp)

end Covering

/-! ## The fees are covered -/

namespace TwoPayments

def payment (nonce : Nonce) : Transaction where
  signer := 7
  nonce := nonce
  gasLimit := 21000
  maxFeePerGas := baseFeePerGas
  value := 5
  gasLimit_lt := by decide
  maxFeePerGas_lt := by decide

def block (number : Nat) (results : List Bytes) : EthValidatedBlock where
  block := ⟨⟨number, 1, FourValidators.crypto.genesisQc, 3, number, number, [], results, [], []⟩, []⟩
  systemTxns := []
  validatedTxns := [payment (number - 1)]
  nonces := recordNonces (recordSystemNonces []) [payment (number - 1)]
  txnFees := recordFees [payment (number - 1)]
  nonces_eq := rfl
  txnFees_eq := rfl

def balance (number : Nat) (address : Address) : Balance :=
  if address = 7 then 1050000000000005 * (3 - number) else 0

theorem balance_le (number : Nat) (address : Address) : balance number address ≤ maxBalance := by
  rw [balance]
  split
  · exact (Nat.mul_le_mul_left _ (Nat.sub_le 3 number)).trans (by decide)
  · exact Nat.zero_le _

def backend : StateBackend where
  getAccountStatuses := fun _ number _ addresses =>
    .ok (addresses.map fun address => some ⟨number, balance number address, balance_le number address⟩)
  getExecutionResult := fun _ _ _ => .ok []

theorem reports (chain : List EthValidatedBlock) : ReportsBalances FourValidators.crypto chain balance backend := by
  intro number id finalized addresses statuses _ answer
  cases answer
  rw [map_map]
  rfl

theorem accepted : Accepted FourValidators.crypto 2 1 balance [block 1 [], block 2 [[]]] := by
  have first : (EthBlockPolicy.new 0 2 1).checkCoherency FourValidators.crypto (block 1 [])
      [] FourValidators.genesisRoot backend = .ok () := by decide +kernel
  have second : (EthBlockPolicy.new 0 2 1).checkCoherency FourValidators.crypto (block 2 [[]]) [block 1 []]
      FourValidators.genesisRoot backend = .ok () := by decide +kernel
  exact .append (.append .nil .new (reports _) first) .new (reports _) second

theorem feeOf_block (number : Nat) (results : List Bytes) (address : Address) :
    (block number results).feeOf address = if address = 7 then 1050000000000005 else 0 := by
  have price : saturatingAdd 0 (payment (number - 1)).computeTxnMaxValue = 1050000000000005 := by
    change saturatingAdd 0 (payment 0).computeTxnMaxValue = 1050000000000005
    decide +kernel
  change ((SortedMap.insert .empty 7 (saturatingAdd 0 (payment (number - 1)).computeTxnMaxValue)).get? address).getD 0 =
    _
  rw [price, SortedMap.get?_insert]
  split <;> rfl

theorem executes : Executes balance [block 1 [], block 2 [[]]] := by
  intro n next found address
  have bound := (List.getElem?_eq_some_iff.mp found).1
  have shape : ∃ results, next = block (n + 1) results := by
    obtain rfl | rfl : n = 0 ∨ n = 1 := by
      simp only [length_cons, length_nil] at bound
      omega
    · exact ⟨_, (Option.some.inj found).symm⟩
    · exact ⟨_, (Option.some.inj found).symm⟩
  obtain ⟨results, rfl⟩ := shape
  rw [feeOf_block, balance, balance]
  by_cases own : address = 7
  · simp only [own, if_true]
    lia
  · simp [own]

end TwoPayments

/-- On every chain of accepted blocks the two assertions about fees never fail, at whatever number of committed
blocks, and the fees of a block with those of its predecessors that are not executed at its base are covered. -/
theorem reserves_cover_fees {chainId : Nat} {balance : Nat → Address → Balance}
    (accepted : Accepted crypto d chainId balance chain) (executes : Executes balance chain) :
    (∀ c policy m n extendingBlocks backend addresses, Follows crypto d chainId chain c policy → c ≤ m →
      m ≤ chain.length → m < n → Extends chain c m extendingBlocks → ReportsBalances crypto chain balance backend →
      policy.computeAccountBaseBalances crypto n backend extendingBlocks addresses ≠ .error (.panic .committedFee) ∧
      policy.computeAccountBaseBalances crypto n backend extendingBlocks addresses ≠ .error (.panic .extendingFee)) ∧
    ∀ n ≤ chain.length, ∀ address, feesOf (interval chain (n - d) n) address ≤ balance (n - d) address := by
  have consecutive := accepted.consecutive
  constructor
  · intro c policy m n extendingBlocks backend addresses follows upto inside later extend reports
    have covered : base d n ≤ m → Covered balance chain (base d n) m :=
      accepted.covered executes inside (base_le_base later.le)
    rcases computeAccountBaseBalances_cases consecutive (follows.inSync consecutive) upto extend
      (lt_of_le_of_lt upto later) reports covered addresses with ⟨failure, failed, source⟩ | ⟨_, computed, -, -⟩
    · have other : failure ≠ .panic .committedFee ∧ failure ≠ .panic .extendingFee := by
        obtain index | ⟨error, rfl⟩ := source
        · exact not_fee_of_getBlockIndex index
        · simp
      rw [failed]
      exact ⟨fun same => other.1 (Except.error.inj same), fun same => other.2 (Except.error.inj same)⟩
    · rw [computed]
      exact ⟨by simp, by simp⟩
  · intro n inside
    have same : base d n = n - d := by
      rw [base]
      omega
    rw [← same]
    exact accepted.covered executes inside le_rfl (by rw [same]; exact Nat.sub_le n d)

open TwoPayments in
theorem reserves_cover_two_payments :
    (∀ addresses, (EthBlockPolicy.new 0 2 1).computeAccountBaseBalances FourValidators.crypto 3 backend
      (some [block 1 [], block 2 [[]]]) addresses ≠ .error (.panic .extendingFee)) ∧
    feesOf [block 1 [], block 2 [[]]] 7 ≤ balance 0 7 ∧ 0 < feesOf [block 1 [], block 2 [[]]] 7 := by
  obtain ⟨unreachable, covered⟩ := reserves_cover_fees accepted executes
  refine ⟨fun addresses => ?_, covered 2 le_rfl 7, by decide +kernel⟩
  exact (unreachable 0 _ 2 3 _ backend addresses .new (by decide) le_rfl (by decide) (.inr rfl) (reports _)).2

end EthBlockPolicy

end MonadBft
