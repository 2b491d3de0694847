import MonadBft.BlockTree
import MonadBft.Eth.Transaction

/-! # The block policy

`monad-eth-block-policy`: whether a block's transactions have the right nonces and can be paid for, when execution
lags a fixed number of blocks behind. Balances and nonces are those that the state backend reports for an executed
block, brought forward through the committed blocks in the cache and the blocks that the new one extends.
-/

namespace MonadBft

/-! ## Validated blocks -/

/-- What a list of transactions leaves in the nonce map: the last nonce of each signer. -/
def recordNonces (nonces : SortedMap Address Nonce) (txns : List Transaction) : SortedMap Address Nonce :=
  txns.foldl (fun nonces tx => nonces.insert tx.signer tx.nonce) nonces

def recordSystemNonces (txns : List SystemTransaction) : SortedMap Address Nonce :=
  txns.foldl (fun nonces tx => nonces.insert tx.signer tx.nonce) .empty

def recordFees (txns : List Transaction) : SortedMap Address Balance :=
  txns.foldl (fun fees tx =>
    fees.insert tx.signer (saturatingAdd ((fees.get? tx.signer).getD 0) tx.computeTxnMaxValue)) .empty

/-- A block that has gone through the validator, which records its nonces and fees. -/
structure EthValidatedBlock where
  block : ConsensusFullBlock
  systemTxns : List SystemTransaction
  validatedTxns : List Transaction
  nonces : SortedMap Address Nonce
  txnFees : SortedMap Address Balance
  nonces_eq : nonces = recordNonces (recordSystemNonces systemTxns) validatedTxns
  txnFees_eq : txnFees = recordFees validatedTxns

namespace EthValidatedBlock

variable (block : EthValidatedBlock)

def getSeqNum : SeqNum := block.block.getSeqNum
def getTimestamp : Nat := block.block.getTimestamp
def getBlockRound : Round := block.block.getBlockRound
def getExecutionResults : List Bytes := block.block.header.delayedExecutionResults
def getId (crypto : Crypto) : BlockId := crypto.getId block.block.header

def getAccountNonces : SortedMap Address Nonce :=
  block.nonces.entries.foldl (fun nonces e => nonces.insert e.1 (e.2 + 1)) .empty

/-- The nonces after a list of blocks: the last block with the account decides. -/
def getAccountNoncesOf (blocks : List EthValidatedBlock) : SortedMap Address Nonce :=
  blocks.foldl (fun nonces block =>
    block.getAccountNonces.entries.foldl (fun nonces e => nonces.insert e.1 e.2) nonces) .empty

end EthValidatedBlock

/-! ## Failures -/

inductive StateBackendError where
  | notAvailableYet
  | neverAvailable
deriving DecidableEq, Repr

inductive PolicyPanic where
  | nonceNotIncreasing
  | committedSeqNum
  | commitOrder
  | commitNotNext
  | evictedLast
  | evictedLength
  | committedTwice
  | missingCommittedBlock
  | missingExtendingBlock
  | statusesLength
  /-- "Committed block with incoherent transaction fee". -/
  | committedFee
  | extendingSeqNum
  /-- "Majority extended a block with an incoherent balance". -/
  | extendingFee
  | firstBlockSeqNum
  | missingNonce
  | missingBalance
deriving DecidableEq, Repr

/-- Why a call does not return normally: a panic, or an error of the block policy. -/
inductive PolicyFailure where
  | panic (reason : PolicyPanic)
  | blockNotCoherent
  | stateBackend (error : StateBackendError)
  | timestamp
  | executionResultMismatch
deriving DecidableEq, Repr

abbrev PolicyResult := Except PolicyFailure

/-! ## State backend -/

structure EthAccount where
  nonce : Nonce
  balance : Balance
  balance_le : balance ≤ maxBalance

/-- The queries of `StateBackend` that the policy makes; the flag says whether the block is finalized. -/
structure StateBackend where
  getAccountStatuses : BlockId → SeqNum → Bool → List Address → Except StateBackendError (List (Option EthAccount))
  getExecutionResult : BlockId → SeqNum → Bool → Except StateBackendError Bytes

/-- Add the fee that a block records for an account, if it does. -/
def addFee (txnFee : Balance) (accountTxnFee : Option Balance) : Balance :=
  match accountTxnFee with
  | some fee => saturatingAdd txnFee fee
  | none => txnFee

/-! ## Committed blocks -/

structure CommittedBlock where
  blockId : BlockId
  round : Round
  nonces : SortedMap Address Nonce
  fees : SortedMap Address Balance

/-- The last committed blocks; `size` is the execution delay. -/
structure CommittedBlkBuffer where
  blocks : SortedMap SeqNum CommittedBlock
  size : Nat

namespace CommittedBlkBuffer

def new (size : Nat) : CommittedBlkBuffer := ⟨.empty, size⟩

def nonceLoop (address : Address) : List CommittedBlock → Option Nonce → PolicyResult (Option Nonce)
  | [], found => .ok found
  | block :: rest, found =>
    match block.nonces.get? address with
    | none => nonceLoop address rest found
    | some nonce =>
      if found.any (nonce ≤ ·) then .error (.panic .nonceNotIncreasing) else nonceLoop address rest (some nonce)

def getNonce (buffer : CommittedBlkBuffer) (address : Address) : PolicyResult (Option Nonce) :=
  nonceLoop address (buffer.blocks.entries.map Prod.snd) none

/-- The loop of `compute_txn_fee`: the fees so far, and the block number that has to come next. -/
def feeLoop (address : Address) : List (SeqNum × CommittedBlock) → Balance → SeqNum → PolicyResult (Balance × SeqNum)
  | [], txnFee, nextValidate => .ok (txnFee, nextValidate)
  | (cacheSeqNum, block) :: rest, txnFee, nextValidate =>
    if nextValidate ≠ cacheSeqNum then .error (.panic .committedSeqNum)
    else feeLoop address rest (addFee txnFee (block.fees.get? address)) (nextValidate + 1)

def computeTxnFee (buffer : CommittedBlkBuffer) (baseSeqNum : SeqNum) (address : Address) :
    PolicyResult (Balance × SeqNum) :=
  feeLoop address (buffer.blocks.entries.filter fun e => baseSeqNum + 1 ≤ e.1) 0 (baseSeqNum + 1)

def committedBlock (crypto : Crypto) (block : EthValidatedBlock) : CommittedBlock where
  blockId := block.getId crypto
  round := block.getBlockRound
  nonces := block.getAccountNonces
  fees := block.txnFees

/-- Drop the older half of a full buffer. -/
def evict (buffer : CommittedBlkBuffer) (blockNumber : SeqNum) : PolicyResult CommittedBlkBuffer :=
  if buffer.blocks.entries.length < buffer.size * 2 then .ok buffer
  else
    match buffer.blocks.entries.head? with
    | none => .error (.panic .evictedLast)
    | some (firstBlockNum, _) =>
      let blocks := buffer.blocks.filter fun seqNum _ => firstBlockNum + buffer.size ≤ seqNum
      match blocks.entries.getLast? with
      | none => .error (.panic .evictedLast)
      | some (last, _) =>
        if last + 1 ≠ blockNumber then .error (.panic .evictedLast)
        else if blocks.entries.length ≠ buffer.size then .error (.panic .evictedLength)
        else .ok { buffer with blocks }

def updateCommittedBlock (crypto : Crypto) (buffer : CommittedBlkBuffer) (block : EthValidatedBlock) :
    PolicyResult CommittedBlkBuffer :=
  let blockNumber := block.getSeqNum
  if buffer.blocks.entries.getLast?.any fun e => e.1 + 1 ≠ blockNumber then .error (.panic .commitOrder)
  else do
    let buffer ← buffer.evict blockNumber
    if buffer.blocks.contains blockNumber then .error (.panic .committedTwice)
    else .ok { buffer with blocks := buffer.blocks.insert blockNumber (committedBlock crypto block) }

end CommittedBlkBuffer

/-! ## The policy -/

structure BlockLookupIndex where
  blockId : BlockId
  seqNum : SeqNum
  isFinalized : Bool

structure EthBlockPolicy where
  lastCommit : SeqNum
  committedCache : CommittedBlkBuffer
  executionDelay : SeqNum
  chainId : Nat

namespace EthBlockPolicy

def new (lastCommit : SeqNum) (executionDelay chainId : Nat) : EthBlockPolicy where
  lastCommit
  committedCache := .new executionDelay
  executionDelay
  chainId

variable (crypto : Crypto) (policy : EthBlockPolicy)

/-- The executed block whose state is the base for a block. -/
def baseSeqNum (consensusBlockSeqNum : SeqNum) : SeqNum :=
  max consensusBlockSeqNum policy.executionDelay - policy.executionDelay

def getBlockIndex (extendingBlocks : Option (List EthValidatedBlock)) (baseSeqNum : SeqNum) :
    PolicyResult BlockLookupIndex :=
  if baseSeqNum ≤ policy.lastCommit then
    if baseSeqNum = genesisSeqNum then .ok ⟨genesisBlockId, genesisSeqNum, true⟩
    else match policy.committedCache.blocks.get? baseSeqNum with
      | none => .error (.panic .missingCommittedBlock)
      | some committed => .ok ⟨committed.blockId, baseSeqNum, true⟩
  else match extendingBlocks with
    | none => .error (.stateBackend .notAvailableYet)
    | some blocks =>
      match blocks.find? fun block => block.getSeqNum = baseSeqNum with
      | none => .error (.panic .missingExtendingBlock)
      | some proposed => .ok ⟨proposed.getId crypto, baseSeqNum, false⟩

def getAccountStatuses (backend : StateBackend) (extendingBlocks : Option (List EthValidatedBlock))
    (addresses : List Address) (baseSeqNum : SeqNum) : PolicyResult (List (Option EthAccount)) := do
  let index ← policy.getBlockIndex crypto extendingBlocks baseSeqNum
  match backend.getAccountStatuses index.blockId baseSeqNum index.isFinalized addresses with
  | .error error => .error (.stateBackend error)
  | .ok statuses => .ok statuses

/-! ### Nonces -/

/-- The loop of `get_account_base_nonces`: the nonces found in blocks, and the addresses without one. -/
def cachedNonces (pendingBlockNonces : SortedMap Address Nonce) : List Address →
    PolicyResult (SortedMap Address Nonce × List Address)
  | [] => .ok (.empty, [])
  | address :: rest =>
    match pendingBlockNonces.get? address with
    | some nonce => do
      let (nonces, misses) ← cachedNonces pendingBlockNonces rest
      .ok (nonces.insert address nonce, misses)
    | none => do
      match ← policy.committedCache.getNonce address with
      | some nonce =>
        let (nonces, misses) ← cachedNonces pendingBlockNonces rest
        .ok (nonces.insert address nonce, misses)
      | none =>
        let (nonces, misses) ← cachedNonces pendingBlockNonces rest
        .ok (nonces, address :: misses)

def getAccountBaseNonces (consensusBlockSeqNum : SeqNum) (backend : StateBackend)
    (extendingBlocks : List EthValidatedBlock) (addresses : List Address) : PolicyResult (SortedMap Address Nonce) := do
  let pendingBlockNonces := EthValidatedBlock.getAccountNoncesOf extendingBlocks
  let (nonces, misses) ← policy.cachedNonces pendingBlockNonces addresses.eraseDups
  let statuses ← policy.getAccountStatuses crypto backend (some extendingBlocks) misses
    (policy.baseSeqNum consensusBlockSeqNum)
  if misses.length ≠ statuses.length then .error (.panic .statusesLength)
  else
    .ok ((misses.zip statuses).foldl (fun nonces e => nonces.insert e.1 ((e.2.map (·.nonce)).getD 0)) nonces)

/-! ### Balances -/

/-- The fees of the extending blocks, from `nextValidate` on. -/
def pendingFeeLoop (address : Address) : List EthValidatedBlock → Balance → SeqNum → PolicyResult Balance
  | [], txnFee, _ => .ok txnFee
  | block :: rest, txnFee, nextValidate =>
    if nextValidate ≠ block.getSeqNum then .error (.panic .extendingSeqNum)
    else pendingFeeLoop address rest (addFee txnFee (block.txnFees.get? address)) (nextValidate + 1)

/-- The balance of one account, less the fees of the blocks after the base. -/
def accountBaseBalance (baseSeqNum : SeqNum) (extendingBlocks : Option (List EthValidatedBlock)) (address : Address)
    (balance : Balance) : PolicyResult Balance := do
  let (committed, nextValidate) ← policy.committedCache.computeTxnFee baseSeqNum address
  if balance < committed then .error (.panic .committedFee)
  else
    let balance := balance - committed
    let pending ←
      match extendingBlocks with
      | none => .ok 0
      | some blocks =>
        pendingFeeLoop address (blocks.dropWhile fun block => block.getSeqNum < nextValidate) 0 nextValidate
    if balance < pending then .error (.panic .extendingFee) else .ok (balance - pending)

def accountBaseBalances (baseSeqNum : SeqNum) (extendingBlocks : Option (List EthValidatedBlock)) :
    List (Address × Option EthAccount) → PolicyResult (SortedMap Address Balance)
  | [] => .ok .empty
  | (address, status) :: rest => do
    let balance ← policy.accountBaseBalance baseSeqNum extendingBlocks address ((status.map (·.balance)).getD 0)
    let balances ← accountBaseBalances baseSeqNum extendingBlocks rest
    .ok (balances.insert address balance)

def computeAccountBaseBalances (consensusBlockSeqNum : SeqNum) (backend : StateBackend)
    (extendingBlocks : Option (List EthValidatedBlock)) (addresses : List Address) :
    PolicyResult (SortedMap Address Balance) := do
  let baseSeqNum := policy.baseSeqNum consensusBlockSeqNum
  let addresses := addresses.eraseDups
  let statuses ← policy.getAccountStatuses crypto backend extendingBlocks addresses baseSeqNum
  if addresses.length ≠ statuses.length then .error (.panic .statusesLength)
  else policy.accountBaseBalances baseSeqNum extendingBlocks (addresses.zip statuses)

/-! ### Coherency -/

def getExpectedExecutionResults (blockSeqNum : SeqNum) (extendingBlocks : List EthValidatedBlock)
    (backend : StateBackend) : PolicyResult (List Bytes) :=
  if blockSeqNum < policy.executionDelay then .ok []
  else do
    let index ← policy.getBlockIndex crypto (some extendingBlocks) (blockSeqNum - policy.executionDelay)
    match backend.getExecutionResult index.blockId index.seqNum index.isFinalized with
    | .error error => .error (.stateBackend error)
    | .ok result => .ok [result]

def checkSystemTxns : List SystemTransaction → SortedMap Address Nonce → PolicyResult (SortedMap Address Nonce)
  | [], nonces => .ok nonces
  | tx :: rest, nonces =>
    match nonces.get? tx.signer with
    | none => .error (.panic .missingNonce)
    | some expected =>
      if tx.nonce ≠ expected then .error .blockNotCoherent
      else checkSystemTxns rest (nonces.insert tx.signer (expected + 1))

/-- The loop over the transactions of users: nonces and balances. -/
def checkTxns : List Transaction → SortedMap Address Nonce → SortedMap Address Balance → PolicyResult Unit
  | [], _, _ => .ok ()
  | tx :: rest, nonces, balances =>
    match nonces.get? tx.signer with
    | none => .error (.panic .missingNonce)
    | some expected =>
      if tx.nonce ≠ expected then .error .blockNotCoherent
      else match balances.get? tx.signer with
        | none => .error (.panic .missingBalance)
        | some balance =>
          if balance < tx.computeTxnMaxValue then .error .blockNotCoherent
          else
            checkTxns rest (nonces.insert tx.signer (expected + 1))
              (balances.insert tx.signer (balance - tx.computeTxnMaxValue))

def checkNoncesAndBalances (block : EthValidatedBlock) (extendingBlocks : List EthValidatedBlock)
    (backend : StateBackend) : PolicyResult Unit := do
  let signers := block.validatedTxns.map (·.signer) ++ block.systemTxns.map SystemTransaction.signer
  let nonces ← policy.getAccountBaseNonces crypto block.getSeqNum backend extendingBlocks signers
  let balances ← policy.computeAccountBaseBalances crypto block.getSeqNum backend (some extendingBlocks) signers
  let nonces ← checkSystemTxns block.systemTxns nonces
  checkTxns block.validatedTxns nonces balances

/-- The number and the timestamp to go beyond: of the block being extended or, without one, of the root of the
blocktree. -/
def extending (extendingBlocks : List EthValidatedBlock) (blocktreeRoot : RootInfo) : SeqNum × Nat :=
  match extendingBlocks.getLast? with
  | some extended => (extended.getSeqNum, extended.getTimestamp)
  | none => (blocktreeRoot.seqNum, 0)

def checkCoherency (block : EthValidatedBlock) (extendingBlocks : List EthValidatedBlock) (blocktreeRoot : RootInfo)
    (backend : StateBackend) : PolicyResult Unit :=
  let first := (extendingBlocks.head?).getD block
  if first.getSeqNum ≠ policy.lastCommit + 1 then .error (.panic .firstBlockSeqNum)
  else
    let (extendingSeqNum, extendingTimestamp) := extending extendingBlocks blocktreeRoot
    if block.getSeqNum ≠ extendingSeqNum + 1 then .error .blockNotCoherent
    else if block.getTimestamp ≤ extendingTimestamp then .error .timestamp
    else do
      let expected ← policy.getExpectedExecutionResults crypto block.getSeqNum extendingBlocks backend
      if block.getExecutionResults ≠ expected then .error .executionResultMismatch
      else policy.checkNoncesAndBalances crypto block extendingBlocks backend

/-! ### Commits -/

def updateCommittedBlock (block : EthValidatedBlock) : PolicyResult EthBlockPolicy :=
  if block.getSeqNum ≠ policy.lastCommit + 1 then .error (.panic .commitNotNext)
  else do
    let committedCache ← policy.committedCache.updateCommittedBlock crypto block
    .ok { policy with lastCommit := block.getSeqNum, committedCache }

/-- The loop of `reset`. -/
def commitAll : List EthValidatedBlock → EthBlockPolicy → PolicyResult EthBlockPolicy
  | [], policy => .ok policy
  | block :: rest, policy => do
    let committedCache ← policy.committedCache.updateCommittedBlock crypto block
    commitAll rest { policy with lastCommit := block.getSeqNum, committedCache }

def reset (lastDelayCommittedBlocks : List EthValidatedBlock) : PolicyResult EthBlockPolicy :=
  commitAll crypto lastDelayCommittedBlocks { policy with committedCache := .new policy.committedCache.size }

end EthBlockPolicy

end MonadBft
