import Mathlib.Algebra.BigOperators.Group.List.Basic
import Mathlib.Algebra.Ring.Nat
import MonadBft.Types

/-! # Ethereum transactions

Transactions with their recovered signers and the value they can cost their sender at most.
-/

namespace MonadBft

abbrev Address := Nat

/-- A `u64`; that a nonce of `2 ^ 64 - 1` has no successor is not modelled. -/
abbrev Nonce := Nat

/-- A `U256`; the operations on balances saturate or are checked. -/
abbrev Balance := Nat

def maxBalance : Balance := 2 ^ 256 - 1

def saturatingAdd (a b : Balance) : Balance := min (a + b) maxBalance

theorem saturatingAdd_le (a b : Balance) : saturatingAdd a b ≤ a + b := Nat.min_le_left _ _

def baseFeePerGas : Nat := 50000000000

/-- A `Recovered<TxEnvelope>`, with what its fees and its order depend on. By the bounds the product in
`compute_txn_max_value` fits into a `U256`. -/
structure Transaction where
  signer : Address
  nonce : Nonce
  gasLimit : Nat
  maxFeePerGas : Nat
  value : Balance
  gasLimit_lt : gasLimit < 2 ^ 64
  maxFeePerGas_lt : maxFeePerGas < 2 ^ 128
deriving DecidableEq

namespace Transaction

variable (tx : Transaction)

/-- `compute_txn_max_value`: what the transaction can cost its sender. -/
def computeTxnMaxValue : Balance := saturatingAdd tx.value (tx.gasLimit * tx.maxFeePerGas)

end Transaction

/-- A `SystemTransaction`: no system call is defined yet, so there is none. -/
inductive SystemTransaction
deriving DecidableEq

def systemSender : Address := 0x6f49a8F621353f12378d0046E7d7e4b9B249DC9e

namespace SystemTransaction

def signer (_ : SystemTransaction) : Address := systemSender
def nonce (_ : SystemTransaction) : Nonce := 0

end SystemTransaction

end MonadBft
