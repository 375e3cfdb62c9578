import QfcCore.Types.Primitives

/-!
# Transactions

The transaction type of `qfc-types/src/transaction.rs` with its gas
arithmetic. A transaction is hashed without its signature, so its hash names
the unsigned part: `unsigned` is that part, and two transactions that differ
in the signature only have one hash.
-/

namespace Qfc

/-- The type of a transaction. -/
inductive TransactionType
  | transfer
  | contractCreate
  | contractCall
  | stake
  | unstake
  | validatorRegister
  | validatorExit
  | delegate
  | undelegate
  | claimDelegationRewards
  | inferenceTask
deriving DecidableEq

/-- The part of a transaction that is hashed: everything but the signature. -/
structure UnsignedTransaction where
  txType : TransactionType
  chainId : UInt64
  nonce : UInt64
  /-- The recipient, if any (`to`). -/
  recipient : Option Address
  value : U256
  data : Bytes
  gasLimit : UInt64
  gasPrice : U256
  /-- The sender's public key, or the marked sender of a converted
  transaction. -/
  publicKey : PublicKey
deriving DecidableEq

/-- A transaction: its unsigned part and a signature. -/
structure Transaction extends UnsignedTransaction where
  signature : Signature
deriving DecidableEq

/-- The least gas. -/
def MINIMUM_GAS : UInt64 := 21000

/-- The gas of a transfer. -/
def TRANSFER_GAS : UInt64 := 21000

/-- The gas of a deployment. -/
def CONTRACT_CREATE_GAS : UInt64 := 53000

/-- The gas of a byte. -/
def GAS_PER_BYTE : UInt64 := 16

/-- The gas of a zero byte. -/
def GAS_PER_ZERO_BYTE : UInt64 := 4

namespace Transaction

variable (tx : Transaction)

/-- `gas_cost`: `gas_price * gas_limit`, a panic on overflow. -/
def gasCost : Option U256 := tx.gasPrice.mul? (U256.fromU64 tx.gasLimit)

/-- `total_cost`: `value + gas_cost`, a panic on overflow. -/
def totalCost : Option U256 := do
  tx.value.add? (← tx.gasCost)

/-- Whether it deploys a contract. -/
def isContractCreate : Bool := tx.txType = .contractCreate

/-- `data_gas`: 4 per zero byte and 16 per other byte. -/
def dataGas : UInt64 :=
  tx.data.foldl (fun gas byte => gas + if byte = 0 then GAS_PER_ZERO_BYTE else GAS_PER_BYTE) 0

/-- `intrinsic_gas`: base gas and data gas. -/
def intrinsicGas : UInt64 :=
  (if tx.isContractCreate then CONTRACT_CREATE_GAS else TRANSFER_GAS) + tx.dataGas

theorem gasCost_eq_some {tx : Transaction} {c : U256} :
    tx.gasCost = some c ↔ tx.gasPrice.val * tx.gasLimit.toNat = c.val :=
  U256.ofNat?_eq_some

/-- A total cost that does not overflow is the value and the gas cost. -/
theorem totalCost_eq_some {tx : Transaction} {t : U256} :
    tx.totalCost = some t ↔
      ∃ c, tx.gasCost = some c ∧ tx.value.val + c.val = t.val := by
  unfold totalCost
  constructor
  · intro h
    obtain ⟨c, hc, h⟩ := Option.bind_eq_some_iff.mp h
    exact ⟨c, hc, U256.ofNat?_eq_some.mp h⟩
  · rintro ⟨c, hc, h⟩
    rw [hc]
    exact U256.ofNat?_eq_some.mpr h

/-- The total cost overflows exactly if it does not fit. -/
theorem totalCost_eq_none {tx : Transaction} :
    tx.totalCost = none ↔ u256Size ≤ tx.value.val + tx.gasPrice.val * tx.gasLimit.toNat := by
  rw [← not_lt, ← not_iff_not, not_not, ← Ne, Option.ne_none_iff_exists']
  constructor
  · rintro ⟨t, ht⟩
    obtain ⟨c, hc, hsum⟩ := totalCost_eq_some.mp ht
    rw [gasCost_eq_some.mp hc, hsum]
    exact t.isLt
  · intro h
    exact ⟨⟨_, h⟩, totalCost_eq_some.mpr
      ⟨⟨_, lt_of_le_of_lt (Nat.le_add_left _ _) h⟩, gasCost_eq_some.mpr rfl, rfl⟩⟩

end Transaction

end Qfc
