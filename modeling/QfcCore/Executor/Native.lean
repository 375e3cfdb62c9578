import QfcCore.Executor.Types

/-!
# Validation and the native transaction types

`validate_transaction` of `qfc-executor/src/executor.rs` and the execution of
the transaction types that need no EVM, as programs over the state. Amounts are
256-bit values: their operators panic on overflow, so every sum and product of
the source is a partial value here.
-/

namespace Qfc

open StateProg

variable {H : Type}

/-- A program over the state that ends in the executor's results and errors. -/
abbrev ExecProg (H α : Type) : Type := StateProg H (ExecutorError H) α

/-- A method of the state database, called with `?`. -/
def stateCall {α : Type} (p : StateProg H (StateError H) α) : ExecProg H α := p.mapErr .state

/-- `ok_or(MissingRecipient)`. -/
def recipientOf (tx : Transaction) : ExecProg H Address :=
  match tx.recipient with
  | some a => pure a
  | none => .fail .missingRecipient

/-- Fails with an error unless the condition holds. -/
def require (cond : Bool) (e : ExecutorError H) : ExecProg H Unit :=
  if cond then pure () else .fail e

/-- The types that run in the EVM. -/
def Transaction.isEvm (tx : Transaction) : Bool :=
  tx.txType = .contractCreate || tx.txType = .contractCall

namespace Executor

variable (x : Executor H)

/-- `ensure_validator_stake_cap`: no validator over a fifth of all stake. -/
def ensureValidatorStakeCap (validator : Address) (addedStake : U256) : ExecProg H Unit :=
  if addedStake.isZero then pure ()
  else do
    let currentTotalStake ← stateCall getTotalStake
    if currentTotalStake.isZero then pure ()
    else do
      let stake ← stateCall (getStake validator)
      let delegated ← stateCall (getTotalDelegatedTo validator)
      let validatorTotalAfter := (stake.satAdd delegated).satAdd addedStake
      let networkTotalAfter := currentTotalStake.satAdd addedStake
      let maxAllowed ← Prog.orPanic (maxValidatorStake networkTotalAfter)
      require (validatorTotalAfter.val ≤ maxAllowed.val)
        (.validatorStakeTooHigh MAX_VALIDATOR_STAKE_PERCENT maxAllowed validatorTotalAfter)

/-! ## Validation -/

/-- The first byte of the key of a converted Ethereum transaction. -/
def ETH_MARKER : UInt8 := 0xEE

/-- The sender a marked key carries: its bytes 2 to 21. -/
def markedSender (key : PublicKey) : Address :=
  ⟨Vector.ofFn (fun i : Fin 20 => key.bytes[i.val + 2])⟩

variable [HashScheme H]

/-- The sender of a transaction. A marked key is trusted; for any other one
the signature is verified. -/
def senderOf (tx : Transaction) : Except (ExecutorError H) Address :=
  if tx.publicKey.bytes[0] = ETH_MARKER then .ok (markedSender tx.publicKey)
  else if x.runtime.verifyHashSignature tx.publicKey tx.hash tx.signature then
    .ok (x.runtime.addressFromPublicKey tx.publicKey)
  else .error .invalidSignature

/-- The checks of a transaction's type. -/
def validateType (tx : Transaction) (sender : Address) : ExecProg H Unit :=
  match tx.txType with
  | .transfer => do
    let _ ← recipientOf tx
    pure ()
  | .stake => do
    let currentStake ← stateCall (getStake sender)
    require (!(currentStake.isZero && tx.value.val < MIN_VALIDATOR_STAKE.val))
      (.stakeTooLow MIN_VALIDATOR_STAKE tx.value)
  | .validatorRegister =>
    require (MIN_VALIDATOR_STAKE.val ≤ tx.value.val) (.stakeTooLow MIN_VALIDATOR_STAKE tx.value)
  | .delegate => do
    let validator ← recipientOf tx
    require (MIN_DELEGATION.val ≤ tx.value.val) (.delegationTooLow MIN_DELEGATION tx.value)
    let (existing, _) ← stateCall (getDelegation sender)
    require (existing.all (fun v => v = validator)) .alreadyDelegated
    let stake ← stateCall (getStake validator)
    require (!stake.isZero) .invalidValidator
  | _ => pure ()

/-- The checks before execution. -/
def validateTransaction (tx : Transaction) : ExecProg H (SignedTransaction H) := do
  require (tx.chainId = x.chainId) (.invalidChainId x.chainId tx.chainId)
  require (tx.intrinsicGas ≤ tx.gasLimit) (.gasTooLow tx.intrinsicGas tx.gasLimit)
  let sender ← Prog.ofExcept (x.senderOf tx)
  let balance ← stateCall (getBalance sender)
  let totalCost ← Prog.orPanic tx.totalCost
  require (totalCost.val ≤ balance.val) (.insufficientBalance totalCost balance)
  let expectedNonce ← stateCall (getNonce sender)
  require (tx.nonce = expectedNonce) (.invalidNonce expectedNonce tx.nonce)
  validateType tx sender
  return ⟨tx, tx.hash, sender⟩

/-! ## Execution -/

omit [HashScheme H]

variable (tx : Transaction) (sender : Address)

/-- Moves funds. -/
def executeTransfer : ExecProg H (ExecutionResult H) := do
  let target ← recipientOf tx
  stateCall (transfer sender target tx.value)
  return .ofSuccess TRANSFER_GAS

/-- Locks funds as stake. -/
def executeStake : ExecProg H (ExecutionResult H) := do
  let currentStake ← stateCall (getStake sender)
  let newStake ← Prog.orPanic (currentStake.add? tx.value)
  require (!(currentStake.isZero && newStake.val < MIN_VALIDATOR_STAKE.val))
    (.stakeTooLow MIN_VALIDATOR_STAKE newStake)
  ensureValidatorStakeCap sender tx.value
  stateCall (subBalance sender tx.value)
  stateCall (setStake sender newStake)
  return .ofSuccess (MINIMUM_GAS * 2)

/-- The amount in the data of a transaction, if there is one. -/
def dataAmount : Option U256 :=
  if 32 ≤ tx.data.length then some (U256.fromBeBytes (tx.data.take 32)) else none

/-- The amount in the data of a transaction, or else what the program reads. -/
def amountOr (all : ExecProg H U256) : ExecProg H U256 :=
  match dataAmount tx with
  | some amount => pure amount
  | none => all

/-- `execute_unstake`: the amount in the data, or all. -/
def executeUnstake : ExecProg H (ExecutionResult H) := do
  let unstakeAmount ← amountOr tx (stateCall (getStake sender))
  let currentStake ← stateCall (getStake sender)
  require (unstakeAmount.val ≤ currentStake.val) (.insufficientBalance unstakeAmount currentStake)
  let newStake ← Prog.orPanic (currentStake.sub? unstakeAmount)
  stateCall (setStake sender newStake)
  stateCall (addBalance sender unstakeAmount)
  return .ofSuccess (MINIMUM_GAS * 2)

/-- Stakes enough to be a validator. -/
def executeValidatorRegister : ExecProg H (ExecutionResult H) := do
  let currentStake ← stateCall (getStake sender)
  require currentStake.isZero .alreadyValidator
  require (MIN_VALIDATOR_STAKE.val ≤ tx.value.val) (.stakeTooLow MIN_VALIDATOR_STAKE tx.value)
  ensureValidatorStakeCap sender tx.value
  stateCall (subBalance sender tx.value)
  stateCall (setStake sender tx.value)
  stateCall (setContributionScore sender 0)
  return .ofSuccess (MINIMUM_GAS * 3)

/-- A validator unstakes all. -/
def executeValidatorExit : ExecProg H (ExecutionResult H) := do
  let currentStake ← stateCall (getStake sender)
  require (!currentStake.isZero) .notValidator
  stateCall (addBalance sender currentStake)
  stateCall (setStake sender U256.zero)
  return .ofSuccess (MINIMUM_GAS * 2)

/-- The delegation of a sender, new or added to. -/
def recordDelegation (sender validator : Address) (existing : Option Address) (amount : U256) :
    StateProg H (StateError H) Unit :=
  if existing.isSome then addDelegationAmount sender amount
  else setDelegation sender validator amount

/-- Delegates funds to a validator. -/
def executeDelegate : ExecProg H (ExecutionResult H) := do
  let validator ← recipientOf tx
  require (MIN_DELEGATION.val ≤ tx.value.val) (.delegationTooLow MIN_DELEGATION tx.value)
  let (existing, _) ← stateCall (getDelegation sender)
  require (existing.all (fun v => v = validator)) .alreadyDelegated
  let stake ← stateCall (getStake validator)
  require (!stake.isZero) .invalidValidator
  ensureValidatorStakeCap validator tx.value
  stateCall (subBalance sender tx.value)
  stateCall (recordDelegation sender validator existing tx.value)
  return .ofSuccess (MINIMUM_GAS * 3)

/-- `execute_undelegate`: the amount in the data, or all. The record unlocks
after the delay, counted from the time of the block. -/
def executeUndelegate : ExecProg H (ExecutionResult H) := do
  let validator ← recipientOf tx
  let amount ← amountOr tx (stateCall (getDelegationAmount sender validator))
  let (existing, existingAmount) ← stateCall (getDelegation sender)
  require (existing = some validator) .noDelegation
  require (amount.val ≤ existingAmount.val) (.insufficientDelegation amount existingAmount)
  let _ ← stateCall (subDelegationAmount sender amount)
  let unlockAt := x.blockTimestamp / 1000 + UNSTAKE_DELAY_SECS
  stateCall (storeUndelegation ⟨sender, validator, amount, unlockAt⟩)
  return .ofSuccess (MINIMUM_GAS * 3)

/-- `execute_claim_delegation_rewards`: a placeholder that moves nothing. -/
def executeClaimDelegationRewards : ExecProg H (ExecutionResult H) := do
  let (existing, _) ← stateCall (getDelegation sender)
  require existing.isSome .noDelegation
  return .ofSuccess (MINIMUM_GAS * 2)

/-- The transaction types that need no EVM. -/
def executeNative : ExecProg H (ExecutionResult H) :=
  match tx.txType with
  | .transfer => executeTransfer tx sender
  | .stake => executeStake tx sender
  | .unstake => executeUnstake tx sender
  | .validatorRegister => executeValidatorRegister tx sender
  | .validatorExit => executeValidatorExit sender
  | .delegate => executeDelegate tx sender
  | .undelegate => x.executeUndelegate tx sender
  | .claimDelegationRewards => executeClaimDelegationRewards sender
  | .inferenceTask => pure (.ofSuccess 21000)
  -- these two run in the EVM
  | .contractCreate => .panic
  | .contractCall => .panic

end Executor

end Qfc
