import QfcCore.Types.Primitives

/-!
# The bridge relayer

`BridgeRelayer` of `qfc-bridge/src/relayer.rs`, with the validator set of
`validator.rs` and the records of `types.rs`. A deposit on Ethereum is observed,
confirmed, signed by validators and completed; a withdrawal is observed, signed
and completed. Every call that fails leaves the relayer as it was, so a method
returns the new relayer together with its result.

Ids stand for hashes. Amounts are `u128` and counters `u64`; sums wrap. The maps
are functions; the queries that count their entries are left out.
-/

namespace Qfc.Bridge

open Function

/-- `BridgeError`, as far as it is raised. -/
inductive BridgeError (Id : Type)
  | depositNotFound (id : Id)
  | withdrawalNotFound (id : Id)
  | duplicateDeposit (id : Id)
  | invalidValidator (validator : Address)
  | alreadySigned (validator : Address)
  | alreadyCompleted
  | invalidAmount
  | paused
deriving DecidableEq

/-- The stage of a deposit. -/
inductive DepositStatus
  | pending
  | confirmed
  | minting
  | completed
  | failed
deriving DecidableEq

/-- The stage of a withdrawal. -/
inductive WithdrawalStatus
  | pending
  | signing
  | submitted
  | completed
  | failed
deriving DecidableEq

/-- A deposit on Ethereum. -/
structure BridgeDeposit (Id : Type) where
  depositId : Id
  ethTxHash : Id
  ethBlockNumber : ℕ
  ethSender : Address
  qfcRecipient : Address
  tokenAddress : Address
  amount : ℕ
  requiredConfirmations : ℕ
  status : DepositStatus
  signatures : List (Address × Bytes)
  observedAt : ℕ
deriving DecidableEq

/-- A withdrawal to Ethereum. -/
structure BridgeWithdrawal (Id : Type) where
  withdrawalId : Id
  qfcTxHash : Id
  qfcBlockNumber : ℕ
  qfcSender : Address
  ethRecipient : Address
  tokenAddress : Address
  amount : ℕ
  status : WithdrawalStatus
  signatures : List (Address × Bytes)
  observedAt : ℕ
  ethUnlockTx : Option Id
deriving DecidableEq

/-! ## The validator set -/

/-- Who signs, and how many have to. -/
structure BridgeValidatorSet where
  validators : Finset Address
  threshold : ℕ

/-- Whether a validator has signed already. -/
def hasSigned (signatures : List (Address × Bytes)) (validator : Address) : Bool :=
  signatures.any (fun s => s.1 = validator)

namespace BridgeValidatorSet

variable {Id : Type}

/-- `BridgeValidatorSet::new`; a failed assertion is `none`. -/
def new (validators : List Address) (threshold : ℕ) : Option BridgeValidatorSet :=
  if validators = [] then some ⟨∅, 0⟩
  else if threshold ≤ validators.length ∧ 0 < threshold then
    some ⟨validators.toFinset, threshold⟩
  else none

/-- Whether an address may sign. -/
def isValidator (v : BridgeValidatorSet) (address : Address) : Bool := address ∈ v.validators

/-- What `sign_deposit` and `sign_withdrawal` have in common: whether the threshold
is met, and the signatures of the record with one more. -/
def sign (v : BridgeValidatorSet) (completed : Bool) (signatures : List (Address × Bytes))
    (validator : Address) (signature : Bytes) :
    Except (BridgeError Id) (Bool × List (Address × Bytes)) :=
  if !v.isValidator validator then .error (.invalidValidator validator)
  else if completed then .error .alreadyCompleted
  else if hasSigned signatures validator then .error (.alreadySigned validator)
  else
    let signatures := signatures ++ [(validator, signature)]
    .ok (v.threshold ≤ signatures.length, signatures)

/-- A validator signs a deposit. -/
def signDeposit (v : BridgeValidatorSet) (deposit : BridgeDeposit Id) (validator : Address)
    (signature : Bytes) : Except (BridgeError Id) (Bool × BridgeDeposit Id) :=
  (v.sign (deposit.status = .completed) deposit.signatures validator signature).map
    fun (met, signatures) => (met, { deposit with
      signatures := signatures
      status := if met then .minting else deposit.status })

/-- A validator signs a withdrawal. -/
def signWithdrawal (v : BridgeValidatorSet) (withdrawal : BridgeWithdrawal Id)
    (validator : Address) (signature : Bytes) :
    Except (BridgeError Id) (Bool × BridgeWithdrawal Id) :=
  (v.sign (withdrawal.status = .completed) withdrawal.signatures validator signature).map
    fun (met, signatures) => (met, { withdrawal with
      signatures := signatures
      status := if met then .submitted else withdrawal.status })

/-- What a signature does, to a record that is made of the result. -/
theorem sign_ok {β : Type} {v : BridgeValidatorSet} {completed : Bool}
    {signatures : List (Address × Bytes)} {validator : Address} {signature : Bytes}
    {f : Bool × List (Address × Bytes) → β} {b : β}
    (hok : (v.sign completed signatures validator signature : Except (BridgeError Id) _).map f
      = .ok b) :
    validator ∈ v.validators ∧ completed = false ∧ hasSigned signatures validator = false ∧
      f (v.threshold ≤ signatures.length + 1, signatures ++ [(validator, signature)]) = b := by
  simp only [sign, List.length_append, List.length_singleton] at hok
  split_ifs at hok with hvalid hcompleted hsigned
  all_goals cases hok
  rw [Bool.not_eq_true', Bool.not_eq_false, isValidator, decide_eq_true_iff] at hvalid
  exact ⟨hvalid, Bool.eq_false_iff.mpr hcompleted, Bool.eq_false_iff.mpr hsigned, rfl⟩

end BridgeValidatorSet

/-! ## The relayer -/

/-- The settings of a relayer. -/
structure RelayerConfig where
  ethConfirmations : ℕ
  validators : List Address
  threshold : ℕ

/-- **The relayer.** -/
structure BridgeRelayer (Id : Type) where
  deposits : Id → Option (BridgeDeposit Id)
  withdrawals : Id → Option (BridgeWithdrawal Id)
  validatorSet : BridgeValidatorSet
  ethConfirmations : ℕ
  paused : Bool
  totalDeposits : ℕ
  totalWithdrawals : ℕ
  totalValueLocked : ℕ

namespace BridgeRelayer

variable {Id : Type} [DecidableEq Id]

/-- A relayer that has seen nothing. -/
def new (config : RelayerConfig) : Option (BridgeRelayer Id) := do
  let validatorSet ← BridgeValidatorSet.new config.validators config.threshold
  return ⟨fun _ => none, fun _ => none, validatorSet, config.ethConfirmations, false, 0, 0, 0⟩

variable (r : BridgeRelayer Id) (depositId : Id)

/-- A deposit is seen, and enters the table. -/
def observeDeposit (depositId ethTxHash : Id) (ethBlockNumber : ℕ)
    (ethSender qfcRecipient tokenAddress : Address) (amount now : ℕ) :
    Except (BridgeError Id) (BridgeRelayer Id) :=
  if r.paused then .error .paused
  else if amount = 0 then .error .invalidAmount
  else if (r.deposits depositId).isSome then .error (.duplicateDeposit depositId)
  else
    .ok { r with
      deposits := update r.deposits depositId (some
        { depositId, ethTxHash, ethBlockNumber, ethSender, qfcRecipient, tokenAddress, amount,
          requiredConfirmations := r.ethConfirmations
          status := .pending
          signatures := []
          observedAt := now }) }

/-- A deposit gets its confirmations. -/
def confirmDeposit : Except (BridgeError Id) (BridgeRelayer Id) :=
  match r.deposits depositId with
  | none => .error (.depositNotFound depositId)
  | some deposit =>
    if deposit.status ≠ .pending then .error .alreadyCompleted
    else
      .ok { r with
        deposits := update r.deposits depositId
          (some { deposit with status := .confirmed }) }

/-- A validator signs a deposit. -/
def signDeposit (validator : Address) (signature : Bytes) :
    Except (BridgeError Id) (Bool × BridgeRelayer Id) :=
  if r.paused then .error .paused
  else
    match r.deposits depositId with
    | none => .error (.depositNotFound depositId)
    | some deposit =>
      match r.validatorSet.signDeposit deposit validator signature with
      | .error e => .error e
      | .ok (met, deposit) =>
        .ok (met, { r with deposits := update r.deposits depositId (some deposit) })

/-- A signed deposit is completed. -/
def completeDeposit : Except (BridgeError Id) (ℕ × BridgeRelayer Id) :=
  match r.deposits depositId with
  | none => .error (.depositNotFound depositId)
  | some deposit =>
    if deposit.status ≠ .minting then .error .alreadyCompleted
    else
      .ok (deposit.amount, { r with
        deposits := update r.deposits depositId
          (some { deposit with status := .completed })
        totalDeposits := (r.totalDeposits + 1) % 2 ^ 64
        totalValueLocked := (r.totalValueLocked + deposit.amount) % 2 ^ 128 })

/-- `observe_withdrawal`. A record of the same id is replaced. -/
def observeWithdrawal (withdrawalId qfcTxHash : Id) (qfcBlockNumber : ℕ)
    (qfcSender ethRecipient tokenAddress : Address) (amount now : ℕ) :
    Except (BridgeError Id) (BridgeRelayer Id) :=
  if r.paused then .error .paused
  else if amount = 0 then .error .invalidAmount
  else
    .ok { r with
      withdrawals := update r.withdrawals withdrawalId (some
        { withdrawalId, qfcTxHash, qfcBlockNumber, qfcSender, ethRecipient, tokenAddress, amount
          status := .pending
          signatures := []
          observedAt := now
          ethUnlockTx := none }) }

/-- `start_signing_withdrawal`, in any status. -/
def startSigningWithdrawal (withdrawalId : Id) : Except (BridgeError Id) (BridgeRelayer Id) :=
  match r.withdrawals withdrawalId with
  | none => .error (.withdrawalNotFound withdrawalId)
  | some withdrawal =>
    .ok { r with
      withdrawals := update r.withdrawals withdrawalId
        (some { withdrawal with status := .signing }) }

/-- A validator signs a withdrawal. -/
def signWithdrawal (withdrawalId : Id) (validator : Address) (signature : Bytes) :
    Except (BridgeError Id) (Bool × BridgeRelayer Id) :=
  if r.paused then .error .paused
  else
    match r.withdrawals withdrawalId with
    | none => .error (.withdrawalNotFound withdrawalId)
    | some withdrawal =>
      match r.validatorSet.signWithdrawal withdrawal validator signature with
      | .error e => .error e
      | .ok (met, withdrawal) =>
        .ok (met, { r with
          withdrawals := update r.withdrawals withdrawalId (some withdrawal) })

/-- `complete_withdrawal`, in any status. -/
def completeWithdrawal (withdrawalId ethUnlockTx : Id) :
    Except (BridgeError Id) (ℕ × BridgeRelayer Id) :=
  match r.withdrawals withdrawalId with
  | none => .error (.withdrawalNotFound withdrawalId)
  | some withdrawal =>
    .ok (withdrawal.amount, { r with
      withdrawals := update r.withdrawals withdrawalId
        (some { withdrawal with status := .completed, ethUnlockTx := some ethUnlockTx })
      totalWithdrawals := (r.totalWithdrawals + 1) % 2 ^ 64
      totalValueLocked := r.totalValueLocked - withdrawal.amount })

/-- Stops the bridge. -/
def pause : BridgeRelayer Id := { r with paused := true }

/-- Resumes the bridge. -/
def unpause : BridgeRelayer Id := { r with paused := false }

end BridgeRelayer

/-- A call of the relayer. -/
inductive Call (Id : Type)
  | observeDeposit (depositId ethTxHash : Id) (ethBlockNumber : ℕ)
      (ethSender qfcRecipient tokenAddress : Address) (amount now : ℕ)
  | confirmDeposit (depositId : Id)
  | signDeposit (depositId : Id) (validator : Address) (signature : Bytes)
  | completeDeposit (depositId : Id)
  | observeWithdrawal (withdrawalId qfcTxHash : Id) (qfcBlockNumber : ℕ)
      (qfcSender ethRecipient tokenAddress : Address) (amount now : ℕ)
  | startSigningWithdrawal (withdrawalId : Id)
  | signWithdrawal (withdrawalId : Id) (validator : Address) (signature : Bytes)
  | completeWithdrawal (withdrawalId ethUnlockTx : Id)
  | pause
  | unpause

end Qfc.Bridge
