import QfcCore.Executor.Native

/-!
# Executing transactions

`Executor::execute` and `execute_transactions`, with the EVM wrapper of
`evm.rs`. A transaction is prepaid, run, and settled; a run that fails is undone
by reverting to the snapshot taken before the prepayment, and the whole gas
limit is charged.

Snapshots are taken and reverted on the state database itself, so these are
actions on it. The two caches of block hashes are left out: what they return is
what the walk returns.
-/

namespace Qfc.Executor

open StateProg StateDB Act

variable {H : Type} [HashScheme H] [Digest H (TrieNode H (Cell H))] (x : Executor H)

/-- An action of the executor. -/
abbrev ExecAct (H α : Type) : Type := Act (StateDB H) (ExecutorError H) α

/-! ## The EVM wrapper -/

/-- Whether the fixes apply to this block. -/
def fixesActive : Bool := x.evmOpcodeActivationHeight ≤ x.blockNumber

/-- `block_hash_ref`: an ancestor among the last 256 blocks. -/
def blockHashRef (number : U256) : H :=
  if !x.fixesActive then 0
  else if 2 ^ 64 ≤ number.val then 0
  else if x.blockNumber ≤ number.val ∨ 256 < x.blockNumber - number.val then 0
  else (x.blockHashLookup x.parentHash number.val).getD 0

/-- A method of the state database inside a read of the EVM. -/
def revmCall {α : Type} (a : Act (StateDB H) (StateError H) α) : Act (StateDB H) String α :=
  a.mapErr (fun e => x.runtime.evm.databaseError (e.message x.runtime.hashText))

/-- An account as the virtual machine reads it. -/
def basicRef (a : Address) : Act (StateDB H) String (AccountInfo H) := do
  let balance ← x.revmCall ((getBalance a).run exec)
  let nonce ← x.revmCall ((getNonce a).run exec)
  let code ← x.revmCall (ofExcept (fun s => s.getCode a))
  if code.isEmpty then return ⟨balance, nonce, x.runtime.evm.keccak256 [], none⟩
  else
    return ⟨balance, nonce,
      if x.fixesActive then x.runtime.evm.keccak256 code else Digest.digest code, some code⟩

/-- What the database answers to a read of the EVM. -/
def answer : (c : RevmCmd) → Act (StateDB H) String (c.Resp H)
  | .basic a => x.basicRef a
  | .storage a slot => x.revmCall (ofExcept (fun s => s.getStorage a slot))
  | .blockHash number => pure (x.blockHashRef number)

/-- `create_evm`: the block environment. -/
def revmEnv (coinbase : Address) : RevmEnv H where
  chainId := x.chainId
  number := x.blockNumber
  timestamp := x.blockTimestamp / 1000
  coinbase := coinbase
  gasLimit := x.blockGasLimit
  prevrandao := if x.fixesActive then x.runtime.evm.keccakHash x.parentHash else 0

/-- The slots of one changed account. -/
def applySlots (a : Address) : List (U256 × U256) → ExecAct H Unit
  | [] => pure ()
  | (slot, value) :: slots => do
    (ofExcept (fun s => s.setStorage a slot value)).mapErr .state
    applySlots a slots

/-- The code of one changed account, unless it is empty. -/
def applyCode (a : Address) : Option Bytes → ExecAct H Unit
  | some (b :: code) => do
    let _ ← (ofExcept (fun s => s.setCode a (b :: code))).mapErr .state
    pure ()
  | _ => pure ()

/-- One changed account: balance, nonce, code, storage. -/
def applyChange (c : ChangedAccount) : ExecAct H Unit :=
  if !c.touched then pure ()
  else do
    (stateCall (setBalance c.address c.balance)).run exec
    (stateCall (setNonce c.address c.nonce)).run exec
    applyCode c.address c.code
    applySlots c.address c.storage

/-- Writes what the virtual machine changed. -/
def applyStateChanges : List ChangedAccount → ExecAct H Unit
  | [] => pure ()
  | c :: cs => do
    applyChange c
    applyStateChanges cs

/-- `transact` and `process_result`: the state changes of a success are
applied, and nothing of a revert or a halt. -/
def transact (coinbase : Address) (tx : RevmTx) : ExecAct H (RevmResult H) := do
  let (result, changes) ←
    ((x.runtime.evm.transact (x.revmEnv coinbase) tx).interp x.answer).mapErr .evmError
  match result with
  | .success gasUsed logs created => do
    applyStateChanges changes
    return .success gasUsed logs created
  | result => return result

/-- Deploys a contract. -/
def executeContractCreate (tx : Transaction) (sender producer : Address) :
    ExecAct H (ExecutionResult H) := do
  match ← x.transact producer ⟨sender, none, tx.data, tx.value, tx.gasLimit⟩ with
  | .success gasUsed logs created =>
    let gasUsed := max gasUsed CONTRACT_CREATE_GAS
    match created with
    | some contract => return ⟨true, gasUsed, logs, some contract, none⟩
    | none => return .ofFailure gasUsed "Contract creation failed: no address"
  | .revert gasUsed => return .ofFailure gasUsed "Execution reverted"
  | .halt reason gasUsed => return .ofFailure gasUsed ("Execution halted: " ++ reason)

/-- The value of a call to an account without code. -/
def transferValue (tx : Transaction) (sender target : Address) : ExecProg H Unit :=
  if tx.value.isZero then pure () else stateCall (transfer sender target tx.value)

/-- `execute_contract_call`: an account without code only receives the value. -/
def executeContractCall (tx : Transaction) (sender producer : Address) :
    ExecAct H (ExecutionResult H) := do
  let target ← (recipientOf tx).run exec
  let code ← (ofExcept (fun s => s.getCode target)).mapErr .state
  if code.isEmpty then do
    (transferValue tx sender target).run exec
    return .ofSuccess (MINIMUM_GAS + tx.dataGas)
  else
    match ← x.transact producer ⟨sender, some target, tx.data, tx.value, tx.gasLimit⟩ with
    | .success gasUsed logs _ => return ⟨true, gasUsed, logs, none, none⟩
    | .revert gasUsed => return .ofFailure gasUsed "Execution reverted"
    | .halt reason gasUsed => return .ofFailure gasUsed ("Execution halted: " ++ reason)

/-! ## One transaction -/

/-- The prepayment of the gas, and for native types the nonce. -/
def prepay (tx : SignedTransaction H) : ExecProg H Unit := do
  let gasCost ← Prog.orPanic tx.tx.gasCost
  stateCall (subBalance tx.sender gasCost)
  if tx.tx.isEvm then pure () else stateCall (incrementNonce tx.sender)

/-- The execution proper, by the type of the transaction. -/
def executeBody (tx : SignedTransaction H) (producer : Address) : ExecAct H (ExecutionResult H) :=
  match tx.tx.txType with
  | .contractCreate => x.executeContractCreate tx.tx tx.sender producer
  | .contractCall => x.executeContractCall tx.tx tx.sender producer
  | _ => (x.executeNative tx.tx tx.sender).run exec

/-- The nonce of an EVM transaction, after its execution. -/
def finalizeNonce (tx : SignedTransaction H) : ExecProg H Unit :=
  if tx.tx.isEvm then stateCall (setNonce tx.sender (tx.tx.nonce + 1)) else pure ()

/-- The settlement of a success: the nonce of an EVM transaction, the refund
and the payment. Both amounts are computed in 64 bits, from the low 64 bits of
the gas price. -/
def settle (tx : SignedTransaction H) (producer : Address) (r : ExecutionResult H) :
    ExecProg H (ExecutionResult H) := do
  finalizeNonce tx
  let gasRefund := (tx.tx.gasLimit - r.gasUsed) * tx.tx.gasPrice.lowU64
  stateCall (addBalance tx.sender (U256.fromU64 gasRefund))
  let gasPayment := r.gasUsed * tx.tx.gasPrice.lowU64
  stateCall (addBalance producer (U256.fromU64 gasPayment))
  return r

/-- The charge of a failure: the whole gas limit, and the nonce. -/
def penalize (tx : SignedTransaction H) (producer : Address) : ExecProg H Unit := do
  let gasCost ← Prog.orPanic tx.tx.gasCost
  stateCall (subBalance tx.sender gasCost)
  stateCall (addBalance producer gasCost)
  stateCall (incrementNonce tx.sender)

variable (tx : SignedTransaction H) (producer : Address)

/-- `execute`, after the snapshot. -/
def executeFrom (snap : StateSnapshot H) : ExecAct H (ExecutionResult H) := do
  (prepay tx).run exec
  match ← attempt (x.executeBody tx producer) with
  | .ok r => (settle tx producer r).run exec
  | .error e => do
    modify (fun s => s.revert snap)
    (penalize tx producer).run exec
    return .ofFailure tx.tx.gasLimit (x.errorText e)

/-- **Executes a transaction.** -/
def execute : ExecAct H (ExecutionResult H) := do
  let start ← get
  x.executeFrom tx producer (start.snapshot x.runtime.iter)

theorem execute_eq (s : StateDB H) :
    x.execute tx producer s = x.executeFrom tx producer (s.snapshot x.runtime.iter) s := rfl

/-- How an execution goes: the prepayment fails, or the body runs after it
and is settled, or undone and penalized. -/
theorem execute_cases (s : StateDB H) : (∃ e s₁, (prepay tx).run exec s = (.err e, s₁) ∧
        x.execute tx producer s = (.err e, s₁)) ∨
      (∃ s₁, (prepay tx).run exec s = (.panic, s₁) ∧
        x.execute tx producer s = (.panic, s₁)) ∨
      ∃ s₁, (prepay tx).run exec s = (.ok (), s₁) ∧
        ((∃ s₂, x.executeBody tx producer s₁ = (.panic, s₂) ∧
            x.execute tx producer s = (.panic, s₂)) ∨
          (∃ r s₂, x.executeBody tx producer s₁ = (.ok r, s₂) ∧
            x.execute tx producer s = (settle tx producer r).run exec s₂) ∨
          ∃ e s₂, x.executeBody tx producer s₁ = (.err e, s₂) ∧
            x.execute tx producer s = ((penalize tx producer).run exec >>= fun _ =>
                pure (.ofFailure tx.tx.gasLimit (x.errorText e)))
              (s₂.revert (s.snapshot x.runtime.iter))) := by
  rw [execute_eq, executeFrom]
  rcases hpre : (prepay tx).run exec s with ⟨_ | e | _, s₁⟩
  · refine .inr (.inr ⟨s₁, rfl, ?_⟩)
    rw [bind_ok _ hpre]
    rcases hbody : x.executeBody tx producer s₁ with ⟨r | e | _, s₂⟩
    · exact .inr (.inl ⟨r, s₂, rfl, (attempt_ok _ hbody).trans rfl⟩)
    · exact .inr (.inr ⟨e, s₂, rfl, (attempt_err _ hbody).trans rfl⟩)
    · refine .inl ⟨s₂, rfl, bind_panic _ ?_⟩
      rw [attempt, hbody]
  · exact .inl ⟨e, s₁, rfl, bind_err _ hpre⟩
  · exact .inr (.inl ⟨s₁, rfl, bind_panic _ hpre⟩)

/-! ## A block body -/

/-- The receipt of a transaction that was refused, or that failed outside of
its execution: the whole gas limit. -/
def failureReceipt (tx : Transaction) (index : ℕ) (cumulativeGas : UInt64) (e : ExecutorError H) :
    Receipt H where
  txHash := tx.hash
  txIndex := UInt32.ofNat index
  status := .failure (x.errorText e)
  cumulativeGasUsed := cumulativeGas + tx.gasLimit
  gasUsed := tx.gasLimit
  logs := []
  contractAddress := none

/-- The receipt of an executed transaction. -/
def resultReceipt (tx : Transaction) (index : ℕ) (cumulativeGas : UInt64)
    (r : ExecutionResult H) : Receipt H where
  txHash := tx.hash
  txIndex := UInt32.ofNat index
  status := if r.success then .success else .failure (r.error.getD "")
  cumulativeGasUsed := cumulativeGas + r.gasUsed
  gasUsed := r.gasUsed
  logs := r.logs
  contractAddress := r.contractAddress

/-- Validates and executes one transaction. -/
def runTransaction (producer : Address) (tx : Transaction) : ExecAct H (ExecutionResult H) := do
  let signed ← (x.validateTransaction tx).run exec
  x.execute signed producer

/-- One round of the loop of `execute_transactions`. -/
def executeTransaction {ε : Type} (producer : Address) (index : ℕ) (cumulativeGas : UInt64)
    (tx : Transaction) : Act (StateDB H) ε (Receipt H) := do
  match ← attempt (x.runTransaction producer tx) with
  | .ok r => return resultReceipt tx index cumulativeGas r
  | .error e => return x.failureReceipt tx index cumulativeGas e

/-- `execute_transactions`, from an index and the gas used so far. -/
def executeTransactions {ε : Type} (producer : Address) :
    ℕ → UInt64 → List Transaction → Act (StateDB H) ε (List (Receipt H) × UInt64)
  | _, cumulativeGas, [] => pure ([], cumulativeGas)
  | index, cumulativeGas, tx :: txs => do
    let receipt ← x.executeTransaction producer index cumulativeGas tx
    let (receipts, gasUsed) ←
      executeTransactions producer (index + 1) receipt.cumulativeGasUsed txs
    return (receipt :: receipts, gasUsed)

/-- `process_mature_undelegations`, for the mature records: the funds go back
and the record is deleted. A record whose funds cannot go back stays. -/
def processMature : List Undelegation → StateProg H (StateError H) Unit
  | [] => pure ()
  | u :: us => do
    match ← Prog.attempt (addBalance u.delegator u.amount) with
    | .error (_ : StateError H) => processMature us
    | .ok () => do
      deleteUndelegation u.delegator u.validator u.unlockAt
      processMature us

end Qfc.Executor
