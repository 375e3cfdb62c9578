import QfcCore.State.StateDB

/-!
# The executor's types

The errors and results of `qfc-executor`, the constants of the transition, and
the functions of other crates that it calls: signatures, the EVM and the text
of a hash. These are parameters. The EVM is a program over the reads that
`revm` makes, so it is deterministic in what it reads by construction.
-/

namespace Qfc

/-- Ten thousand QFC. -/
def MIN_VALIDATOR_STAKE : U256 := ⟨10000000000000000000000, by norm_num [u256Size]⟩

/-- One QFC, in the smallest unit. -/
def ONE_QFC : ℕ := 1000000000000000000

/-- A hundred QFC. -/
def MIN_DELEGATION : U256 := ⟨100 * ONE_QFC, by norm_num [u256Size, ONE_QFC]⟩

/-- A validator's share of all stake, at most. -/
def MAX_VALIDATOR_STAKE_PERCENT : UInt64 := 20

/-- Seven days. -/
def UNSTAKE_DELAY_SECS : ℕ := 7 * 24 * 60 * 60

/-- Ten QFC. -/
def BLOCK_REWARD : ℕ := 10000000000000000000

/-- The reward it falls to. -/
def MIN_BLOCK_REWARD : ℕ := 625000000000000000

/-- The producer's share of fees. -/
def FEE_PRODUCER_PERCENT : UInt64 := 47

/-- The treasury's share of fees. -/
def FEE_TREASURY_PERCENT : UInt64 := 5

/-- `max_validator_stake`: a fifth, a panic on overflow. -/
def maxValidatorStake (totalStake : U256) : Option U256 := do
  return (← totalStake.mul? (U256.fromU64 MAX_VALIDATOR_STAKE_PERCENT)).divConst 100

/-- `block_reward_for_year`: halved every year, four times at most. -/
def blockRewardForYear (year : ℕ) : U256 :=
  ⟨max (BLOCK_REWARD >>> min year 4) MIN_BLOCK_REWARD, by
    have hshift : BLOCK_REWARD >>> min year 4 ≤ BLOCK_REWARD := Nat.shiftRight_le _ _
    refine max_lt (lt_of_le_of_lt hshift ?_) ?_
    all_goals norm_num [u256Size, BLOCK_REWARD, MIN_BLOCK_REWARD]⟩

/-! ## Errors -/

/-- The executor's errors. -/
inductive ExecutorError (H : Type)
  | invalidSignature
  | invalidChainId (expected actual : UInt64)
  | invalidNonce (expected actual : UInt64)
  | insufficientBalance (need available : U256)
  | gasTooLow (minimum provided : UInt64)
  | missingRecipient
  | state (e : StateError H)
  | stakeTooLow (minimum provided : U256)
  | alreadyValidator
  | notValidator
  | evmError (message : String)
  | delegationTooLow (minimum provided : U256)
  | alreadyDelegated
  | invalidValidator
  | noDelegation
  | insufficientDelegation (need available : U256)
  | validatorStakeTooHigh (maxPercent : UInt64) (maxAllowed attempted : U256)
deriving DecidableEq

/-- A number as text. -/
def U256.text (a : U256) : String := toString a.val

/-- The text of a trie error. -/
def TrieError.message {H : Type} (hashText : H → String) : TrieError H → String
  | .nodeNotFound hash => "Node not found: " ++ hashText hash
  | .tooDeep => "Node not found"

/-- The text of a state error. -/
def StateError.message {H : Type} (hashText : H → String) : StateError H → String
  | .insufficientBalance need available =>
    "Insufficient balance: need " ++ need.text ++ ", have " ++ available.text
  | .trie e => "Trie error: " ++ e.message hashText
  | .serialization => "Serialization error: Unexpected length of input"

/-- The text of an executor error. -/
def ExecutorError.message {H : Type} (hashText : H → String) : ExecutorError H → String
  | .invalidSignature => "Invalid signature"
  | .invalidChainId expected actual =>
    "Invalid chain ID: expected " ++ toString expected ++ ", got " ++ toString actual
  | .invalidNonce expected actual =>
    "Invalid nonce: expected " ++ toString expected ++ ", got " ++ toString actual
  | .insufficientBalance need available =>
    "Insufficient balance: need " ++ need.text ++ ", have " ++ available.text
  | .gasTooLow minimum provided =>
    "Gas too low: minimum " ++ toString minimum ++ ", provided " ++ toString provided
  | .missingRecipient => "Missing recipient for transfer"
  | .state e => "State error: " ++ e.message hashText
  | .stakeTooLow minimum provided =>
    "Stake too low: minimum " ++ minimum.text ++ ", provided " ++ provided.text
  | .alreadyValidator => "Already a validator"
  | .notValidator => "Not a validator"
  | .evmError message => "EVM error: " ++ message
  | .delegationTooLow minimum provided =>
    "Delegation too low: minimum " ++ minimum.text ++ ", provided " ++ provided.text
  | .alreadyDelegated => "Already delegated to another validator"
  | .invalidValidator => "Invalid validator (not registered or no stake)"
  | .noDelegation => "No active delegation"
  | .insufficientDelegation need available =>
    "Insufficient delegation: need " ++ need.text ++ ", have " ++ available.text
  | .validatorStakeTooHigh maxPercent maxAllowed attempted =>
    "Validator stake exceeds " ++ toString maxPercent ++ "% cap: max " ++ maxAllowed.text ++
      ", attempted " ++ attempted.text

/-! ## Results -/

/-- The result of one transaction. -/
structure ExecutionResult (H : Type) where
  success : Bool
  gasUsed : UInt64
  logs : List (Log H)
  contractAddress : Option Address
  error : Option String

namespace ExecutionResult

variable {H : Type}

/-- A success that emits nothing. -/
def ofSuccess (gasUsed : UInt64) : ExecutionResult H := ⟨true, gasUsed, [], none, none⟩

/-- A failure. -/
def ofFailure (gasUsed : UInt64) (error : String) : ExecutionResult H :=
  ⟨false, gasUsed, [], none, some error⟩

end ExecutionResult

variable (H : Type)

/-- A validated transaction. -/
structure SignedTransaction where
  tx : Transaction
  hash : H
  sender : Address

/-! ## The EVM -/

/-- An account as `revm` sees it. -/
structure AccountInfo where
  balance : U256
  nonce : UInt64
  codeHash : H
  code : Option Bytes

/-- What `revm` reads. -/
inductive RevmCmd
  | basic (a : Address)
  | storage (a : Address) (slot : U256)
  | blockHash (number : U256)

/-- The response to a read. -/
abbrev RevmCmd.Resp : RevmCmd → Type
  | .basic _ => AccountInfo H
  | .storage _ _ => U256
  | .blockHash _ => H

/-- The block environment of `revm`. -/
structure RevmEnv where
  chainId : UInt64
  number : ℕ
  /-- In seconds. -/
  timestamp : ℕ
  coinbase : Address
  gasLimit : UInt64
  prevrandao : H

/-- A transaction of `revm`, at gas price zero; no target is a creation. -/
structure RevmTx where
  caller : Address
  target : Option Address
  data : Bytes
  value : U256
  gasLimit : UInt64

/-- How an EVM execution ends. -/
inductive RevmResult (H : Type)
  | success (gasUsed : UInt64) (logs : List (Log H)) (created : Option Address)
  | revert (gasUsed : UInt64)
  | halt (reason : String) (gasUsed : UInt64)

/-- The gas an EVM execution reports. -/
def RevmResult.gasUsed {H : Type} : RevmResult H → UInt64
  | .success gas _ _ => gas
  | .revert gas => gas
  | .halt _ gas => gas

/-- An account in the state changes of an EVM execution. -/
structure ChangedAccount where
  address : Address
  touched : Bool
  balance : U256
  nonce : UInt64
  code : Option Bytes
  storage : List (U256 × U256)

/-- **The EVM**: what an execution reads, and how it ends. The state changes
come in the order they are applied in. -/
structure Evm where
  keccak256 : Bytes → H
  /-- `keccak256` of the bytes of a hash. -/
  keccakHash : H → H
  /-- The text of a read that failed. -/
  databaseError : String → String
  transact : RevmEnv H → RevmTx →
    Prog RevmCmd (RevmCmd.Resp H) String (RevmResult H × List ChangedAccount)

/-- **What the executor takes from other crates.** -/
structure Runtime where
  /-- `verify_hash_signature`: Ed25519. -/
  verifyHashSignature : PublicKey → H → Signature → Bool
  /-- `address_from_public_key`. -/
  addressFromPublicKey : PublicKey → Address
  /-- A hash as text. -/
  hashText : H → String
  /-- The iteration order of a snapshot's maps. -/
  iter : IterOrder
  evm : Evm H

/-- The executor of one block. -/
structure Executor where
  runtime : Runtime H
  chainId : UInt64
  blockNumber : ℕ
  /-- In milliseconds. -/
  blockTimestamp : ℕ
  blockGasLimit : UInt64
  parentHash : H
  blockHashLookup : H → ℕ → Option H
  evmOpcodeActivationHeight : ℕ

/-- The text of an error. -/
def Executor.errorText {H : Type} (x : Executor H) (e : ExecutorError H) : String :=
  e.message x.runtime.hashText

end Qfc
