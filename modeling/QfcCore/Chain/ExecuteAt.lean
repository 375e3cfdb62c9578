import QfcCore.Chain.Import
import QfcCore.Executor.Execute

/-!
# The state transition of a block

`execute_at` of `qfc-chain/src/chain.rs`: a scratch state database is opened at
the parent's root, mature undelegations are returned, the transactions run,
the rewards are paid and the trie is committed. What it leaves in the columns
stays there whatever becomes of the block; the pending undelegations are among
it.

It is the executor that import, production and reorganisation are run with
(`StateConfig.blockExecutor`).
-/

namespace Qfc

variable {H : Type} [HashScheme H]

/-- What `execute_at` takes from the chain's configuration and from other
crates. -/
structure StateConfig (H : Type) where
  runtime : Runtime H
  chainId : UInt64
  evmOpcodeActivationHeight : ℕ

/-- The arguments of `execute_at`. -/
structure BlockInput (H : Type) where
  parentRoot : H
  parentHash : H
  number : ℕ
  /-- In milliseconds. -/
  timestamp : ℕ
  producer : Address
  transactions : List Transaction

/-- The walk of `block_hash_lookup` down the ancestors. The fuel is the window
of the opcode. -/
def blockHashWalk (look : H → Option (Block H)) (wanted : ℕ) : ℕ → H → Option H
  | 0, _ => none
  | fuel + 1, cursor =>
    match look cursor with
    | none => none
    | some b =>
      if b.number = wanted then some cursor
      else if b.number < wanted ∨ b.number = 0 then none
      else blockHashWalk look wanted fuel b.parentHash

/-- The executor of a block. -/
def StateConfig.executor (cfg : StateConfig H) (look : H → Option (Block H))
    (input : BlockInput H) : Executor H where
  runtime := cfg.runtime
  chainId := cfg.chainId
  blockNumber := input.number
  blockTimestamp := input.timestamp
  blockGasLimit := DEFAULT_BLOCK_GAS_LIMIT
  parentHash := input.parentHash
  blockHashLookup := fun start wanted => blockHashWalk look wanted 257 start
  evmOpcodeActivationHeight := cfg.evmOpcodeActivationHeight

/-- `total_fees`: the gas used of every receipt at the price of its
transaction. -/
def totalFees (txs : List Transaction) (receipts : List (Receipt H)) : Option U256 :=
  (txs.zip receipts).foldlM
    (fun total p => do total.add? (← (U256.fromU64 p.2.gasUsed).mul? p.1.gasPrice)) U256.zero

/-- Blocks in a year. -/
def BLOCKS_PER_YEAR : ℕ := 365 * 24 * 60 * 60 * 1000 / BLOCK_INTERVAL_MS

/-- A percentage of the fees, a panic on overflow. -/
def feeShare (totalFees : U256) (percent : UInt64) : Option U256 := do
  return (← totalFees.mul? (U256.fromU64 percent)).divConst 100

/-- The reward and the fees of a block. -/
def applyBlockRewards (number : ℕ) (producer : Address) (totalFees : U256) :
    StateProg H (StateError H) Unit := do
  let producerShare ← Prog.orPanic (feeShare totalFees FEE_PRODUCER_PERCENT)
  let reward ← Prog.orPanic ((blockRewardForYear (number / BLOCKS_PER_YEAR)).add? producerShare)
  StateProg.addBalance producer reward
  let treasuryFee ← Prog.orPanic (feeShare totalFees FEE_TREASURY_PERCENT)
  if treasuryFee.isZero then pure ()
  else StateProg.addBalance TREASURY_ADDRESS treasuryFee

variable [Digest H (TrieNode H (Cell H))]

namespace StateConfig

variable (cfg : StateConfig H) (look : H → Option (Block H)) (input : BlockInput H)

/-- A method of the state database, called with `?`. -/
def chainCall {α : Type} (a : Act (StateDB H) (StateError H) α) :
    Act (StateDB H) (ChainError H) α :=
  a.mapErr (fun e => .state (e.message cfg.runtime.hashText))

/-- The body of `execute_at`, with the records that are mature. -/
def transitionFrom (mature : List Undelegation) :
    Act (StateDB H) (ChainError H) (ExecutionOutcome H) := do
  cfg.chainCall ((Executor.processMature mature).run StateDB.exec)
  let (receipts, gasUsed) ←
    (cfg.executor look input).executeTransactions input.producer 0 0 input.transactions
  let fees ← Act.orPanic (totalFees input.transactions receipts)
  cfg.chainCall ((applyBlockRewards input.number input.producer fees).run StateDB.exec)
  let stateRoot ← (fun s => (.ok s.commit.1, s.commit.2))
  return ⟨stateRoot, receipts, gasUsed⟩

/-- The body of `execute_at`, on the scratch database. -/
def transition : Act (StateDB H) (ChainError H) (ExecutionOutcome H) := do
  let start ← Act.get
  cfg.transitionFrom look input (start.getMatureUndelegations (input.timestamp / 1000))

theorem transition_eq (s : StateDB H) :
    cfg.transition look input s
      = cfg.transitionFrom look input (s.getMatureUndelegations (input.timestamp / 1000)) s := rfl

/-- `execute_at`: what it leaves in the columns, and what it returns. -/
def executeAt (cols : StateColumns H) :
    StateColumns H × Except (ChainError H) (ExecutionOutcome H) :=
  match cfg.transition look input (StateDB.withRoot cols input.parentRoot) with
  | (.ok outcome, s) => (s.cols, .ok outcome)
  | (.err e, s) => (s.cols, .error e)
  | (.panic, s) => (s.cols, .error .panicked)

end StateConfig

/-! ## Receipts -/

section Receipts

variable (x : Executor H) {s s' : StateDB H}

/-- A round of the loop gives the receipt of its transaction. -/
theorem Executor.executeTransaction_txHash {ε : Type} {producer : Address} {index : ℕ}
    {gas : UInt64} {tx : Transaction} {r : Receipt H}
    (h : (x.executeTransaction producer index gas tx : Act (StateDB H) ε _) s = (.ok r, s')) :
    r.txHash = tx.hash := by
  obtain ⟨o, s₁, -, h⟩ := Act.bind_eq_ok.mp h
  cases o with
  | ok result | error e => cases h; rfl

/-- There is one receipt per transaction, under its hash. -/
theorem Executor.executeTransactions_txHash {ε : Type} {producer : Address} {txs : List Transaction}
    {index : ℕ} {gas gas' : UInt64} {rs : List (Receipt H)}
    (h : (x.executeTransactions producer index gas txs : Act (StateDB H) ε _) s
      = (.ok (rs, gas'), s')) : rs.map Receipt.txHash = txs.map Transaction.hash := by
  induction txs generalizing index gas s rs with
  | nil => cases h; rfl
  | cons tx txs ih =>
    obtain ⟨r, s₁, hr, h⟩ := Act.bind_eq_ok.mp h
    obtain ⟨⟨rs', gas₁⟩, s₂, hrs, h⟩ := Act.bind_eq_ok.mp h
    cases h
    rw [List.map_cons, List.map_cons, x.executeTransaction_txHash hr, ih hrs]

theorem StateConfig.transition_receipts (cfg : StateConfig H) {look : H → Option (Block H)}
    {input : BlockInput H} {o : ExecutionOutcome H}
    (h : cfg.transition look input s = (.ok o, s')) :
    o.receipts.map Receipt.txHash = input.transactions.map Transaction.hash := by
  rw [transition_eq] at h
  obtain ⟨-, s₂, -, h⟩ := Act.bind_eq_ok.mp h
  obtain ⟨⟨rs, gas⟩, s₃, hrs, h⟩ := Act.bind_eq_ok.mp h
  obtain ⟨fees, s₄, -, h⟩ := Act.bind_eq_ok.mp h
  obtain ⟨-, s₅, -, h⟩ := Act.bind_eq_ok.mp h
  obtain ⟨root, s₆, -, h⟩ := Act.bind_eq_ok.mp h
  cases h
  exact (cfg.executor look input).executeTransactions_txHash hrs

end Receipts

/-- **The executor of the chain**, over the state columns. -/
def StateConfig.blockExecutor (cfg : StateConfig H) : BlockExecutor H (StateColumns H) where
  executeAt cols look root parent number time producer txs :=
    cfg.executeAt look ⟨root, parent, number, time, producer, txs⟩ cols
  receipts_match {cols look root parent number time producer txs cols' o} h := by
    unfold StateConfig.executeAt at h
    rcases ht : cfg.transition look ⟨root, parent, number, time, producer, txs⟩
      (StateDB.withRoot cols root) with ⟨r, s⟩
    rw [ht] at h
    cases r with
    | ok o' =>
      cases h
      exact cfg.transition_receipts ht
    | err e | panic => cases h

end Qfc
