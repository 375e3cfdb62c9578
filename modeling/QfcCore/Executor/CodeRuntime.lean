import QfcCore.Chain.ExecuteAt
import QfcCore.State.CodeHash
import QfcCore.State.Ledger

/-!
# A runtime to compute with

Concrete functions in the place of those other crates provide, over the hash
scheme of serialised names, for runs that are evaluated. An account is owned by
the key that begins with its address, a signature is valid if it begins with
the key, and no contract is ever executed.
-/

namespace Qfc

/-- The key that repeats one byte; it owns the address that repeats it. -/
def sampleKey (b : UInt8) : PublicKey := ⟨Vector.replicate 32 b⟩

/-- An amount, given as a number below `2 ^ 256`. -/
def sampleAmount (n : ℕ) : U256 := ⟨n % u256Size, Nat.mod_lt _ u256Size_pos⟩

/-- A signature that repeats one byte. -/
def sampleSignature (b : UInt8) : Signature := ⟨Vector.replicate 64 b⟩

/-- The runtime. -/
def sampleRuntime : Runtime CodeName where
  verifyHashSignature key _ signature :=
    ∀ i : Fin 32, signature.bytes[i.val] = key.bytes[i]
  addressFromPublicKey key := ⟨Vector.ofFn (fun i : Fin 20 => key.bytes[i.val])⟩
  hashText _ := "0x"
  iter := sampleOrder
  evm :=
    { keccak256 := Digest.digest
      keccakHash := id
      databaseError := id
      transact := fun _ _ => .fail "no contracts" }

/-- The runtime on a test network. -/
def sampleConfig : StateConfig CodeName := ⟨sampleRuntime, 9000, 0⟩

/-- A transaction of the account that repeats the byte `sender`, with its
signature. -/
def sampleTx (txType : TransactionType) (sender : UInt8) (nonce : UInt64)
    (recipient : Option Address) (value : U256) (gasLimit : UInt64) (gasPrice : U256) :
    Transaction where
  txType := txType
  chainId := 9000
  nonce := nonce
  recipient := recipient
  value := value
  data := []
  gasLimit := gasLimit
  gasPrice := gasPrice
  publicKey := sampleKey sender
  signature := sampleSignature sender

/-- A block of a producer on a parent whose state is in the columns, and the
columns after its execution. -/
def sampleBlock (cols : StateColumns CodeName) (parent : Block CodeName) (producer : Address)
    (timestamp : ℕ) (transactions : List Transaction) : StateColumns CodeName × Block CodeName :=
  let (cols', outcome) := sampleConfig.executeAt (fun _ => none)
    ⟨parent.stateRoot, parent.hash, parent.number + 1, timestamp, producer, transactions⟩ cols
  (cols',
    { header := { parent.header with
        number := parent.number + 1
        parentHash := parent.hash
        stateRoot := (outcome.toOption.map ExecutionOutcome.stateRoot).getD 0
        gasUsed := (outcome.toOption.map ExecutionOutcome.gasUsed).getD 0
        producer := producer
        timestamp := timestamp }
      transactions := transactions
      votes := []
      inferenceProofs := []
      signature := Signature.zero })

/-- Sets balances and stakes. -/
def setAccounts : List (UInt8 × U256 × U256) → StateProg CodeName (StateError CodeName) Unit
  | [] => pure ()
  | (b, balance, stake) :: rest => do
    StateProg.setBalance (sampleAddress b) balance
    StateProg.setStake (sampleAddress b) stake
    setAccounts rest

variable (accounts : List (UInt8 × U256 × U256))

/-- A state with given balances and stakes, committed: its columns and its
root. -/
def sampleState : StateColumns CodeName × CodeName :=
  let s := ((setAccounts accounts).run StateDB.exec (StateDB.new (.empty CodeName))).2
  (s.commit.2.cols, s.commit.1)

theorem setAccounts_within :
    StateProg.Within (fun _ acc => Closed (.empty CodeName) acc) (fun _ => True) (fun _ => True)
      (setAccounts accounts) := by
  have ho := StateDB.owner_closed (.empty CodeName)
  induction accounts with
  | nil => trivial
  | cons entry rest ih =>
    refine (StateProg.setBalance_within (ho _).charges _).bind (fun _ _ => ?_)
    exact (StateProg.setStake_within (ho _).spends _).bind (fun _ _ => ih)

/-- A program on an empty state leaves a stored one. -/
theorem run_new_stored {ε α : Type} {Q : α → Prop} {p : StateProg CodeName ε α}
    (hp : StateProg.Within (fun _ acc => Closed (.empty CodeName) acc) (fun _ => True) Q p) :
    (p.run StateDB.exec (StateDB.new (.empty CodeName))).2.WellStored :=
  have hnew : (StateDB.new (.empty CodeName)).WellStored :=
    StateDB.withRoot_wellStored (StateColumns.empty_sound CodeName) (holdsAccounts_zero _ _)
  (StateDB.StoredOver.run hp _ hnew.over).stored

theorem sampleState_stored : (sampleState accounts).1.Sound ∧
      HoldsAccounts (sampleState accounts).1 (sampleState accounts).1.state
        (sampleState accounts).2 :=
  have hstored := (run_new_stored (setAccounts_within accounts)).commit.1
  ⟨hstored.cols, hstored.base⟩

/-! ## A database in memory -/

/-- A database with given balances and stakes. -/
def sampleDb : StateDB CodeName :=
  ((setAccounts accounts).run StateDB.exec (StateDB.new (.empty CodeName))).2

theorem setAccounts_undelegated {l : Ledger CodeName} (h : l.Undelegated) :
    ((setAccounts accounts).run Ledger.exec l).2.Undelegated := by
  induction accounts generalizing l with
  | nil => exact h
  | cons entry accounts ih =>
    obtain ⟨b, balance, stake⟩ := entry
    refine ih ⟨fun a => ?_, h.rows⟩
    show (((l.set (sampleAddress b) _).set (sampleAddress b) _).accounts a).getDelegatedAmount.val = 0
    rw [Ledger.set_set]
    by_cases ha : a = sampleAddress b
    · rw [ha, Ledger.set_accounts_self]
      show ((l.set (sampleAddress b) _).accounts (sampleAddress b)).getDelegatedAmount.val = 0
      rw [Ledger.set_accounts_self]
      exact h.amounts _
    · rw [Ledger.set_accounts_of_ne l ha]
      exact h.amounts a

/-- Such a database implements a ledger without delegations. -/
theorem sampleDb_refines : ∃ l, Refines (sampleDb accounts) l ∧ l.Undelegated := by
  have hnew := Refines.new (StateColumns.empty_sound CodeName)
  exact ⟨_, (Refines.run (setAccounts accounts) _ _ hnew).2,
    setAccounts_undelegated accounts ⟨fun _ => rfl, rfl⟩⟩

/-- An executor with this runtime. -/
def sampleExecutor : Executor CodeName where
  runtime := sampleRuntime
  chainId := 9000
  blockNumber := 1
  blockTimestamp := 0
  blockGasLimit := 30000000
  parentHash := 0
  blockHashLookup _ _ := none
  evmOpcodeActivationHeight := 0

end Qfc
