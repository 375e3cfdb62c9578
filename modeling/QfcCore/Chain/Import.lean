import QfcCore.Chain.Database
import QfcCore.Consensus.Engine

/-!
# Import, reorganisation and production

The functions of `qfc-chain/src/chain.rs` that change the canonical chain:
`import_block`, `reorg_to`, `store_produced_block` and `record_finalized`,
and the opening of a database. All of them run under the import lock, so each
is one step.

Execution is a parameter. A `BlockExecutor` runs a block body against a parent
state root over a state `X` of its own (the state columns of the database) and
returns the outcome; the executor of this repository is one instance, and what
is proved here holds for every other.
-/

namespace Qfc

/-- The result of executing a block body. -/
structure ExecutionOutcome (H : Type) where
  stateRoot : H
  receipts : List (Receipt H)
  gasUsed : UInt64
deriving DecidableEq

/-- Why a block is refused by the chain. -/
inductive InvalidBlock (H : Type)
  | inferenceProofsRootMismatch
  | stateRootMismatch
  | gasUsedMismatch
  /-- The two self-validation errors of a produced block. -/
  | producedStateRootMismatch
  | producedGasUsedMismatch
  /-- A reorg would abandon the finalized height. -/
  | abandonsFinalized (height ancestor : ℕ)
  | branchStateRootMismatch (hash : H)
deriving DecidableEq

/-- The chain's errors. -/
inductive ChainError (H : Type)
  | blockAlreadyKnown
  /-- The expected parent is a hash, or any existing block. -/
  | invalidParent (expected : Option H) (actual : H)
  | invalidBlock (reason : InvalidBlock H)
  | consensus (e : ConsensusError)
  | executor (message : String)
  | state (message : String)
  | genesisNotFound
  /-- The call did not return: an arithmetic operation overflowed. -/
  | panicked
deriving DecidableEq

/-- **An executor of block bodies** over the state columns `X`: what it does
to the columns, and the outcome. It may read the blocks by their hashes. -/
structure BlockExecutor (H X : Type) [HashScheme H] where
  /-- Columns, blocks by hash, parent state root, parent hash, number,
  timestamp, producer, transactions. -/
  executeAt : X → (H → Option (Block H)) → H → H → ℕ → ℕ → Address → List Transaction →
    X × Except (ChainError H) (ExecutionOutcome H)
  /-- There is one receipt per transaction, in order, under its hash. -/
  receipts_match : ∀ {x look root parent number time producer txs x' o},
    executeAt x look root parent number time producer txs = (x', .ok o) →
      o.receipts.map Receipt.txHash = txs.map Transaction.hash

/-- The chain of a node: its columns and what it holds in memory. -/
structure Chain (H X : Type) where
  db : Database H
  /-- The columns the executor works on. -/
  exec : X
  head : Option (SealedBlock H)
  /-- The root of the live state. -/
  root : H
  /-- The last recorded finalized height and hash. -/
  finalized : ℕ × H
  engine : ConsensusEngine H

/-- The version of new blocks. -/
def BLOCK_VERSION : ℕ := 1

/-- The gas limit of a block. -/
def DEFAULT_BLOCK_GAS_LIMIT : UInt64 := 30000000

/-- The genesis configuration, as far as it enters the genesis block. -/
structure GenesisConfig where
  chainId : UInt64
  timestamp : ℕ
  extraData : Bytes

/-- `build_genesis_block`, with the state root filled in. -/
def GenesisConfig.genesisBlock {H : Type} [HashScheme H] (config : GenesisConfig)
    (stateRoot : H) : Block H where
  header :=
    { version := BLOCK_VERSION, number := 0, parentHash := 0, stateRoot := stateRoot,
      transactionsRoot := 0, receiptsRoot := 0, proofsRoot := 0, producer := Address.zero,
      contributionScore := 0, vrfProof := VrfProof.zero, timestamp := config.timestamp,
      gasLimit := DEFAULT_BLOCK_GAS_LIMIT, gasUsed := 0, extraData := config.extraData }
  transactions := []
  votes := []
  inferenceProofs := []
  signature := Signature.zero

namespace Chain

variable {H X : Type} [HashScheme H] (ex : BlockExecutor H X)

/-- Executes a block on a state. -/
def executeBlock (x : X) (look : H → Option (Block H)) (b : Block H) (parentRoot : H) :
    X × Except (ChainError H) (ExecutionOutcome H) :=
  ex.executeAt x look parentRoot b.parentHash b.number b.header.timestamp
    b.header.producer b.transactions

variable (db : Database H) (now : ℕ) (c : Chain H X)
  (b : Block H) (ancestor oldHead : ℕ) (executed : List (Block H × ExecutionOutcome H))

/-- `commit_canonical`: the batch of the block, then the live root and the
head. -/
def commitCanonical (receipts : List (Receipt H)) (root : H) : Chain H X :=
  { c with
    db := c.db.writeBatch (Database.commitBlockOps b receipts root)
    root := root
    head := some ⟨b.hash, b⟩ }

/-! ## Reorganisation -/

/-- The walk of `reorg_to` from the new tip to the first canonical block: the
branch, tip first, and the ancestor. The fuel bounds the walk. -/
def collectBranch (db : Database H) :
    ℕ → H → Block H → Except (ChainError H) (List (H × Block H) × Block H)
  | 0, _, cursor => .error (.invalidParent none cursor.parentHash)
  | fuel + 1, hash, cursor =>
    if db.isCanonical hash cursor.number then .ok ([], cursor)
    else
      match db.getBlockByHash cursor.parentHash with
      | none => .error (.invalidParent none cursor.parentHash)
      | some parent =>
        match collectBranch db fuel cursor.parentHash parent with
        | .error e => .error e
        | .ok (branch, ancestor) => .ok ((hash, cursor) :: branch, ancestor)

/-- Whether the chain after the reorg still has the finalized block. -/
def retainsFinalized (recorded : ℕ × H) (finalizedHeight : ℕ) (branch : List (H × Block H))
    (ancestor : Block H) : Bool :=
  finalizedHeight ≤ ancestor.number ||
    (recorded.1 == finalizedHeight &&
      branch.any (fun p => p.2.number == finalizedHeight && p.1 == recorded.2))

/-- Phase one of a reorg: execute the branch, oldest block first, and compare
the state roots. -/
def executeBranch (look : H → Option (Block H)) :
    X → H → List (H × Block H) →
      X × Except (ChainError H) (List (Block H × ExecutionOutcome H))
  | x, _, [] => (x, .ok [])
  | x, parentRoot, (hash, b) :: rest =>
    match executeBlock ex x look b parentRoot with
    | (x, .error e) => (x, .error e)
    | (x, .ok outcome) =>
      if outcome.stateRoot ≠ b.stateRoot then
        (x, .error (.invalidBlock (.branchStateRootMismatch hash)))
      else
        match executeBranch look x outcome.stateRoot rest with
        | (x, .error e) => (x, .error e)
        | (x, .ok executed) => (x, .ok ((b, outcome) :: executed))

/-- The transaction hashes on the winning branch. -/
def branchTxHashes : List H :=
  executed.flatMap (fun p => p.1.transactions.map Transaction.hash)

/-- The canonical heights a reorg abandons. -/
def abandonedHeights : List ℕ :=
  List.range' (ancestor + 1) (oldHead - ancestor)

/-- Phase two of a reorg: the one batch that drops the old branch's rows and
writes the new branch. -/
def reorgOps : List (BatchOp H) :=
  (abandonedHeights ancestor oldHead).flatMap (db.abandonOps (branchTxHashes executed)) ++
    executed.flatMap (fun p => Database.commitBlockOps p.1 p.2.receipts p.2.stateRoot)

/-- The transactions a reorg displaces. -/
def displacedTxs : List Transaction :=
  (abandonedHeights ancestor oldHead).flatMap (fun n =>
    ((db.getBlockByNumber n).map (Database.displacedOf (branchTxHashes executed))).getD [])

/-- `reorg_to` from the head `oldHead`: adopt the branch that ends in `tip`. -/
def reorgFrom (oldHead : SealedBlock H) (tipHash : H) (tip : Block H) :
    Chain H X × Except (ChainError H) (List Transaction) :=
  let finalizedHeight := max c.engine.finalizedHeight c.finalized.1
  match collectBranch c.db (tip.number + 1) tipHash tip with
  | .error e => (c, .error e)
  | .ok (branch, ancestor) =>
    if ¬ retainsFinalized c.finalized finalizedHeight branch ancestor then
      (c, .error (.invalidBlock (.abandonsFinalized finalizedHeight ancestor.number)))
    else
      match executeBranch ex c.db.blocksByHash c.exec ancestor.stateRoot branch.reverse with
      | (x, .error e) => ({ c with exec := x }, .error e)
      | (x, .ok executed) =>
        ({ c with
            exec := x
            db := c.db.writeBatch
              (reorgOps c.db ancestor.number oldHead.block.number executed)
            root := (executed.getLast?.map (fun p => p.2.stateRoot)).getD ancestor.stateRoot
            head := some ⟨tipHash, tip⟩ },
          .ok (displacedTxs c.db ancestor.number oldHead.block.number executed))

/-- Makes a block the head, from another branch. -/
def reorgTo (tipHash : H) (tip : Block H) : Chain H X × Except (ChainError H) (List Transaction) :=
  match c.head with
  | none => (c, .error .genesisNotFound)
  | some oldHead => reorgFrom ex c oldHead tipHash tip

/-! ## The three operations -/

/-- The fork choice: a greater height wins, then a smaller hash. -/
def better (number : ℕ) (hash : H) (head : SealedBlock H) : Bool :=
  head.block.number < number || (number == head.block.number && hash < head.hash)

/-- The end of `import_block` for a block that has been accepted: extend the
head, or store the block on its branch and apply the fork choice. -/
def adoptOn (head : SealedBlock H) (b : Block H) (outcome : ExecutionOutcome H) : Chain H X :=
  if b.parentHash = head.hash then commitCanonical c b outcome.receipts outcome.stateRoot
  else
    let c := { c with db := c.db.applyOp (.putBlock b.hash b) }
    -- a refused reorg is logged and the block stays on its branch
    if better b.number b.hash head then (reorgTo ex c b.hash b).1 else c

/-- The fork choice needs a head. -/
def adopt (outcome : ExecutionOutcome H) : Chain H X × Except (ChainError H) H :=
  match c.head with
  | none => (c, .error .genesisNotFound)
  | some head => (adoptOn ex c head b outcome, .ok b.hash)

/-- **A block arrives.** -/
def importBlock : Chain H X × Except (ChainError H) H :=
  if (c.db.blocksByHash b.hash).isSome || (c.db.blockHashIndex b.hash).isSome then
    (c, .error .blockAlreadyKnown)
  else
    match c.db.getBlockByHash b.parentHash with
    | none => (c, .error (.invalidParent none b.parentHash))
    | some parent =>
      match c.engine.validateBlock now b parent with
      | .error e => (c, .error (.consensus e))
      | .ok () =>
        if ConsensusEngine.checksProofs b ∧
            b.header.proofsRoot ≠ ConsensusEngine.expectedProofsRoot b then
          (c, .error (.invalidBlock .inferenceProofsRootMismatch))
        else
          match executeBlock ex c.exec c.db.blocksByHash b parent.stateRoot with
          | (x, .error e) => ({ c with exec := x }, .error e)
          | (x, .ok outcome) =>
            if outcome.stateRoot ≠ b.stateRoot then
              ({ c with exec := x }, .error (.invalidBlock .stateRootMismatch))
            else if outcome.gasUsed ≠ b.header.gasUsed then
              ({ c with exec := x }, .error (.invalidBlock .gasUsedMismatch))
            else adopt ex { c with exec := x } b outcome

/-- `store_produced_block` on the head `head`, which the block must extend. -/
def storeProducedOn (head : SealedBlock H) (b : Block H) : Chain H X × Except (ChainError H) Unit :=
  if b.parentHash ≠ head.hash then
    (c, .error (.invalidParent (some head.hash) b.parentHash))
  else
    match c.engine.validateBlock now b head.block with
    | .error e => (c, .error (.consensus e))
    | .ok () =>
      match executeBlock ex c.exec c.db.blocksByHash b head.block.stateRoot with
      | (x, .error e) => ({ c with exec := x }, .error e)
      | (x, .ok outcome) =>
        if outcome.stateRoot ≠ b.stateRoot then
          ({ c with exec := x }, .error (.invalidBlock .producedStateRootMismatch))
        else if outcome.gasUsed ≠ b.header.gasUsed then
          ({ c with exec := x }, .error (.invalidBlock .producedGasUsedMismatch))
        else (commitCanonical { c with exec := x } b outcome.receipts outcome.stateRoot, .ok ())

/-- A block of this node's own. -/
def storeProducedBlock : Chain H X × Except (ChainError H) Unit :=
  match c.head with
  | none => (c, .error .genesisNotFound)
  | some head => storeProducedOn ex now c head b

/-- `record_finalized`: only a canonical block is recorded, and only a greater
height replaces the record. -/
def recordFinalized (height : ℕ) (hash : H) : Chain H X :=
  if c.db.isCanonical hash height then
    { c with
      finalized := if height > c.finalized.1 then (height, hash) else c.finalized
      engine := { c.engine with finalizedHeight := max height c.engine.finalizedHeight } }
  else c

/-! ## Opening a database -/

/-- `init_genesis` on an empty database: the genesis block, committed with its
metadata over the state columns `x` of the genesis allocations, whose root is
`stateRoot`. -/
def initGenesis (config : GenesisConfig) (engine : ConsensusEngine H) (x : X) (stateRoot : H) :
    Chain H X where
  db := (Database.empty H).writeBatch
    (Database.commitBlockOps (config.genesisBlock stateRoot) [] stateRoot ++
      [.putGenesisHash (config.genesisBlock stateRoot).hash, .putChainId config.chainId])
  exec := x
  head := some ⟨(config.genesisBlock stateRoot).hash, config.genesisBlock stateRoot⟩
  root := stateRoot
  finalized := (0, (config.genesisBlock stateRoot).hash)
  engine :=
    { engine with
      genesisSeed := engine.genesisSeed.or (some (config.genesisBlock stateRoot).hash) }

/-- The head `init_genesis` loads from a database that has a genesis. -/
def loadHead : Option (SealedBlock H) := do
  let height ← db.latestBlockNumber
  let b ← db.getBlockByNumber height
  return ⟨b.hash, b⟩

/-- The state root `init_genesis` restores: the recorded one, else the head's;
a database with neither keeps the root `fresh` of a new state. -/
def loadRoot (fresh : H) : H :=
  match db.latestStateRoot with
  | some root => root
  | none => ((loadHead db).map (fun head => head.block.stateRoot)).getD fresh

end Chain

end Qfc
