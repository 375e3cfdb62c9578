import QfcCore.Types.Block

/-!
# The chain's columns

The column families of the database that `qfc-chain/src/chain.rs` reads and
writes, as typed partial maps, and the atomic write batch. A batch is the list
of its operations in insertion order; writing it applies them one after the
other. Serialisation is left out: a column holds the values its rows decode
to, and the storage calls themselves do not fail.
-/

namespace Qfc

open Function

/-- The columns of the chain. -/
structure Database (H : Type) where
  /-- `BLOCK_HEADERS`, by height. -/
  blockHeaders : ℕ → Option (BlockHeader H)
  /-- `BLOCK_BODIES`, by height. -/
  blockBodies : ℕ → Option (BlockBody H)
  /-- `BLOCK_HASH_INDEX`: the height of a canonical block. -/
  blockHashIndex : H → Option ℕ
  /-- `BLOCKS_BY_HASH`: every block of any branch. -/
  blocksByHash : H → Option (Block H)
  transactions : H → Option Transaction
  /-- `TX_INDEX`: height and index of a transaction. -/
  txIndex : H → Option (ℕ × UInt32)
  receipts : H → Option (Receipt H)
  /-- `METADATA`, the row `latest_block_number`. -/
  latestBlockNumber : Option ℕ
  /-- `METADATA`, the row `latest_state_root`. -/
  latestStateRoot : Option H
  /-- `METADATA`, the row `genesis_hash`. -/
  genesisHash : Option H
  /-- `METADATA`, the row `chain_id`. -/
  chainId : Option UInt64

/-- A database with no row. -/
def Database.empty (H : Type) : Database H where
  blockHeaders _ := none
  blockBodies _ := none
  blockHashIndex _ := none
  blocksByHash _ := none
  transactions _ := none
  txIndex _ := none
  receipts _ := none
  latestBlockNumber := none
  latestStateRoot := none
  genesisHash := none
  chainId := none

/-- One operation of a write batch. -/
inductive BatchOp (H : Type)
  | putHeader (number : ℕ) (header : BlockHeader H)
  | putBody (number : ℕ) (body : BlockBody H)
  | putHashIndex (hash : H) (number : ℕ)
  | putBlock (hash : H) (block : Block H)
  | putTransaction (hash : H) (tx : Transaction)
  | putTxIndex (hash : H) (location : ℕ × UInt32)
  | putReceipt (hash : H) (receipt : Receipt H)
  | putLatestBlockNumber (number : ℕ)
  | putLatestStateRoot (root : H)
  | putGenesisHash (hash : H)
  | putChainId (id : UInt64)
  | deleteHashIndex (hash : H)
  | deleteReceipt (hash : H)
  | deleteTxIndex (hash : H)
  | deleteTransaction (hash : H)

namespace Database

variable {H : Type} [HashScheme H] (b : Block H) (db : Database H) (hash : H)

/-- The effect of one operation. -/
def applyOp : BatchOp H → Database H
  | .putHeader n h => { db with blockHeaders := update db.blockHeaders n (some h) }
  | .putBody n b => { db with blockBodies := update db.blockBodies n (some b) }
  | .putHashIndex h n => { db with blockHashIndex := update db.blockHashIndex h (some n) }
  | .putBlock h b => { db with blocksByHash := update db.blocksByHash h (some b) }
  | .putTransaction h t => { db with transactions := update db.transactions h (some t) }
  | .putTxIndex h l => { db with txIndex := update db.txIndex h (some l) }
  | .putReceipt h r => { db with receipts := update db.receipts h (some r) }
  | .putLatestBlockNumber n => { db with latestBlockNumber := some n }
  | .putLatestStateRoot r => { db with latestStateRoot := some r }
  | .putGenesisHash h => { db with genesisHash := some h }
  | .putChainId i => { db with chainId := some i }
  | .deleteHashIndex h => { db with blockHashIndex := update db.blockHashIndex h none }
  | .deleteReceipt h => { db with receipts := update db.receipts h none }
  | .deleteTxIndex h => { db with txIndex := update db.txIndex h none }
  | .deleteTransaction h => { db with transactions := update db.transactions h none }

/-- `write_batch_sync`: the operations in insertion order. -/
def writeBatch (batch : List (BatchOp H)) : Database H :=
  batch.foldl applyOp db

@[simp] theorem writeBatch_nil : db.writeBatch [] = db := rfl

@[simp] theorem writeBatch_cons (op : BatchOp H) (l : List (BatchOp H)) :
    db.writeBatch (op :: l) = (db.applyOp op).writeBatch l := rfl

theorem writeBatch_append (l m : List (BatchOp H)) :
    db.writeBatch (l ++ m) = (db.writeBatch l).writeBatch m :=
  List.foldl_append

/-! ## Reading blocks -/

/-- `get_block_by_number`: header and body rows must both be there. -/
def getBlockByNumber (n : ℕ) : Option (Block H) :=
  match db.blockHeaders n, db.blockBodies n with
  | some header, some body => some (Block.ofParts header body)
  | _, _ => none

/-- `get_block_by_hash`: the hash-keyed store, and for old databases the
canonical index. -/
def getBlockByHash : Option (Block H) :=
  match db.blocksByHash hash with
  | some b => some b
  | none =>
    match db.blockHashIndex hash with
    | some n => db.getBlockByNumber n
    | none => none

/-- `is_canonical`: the block at that height has that hash. -/
def isCanonical (number : ℕ) : Bool :=
  match db.getBlockByNumber number with
  | some b => b.hash = hash
  | none => false

/-! ## Resolving transactions -/

/-- `canonical_tx_at`: the canonical block and the position a transaction is
recorded at, provided it really sits there. -/
def canonicalTxAt : Option (Block H × ℕ) := do
  let (height, index) ← db.txIndex hash
  let b ← db.getBlockByNumber height
  let tx ← b.transactions[index.toNat]?
  if (tx.hash : H) = hash then return (b, index.toNat) else none

/-- `get_receipt_with_block_info`: the receipt, with the hash and the height
of the block. -/
def getReceiptWithBlockInfo : Option (Receipt H × H × ℕ) := do
  let (b, _) ← db.canonicalTxAt hash
  let r ← db.receipts hash
  return (r, b.hash, b.number)

/-! ## The batches of the chain -/

/-- The transaction rows of a block. -/
def txOps (number : ℕ) (txs : List Transaction) : List (BatchOp H) :=
  txs.zipIdx.flatMap (fun p =>
    [.putTransaction p.1.hash p.1, .putTxIndex p.1.hash (number, UInt32.ofNat p.2)])

/-- `append_block_to_batch`: header, body, hash index, the block by its hash,
and the rows of its transactions. -/
def appendBlockOps : List (BatchOp H) :=
  [.putHeader b.number b.header, .putBody b.number b.body,
    .putHashIndex b.hash b.number, .putBlock b.hash b] ++ txOps b.number b.transactions

/-- `append_receipts_and_head_to_batch`. -/
def appendReceiptsAndHeadOps (receipts : List (Receipt H)) (root : H) : List (BatchOp H) :=
  receipts.map (fun r => .putReceipt r.txHash r) ++
    [.putLatestBlockNumber b.number, .putLatestStateRoot root]

/-- The batch of `commit_block`. -/
def commitBlockOps (receipts : List (Receipt H)) (root : H) : List (BatchOp H) :=
  appendBlockOps b ++ appendReceiptsAndHeadOps b receipts root

/-- The rows of a displaced transaction that a reorg deletes. -/
def displacedOps (tx : Transaction) : List (BatchOp H) :=
  [.deleteReceipt tx.hash, .deleteTxIndex tx.hash, .deleteTransaction tx.hash]

/-- The transactions of an abandoned block that are not on the new branch. -/
def displacedOf (kept : List H) (old : Block H) : List Transaction :=
  old.transactions.filter (fun tx => (tx.hash : H) ∉ kept)

/-- What a reorg deletes for one abandoned height. -/
def abandonOps (kept : List H) (number : ℕ) : List (BatchOp H) :=
  match db.getBlockByNumber number with
  | none => []
  | some old => .deleteHashIndex old.hash :: (displacedOf kept old).flatMap displacedOps

end Database

end Qfc
