import QfcCore.Lib.Column
import QfcCore.Chain.Steps

/-!
# What the batches write

Each batch of the chain as one update of the columns: the rows of a committed
block, the rows a reorg deletes, and a branch as its blocks committed one
after the other. The transaction rows of a block are written in order, so the
last transaction of a hash decides.
-/

namespace Qfc

open Function

namespace Database

variable {H : Type} [HashScheme H]

open Column

/-! ## Rows keyed by the hash of a transaction -/

/-- The rows of the transactions column for a block. -/
def transactionRows (txs : List Transaction) : List (H × Transaction) :=
  txs.map (fun tx => (tx.hash, tx))

/-- The rows of the location column for a block at height `n`, whose
transactions are counted from `k`. -/
def locationRows (n k : ℕ) (txs : List Transaction) : List (H × (ℕ × UInt32)) :=
  (txs.zipIdx k).map (fun p => (p.1.hash, (n, UInt32.ofNat p.2)))

/-- The rows of the receipts column for a block. -/
def receiptRows (rs : List (Receipt H)) : List (H × Receipt H) :=
  rs.map (fun r => (r.txHash, r))

theorem writeBatch_txOps_from (db : Database H) (n k : ℕ) (txs : List Transaction) :
    db.writeBatch ((txs.zipIdx k).flatMap (fun p =>
      [.putTransaction p.1.hash p.1, .putTxIndex p.1.hash (n, UInt32.ofNat p.2)]))
      = { db with
          transactions := putAll db.transactions (transactionRows txs)
          txIndex := putAll db.txIndex (locationRows n k txs) } := by
  induction txs generalizing db k with
  | nil => rfl
  | cons tx txs ih =>
    rw [List.zipIdx_cons, List.flatMap_cons, writeBatch_append, ih]
    rfl

theorem writeBatch_receiptOps (db : Database H) (rs : List (Receipt H)) :
    db.writeBatch (rs.map (fun r => .putReceipt r.txHash r))
      = { db with receipts := putAll db.receipts (receiptRows rs) } := by
  induction rs generalizing db with
  | nil => rfl
  | cons r rs ih =>
    rw [List.map_cons, writeBatch_cons, ih]
    rfl

/-- The rows of a committed block, all columns at once. -/
theorem writeBatch_commitBlockOps (db : Database H) (b : Block H) (rs : List (Receipt H))
    (root : H) :
    db.writeBatch (commitBlockOps b rs root)
      = { db with
          blockHeaders := update db.blockHeaders b.number (some b.header)
          blockBodies := update db.blockBodies b.number (some b.body)
          blockHashIndex := update db.blockHashIndex b.hash (some b.number)
          blocksByHash := update db.blocksByHash b.hash (some b)
          transactions := putAll db.transactions (transactionRows b.transactions)
          txIndex := putAll db.txIndex (locationRows b.number 0 b.transactions)
          receipts := putAll db.receipts (receiptRows rs)
          latestBlockNumber := some b.number
          latestStateRoot := some root } := by
  unfold commitBlockOps appendBlockOps appendReceiptsAndHeadOps txOps
  rw [writeBatch_append, writeBatch_append, writeBatch_append, writeBatch_txOps_from,
    writeBatch_receiptOps]
  rfl

/-! ## The rows a reorg deletes -/

/-- The hashes of the transactions an abandoned height displaces. -/
def displacedHashes (db : Database H) (kept : List H) (n : ℕ) : List H :=
  ((db.getBlockByNumber n).map
    (fun b => (displacedOf kept b).map Transaction.hash)).getD []

/-- The hash of the block at an abandoned height. -/
def abandonedHashes (db : Database H) (n : ℕ) : List H :=
  ((db.getBlockByNumber n).map (fun b => [b.hash])).getD []

theorem writeBatch_displacedOps (db : Database H) (txs : List Transaction) :
    db.writeBatch (txs.flatMap displacedOps)
      = { db with
          receipts := eraseAll db.receipts (txs.map Transaction.hash)
          txIndex := eraseAll db.txIndex (txs.map Transaction.hash)
          transactions := eraseAll db.transactions (txs.map Transaction.hash) } := by
  induction txs generalizing db with
  | nil => simp
  | cons tx txs ih =>
    rw [List.flatMap_cons, writeBatch_append, ih, List.map_cons, ← eraseAll_cons,
      ← eraseAll_cons, ← eraseAll_cons]
    rfl

theorem writeBatch_abandonOps (db old : Database H) (kept : List H) (n : ℕ) :
    db.writeBatch (old.abandonOps kept n)
      = { db with
          blockHashIndex := eraseAll db.blockHashIndex (old.abandonedHashes n)
          receipts := eraseAll db.receipts (old.displacedHashes kept n)
          txIndex := eraseAll db.txIndex (old.displacedHashes kept n)
          transactions := eraseAll db.transactions (old.displacedHashes kept n) } := by
  unfold abandonOps abandonedHashes displacedHashes
  cases old.getBlockByNumber n with
  | none => simp
  | some b =>
    rw [writeBatch_cons, writeBatch_displacedOps]
    simp only [Option.map_some, Option.getD_some]
    rw [← eraseAll_cons, eraseAll_nil]
    rfl

/-- What the first half of a reorg's batch deletes: the index rows of the
abandoned blocks and the rows of the displaced transactions. -/
theorem writeBatch_abandon (db old : Database H) (kept : List H) (ns : List ℕ) :
    db.writeBatch (ns.flatMap (old.abandonOps kept))
      = { db with
          blockHashIndex := eraseAll db.blockHashIndex (ns.flatMap old.abandonedHashes)
          receipts := eraseAll db.receipts (ns.flatMap (old.displacedHashes kept))
          txIndex := eraseAll db.txIndex (ns.flatMap (old.displacedHashes kept))
          transactions :=
            eraseAll db.transactions (ns.flatMap (old.displacedHashes kept)) } := by
  induction ns generalizing db with
  | nil => simp
  | cons n ns ih =>
    rw [List.flatMap_cons, writeBatch_append, ih, writeBatch_abandonOps]
    simp [eraseAll_eraseAll]

/-! ## A branch -/

/-- The batch of a branch: its blocks, one after the other. -/
def branchOps (executed : List (Block H × ExecutionOutcome H)) : List (BatchOp H) :=
  executed.flatMap (fun p => commitBlockOps p.1 p.2.receipts p.2.stateRoot)

theorem branchOps_cons (p : Block H × ExecutionOutcome H)
    (l : List (Block H × ExecutionOutcome H)) :
    branchOps (p :: l) = commitBlockOps p.1 p.2.receipts p.2.stateRoot ++ branchOps l := rfl

theorem branchOps_append (l m : List (Block H × ExecutionOutcome H)) :
    branchOps (l ++ m) = branchOps l ++ branchOps m :=
  List.flatMap_append

/-- A branch of blocks that the store already has leaves the store as it is. -/
theorem writeBatch_branchOps_blocksByHash (db : Database H)
    {executed : List (Block H × ExecutionOutcome H)}
    (h : ∀ p ∈ executed, db.blocksByHash p.1.hash = some p.1) :
    (db.writeBatch (branchOps executed)).blocksByHash = db.blocksByHash := by
  induction executed generalizing db with
  | nil => rfl
  | cons p executed ih =>
    have hself : (db.writeBatch (commitBlockOps p.1 p.2.receipts p.2.stateRoot)).blocksByHash
        = db.blocksByHash := by
      rw [writeBatch_commitBlockOps]
      show update db.blocksByHash p.1.hash (some p.1) = db.blocksByHash
      rw [← h p List.mem_cons_self, update_eq_self]
    rw [branchOps_cons, writeBatch_append, ih, hself]
    intro q hq
    rw [hself]
    exact h q (List.mem_cons_of_mem p hq)

variable (db : Database H) (executed : List (Block H × ExecutionOutcome H))
include db executed

/-- A branch writes the transaction rows of its blocks in order. -/
theorem writeBatch_branchOps_rows :
    (db.writeBatch (branchOps executed)).txIndex
      = putAll db.txIndex
          (executed.flatMap (fun p => locationRows p.1.number 0 p.1.transactions)) ∧
    (db.writeBatch (branchOps executed)).receipts
      = putAll db.receipts (executed.flatMap (fun p => receiptRows p.2.receipts)) := by
  induction executed generalizing db with
  | nil => exact ⟨rfl, rfl⟩
  | cons p executed ih =>
    rw [branchOps_cons, writeBatch_append, List.flatMap_cons, List.flatMap_cons, putAll_append,
      putAll_append]
    obtain ⟨hloc, hrec⟩ := ih (db.writeBatch (commitBlockOps p.1 p.2.receipts p.2.stateRoot))
    rw [hloc, hrec, writeBatch_commitBlockOps]
    exact ⟨rfl, rfl⟩

/-- The last block of a branch decides the head metadata. -/
theorem writeBatch_branchOps_latest (b : Block H) (o : ExecutionOutcome H) :
    (db.writeBatch (branchOps (executed ++ [(b, o)]))).latestBlockNumber = some b.number ∧
    (db.writeBatch (branchOps (executed ++ [(b, o)]))).latestStateRoot = some o.stateRoot := by
  rw [branchOps_append, writeBatch_append, branchOps_cons, writeBatch_append,
    writeBatch_commitBlockOps]
  exact ⟨rfl, rfl⟩

end Database

end Qfc
