import QfcCore.Chain.ForkChoice

/-!
# Log queries

`get_logs` of `qfc-rpc/src/server.rs`, on the columns of the chain; the texts of a filter
are taken as parsed. The index of a log counts all logs of the queried blocks, and a query
by hash reads the canonical block at the height of the block with that hash. A log has so
different indices in different queries, and may be of another block than the one asked for
(`logs_do_not_compose`).
-/

namespace Qfc

open List Chain

/-- `RpcLog`, before its values are written out as texts. -/
structure RpcLog (H : Type) where
  log : Log H
  blockNumber : ℕ
  blockHash : H
  transactionHash : H
  transactionIndex : UInt32
  logIndex : UInt32
deriving DecidableEq

/-- A height in a request. -/
inductive BlockNumber
  | number (n : ℕ)
  | latest | safe | finalized | pending | earliest

/-- Which logs are asked for. -/
structure LogFilter (H : Type) where
  fromBlock : Option BlockNumber
  toBlock : Option BlockNumber
  address : List Address
  topics : List (Option (List H))
  blockHash : Option H

/-- `resolve_block_number`, with the number of the head. -/
def resolveBlockNumber (head : ℕ) : Option BlockNumber → ℕ
  | some (.number n) => n
  | some .earliest => 0
  | _ => head

variable {H : Type} [HashScheme H]

namespace LogFilter

variable (filter : LogFilter H)

/-- One of the addresses, and one of the topics at each place that names some. -/
def passes (r : RpcLog H) : Bool :=
  (filter.address.isEmpty || filter.address.contains r.log.address) &&
    (filter.topics.take 4).zipIdx.all fun p =>
      match p.1, r.log.topics[p.2]? with
      | none, _ => true
      | some allowed, some topic => allowed.contains topic
      | some _, none => false

/-- The logs that pass; `global_log_index` counts all of them. -/
def collect (globalLogIndex : ℕ) (logs : List (RpcLog H)) : List (RpcLog H) :=
  ((logs.zipIdx globalLogIndex).filter fun p => filter.passes p.1).map fun p =>
    { p.1 with logIndex := .ofNat p.2 }

variable {filter} {l m : List (RpcLog H)} {i : ℕ}

theorem collect_append :
    filter.collect i (l ++ m) = filter.collect i l ++ filter.collect (i + l.length) m := by
  simp [collect, zipIdx_append]

theorem collect_length : (filter.collect i l).length = l.countP filter.passes := by
  rw [collect, length_map, ← countP_eq_length_filter]
  conv_rhs => rw [← zipIdx_map_fst i l, countP_map]
  rfl

/-- The index to start from shows only in logs that pass. -/
theorem collect_eq_iff :
    filter.collect i l = filter.collect 0 l ↔ (filter.collect 0 l ≠ [] → UInt32.ofNat i = 0) := by
  unfold collect
  rw [zipIdx_eq_map_add, filter_map, map_map]
  change map _ (List.filter (fun p => filter.passes p.1) l.zipIdx) = _ ↔ _
  generalize List.filter _ l.zipIdx = found
  cases found <;> simp +contextual

end LogFilter

namespace Database

variable (db : Database H) (head : ℕ) (filter : LogFilter H)

/-- The logs of a block in their order, before they are counted. -/
def blockLogs (number : ℕ) : List (RpcLog H) :=
  match db.getBlockByNumber number with
  | none => []
  | some b => b.transactions.zipIdx.flatMap fun p =>
    match db.receipts p.1.hash with
    | none => []
    | some r => r.logs.map fun log => ⟨log, number, b.hash, p.1.hash, .ofNat p.2, 0⟩

/-- Those of the blocks from one on and before another. -/
def logsIn (start stop : ℕ) : List (RpcLog H) := (range' start (stop - start)).flatMap db.blockLogs

/-- The blocks that are queried. -/
def blockRange : Except String (ℕ × ℕ) :=
  match filter.blockHash with
  | some hash =>
    match db.getBlockByHash hash with
    | some b => .ok (b.number, b.number)
    | none => .error "block not found"
  | none => .ok (resolveBlockNumber head filter.fromBlock, resolveBlockNumber head filter.toBlock)

/-- `get_logs`; an error is the text of `InvalidParams`. -/
def getLogs : Except String (List (RpcLog H)) := do
  let (fromBlock, toBlock) ← db.blockRange head filter
  if (fromBlock + 10000) % 2 ^ 64 < toBlock then
    throw "block range too large, max 10000 blocks"
  let resultLogs := filter.collect 0 (db.logsIn fromBlock (toBlock + 1))
  if 10000 < resultLogs.length then
    throw "query returned more than 10000 results, narrow your filter"
  return resultLogs

/-- **The logs of a block that pass**, each with its position in the block. -/
def ownLogs (number : ℕ) : List (RpcLog H) := filter.collect 0 (db.blockLogs number)

variable {db head filter} {a b n : ℕ}

theorem logsIn_self : db.logsIn n (n + 1) = db.blockLogs n := by
  simp [logsIn]

theorem logsIn_cons (h : a < n) : db.logsIn a n = db.blockLogs a ++ db.logsIn (a + 1) n := by
  unfold logsIn
  rw [show n - a = n - (a + 1) + 1 by omega, range'_succ, flatMap_cons]

/-- All blocks are counted in one go. -/
theorem collect_range {i : ℕ} (k : ℕ) :
    filter.collect i ((range' a k).flatMap db.blockLogs) = (range' a k).flatMap (db.ownLogs filter) ↔
      ∀ n ∈ range' a k, db.ownLogs filter n ≠ [] → UInt32.ofNat (i + (db.logsIn a n).length) = 0 := by
  induction k generalizing a i with
  | zero => simp [LogFilter.collect]
  | succ k ih =>
    rw [range'_succ, flatMap_cons, flatMap_cons, LogFilter.collect_append,
      append_eq_append_iff_of_size_eq_left, ih, forall_mem_cons]
    swap
    · exact LogFilter.collect_length.trans LogFilter.collect_length.symm
    refine and_congr ?_ (forall₂_congr fun n hn => ?_)
    · simpa [logsIn, ownLogs] using LogFilter.collect_eq_iff
    · rw [logsIn_cons (mem_range'_1.mp hn).1, length_append, add_assoc]

theorem getLogs_eq (hrange : db.blockRange head filter = .ok (a, b))
    (hblocks : b ≤ (a + 10000) % 2 ^ 64)
    (hresults : (db.logsIn a (b + 1)).countP filter.passes ≤ 10000) :
    db.getLogs head filter = .ok (filter.collect 0 (db.logsIn a (b + 1))) := by
  rw [← LogFilter.collect_length (i := 0)] at hresults
  unfold getLogs
  rw [hrange]
  simp only [bind, Except.bind]
  rw [if_neg (not_lt.mpr hblocks), if_neg (not_lt.mpr hresults)]
  rfl

/-- A log is one of the canonical block. -/
theorem isCanonical_iff {r : RpcLog H} {hash : H} (hr : r ∈ db.ownLogs filter n) :
    db.isCanonical hash n = true ↔ r.blockHash = hash := by
  obtain ⟨p, hp, rfl⟩ := mem_map.mp hr
  have hmem : p.1 ∈ db.blockLogs n := fst_mem_of_mem_zipIdx (mem_filter.mp hp).1
  unfold isCanonical
  unfold blockLogs at hmem
  split at hmem
  · cases hmem
  next block hblock =>
    obtain ⟨q, -, hq⟩ := mem_flatMap.mp hmem
    rw [hblock]
    split at hq
    · cases hq
    · obtain ⟨log, -, hlog⟩ := mem_map.mp hq
      rw [← hlog]
      exact decide_eq_true_iff

/-- **When log queries compose.** A query over some blocks returns the logs of each block
with their positions in it if no block before one with such logs has logs at all, and a
query by hash returns logs of the block with that hash if it is canonical, or if there are
none. The query of a single block returns its logs. -/
theorem getLogs_composes_iff (hrange : db.blockRange head filter = .ok (a, b))
    (hblocks : b ≤ (a + 10000) % 2 ^ 64)
    (hresults : (db.logsIn a (b + 1)).countP filter.passes ≤ 10000) :
    (db.getLogs head filter = .ok ((range' a (b + 1 - a)).flatMap (db.ownLogs filter)) ↔
      ∀ n ∈ range' a (b + 1 - a), db.ownLogs filter n ≠ [] →
        UInt32.ofNat (db.logsIn a n).length = 0) ∧
    (∀ n ∈ range' a (b + 1 - a), n + 10000 < 2 ^ 64 → db.getLogs head { filter with
      fromBlock := some (.number n), toBlock := some (.number n), blockHash := none } =
        .ok (db.ownLogs filter n)) ∧
    ∀ hash ∈ filter.blockHash, db.getLogs head filter = .ok (db.ownLogs filter a) ∧
      ((∀ r ∈ db.ownLogs filter a, r.blockHash = hash) ↔
        db.isCanonical hash a = true ∨ db.ownLogs filter a = []) := by
  have hlogs := getLogs_eq hrange hblocks hresults
  refine ⟨?_, fun n hn hfits => ?_, fun hash hhash => ⟨?_, fun h => ?_, ?_⟩⟩
  · rw [hlogs, Except.ok.injEq, logsIn, collect_range]
    simp only [zero_add]
  · rw [getLogs_eq (a := n) (b := n) rfl (by omega) ?_, logsIn_self]
    · rfl
    · rw [logsIn_self]
      have hpart : (db.blockLogs n).Sublist (db.logsIn a (b + 1)) :=
        sublist_flatten_of_mem (mem_map_of_mem hn)
      exact hpart.countP_le.trans hresults
  · obtain rfl : a = b := by
      unfold blockRange at hrange
      rw [hhash] at hrange
      dsimp only at hrange
      split at hrange <;> cases hrange
      rfl
    rw [hlogs, logsIn_self]
    rfl
  · cases hown : db.ownLogs filter a with
    | nil => exact .inr rfl
    | cons r rest =>
      have hr : r ∈ db.ownLogs filter a := hown ▸ mem_cons_self
      exact .inl ((isCanonical_iff hr).mpr (h r hr))
  · rintro (hcanonical | hnone) r hr
    · exact (isCanonical_iff hr).mp hcanonical
    · rw [hnone] at hr
      cases hr

/-- A transfer with a nonce. -/
def transferOf (nonce : ℕ) : Transaction :=
  ⟨⟨.transfer, 9000, .ofNat nonce, none, .zero, [], 21000, .zero, .zero⟩, .zero⟩

/-- A block of one transaction. -/
def childOf (p : Block CodeName) (nonce : ℕ) : Block CodeName :=
  { emptyChild p nonce with transactions := [transferOf nonce] }

/-- The first block after the genesis block. -/
def firstBlock : Block CodeName := childOf (testnet.genesisBlock 0) 7

/-- A block beside it. -/
def otherBlock : Block CodeName := childOf (testnet.genesisBlock 0) 9

/-- Two blocks of one log each, and the other block. -/
def loggedDb : Database CodeName :=
  let receipt (nonce : ℕ) : Receipt CodeName :=
    ⟨(transferOf nonce).hash, 0, .success, 0, 0, [⟨.zero, [], []⟩], none⟩
  (Database.empty CodeName).writeBatch (commitBlockOps firstBlock [receipt 7] 0 ++
    commitBlockOps (childOf firstBlock 8) [receipt 8] 0 ++ [.putBlock otherBlock.hash otherBlock])

/-- All logs of some blocks. -/
def allLogs (start stop : ℕ) : LogFilter CodeName :=
  ⟨some (.number start), some (.number stop), [], [], none⟩

/-- Before the first block there is no log. -/
theorem first_blocks_compose :
    loggedDb.getLogs 2 (allLogs 0 1) = .ok ((range' 0 2).flatMap (loggedDb.ownLogs (allLogs 0 1))) ∧
      loggedDb.ownLogs (allLogs 0 1) 1 ≠ [] :=
  ⟨(getLogs_composes_iff rfl (by decide) (by decide +kernel)).1.mpr (by decide +kernel),
    by decide +kernel⟩

/-- **The log of the second block has another index in a query of both blocks**, and the
query for the other block returns the log of the first. -/
theorem logs_do_not_compose :
    ((loggedDb.getLogs 2 (allLogs 1 2)).toOption.map (map RpcLog.logIndex) = some [0, 1] ∧
      (loggedDb.getLogs 2 (allLogs 2 2)).toOption.map (map RpcLog.logIndex) = some [0]) ∧
    (loggedDb.getLogs 2 { allLogs 1 1 with blockHash := some otherBlock.hash }).toOption.map
      (map RpcLog.blockHash) = some [firstBlock.hash] ∧ firstBlock.hash ≠ otherBlock.hash := by
  decide +kernel

end Database

end Qfc
