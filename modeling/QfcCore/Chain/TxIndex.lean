import QfcCore.Chain.CanonicalIndex
import QfcCore.Chain.ForkChoice
import QfcCore.Executor.CodeRuntime

/-!
# The transaction index

The rows of a transaction (its location and its receipt) are keyed by its hash
alone. Of several occurrences on the canonical chain the last one written
stays, so as long as the columns are those that the canonical chain writes
from genesis to head, a transaction resolves exactly when some canonical block
carries it, to its last occurrence, with the receipt of that occurrence.

A reorganisation has to restore that. It deletes the rows of the abandoned
transactions that are not on the new branch and writes the rows of the branch.
This is right unless a deleted transaction also occurs at or below the common
ancestor: then it is still canonical and has lost its rows. `SharedTxKept`
excludes that, and under it the index is exact in every state of every run.
-/

namespace Qfc

open Function Database List

namespace Chain

open Column

variable {H X : Type} [HashScheme H]

/-- **The receipts an execution of `b` produced**, on the state root of its
parent and in a state the executor reached. -/
def Produced (ex : BlockExecutor H X) (x₀ : X) (parentRoot : H) (b : Block H)
    (rs : List (Receipt H)) : Prop :=
  ∃ x look x' o, ExecReach ex x₀ x ∧ executeBlock ex x look b parentRoot = (x', .ok o) ∧
    o.receipts = rs

/-! ## The rows of a chain -/

variable (log : List (Block H × List (Receipt H))) (canon : List (Block H))

/-- The location rows of a chain. -/
def chainLocations : List (H × (ℕ × UInt32)) :=
  canon.flatMap (fun b => locationRows b.number 0 b.transactions)

/-- The receipt rows of a chain whose blocks were committed with receipts. -/
def chainReceipts : List (H × Receipt H) :=
  log.flatMap (fun p => receiptRows p.2)

/-- The transaction hashes of a chain, in order. -/
def chainHashes : List H :=
  canon.flatMap (fun b => b.transactions.map Transaction.hash)

/-- The receipts of each block are those of its transactions. -/
def Matched : Prop :=
  ∀ p ∈ log, p.2.map Receipt.txHash = p.1.transactions.map Transaction.hash

theorem locationRows_keys (n k : ℕ) (txs : List Transaction) :
    (locationRows n k txs : List (H × (ℕ × UInt32))).map Prod.fst
      = txs.map Transaction.hash := by
  unfold locationRows
  rw [map_map]
  induction txs generalizing k with
  | nil => rfl
  | cons tx txs ih =>
    rw [zipIdx_cons, map_cons, map_cons, ih]
    rfl

theorem chainLocations_keys : (chainLocations canon).map Prod.fst = chainHashes canon := by
  unfold chainLocations chainHashes
  rw [map_flatMap]
  congr 1
  funext b
  exact locationRows_keys _ _ _

theorem chainReceipts_keys {log : List (Block H × List (Receipt H))} (h : Matched log) :
    (chainReceipts log).map Prod.fst = chainHashes (log.map Prod.fst) := by
  unfold chainReceipts chainHashes
  rw [map_flatMap, flatMap_map]
  refine flatMap_congr (fun p hp => ?_)
  rw [← h p hp]
  unfold receiptRows
  rw [map_map]
  rfl

theorem mem_chainHashes {canon : List (Block H)} {h : H} :
    h ∈ chainHashes canon ↔ ∃ b ∈ canon, ∃ tx ∈ b.transactions, (tx.hash : H) = h := by
  unfold chainHashes
  simp

/-- **The transaction rows are those of the canonical chain**, committed with
the receipts of `log`, and these were produced by executing the blocks. -/
structure TxRows (ex : BlockExecutor H X) (x₀ : X) (c : Chain H X) (canon : List (Block H))
    (log : List (Block H × List (Receipt H))) : Prop where
  blocks : log.map Prod.fst = canon
  matched : Matched log
  location : c.db.txIndex = putAll (fun _ => none) (chainLocations canon)
  receipt : c.db.receipts = putAll (fun _ => none) (chainReceipts log)
  produced : log.IsChain (fun p q => Produced ex x₀ p.1.stateRoot q.1 q.2)
  reached : ExecReach ex x₀ c.exec
  sized : ∀ {h : H} {b : Block H}, c.db.blocksByHash h = some b →
    b.transactions.length ≤ MAX_TRANSACTIONS_PER_BLOCK

/-! ## What the rows say -/

/-- The joint rows of a block: location and receipt of each transaction. -/
def entryRows (p : Block H × List (Receipt H)) : List (H × ((ℕ × UInt32) × Receipt H)) :=
  (p.1.transactions.zipIdx.zip p.2).map
    (fun q => (q.1.1.hash, ((p.1.number, UInt32.ofNat q.1.2), q.2)))

variable {p : Block H × List (Receipt H)} {b : Block H}

section

variable (h : p.2.map Receipt.txHash = p.1.transactions.map Transaction.hash)
include h

theorem entryRows_location :
    (entryRows p).map (fun row => (row.1, row.2.1))
      = locationRows p.1.number 0 p.1.transactions := by
  have hlen : p.1.transactions.zipIdx.length ≤ p.2.length := by
    have := congrArg length h
    rw [length_map, length_map] at this
    rw [length_zipIdx, this]
  unfold entryRows locationRows
  rw [map_map]
  conv_rhs => rw [← map_fst_zip hlen, map_map]
  rfl

theorem entryRows_receipt :
    (entryRows p).map (fun row => (row.1, row.2.2)) = receiptRows p.2 := by
  obtain ⟨b, rs⟩ := p
  unfold entryRows receiptRows
  rw [map_map]
  dsimp only at h ⊢
  generalize b.transactions = txs at h ⊢
  generalize b.number = n
  generalize 0 = k
  induction rs generalizing txs k with
  | nil => rw [zip_nil_right]; rfl
  | cons r rs ih =>
    cases txs with
    | nil => cases h
    | cons tx txs =>
      rw [map_cons, map_cons, cons.injEq] at h
      rw [zipIdx_cons, zip_cons_cons, map_cons, map_cons, ih txs h.2, h.1]
      rfl

end

/-- A joint row comes from a transaction of the block and its receipt. -/
theorem mem_entryRows {h : H} {l : ℕ × UInt32} {r : Receipt H} (hmem : (h, (l, r)) ∈ entryRows p) :
    ∃ i tx, p.1.transactions[i]? = some tx ∧ (tx.hash : H) = h ∧
      l = (p.1.number, UInt32.ofNat i) ∧ p.2[i]? = some r := by
  unfold entryRows at hmem
  obtain ⟨⟨⟨tx, i⟩, r'⟩, hq, heq⟩ := mem_map.mp hmem
  obtain ⟨j, hj⟩ := mem_iff_getElem?.mp hq
  rw [getElem?_zip_eq_some, getElem?_zipIdx] at hj
  obtain ⟨htx, hr⟩ := hj
  cases htx' : p.1.transactions[j]? with
  | none => rw [htx'] at htx; cases htx
  | some tx' =>
    rw [htx'] at htx
    cases htx
    cases heq
    exact ⟨j, tx, htx', rfl, by rw [Nat.zero_add], hr⟩

theorem entryRows_keys (h : p.2.map Receipt.txHash = p.1.transactions.map Transaction.hash) :
    (entryRows p).map Prod.fst = p.1.transactions.map Transaction.hash := by
  rw [← locationRows_keys p.1.number 0, ← entryRows_location h, map_map]
  rfl

/-- The joint rows of a chain. -/
def chainRows (log : List (Block H × List (Receipt H))) :
    List (H × ((ℕ × UInt32) × Receipt H)) :=
  log.flatMap entryRows

variable {ex : BlockExecutor H X} {log : List (Block H × List (Receipt H))} {canon : List (Block H)}
  {g : Block H} {c : Chain H X} {x₀ : X}

section Read

section

variable (ht : TxRows ex x₀ c canon log)
include ht

theorem TxRows.location_eq (h : H) :
    c.db.txIndex h = (putAll (fun _ => none) (chainRows log) h).map Prod.fst := by
  rw [putAll_map, ht.location]
  congr 1
  unfold chainRows chainLocations
  rw [map_flatMap, ← ht.blocks, flatMap_map]
  exact flatMap_congr (fun p hp => (entryRows_location (ht.matched p hp)).symm)

theorem TxRows.receipt_eq (h : H) :
    c.db.receipts h = (putAll (fun _ => none) (chainRows log) h).map Prod.snd := by
  rw [putAll_map, ht.receipt]
  congr 1
  unfold chainRows chainReceipts
  rw [map_flatMap]
  exact flatMap_congr (fun p hp => (entryRows_receipt (ht.matched p hp)).symm)

theorem TxRows.keys : (chainRows log).map Prod.fst = chainHashes canon := by
  unfold chainRows chainHashes
  rw [map_flatMap, ← ht.blocks, flatMap_map]
  exact flatMap_congr (fun p hp => entryRows_keys (ht.matched p hp))

/-- A committed block other than the genesis was executed on its parent. -/
theorem TxRows.produced_at {n : ℕ} {a : Block H} {rs : List (Receipt H)} (ha : canon[n]? = some a)
    (hb : log[n + 1]? = some (b, rs)) : Produced ex x₀ a.stateRoot b rs := by
  rw [← ht.blocks, getElem?_map] at ha
  obtain ⟨p, hp, rfl⟩ := Option.map_eq_some_iff.mp ha
  obtain ⟨hn, rfl⟩ := List.getElem?_eq_some_iff.mp hp
  obtain ⟨hn', hbe⟩ := List.getElem?_eq_some_iff.mp hb
  have hprod := isChain_iff_getElem.mp ht.produced n hn'
  rw [hbe] at hprod
  exact hprod

end

/-- How a canonical transaction resolves: to a block that carries it and to
the receipt of that very occurrence. -/
theorem TxRows.resolve (hc : ChainInv g c canon) (ht : TxRows ex x₀ c canon log)
    (hempty : g.transactions = []) {h : H} (hmem : h ∈ chainHashes canon) :
    ∃ n i a b tx r rs, canon[n]? = some a ∧ canon[n + 1]? = some b ∧
      b.transactions[i]? = some tx ∧ (tx.hash : H) = h ∧ rs[i]? = some r ∧
      Produced ex x₀ a.stateRoot b rs ∧ c.db.canonicalTxAt h = some (b, i) ∧
      c.db.receipts h = some r := by
  rw [← ht.keys] at hmem
  obtain ⟨⟨l, r⟩, hput, hrow⟩ := putAll_mem hmem (fun _ => none)
  obtain ⟨⟨b, rs⟩, hp, hentry⟩ := mem_flatMap.mp hrow
  obtain ⟨i, tx, htx, hhash, hl, hr⟩ := mem_entryRows hentry
  dsimp only at htx hl hr
  obtain ⟨m, hm⟩ := mem_iff_getElem?.mp hp
  have hb : canon[m]? = some b := by
    rw [← ht.blocks, getElem?_map, hm]
    rfl
  -- the genesis block carries nothing
  obtain ⟨n, rfl⟩ : ∃ n, m = n + 1 := by
    refine Nat.exists_eq_succ_of_ne_zero ?_
    rintro rfl
    rw [hc.genesis] at hb
    cases hb
    rw [hempty] at htx
    cases htx
  have hlt : n < canon.length := Nat.lt_of_succ_lt (List.getElem?_eq_some_iff.mp hb).1
  have ha := getElem?_eq_getElem hlt
  have hi : (UInt32.ofNat i).toNat = i := by
    have hlen := (List.getElem?_eq_some_iff.mp htx).1
    have hmax := ht.sized (hc.indexes.stored (mem_of_getElem? hb))
    have hsize : MAX_TRANSACTIONS_PER_BLOCK < UInt32.size := by decide
    exact UInt32.toNat_ofNat_of_lt' (lt_of_lt_of_le hlen hmax |>.trans hsize)
  refine ⟨n, i, _, b, tx, r, rs, ha, hb, htx, hhash, hr, ht.produced_at ha hm, ?_, ?_⟩
  · have hnum : c.db.getBlockByNumber b.number = some b := by
      rw [hc.linked.number hb]
      exact hc.indexes.getBlockByNumber_eq hb
    unfold canonicalTxAt
    rw [ht.location_eq, hput, Option.map_some, hl]
    simp only [Option.bind_eq_bind, Option.bind_some, hnum, hi, htx, hhash, if_true]
    rfl
  · rw [ht.receipt_eq, hput]
    rfl

end Read

/-- **The transaction index is exact**: a transaction resolves exactly when a
canonical block carries it, and then to such a block and to the receipt that
executing this block on its parent's state root produced at that place. -/
def TxIndexExact (ex : BlockExecutor H X) (x₀ : X) (c : Chain H X) : Prop :=
  ∀ h : H,
    ((c.db.canonicalTxAt h).isSome = true ↔
      ∃ n b, c.db.getBlockByNumber n = some b ∧ ∃ tx ∈ b.transactions, (tx.hash : H) = h) ∧
    ∀ b i, c.db.canonicalTxAt h = some (b, i) →
      ∃ n a tx r rs, c.db.getBlockByNumber n = some a ∧
        c.db.getBlockByNumber (n + 1) = some b ∧ b.parentHash = a.hash ∧
        b.transactions[i]? = some tx ∧ (tx.hash : H) = h ∧
        Produced ex x₀ a.stateRoot b rs ∧ rs[i]? = some r ∧
        c.db.getReceiptWithBlockInfo h = some (r, b.hash, b.number)

/-- The rows of the canonical chain are an exact index. -/
theorem TxRows.exact {ex : BlockExecutor H X} {x₀ : X} {g : Block H} {canon : List (Block H)}
    {log : List (Block H × List (Receipt H))} (hc : ChainInv g c canon)
    (ht : TxRows ex x₀ c canon log) (hempty : g.transactions = []) : TxIndexExact ex x₀ c := by
  have hread := hc.indexes.getBlockByNumber (Nat.zero_le _)
  have hcarried : ∀ h : H, h ∈ chainHashes canon ↔
      ∃ n b, c.db.getBlockByNumber n = some b ∧ ∃ tx ∈ b.transactions, (tx.hash : H) = h := by
    intro h
    rw [mem_chainHashes]
    constructor
    · rintro ⟨b, hb, htx⟩
      obtain ⟨n, hn⟩ := mem_iff_getElem?.mp hb
      exact ⟨n, b, by rw [hread, hn], htx⟩
    · rintro ⟨n, b, hb, htx⟩
      rw [hread] at hb
      exact ⟨b, mem_of_getElem? hb, htx⟩
  intro h
  by_cases hmem : h ∈ chainHashes canon
  · obtain ⟨n, i, a, b, tx, r, rs, ha, hb, htx, hhash, hr, hprod, hcan, hrec⟩ :=
      ht.resolve hc hempty hmem
    constructor
    · rw [hcan]
      exact ⟨fun _ => (hcarried h).mp hmem, fun _ => rfl⟩
    · intro b' i' hcan'
      rw [hcan] at hcan'
      cases hcan'
      refine ⟨n, a, tx, r, rs, by rw [hread, ha], by rw [hread, hb], hc.linked.parent ha hb, htx,
        hhash, hprod, hr, ?_⟩
      unfold getReceiptWithBlockInfo
      rw [hcan, hrec]
      rfl
  · have hnone : c.db.canonicalTxAt h = none := by
      unfold canonicalTxAt
      rw [ht.location_eq, putAll_of_notMem]
      · rfl
      · rw [ht.keys]
        exact hmem
    rw [hnone]
    refine ⟨⟨fun hsome => (by cases hsome), fun hex => absurd ((hcarried h).mpr hex) hmem⟩, ?_⟩
    intro b i hcan
    cases hcan

/-! ## Commits and reorganisations -/

section Update

variable {x : X} {branch : List (H × Block H)} {executed : List (Block H × ExecutionOutcome H)}
  {head : SealedBlock H}

/-- A block committed on the head adds its rows. -/
theorem TxRows.commit (ht : TxRows ex x₀ c canon log) (hc : ChainInv g c canon)
    (hhead : c.head = some head) {now : ℕ} {o : ExecutionOutcome H}
    (hacc : Accepted ex c now b head.block x o) :
    TxRows ex x₀ (commitCanonical { c with exec := x } b o.receipts o.stateRoot) (canon ++ [b])
      (log ++ [(b, o.receipts)]) := by
  have hlast := (hc.head_eq hhead).1
  have hprod : Produced ex x₀ head.block.stateRoot b o.receipts :=
    ⟨c.exec, _, x, o, ht.reached, hacc.executed, rfl⟩
  have hdb := writeBatch_commitBlockOps c.db b o.receipts o.stateRoot
  refine ⟨?_, ?_, ?_, ?_, ?_, ht.reached.trans (execReach_executeBlock ex hacc.executed), ?_⟩
  · rw [map_append, ht.blocks]
    rfl
  · intro p hp
    obtain hp | hp := mem_append.mp hp
    · exact ht.matched p hp
    · obtain rfl := mem_singleton.mp hp
      exact ex.receipts_match hacc.executed
  · show (c.db.writeBatch _).txIndex = _
    rw [hdb]
    unfold chainLocations
    rw [flatMap_append, putAll_append]
    show putAll c.db.txIndex _ = _
    rw [ht.location, flatMap_singleton]
    rfl
  · show (c.db.writeBatch _).receipts = _
    rw [hdb]
    unfold chainReceipts
    rw [flatMap_append, putAll_append]
    show putAll c.db.receipts _ = _
    rw [ht.receipt, flatMap_singleton]
    rfl
  · refine isChain_append.mpr ⟨ht.produced, isChain_singleton _, ?_⟩
    intro p hp q hq
    cases hq
    have hpb : p.1 = head.block := by
      rw [← ht.blocks, getLast?_map, Option.mem_def.mp hp] at hlast
      exact Option.some.inj hlast
    rw [hpb]
    exact hprod
  · intro h d hd
    have hput : (c.db.writeBatch _).blocksByHash h = some d := hd
    rw [hdb] at hput
    obtain ⟨-, rfl⟩ | ⟨-, hd⟩ := Table.of_mem_insert hput
    · exact (ConsensusEngine.validateBlock_ok hacc.valid).2.2.1
    · exact ht.sized hd

/-- A block stored on its branch leaves the rows alone. -/
theorem TxRows.side (ht : TxRows ex x₀ c canon log)
    (hsize : b.transactions.length ≤ MAX_TRANSACTIONS_PER_BLOCK) (hx : ExecReach ex c.exec x) :
    TxRows ex x₀ (storeSide c x b) canon log := by
  refine ⟨ht.blocks, ht.matched, ht.location, ht.receipt, ht.produced, ht.reached.trans hx, ?_⟩
  intro h d hd
  obtain ⟨-, rfl⟩ | ⟨-, hd⟩ := Table.of_mem_insert hd
  · exact hsize
  · exact ht.sized hd

/-- A branch that executes produces receipts for each of its blocks, each
on the root of the block before. -/
theorem executeBranch_produced (rs : List (Receipt H)) {look : H → Option (Block H)} {x' : X}
    {a : Block H} (hx : ExecReach ex x₀ x)
    (h : executeBranch ex look x a.stateRoot branch = (x', .ok executed)) :
    Matched (executed.map (fun p => (p.1, p.2.receipts))) ∧
      ((a, rs) :: executed.map (fun p => (p.1, p.2.receipts))).IsChain
        (fun p q => Produced ex x₀ p.1.stateRoot q.1 q.2) := by
  induction branch generalizing x a rs executed with
  | nil =>
    cases h
    exact ⟨fun p hp => absurd hp not_mem_nil, isChain_singleton _⟩
  | cons q branch ih =>
    obtain ⟨x₁, o, rest, he, hroot, hrec, rfl⟩ := executeBranch_cons h
    rw [hroot] at hrec
    obtain ⟨hmatch, hchain⟩ := ih o.receipts (hx.trans (execReach_executeBlock ex he)) hrec
    refine ⟨?_, isChain_cons_cons.mpr ⟨⟨x, look, x₁, o, hx, he, rfl⟩, hchain⟩⟩
    exact forall_mem_cons.mpr ⟨ex.receipts_match he, hmatch⟩

/-- The transactions a reorg displaces are those of the blocks above the
ancestor that the branch does not carry. -/
theorem mem_displaced (hc : ChainInv g c canon) (kept : List H) (k : ℕ) {h : H} :
    h ∈ (abandonedHeights k (canon.length - 1)).flatMap (c.db.displacedHashes kept) ↔
      h ∈ chainHashes (canon.drop (k + 1)) ∧ h ∉ kept := by
  have hread := hc.indexes.getBlockByNumber (Nat.zero_le _)
  unfold abandonedHeights displacedHashes displacedOf
  simp only [mem_flatMap, mem_range'_1, hread, mem_chainHashes]
  constructor
  · rintro ⟨n, hn, hmem⟩
    cases hb : canon[n]? with
    | none => simp [hb] at hmem
    | some b =>
      rw [hb] at hmem
      simp only [Option.map_some, Option.getD_some, mem_map, mem_filter, decide_eq_true_eq] at hmem
      obtain ⟨tx, ⟨htx, hkept⟩, rfl⟩ := hmem
      refine ⟨⟨b, mem_iff_getElem?.mpr ⟨n - (k + 1), ?_⟩, tx, htx, rfl⟩, hkept⟩
      rw [getElem?_drop, ← hb]
      congr 1
      omega
  · rintro ⟨⟨b, hb, tx, htx, rfl⟩, hkept⟩
    obtain ⟨m, hm⟩ := mem_iff_getElem?.mp hb
    rw [getElem?_drop] at hm
    have hlt := (List.getElem?_eq_some_iff.mp hm).1
    refine ⟨k + 1 + m, by omega, ?_⟩
    rw [hm]
    simp only [Option.map_some, Option.getD_some, mem_map, mem_filter, decide_eq_true_eq]
    exact ⟨tx, ⟨htx, hkept⟩, rfl⟩

/-- The transaction rows after a reorganisation's batch. -/
theorem reorgOps_rows (db : Database H) (k oldHead : ℕ)
    (executed : List (Block H × ExecutionOutcome H)) :
    (db.writeBatch (reorgOps db k oldHead executed)).txIndex
      = putAll (eraseAll db.txIndex ((abandonedHeights k oldHead).flatMap
          (db.displacedHashes (branchTxHashes executed))))
          (chainLocations (executed.map Prod.fst)) ∧
    (db.writeBatch (reorgOps db k oldHead executed)).receipts
      = putAll (eraseAll db.receipts ((abandonedHeights k oldHead).flatMap
          (db.displacedHashes (branchTxHashes executed))))
          (chainReceipts (executed.map (fun p => (p.1, p.2.receipts)))) := by
  obtain ⟨hloc, hrec⟩ := writeBatch_branchOps_rows (db.writeBatch
    ((abandonedHeights k oldHead).flatMap (db.abandonOps (branchTxHashes executed)))) executed
  rw [reorgOps_eq, hloc, hrec, writeBatch_abandon]
  unfold chainLocations chainReceipts
  rw [flatMap_map, flatMap_map]
  exact ⟨rfl, rfl⟩

/-- A reorganisation replaces the rows of the abandoned blocks by those of
the branch, provided that it deletes no row of a transaction that is still on
the chain below. -/
theorem TxRows.reorg (ht : TxRows ex x₀ c canon log) (hc : ChainInv g c canon)
    (hhead : c.head = some head) {tip ancestor : Block H}
    (hr : Reorg ex c tip branch ancestor executed x) (hw : Walk c.db canon tip branch ancestor)
    (hshared : ∀ h ∈ chainHashes (canon.drop (ancestor.number + 1)),
      h ∈ chainHashes (canon.take (ancestor.number + 1)) → h ∈ branchTxHashes executed) :
    TxRows ex x₀ (reorged c head tip ancestor executed x) (joined canon branch ancestor)
      (log.take (ancestor.number + 1) ++ executed.map (fun p => (p.1, p.2.receipts))) := by
  have hlen : head.block.number = canon.length - 1 := by
    rw [hc.length_eq hhead]
    rfl
  have hreach := execReach_executeBranch ex c.db.blocksByHash branch.reverse c.exec
    ancestor.stateRoot
  rw [hr.executed_eq] at hreach
  -- the ancestor is where the log is cut
  obtain ⟨⟨a, rs⟩, hlog, hfst⟩ : ∃ p, log[ancestor.number]? = some p ∧ p.1 = ancestor := by
    have hanc := hw.ancestor_mem
    rw [← ht.blocks, getElem?_map] at hanc
    exact Option.map_eq_some_iff.mp hanc
  obtain rfl : a = ancestor := hfst
  obtain ⟨hmatch, hchain⟩ := executeBranch_produced rs ht.reached hr.executed_eq
  have hblocks : (executed.map (fun p => (p.1, p.2.receipts))).map Prod.fst
      = executed.map Prod.fst := by
    rw [map_map]
    rfl
  have hkeys : chainHashes (executed.map Prod.fst) = branchTxHashes executed := by
    unfold chainHashes branchTxHashes
    rw [flatMap_map]
  have hcut : ∀ {h : H}, h ∈ (abandonedHeights a.number head.block.number).flatMap
      (c.db.displacedHashes (branchTxHashes executed)) ↔
        h ∈ chainHashes (canon.drop (a.number + 1)) ∧ h ∉ branchTxHashes executed := by
    intro h
    rw [hlen]
    exact mem_displaced hc _ _
  obtain ⟨hloc, hrec⟩ := reorgOps_rows c.db a.number head.block.number executed
  refine ⟨?_, ?_, ?_, ?_, ?_, ht.reached.trans hreach, ?_⟩
  · rw [map_append, map_take, ht.blocks, hblocks, hr.executed_map]
    rfl
  · intro p hp
    obtain hp | hp := mem_append.mp hp
    · exact ht.matched p (mem_of_mem_take hp)
    · exact hmatch p hp
  · show (c.db.writeBatch _).txIndex = _
    have hold : chainLocations canon
        = chainLocations (canon.take (a.number + 1)) ++
          chainLocations (canon.drop (a.number + 1)) := by
      unfold chainLocations
      rw [← flatMap_append, take_append_drop]
    rw [hloc, ht.location, hold, putAll_eraseAll_eq]
    · unfold joined chainLocations
      rw [← hr.executed_map, flatMap_append]
    · intro h
      rw [hcut, chainLocations_keys, chainLocations_keys, hkeys]
    · intro h hh
      rw [chainLocations_keys]
      exact fun hkept => (hcut.mp hh).2 (hshared h (hcut.mp hh).1 hkept)
  · show (c.db.writeBatch _).receipts = _
    have hold : chainReceipts log
        = chainReceipts (log.take (a.number + 1)) ++
          chainReceipts (log.drop (a.number + 1)) := by
      unfold chainReceipts
      rw [← flatMap_append, take_append_drop]
    rw [hrec, ht.receipt, hold, putAll_eraseAll_eq]
    · unfold chainReceipts
      rw [flatMap_append]
    · intro h
      rw [hcut, chainReceipts_keys (fun p hp => ht.matched p (mem_of_mem_drop hp)),
        chainReceipts_keys hmatch, map_drop, ht.blocks, hblocks, hkeys]
    · intro h hh
      rw [chainReceipts_keys (fun p hp => ht.matched p (mem_of_mem_take hp)), map_take, ht.blocks]
      exact fun hkept => (hcut.mp hh).2 (hshared h (hcut.mp hh).1 hkept)
  · -- the ancestor is the last block kept, and the branch continues from it
    have htake : log.take (a.number + 1) = log.take a.number ++ [(a, rs)] := by
      rw [take_add_one, hlog]
      rfl
    have hcons := isChain_split.mpr ⟨htake ▸ ht.produced.take _, hchain⟩
    rw [htake, append_assoc]
    exact hcons
  · intro h d hd
    rw [show (reorged c head tip a executed x).db.blocksByHash = c.db.blocksByHash
      from hr.blocksByHash hw _ _] at hd
    exact ht.sized hd

end Update

/-! ## Runs -/

/-- **No reorganisation loses a shared transaction.** If the operation, from
`c` to `c'`, is an import of `b` that makes the node leave its head for `b`,
then a transaction of an abandoned block that also occurs at or below the
common ancestor occurs on the branch of `b`. -/
def SharedTxKept (c c' : Chain H X) : ChainOp H → Prop
  | .importBlock _ b => ∀ head branch ancestor, c.head = some head →
      b.parentHash ≠ head.hash → better b.number b.hash head = true →
      c'.head = some ⟨b.hash, b⟩ →
      collectBranch (c.db.applyOp (.putBlock b.hash b)) (b.number + 1) b.hash b
        = .ok (branch, ancestor) →
      ∀ m n old shared, ancestor.number < m → n ≤ ancestor.number →
        c.db.getBlockByNumber m = some old → c.db.getBlockByNumber n = some shared →
        ∀ tx ∈ old.transactions, ∀ tx' ∈ shared.transactions, (tx.hash : H) = tx'.hash →
          ∃ p ∈ branch, ∃ tx'' ∈ p.2.transactions, (tx''.hash : H) = tx.hash
  | _ => True

section Runs

/-- The invariant of the transaction rows. -/
def TxInv (ex : BlockExecutor H X) (x₀ : X) (g : Block H) (c : Chain H X) : Prop :=
  ∃ canon log, ChainInv g c canon ∧ TxRows ex x₀ c canon log

/-- One operation keeps the rows exact, unless it loses a shared
transaction. -/
theorem TxInv.step (hinv : TxInv ex x₀ g c) (hg : g.parentHash = 0) (op : ChainOp H)
    (hkept : SharedTxKept c (step ex c op) op) : TxInv ex x₀ g (step ex c op) := by
  obtain ⟨canon, log, hc, ht⟩ := hinv
  have heff := step_effect ex c op
  generalize Chain.step ex c op = c' at heff hkept ⊢
  generalize succeeds ex c op = ok at heff
  cases heff with
  | rejected _ hx =>
    exact ⟨canon, log, hc.unread _ _ _, ht.blocks, ht.matched, ht.location, ht.receipt,
      ht.produced, ht.reached.trans hx, ht.sized⟩
  | @extended now b parent head x o hhead hp hnew hparent hacc =>
    obtain rfl := hc.parent_eq hhead hp hparent
    exact ⟨_, _, hc.commit hg hhead hp (ConsensusEngine.validateBlock_ok hacc.valid).1 x _
      hacc.root_eq, ht.commit hc hhead hacc⟩
  | @produced now b head x o hhead hp hacc =>
    exact ⟨_, _, hc.commit hg hhead hp (ConsensusEngine.validateBlock_ok hacc.valid).1 x _
      hacc.root_eq, ht.commit hc hhead hacc⟩
  | @side now b parent head x x' o hhead hne hnew hparent hacc _ hx' =>
    rw [hc.indexes.getBlockByHash] at hparent
    have hcheck := ConsensusEngine.validateBlock_ok hacc.valid
    exact ⟨_, _, hc.side hhead hne hnew hparent hcheck.1 x', ht.side hcheck.2.2.1 hx'⟩
  | @reorged now b parent head x o branch ancestor executed x' hhead hne hnew hparent hacc
      hbetter hr =>
    rw [hc.indexes.getBlockByHash] at hparent
    have hcheck := ConsensusEngine.validateBlock_ok hacc.valid
    have hs := hc.side hhead hne hnew hparent hcheck.1 x
    obtain ⟨htip, hside, hchild⟩ := hc.stored_side hg hnew hparent x
    have hw := hr.walk hs htip
    have hread := hc.indexes.getBlockByNumber (Nat.zero_le _)
    refine ⟨_, _, hr.inv hs hhead htip hside (number_le_of_better hbetter) hchild,
      (ht.side hcheck.2.2.1 (execReach_executeBlock ex hacc.executed)).reorg hs hhead hr hw ?_⟩
    intro h hold hshared
    obtain ⟨old, hmem, tx, htx, rfl⟩ := mem_chainHashes.mp hold
    obtain ⟨shared, hmem', tx', htx', heq⟩ := mem_chainHashes.mp hshared
    obtain ⟨m, hm⟩ := mem_iff_getElem?.mp hmem
    obtain ⟨n, hn⟩ := mem_iff_getElem?.mp hmem'
    rw [getElem?_drop] at hm
    rw [getElem?_take] at hn
    split at hn
    · rename_i hlt
      obtain ⟨p, hp, tx'', htx'', hhash⟩ := hkept head branch ancestor hhead hne hbetter
        rfl hr.collected (ancestor.number + 1 + m) n old shared (by omega) (Nat.le_of_lt_succ hlt)
        (by rw [hread, hm]) (by rw [hread, hn]) tx htx tx' htx' heq.symm
      have hex : p.2 ∈ executed.map Prod.fst := by
        rw [hr.executed_map]
        exact mem_reverse.mpr (mem_map_of_mem hp)
      obtain ⟨q, hq, hqp⟩ := mem_map.mp hex
      refine mem_flatMap.mpr ⟨q, hq, ?_⟩
      rw [hqp, ← hhash]
      exact mem_map_of_mem htx''
    · cases hn
  | finalized =>
    exact ⟨canon, log, hc.unread _ _ _, ht.blocks, ht.matched, ht.location, ht.receipt,
      ht.produced, ht.reached, ht.sized⟩

/-- A fresh node has no transaction rows, and its genesis block carries no
transaction. -/
theorem initGenesis_txInv (ex : BlockExecutor H X) (config : GenesisConfig)
    (engine : ConsensusEngine H) (x : X) (root : H) :
    TxInv ex x (config.genesisBlock root) (initGenesis config engine x root) := by
  have hdb := initGenesis_db config engine x root
  refine ⟨_, [(config.genesisBlock root, [])], initGenesis_inv config engine x root, rfl, ?_,
    ?_, ?_, isChain_singleton _, .refl, ?_⟩
  · intro p hp
    obtain rfl := mem_singleton.mp hp
    rfl
  · rw [hdb, writeBatch_commitBlockOps]
    rfl
  · rw [hdb, writeBatch_commitBlockOps]
    rfl
  · intro h b hb
    obtain ⟨-, rfl⟩ := initGenesis_blocksByHash hb
    exact Nat.zero_le _

/-- **The transaction index is exact in every state of every run** from a fresh
node in which no reorganisation loses a shared transaction. -/
theorem txIndex_run (ex : BlockExecutor H X) (config : GenesisConfig)
    (engine : ConsensusEngine H) (x : X) (root : H) (ops : List (ChainOp H))
    (hkept : Run.Along (step ex) (fun c op => SharedTxKept c (step ex c op) op)
      (initGenesis config engine x root) ops) :
    TxIndexExact ex x (run ex (initGenesis config engine x root) ops) := by
  obtain ⟨canon, log, hc, ht⟩ := Run.invariant_along
    (initGenesis_txInv ex config engine x root)
    (fun c op h hop => TxInv.step h rfl op hop) hkept
  exact ht.exact hc rfl

end Runs

/-! ## A repeated transaction -/

/-- A transfer of an account that has nothing; it is refused, and a block may
carry it all the same. -/
def refusedTx : Transaction :=
  sampleTx .transfer 1 0 (some (sampleAddress 2)) (sampleAmount 5) 21000 (sampleAmount 0)

/-- The genesis block over the empty state. -/
def txGenesis : Block CodeName := testnet.genesisBlock 0

/-- A node with the producer as its only validator. -/
def txNode : Chain CodeName (StateColumns CodeName) :=
  initGenesis testnet (openEngine CodeName [sampleAddress 9]) (.empty CodeName) 0

/-- The first block carries the transaction. -/
def txFirst : StateColumns CodeName × Block CodeName :=
  sampleBlock (.empty CodeName) txGenesis (sampleAddress 9) 5000 [refusedTx]

/-- A second block that repeats it. -/
def txRepeat : StateColumns CodeName × Block CodeName :=
  sampleBlock txFirst.1 txFirst.2 (sampleAddress 9) 10000 [refusedTx]

/-- A second block that repeats it later. -/
def txLater : StateColumns CodeName × Block CodeName :=
  sampleBlock txFirst.1 txFirst.2 (sampleAddress 9) 15000 [refusedTx]

/-- Another second block, without it. -/
def txOther : StateColumns CodeName × Block CodeName :=
  sampleBlock txFirst.1 txFirst.2 (sampleAddress 9) 15000 []

/-- A third one on it. -/
def txThird : StateColumns CodeName × Block CodeName :=
  sampleBlock txOther.1 txOther.2 (sampleAddress 9) 20000 []

theorem sharedTxKept_of_extends {c' : Chain H X} {now : ℕ}
    (hhead : c.head.map SealedBlock.hash = some b.parentHash) :
    SharedTxKept c c' (.importBlock now b) := by
  intro head branch ancestor hc hne
  rw [hc] at hhead
  exact absurd (Option.some.inj hhead).symm hne

/-- A reorganisation whose branch carries every abandoned transaction. -/
theorem ChainInv.sharedTxKept (hc : ChainInv g c canon) {head : SealedBlock H}
    (hhead : c.head = some head) (branch : List (H × Block H)) (ancestor : Block H)
    (hcol : collectBranch (c.db.applyOp (.putBlock b.hash b)) (b.number + 1) b.hash b
      = .ok (branch, ancestor))
    (hkept : ∀ m ∈ abandonedHeights ancestor.number head.block.number,
      ∀ old ∈ c.db.getBlockByNumber m, ∀ tx ∈ old.transactions,
        ∃ p ∈ branch, ∃ tx' ∈ p.2.transactions, (tx'.hash : H) = tx.hash)
    (c' : Chain H X) (now : ℕ) : SharedTxKept c c' (.importBlock now b) := by
  intro head' branch' ancestor' hhead' _ _ _ hcol' m n old shared hm _ hold _ tx htx _ _ _
  obtain rfl : head' = head := Option.some.inj (hhead'.symm.trans hhead)
  rw [hcol] at hcol'
  cases hcol'
  refine hkept m ?_ old hold tx htx
  -- the heights in use are those up to the head
  rw [hc.indexes.getBlockByNumber (Nat.zero_le _)] at hold
  have hlt := (List.getElem?_eq_some_iff.mp hold).1
  rw [hc.length_eq hhead] at hlt
  exact mem_range'_1.mpr (by omega)

/-- The node after the first block and the later one. -/
def txForked : Chain CodeName (StateColumns CodeName) :=
  step sampleConfig.blockExecutor (step sampleConfig.blockExecutor txNode
    (.importBlock 100000 txFirst.2)) (.importBlock 100000 txLater.2)

/-- Two blocks carry one transaction, and the second is replaced by another
block on the first that carries it too. -/
theorem txIndex_run_repeated :
    TxIndexExact sampleConfig.blockExecutor (.empty CodeName) (run sampleConfig.blockExecutor txNode
        [.importBlock 100000 txFirst.2, .importBlock 100000 txLater.2,
          .importBlock 100000 txRepeat.2]) ∧
      txForked.head = some ⟨txLater.2.hash, txLater.2⟩ ∧
      (step sampleConfig.blockExecutor txForked (.importBlock 100000 txRepeat.2)).head
        = some ⟨txRepeat.2.hash, txRepeat.2⟩ := by
  have hhead : txForked.head = some ⟨txLater.2.hash, txLater.2⟩ := by decide +kernel
  have hfirst : SharedTxKept txNode (step sampleConfig.blockExecutor txNode
      (.importBlock 100000 txFirst.2)) (.importBlock 100000 txFirst.2) :=
    sharedTxKept_of_extends (by decide +kernel)
  have hlater : SharedTxKept (step sampleConfig.blockExecutor txNode
      (.importBlock 100000 txFirst.2)) txForked (.importBlock 100000 txLater.2) :=
    sharedTxKept_of_extends (by decide +kernel)
  obtain ⟨canon, log, hc, -⟩ : TxInv sampleConfig.blockExecutor (.empty CodeName) txGenesis
      txForked := ((initGenesis_txInv _ _ _ _ _).step rfl _ hfirst).step rfl _ hlater
  have hrepeat := hc.sharedTxKept (b := txRepeat.2) hhead [(txRepeat.2.hash, txRepeat.2)]
    txFirst.2 (by decide +kernel) (by decide +kernel)
    (step sampleConfig.blockExecutor txForked (.importBlock 100000 txRepeat.2)) 100000
  exact ⟨txIndex_run sampleConfig.blockExecutor testnet _ _ _ _ ⟨hfirst, hlater, hrepeat, trivial⟩,
    hhead, by decide +kernel⟩

/-- The branch of the third block replaces the second block that repeats the
transaction: the first block still carries it, and it is not found. -/
theorem txIndex_loses_shared :
    ¬ TxIndexExact sampleConfig.blockExecutor (.empty CodeName)
      (run sampleConfig.blockExecutor txNode
        [.importBlock 100000 txFirst.2, .importBlock 100000 txRepeat.2,
          .importBlock 100000 txOther.2, .importBlock 100000 txThird.2]) := by
  intro h
  have hfound := (h refusedTx.hash).1.mpr ⟨1, Option.get _ (by decide +kernel),
    (Option.some_get _).symm, refusedTx, by decide +kernel, rfl⟩
  exact absurd hfound (by decide +kernel)

end Chain

end Qfc
