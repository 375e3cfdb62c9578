import QfcCore.Chain.Canonical
import QfcCore.Lib.Table

/-!
# The invariant of the canonical chain

`ChainInv g c canon` says that the node `c` holds the canonical chain `canon`
from the genesis `g`: its columns describe the chain and the tree of stored
blocks, and the head, the live root and the head metadata are those of the
last block. Every operation keeps it, for a chain that is the old one, the old
one with one more block, or the old one cut at an ancestor and continued by a
branch at least as high.

One part is less obvious: no stored block names the head as its parent. It
holds because a block becomes the head in the step that first stores it, and a
child of the head is committed as the new head. It is what makes a produced
block a new one.
-/

namespace Qfc

open Function Database List

namespace Chain

variable {H X : Type} [HashScheme H] {h : H}

/-- **The node holds the canonical chain `canon`.** -/
structure ChainInv (g : Block H) (c : Chain H X) (canon : List (Block H)) : Prop where
  linked : Linked canon
  indexes : Indexes c.db canon 0
  tree : Tree c.db g
  genesis : canon[0]? = some g
  head : ∃ b, canon.getLast? = some b ∧ c.head = some ⟨b.hash, b⟩ ∧ c.root = b.stateRoot ∧
    c.db.latestBlockNumber = some b.number ∧ c.db.latestStateRoot = some b.stateRoot
  childless : ∀ {head : SealedBlock H}, c.head = some head →
    ∀ {h : H} {b : Block H}, c.db.blocksByHash h = some b → b.parentHash ≠ head.hash

variable {canon : List (Block H)} {c : Chain H X} {head : SealedBlock H} {g : Block H}

namespace ChainInv

variable (hc : ChainInv g c canon)
include hc

theorem head_eq (h : c.head = some head) :
    canon.getLast? = some head.block ∧ head.hash = head.block.hash ∧
      c.root = head.block.stateRoot := by
  obtain ⟨b, hlast, hhead, hroot, -, -⟩ := hc.head
  rw [h] at hhead
  cases hhead
  exact ⟨hlast, rfl, hroot⟩

theorem length_eq (h : c.head = some head) : canon.length = head.block.number + 1 :=
  (hc.linked.number_getLast (hc.head_eq h).1).symm

/-- The executor's columns, the engine and the record play no part. -/
theorem unread (x : X) (e : ConsensusEngine H) (f : ℕ × H) :
    ChainInv g { c with exec := x, engine := e, finalized := f } canon :=
  ⟨hc.linked, hc.indexes, hc.tree, hc.genesis, hc.head, hc.childless⟩

/-- The parent of a child of the head is the head. -/
theorem parent_eq (h : c.head = some head) {b parent : Block H} (hp : b.parentHash = head.hash)
    (hparent : c.db.getBlockByHash b.parentHash = some parent) : parent = head.block := by
  obtain ⟨hlast, hhash, -⟩ := hc.head_eq h
  rw [hc.indexes.getBlockByHash, hp, hhash, hc.indexes.stored (mem_of_getLast? hlast)] at hparent
  exact (Option.some.inj hparent).symm

/-- A child of the head is not in the store yet. -/
theorem new_of_parent (h : c.head = some head) {b : Block H} (hp : b.parentHash = head.hash) :
    c.db.blocksByHash b.hash = none := by
  cases hs : c.db.blocksByHash b.hash with
  | none => rfl
  | some b' =>
    have hheader : b'.header = b.header := Block.hash_inj.mp (hc.tree.hash hs)
    refine absurd ?_ (hc.childless h hs)
    rw [← hp]
    exact congrArg BlockHeader.parentHash hheader

section

variable {b p : Block H} (hnew : c.db.blocksByHash b.hash = none)
include hnew

/-- No stored block names an absent block as its parent. -/
theorem parent_ne_new (hg : g.parentHash = 0) {d : Block H} (hd : c.db.blocksByHash h = some d) :
    d.parentHash ≠ b.hash := by
  intro he
  rcases hc.tree.parent hd with rfl | ⟨p, hp, -⟩
  · exact b.hash_ne_zero (he.symm.trans hg)
  · rw [he, hnew] at hp
    cases hp

variable (hp : c.db.blocksByHash b.parentHash = some p)
include hp

/-- The store stays a tree when a block is added whose parent is in it. -/
theorem tree_put (hnum : b.number = p.number + 1) :
    Tree { c.db with blocksByHash := update c.db.blocksByHash b.hash (some b) } g := by
  constructor
  · intro h d hd
    obtain ⟨rfl, rfl⟩ | ⟨-, hd⟩ := Table.of_mem_insert hd
    · rfl
    · exact hc.tree.hash hd
  · intro h d hd
    obtain ⟨-, rfl⟩ | ⟨-, hd⟩ := Table.of_mem_insert hd
    · exact .inr ⟨p, Table.mem_insert_of_new hnew _ hp, hnum⟩
    · refine (hc.tree.parent hd).imp_right ?_
      rintro ⟨q, hq, hqn⟩
      exact ⟨q, Table.mem_insert_of_new hnew _ hq, hqn⟩

/-- No block names a new one as its parent, and neither does the new one itself. -/
theorem childless_put (hg : g.parentHash = 0) {d : Block H}
    (hd : update c.db.blocksByHash b.hash (some b) h = some d) : d.parentHash ≠ b.hash := by
  obtain ⟨-, rfl⟩ | ⟨-, hd⟩ := Table.of_mem_insert hd
  · intro he
    rw [he, hnew] at hp
    cases hp
  · exact hc.parent_ne_new hnew hg hd

end

/-- A new block on the head becomes the last block of the chain. -/
theorem commit (hg : g.parentHash = 0) (hhead : c.head = some head) {b : Block H}
    (hp : b.parentHash = head.hash) (hnum : b.number = head.block.number + 1) (x : X)
    (rs : List (Receipt H)) {root : H} (hroot : root = b.stateRoot) :
    ChainInv g (commitCanonical { c with exec := x } b rs root) (canon ++ [b]) := by
  obtain ⟨hlast, hhash, -⟩ := hc.head_eq hhead
  have hnew := hc.new_of_parent hhead hp
  have hlink : Linked (canon ++ [b]) := hc.linked.concat hlast hnum (hp.trans hhash)
  have hstored : c.db.blocksByHash b.parentHash = some head.block := by
    rw [hp, hhash]
    exact hc.indexes.stored (mem_of_getLast? hlast)
  have hdb := writeBatch_commitBlockOps c.db b rs root
  refine ⟨hlink, hc.indexes.commit hlink rs root, ?_, ?_, ?_, ?_⟩
  · show Tree (c.db.writeBatch _) g
    have htree := hc.tree_put hnew hstored hnum
    rw [hdb]
    exact ⟨htree.hash, htree.parent⟩
  · exact getElem?_concat_iff.mpr (.inl hc.genesis)
  · refine ⟨b, by simp, rfl, hroot, ?_, ?_⟩
    · show (c.db.writeBatch _).latestBlockNumber = _
      rw [hdb]
    · show (c.db.writeBatch _).latestStateRoot = _
      rw [hdb, hroot]
  · intro newHead hnewHead h d hd
    cases hnewHead
    refine hc.childless_put hnew hstored hg (h := h) ?_
    rw [← hd]
    show _ = (c.db.writeBatch _).blocksByHash h
    rw [hdb]

/-- A side block joins the tree and nothing else. -/
theorem side {b p : Block H} (hhead : c.head = some head) (hne : b.parentHash ≠ head.hash)
    (hnew : c.db.blocksByHash b.hash = none) (hp : c.db.blocksByHash b.parentHash = some p)
    (hnum : b.number = p.number + 1) (x : X) : ChainInv g (storeSide c x b) canon := by
  have htree := hc.tree_put hnew hp hnum
  refine ⟨hc.linked, ?_, ⟨htree.hash, htree.parent⟩, hc.genesis, hc.head, ?_⟩
  · refine ⟨hc.indexes.header, hc.indexes.body, hc.indexes.above, hc.indexes.index, ?_⟩
    intro a ha
    exact Table.mem_insert_of_new hnew _ (hc.indexes.stored ha)
  · intro head' hhead' h d hd
    obtain rfl : head = head' := Option.some.inj (hhead.symm.trans hhead')
    obtain ⟨-, rfl⟩ | ⟨-, hd⟩ := Table.of_mem_insert hd
    · exact hne
    · exact hc.childless hhead hd

end ChainInv

/-! ## Reorganisation -/

variable {executed : List (Block H × ExecutionOutcome H)} {branch : List (H × Block H)}
  {ex : BlockExecutor H X} {x : X}

section Branch

variable {look : H → Option (Block H)} {x' : X} {root : H}

/-- The first block of a branch that executes. -/
theorem executeBranch_cons {hash : H} {b : Block H}
    (h : executeBranch ex look x root ((hash, b) :: branch) = (x', .ok executed)) :
    ∃ x₁ o rest, executeBlock ex x look b root = (x₁, .ok o) ∧ o.stateRoot = b.stateRoot ∧
      executeBranch ex look x₁ o.stateRoot branch = (x', .ok rest) ∧
      executed = (b, o) :: rest := by
  unfold executeBranch at h
  rcases he : executeBlock ex x look b root with ⟨x₁, e | o⟩ <;> rw [he] at h
  · cases h
  dsimp only at h
  split at h
  · cases h
  · rename_i hroot
    rcases hrec : executeBranch ex look x₁ o.stateRoot branch with ⟨x₂, e | rest⟩ <;> rw [hrec] at h
    · cases h
    · cases h
      exact ⟨x₁, o, rest, rfl, not_not.mp hroot, hrec, rfl⟩

/-- A branch that executes does so block for block, each to the state root
of its header. -/
theorem executeBranch_ok
    (h : executeBranch ex look x root branch = (x', .ok executed)) :
    executed.map Prod.fst = branch.map Prod.snd ∧
      ∀ p ∈ executed, p.2.stateRoot = p.1.stateRoot := by
  induction branch generalizing x root executed with
  | nil =>
    cases h
    exact ⟨rfl, by simp⟩
  | cons q branch ih =>
    obtain ⟨x₁, o, rest, -, hroot, hrec, rfl⟩ := executeBranch_cons h
    obtain ⟨hmap, hall⟩ := ih hrec
    refine ⟨by rw [map_cons, map_cons, hmap], ?_⟩
    exact forall_mem_cons.mpr ⟨hroot, hall⟩

end Branch

section Reorg

variable {tip ancestor : Block H}

section

variable (hr : Reorg ex c tip branch ancestor executed x)
include hr

/-- What a reorganisation found before it wrote anything. -/
theorem Reorg.walk (hc : ChainInv g c canon) (htip : c.db.blocksByHash tip.hash = some tip) :
    Walk c.db canon tip branch ancestor :=
  collectBranch_walk hc.indexes hc.linked hc.tree hc.genesis htip hr.collected

theorem Reorg.executed_map : executed.map Prod.fst = (branch.map Prod.snd).reverse := by
  rw [(executeBranch_ok hr.executed_eq).1, map_reverse]

theorem Reorg.executed_last (hw : Walk c.db canon tip branch ancestor) (hside : tip ∉ canon) :
    ∃ init o, executed = init ++ [(tip, o)] ∧ o.stateRoot = tip.stateRoot := by
  have hlast := hw.last
  unfold joined at hlast
  rw [← hr.executed_map] at hlast
  induction executed using reverseRecOn with
  | nil =>
    rw [map_nil, append_nil] at hlast
    exact absurd (mem_of_mem_take (mem_of_getLast? hlast)) hside
  | append_singleton init p _ =>
    have hp : p.1 = tip := by simpa using hlast
    obtain ⟨b, o⟩ := p
    cases hp
    exact ⟨init, o, rfl, (executeBranch_ok hr.executed_eq).2 (b, o) (by simp)⟩

end

/-- The batch of a reorganisation is the cut, then the branch. -/
theorem reorgOps_eq (db : Database H) (k oldHead : ℕ)
    (executed : List (Block H × ExecutionOutcome H)) :
    db.writeBatch (reorgOps db k oldHead executed)
      = (db.writeBatch ((abandonedHeights k oldHead).flatMap
          (db.abandonOps (branchTxHashes executed)))).writeBatch
            (branchOps executed) :=
  writeBatch_append _ _ _

/-- The store is the same before and after a reorganisation. -/
theorem Reorg.blocksByHash (hr : Reorg ex c tip branch ancestor executed x)
    (hw : Walk c.db canon tip branch ancestor) (k oldHead : ℕ) :
    (c.db.writeBatch (reorgOps c.db k oldHead executed)).blocksByHash = c.db.blocksByHash := by
  rw [reorgOps_eq, writeBatch_branchOps_blocksByHash, writeBatch_abandon]
  intro p hp
  rw [writeBatch_abandon]
  have hmem : p.1 ∈ (branch.map Prod.snd).reverse := by
    rw [← hr.executed_map]
    exact mem_map_of_mem hp
  obtain ⟨q, hq, hqp⟩ := mem_map.mp (mem_reverse.mp hmem)
  show c.db.blocksByHash p.1.hash = some p.1
  rw [← hqp, hw.branch_hash q hq]
  exact hw.branch_stored q hq

/-- A reorganisation puts the branch in the place of the blocks above the
ancestor. -/
theorem Reorg.inv (hr : Reorg ex c tip branch ancestor executed x) (hc : ChainInv g c canon)
    (hhead : c.head = some head) (htip : c.db.blocksByHash tip.hash = some tip)
    (hside : tip ∉ canon) (hle : head.block.number ≤ tip.number)
    (hchild : ∀ {h : H} {b : Block H}, c.db.blocksByHash h = some b → b.parentHash ≠ tip.hash) :
    ChainInv g (reorged c head tip ancestor executed x) (joined canon branch ancestor) := by
  have hw := hr.walk hc htip
  have hlen : canon.length - 1 = head.block.number := by
    rw [hc.length_eq hhead]
    rfl
  have hmap : joined canon branch ancestor
      = canon.take (ancestor.number + 1) ++ executed.map Prod.fst := by
    rw [hr.executed_map]
    rfl
  have hstore := hr.blocksByHash hw ancestor.number head.block.number
  obtain ⟨init, o, hexec, hroot⟩ := hr.executed_last hw hside
  have hidx : Indexes (c.db.writeBatch
      (reorgOps c.db ancestor.number head.block.number executed))
      (joined canon branch ancestor) canon.length := by
    rw [reorgOps_eq, hmap, ← hlen]
    exact (hc.indexes.cut (Nat.zero_le _) hc.linked _ _).commitAll (hmap ▸ hw.linked)
  refine ⟨hw.linked, hidx.settled ?_, ⟨?_, ?_⟩, ?_, ?_, ?_⟩
  · rw [← hw.linked.number_getLast hw.last, hc.length_eq hhead]
    exact Nat.succ_le_succ hle
  · intro h b hb
    rw [show (reorged c head tip ancestor executed x).db.blocksByHash = c.db.blocksByHash
      from hstore] at hb
    exact hc.tree.hash hb
  · intro h b hb
    rw [show (reorged c head tip ancestor executed x).db.blocksByHash = c.db.blocksByHash
      from hstore] at hb ⊢
    exact hc.tree.parent hb
  · rw [hmap, getElem?_append_left, getElem?_take, if_pos (Nat.succ_pos _)]
    · exact hc.genesis
    · rw [length_take]
      exact lt_min (Nat.succ_pos _) (List.getElem?_eq_some_iff.mp hc.genesis).1
  · refine ⟨tip, hw.last, rfl, ?_, ?_, ?_⟩
    · show (executed.getLast?.map (fun p => p.2.stateRoot)).getD ancestor.stateRoot = _
      rw [hexec, getLast?_concat]
      exact hroot
    · show (c.db.writeBatch (reorgOps c.db _ _ executed)).latestBlockNumber = _
      rw [reorgOps_eq, hexec]
      exact (writeBatch_branchOps_latest _ init tip o).1
    · show (c.db.writeBatch (reorgOps c.db _ _ executed)).latestStateRoot = _
      rw [reorgOps_eq, hexec, (writeBatch_branchOps_latest _ init tip o).2, hroot]
  · intro newHead hnewHead h b hb
    cases hnewHead
    rw [show (reorged c head tip ancestor executed x).db.blocksByHash = c.db.blocksByHash
      from hstore] at hb
    exact hchild hb

end Reorg

/-! ## Steps and runs -/

section Steps

variable (ex : BlockExecutor H X)

/-- The tip of a better branch is at least as high as the head. -/
theorem number_le_of_better {n : ℕ} (hb : better n h head = true) : head.block.number ≤ n := by
  unfold better at hb
  simp only [Bool.or_eq_true, decide_eq_true_eq, Bool.and_eq_true, beq_iff_eq] at hb
  omega

/-- Once stored on its branch, a block is in the store, off the canonical
chain and without children. -/
theorem ChainInv.stored_side (hc : ChainInv g c canon) (hg : g.parentHash = 0) {b p : Block H}
    (hnew : c.db.blocksByHash b.hash = none) (hp : c.db.blocksByHash b.parentHash = some p)
    (x : X) :
    (storeSide c x b).db.blocksByHash b.hash = some b ∧ b ∉ canon ∧
      ∀ {h : H} {d : Block H}, (storeSide c x b).db.blocksByHash h = some d →
        d.parentHash ≠ b.hash := by
  refine ⟨update_self _ _ _, ?_, hc.childless_put hnew hp hg⟩
  intro hmem
  rw [hc.indexes.stored hmem] at hnew
  cases hnew

/-- **How an operation changes the canonical chain**: not at all, by one block
at its end, or by a branch in the place of the blocks above an ancestor. -/
inductive CanonStep (c : Chain H X) (canon : List (Block H)) : List (Block H) → Prop
  | same : CanonStep c canon canon
  | extend (b : Block H) : CanonStep c canon (canon ++ [b])
  | reorg {branch : List (H × Block H)} {ancestor : Block H} :
      retainsFinalized c.finalized (max c.engine.finalizedHeight c.finalized.1)
        branch ancestor = true →
      Linked (joined canon branch ancestor) → (∀ p ∈ branch, p.2.hash = p.1) →
      canon.length ≤ (joined canon branch ancestor).length →
      CanonStep c canon (joined canon branch ancestor)

/-- Every operation keeps the invariant, for a canonical chain changed as
`CanonStep` says; an accepted block is in the store, and no stored block is
forgotten. -/
theorem step_inv (hc : ChainInv g c canon) (hg : g.parentHash = 0) (op : ChainOp H) :
    ∃ canon', ChainInv g (step ex c op) canon' ∧ CanonStep c canon canon' ∧
      (∀ {h : H} {b : Block H}, c.db.blocksByHash h = some b →
        (step ex c op).db.blocksByHash h = some b) ∧
      (succeeds ex c op = true → ∀ {b : Block H}, op.block = some b →
        (step ex c op).db.blocksByHash b.hash = some b) := by
  have hcommit : ∀ {x : X} {b : Block H} {rs : List (Receipt H)} {root : H},
      (commitCanonical { c with exec := x } b rs root).db.blocksByHash
        = update c.db.blocksByHash b.hash (some b) := by
    intro x b rs root
    show (c.db.writeBatch _).blocksByHash = _
    rw [writeBatch_commitBlockOps]
  have heff := step_effect ex c op
  generalize step ex c op = c' at heff ⊢
  generalize succeeds ex c op = ok at heff ⊢
  cases heff with
  | rejected =>
    refine ⟨canon, hc.unread _ _ _, .same, fun hd => hd, ?_⟩
    intro hok
    cases hok
  | @extended now b parent head x o hhead hp hnew hparent hacc =>
    have hcheck := ConsensusEngine.validateBlock_ok hacc.valid
    obtain rfl := hc.parent_eq hhead hp hparent
    refine ⟨canon ++ [b], hc.commit hg hhead hp hcheck.1 x _ hacc.root_eq, .extend b, ?_, ?_⟩
    · intro h d hd
      rw [hcommit]
      exact Table.mem_insert_of_new hnew _ hd
    · rintro - d ⟨⟩
      rw [hcommit]
      exact update_self _ _ _
  | @produced now b head x o hhead hp hacc =>
    have hcheck := ConsensusEngine.validateBlock_ok hacc.valid
    refine ⟨canon ++ [b], hc.commit hg hhead hp hcheck.1 x _ hacc.root_eq, .extend b, ?_, ?_⟩
    · intro h d hd
      rw [hcommit]
      exact Table.mem_insert_of_new (hc.new_of_parent hhead hp) _ hd
    · rintro - d ⟨⟩
      rw [hcommit]
      exact update_self _ _ _
  | @side now b parent head x x' o hhead hne hnew hparent hacc _ _ =>
    rw [hc.indexes.getBlockByHash] at hparent
    have hcheck := ConsensusEngine.validateBlock_ok hacc.valid
    refine ⟨canon, hc.side hhead hne hnew hparent hcheck.1 x', .same,
      fun hd => Table.mem_insert_of_new hnew _ hd, ?_⟩
    rintro - d ⟨⟩
    exact update_self _ _ _
  | @reorged now b parent head x o branch ancestor executed x' hhead hne hnew hparent hacc
      hbetter hr =>
    rw [hc.indexes.getBlockByHash] at hparent
    have hcheck := ConsensusEngine.validateBlock_ok hacc.valid
    have hle := number_le_of_better hbetter
    have hs := hc.side hhead hne hnew hparent hcheck.1 x
    obtain ⟨htip, hside, hchild⟩ := hc.stored_side hg hnew hparent x
    have hw := hr.walk hs htip
    refine ⟨joined canon branch ancestor, hr.inv hs hhead htip hside hle hchild,
      .reorg hr.retains hw.linked hw.branch_hash ?_, ?_, ?_⟩
    · rw [← hw.linked.number_getLast hw.last, hc.length_eq hhead]
      exact Nat.succ_le_succ hle
    · intro h d hd
      show ((storeSide c x b).db.writeBatch _).blocksByHash h = some d
      rw [hr.blocksByHash hw]
      exact Table.mem_insert_of_new hnew _ hd
    · rintro - d ⟨⟩
      show ((storeSide c x b).db.writeBatch _).blocksByHash b.hash = some b
      rw [hr.blocksByHash hw]
      exact htip
  | finalized hcan =>
    refine ⟨canon, hc.unread _ _ _, .same, fun hd => hd, ?_⟩
    rintro - d ⟨⟩

/-- The canonical chain never gets shorter. -/
theorem CanonStep.length_le {canon' : List (Block H)} (h : CanonStep c canon canon') :
    canon.length ≤ canon'.length := by
  cases h with
  | same => exact le_rfl
  | extend b =>
    rw [length_append]
    exact Nat.le_add_right _ _
  | reorg _ _ _ hlen => exact hlen

/-- The empty columns describe the empty chain. -/
theorem indexes_empty : Indexes (empty H) [] 0 where
  header h := by simp at h
  body h := by simp at h
  above _ _ := ⟨rfl, rfl⟩
  index := by simp [empty]
  stored h := by simp at h

/-- The columns of a fresh node: the genesis block committed, and the two rows
that name it. -/
theorem initGenesis_db (config : GenesisConfig) (engine : ConsensusEngine H) (x : X) (root : H) :
    (initGenesis config engine x root).db
      = { (empty H).writeBatch
            (commitBlockOps (config.genesisBlock root) [] root) with
          genesisHash := some (config.genesisBlock root).hash
          chainId := some config.chainId } :=
  writeBatch_append _ _ _

/-- A fresh node stores the genesis block only. -/
theorem initGenesis_blocksByHash {config : GenesisConfig} {engine : ConsensusEngine H} {x : X}
    {root : H} {b : Block H} (hb : (initGenesis config engine x root).db.blocksByHash h = some b) :
    h = (config.genesisBlock root).hash ∧ b = config.genesisBlock root := by
  obtain h | ⟨-, hb⟩ := Table.of_mem_insert (f := fun _ => none) hb
  · exact h
  · cases hb

/-- A fresh node holds the chain of its genesis block. -/
theorem initGenesis_inv (config : GenesisConfig) (engine : ConsensusEngine H) (x : X) (root : H) :
    ChainInv (config.genesisBlock root) (initGenesis config engine x root)
      [config.genesisBlock root] := by
  set g := config.genesisBlock root with hg
  have hlink : Linked ([] ++ [g]) := by
    constructor
    · intro n b hb
      cases n with
      | zero =>
        cases hb
        rfl
      | succ n => cases hb
    · intro n a b _ hb
      cases hb
  have hidx := (indexes_empty (H := H)).commit hlink [] root
  have hdb := initGenesis_db config engine x root
  have hrows := writeBatch_commitBlockOps (empty H) g [] root
  refine ⟨hlink, ?_, ⟨?_, ?_⟩, rfl, ⟨g, rfl, rfl, rfl, ?_, ?_⟩, ?_⟩
  · rw [hdb]
    exact ⟨hidx.header, hidx.body, hidx.above, hidx.index, hidx.stored⟩
  · intro h b hb
    obtain ⟨rfl, rfl⟩ := initGenesis_blocksByHash hb
    rfl
  · intro h b hb
    exact .inl (initGenesis_blocksByHash hb).2
  · rw [hdb, hrows]
  · rw [hdb, hrows]
    rfl
  · intro head hhead h b hb he
    cases hhead
    obtain ⟨rfl, rfl⟩ := initGenesis_blocksByHash hb
    exact Block.hash_ne_zero _ he.symm

/-- Every reachable chain satisfies the invariant. -/
theorem run_inv (hc : ChainInv g c canon) (hg : g.parentHash = 0) (ops : List (ChainOp H)) :
    ∃ canon', ChainInv g (run ex c ops) canon' :=
  Run.invariant (P := fun c => ∃ canon, ChainInv g c canon) ⟨canon, hc⟩
    (fun _ op ⟨_, h⟩ => (step_inv ex h hg op).imp fun _ h => h.1) ops

end Steps

end Chain

end Qfc
