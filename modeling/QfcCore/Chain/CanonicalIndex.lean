import QfcCore.Chain.Invariant

/-!
# The canonical index

What the columns of a node say about its canonical chain, in the terms of the
column families themselves, over every run of imports, produced blocks and
finalizations. It is read off the invariant of the chain.
-/

namespace Qfc

namespace Chain

variable {H X : Type} [HashScheme H]

/-- `block_number`: the number of the head. -/
def blockNumber (c : Chain H X) : ℕ := (c.head.map (fun head => head.block.number)).getD 0

/-- **The canonical index of a node**: what its columns hold and how they agree
with what it holds in memory. -/
structure CanonicalIndex (c : Chain H X) : Prop where
  /-- Up to the head there is one block per height, linked to the one below. -/
  chain : ∀ n ≤ c.blockNumber, ∃ b, c.db.getBlockByNumber n = some b ∧ b.number = n ∧
    (0 < n → ∃ a, c.db.getBlockByNumber (n - 1) = some a ∧ b.parentHash = a.hash)
  /-- Above the head there is no row. -/
  above : ∀ n, c.blockNumber < n → c.db.blockHeaders n = none ∧ c.db.blockBodies n = none
  /-- The hash index has exactly the hashes of these blocks. -/
  index : ∀ h n, c.db.blockHashIndex h = some n ↔
    ∃ b, c.db.getBlockByNumber n = some b ∧ b.hash = h
  /-- The hash-keyed store has every canonical block. -/
  stored : ∀ n b, c.db.getBlockByNumber n = some b → c.db.blocksByHash b.hash = some b
  /-- The head in memory is the block at the head's height, and the metadata
  and the live root are its own. -/
  head : ∃ b, c.head = some ⟨b.hash, b⟩ ∧ c.db.getBlockByNumber b.number = some b ∧
    c.root = b.stateRoot ∧ c.db.latestBlockNumber = some b.number ∧
    c.db.latestStateRoot = some b.stateRoot
  /-- Opening the columns again gives the same head and the same root. -/
  reopen : loadHead c.db = c.head ∧ ∀ fresh, loadRoot c.db fresh = c.root

variable {g : Block H} {c : Chain H X} {canon : List (Block H)}

theorem ChainInv.blockNumber_eq (hc : ChainInv g c canon) : c.blockNumber + 1 = canon.length := by
  obtain ⟨b, hlast, hhead, -⟩ := hc.head
  unfold blockNumber
  rw [hhead]
  exact hc.linked.number_getLast hlast

theorem ChainInv.canonicalIndex (hc : ChainInv g c canon) : CanonicalIndex c := by
  have hread := hc.indexes.getBlockByNumber (Nat.zero_le _)
  have hlen := hc.blockNumber_eq
  obtain ⟨b, hlast, hhead, hroot, hnum, hsr⟩ := hc.head
  have hb : c.db.getBlockByNumber b.number = some b := by
    rw [hread, ← hlast, List.getLast?_eq_getElem?]
    congr 1
    exact Nat.eq_sub_of_add_eq (hc.linked.number_getLast hlast)
  refine ⟨?_, ?_, ?_, ?_, ⟨b, hhead, hb, hroot, hnum, hsr⟩, ?_, ?_⟩
  · intro n hn
    have hlt : n < canon.length := by
      rw [← hlen]
      exact Nat.lt_succ_of_le hn
    obtain ⟨a, ha⟩ : ∃ a, canon[n]? = some a := ⟨_, List.getElem?_eq_getElem hlt⟩
    refine ⟨a, by rw [hread, ha], hc.linked.number ha, ?_⟩
    intro hpos
    obtain ⟨m, rfl⟩ := Nat.exists_eq_succ_of_ne_zero (Nat.pos_iff_ne_zero.mp hpos)
    obtain ⟨p, hp⟩ : ∃ p, canon[m]? = some p :=
      ⟨_, List.getElem?_eq_getElem (Nat.lt_of_succ_lt hlt)⟩
    exact ⟨p, by rw [hread]; exact hp, hc.linked.parent hp ha⟩
  · intro n hn
    exact hc.indexes.above (by rw [← hlen]; exact hn) (Nat.zero_le _)
  · intro h n
    rw [hc.indexes.index, hread]
  · intro n a ha
    rw [hread] at ha
    exact hc.indexes.stored (List.mem_of_getElem? ha)
  · unfold loadHead
    rw [hnum, hhead, Option.bind_eq_bind, Option.bind_some, hb]
    rfl
  · intro fresh
    unfold loadRoot
    rw [hsr, hroot]

section

variable (ex : BlockExecutor H X) (hc : ChainInv g c canon) (hg : g.parentHash = 0)
include ex hc hg

theorem run_blocksByHash (ops : List (ChainOp H)) {h : H} {b : Block H}
    (hb : c.db.blocksByHash h = some b) : (run ex c ops).db.blocksByHash h = some b := by
  refine Run.related (P := fun c => ∃ canon, ChainInv g c canon)
    (r := fun c c' => c.db.blocksByHash h = some b → c'.db.blocksByHash h = some b)
    (fun _ h => h) (fun h1 h2 h => h2 (h1 h)) ⟨canon, hc⟩ ?_ ?_ ops hb
  · rintro c op ⟨canon, hc⟩
    obtain ⟨canon', h, -⟩ := step_inv ex hc hg op
    exact ⟨canon', h⟩
  · rintro c op ⟨canon, hc⟩
    obtain ⟨canon', -, -, hkeep, -⟩ := step_inv ex hc hg op
    exact hkeep

/-- The head's number never falls along a run. -/
theorem run_blockNumber_le (ops : List (ChainOp H)) :
    c.blockNumber ≤ (run ex c ops).blockNumber := by
  refine Run.related (P := fun c => ∃ canon, ChainInv g c canon)
    (r := fun c c' => c.blockNumber ≤ c'.blockNumber) (fun _ => le_rfl) le_trans
    ⟨canon, hc⟩ ?_ ?_ ops
  · rintro c op ⟨canon, hc⟩
    obtain ⟨canon', h, -⟩ := step_inv ex hc hg op
    exact ⟨canon', h⟩
  · rintro c op ⟨canon, hc⟩
    obtain ⟨canon', h, hstep, -⟩ := step_inv ex hc hg op
    have hle := hstep.length_le
    rw [← hc.blockNumber_eq, ← h.blockNumber_eq] at hle
    exact Nat.le_of_succ_le_succ hle

end

/-- **The canonical index invariant.** After every run from a fresh node, the
columns are a canonical index; every block accepted on the way, on whatever
branch, is in the hash-keyed store from then on; and the head never gets
lower. -/
theorem canonicalIndex_run (ex : BlockExecutor H X) (config : GenesisConfig)
    (engine : ConsensusEngine H) (x : X) (root : H) (ops later : List (ChainOp H)) :
    CanonicalIndex (run ex (initGenesis config engine x root) ops) ∧
    (∀ op b, op.block = some b →
      succeeds ex (run ex (initGenesis config engine x root) ops) op = true →
      (run ex (initGenesis config engine x root) (ops ++ op :: later)).db.blocksByHash b.hash
        = some b) ∧
    (run ex (initGenesis config engine x root) ops).blockNumber
      ≤ (run ex (initGenesis config engine x root) (ops ++ later)).blockNumber := by
  have hg : (config.genesisBlock root).parentHash = 0 := rfl
  obtain ⟨canon, hc⟩ := run_inv ex (initGenesis_inv config engine x root) hg ops
  refine ⟨hc.canonicalIndex, ?_, ?_⟩
  · intro op b hop hok
    obtain ⟨canon', h, -, -, hacc⟩ := step_inv ex hc hg op
    show (Run.run (step ex) _ (ops ++ op :: later)).db.blocksByHash b.hash = some b
    rw [Run.run_append, Run.run_cons]
    exact run_blocksByHash ex h hg later (hacc hok hop)
  · show _ ≤ (Run.run (step ex) _ (ops ++ later)).blockNumber
    rw [Run.run_append]
    exact run_blockNumber_le ex hc hg later

end Chain

end Qfc
