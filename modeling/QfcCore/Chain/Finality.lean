import QfcCore.Chain.Invariant

/-!
# Local finality

A node records a finalized height and hash. The guard of a reorganisation
compares the ancestor with the finalized height, and otherwise looks for the
finalized block on the new branch. Either way the chain after the reorg has
the finalized block, and with it everything below: a block's hash fixes its
header, hence its parent's hash, down to the genesis. So what was once
finalized stays canonical.

A reorg that is refused leaves everything as it was but the store, which has
one more block.
-/

namespace Qfc

open List

variable {H : Type} [HashScheme H] {canon canon' : List (Block H)}

/-- A hash fixes the chain below it. Two chains with blocks of one hash at
some height have blocks of one hash at every lower height. -/
theorem Linked.hash_eq_of_le (h : Linked canon) (h' : Linked canon') {m n : ℕ} (hmn : m ≤ n)
    {a a' : Block H} (ha : canon[n]? = some a) (ha' : canon'[n]? = some a')
    (heq : a.hash = a'.hash) :
    ∃ b b', canon[m]? = some b ∧ canon'[m]? = some b' ∧ b.hash = b'.hash := by
  induction n generalizing a a' with
  | zero =>
    obtain rfl : m = 0 := Nat.le_zero.mp hmn
    exact ⟨a, a', ha, ha', heq⟩
  | succ n ih =>
    by_cases hm : m = n + 1
    · subst hm
      exact ⟨a, a', ha, ha', heq⟩
    · have hn : n < canon.length := Nat.lt_of_succ_lt (List.getElem?_eq_some_iff.mp ha).1
      have hn' : n < canon'.length := Nat.lt_of_succ_lt (List.getElem?_eq_some_iff.mp ha').1
      have hp := h.parent (getElem?_eq_getElem hn) ha
      have hp' := h'.parent (getElem?_eq_getElem hn') ha'
      have hpar : a.parentHash = a'.parentHash :=
        congrArg BlockHeader.parentHash (Block.hash_inj.mp heq)
      refine ih (Nat.le_of_lt_succ (lt_of_le_of_ne hmn hm)) (getElem?_eq_getElem hn)
        (getElem?_eq_getElem hn') ?_
      rw [← hp, ← hp', hpar]

/-- Two chains that end in one hash have, at every height, blocks of one
header. -/
theorem Linked.header_eq (h : Linked canon) (h' : Linked canon') {a a' : Block H}
    (ha : canon.getLast? = some a) (ha' : canon'.getLast? = some a') (heq : a.hash = a'.hash)
    (n : ℕ) : canon[n]?.map Block.header = canon'[n]?.map Block.header := by
  have hnum : a.number = a'.number := congrArg BlockHeader.number (Block.hash_inj.mp heq)
  have hlen := h.number_getLast ha
  have hlen' := h'.number_getLast ha'
  rw [getLast?_eq_getElem?] at ha ha'
  rw [show canon.length - 1 = a.number by omega] at ha
  rw [show canon'.length - 1 = a.number by omega] at ha'
  obtain hn | hn := Nat.lt_or_ge a.number n
  · rw [getElem?_eq_none (by omega), getElem?_eq_none (by omega)]
  · obtain ⟨b, b', hb, hb', hbb⟩ := h.hash_eq_of_le h' hn ha ha' heq
    rw [hb, hb']
    exact congrArg some (Block.hash_inj.mp hbb)

namespace Chain

variable {X : Type}

/-- The chain `canon` has a block of hash `x` at height `h`. -/
def HasAt (canon : List (Block H)) (h : ℕ) (x : H) : Prop :=
  ∃ b, canon[h]? = some b ∧ b.hash = x

/-- **A node that keeps its finalized block**: its record is canonical, and so
is `(h, x)`, which is not above the record. -/
structure Keeps (g : Block H) (h : ℕ) (x : H) (c : Chain H X) (canon : List (Block H)) : Prop where
  inv : ChainInv g c canon
  recorded : HasAt canon c.finalized.1 c.finalized.2
  le : h ≤ c.finalized.1
  kept : HasAt canon h x

section Guard

variable {branch : List (H × Block H)} {ancestor : Block H} {recorded : ℕ × H} {height : ℕ}

/-- The guard of a reorganisation lets through only chains that still have
the recorded block. -/
theorem hasAt_of_retainsFinalized (hret : retainsFinalized recorded (max height recorded.1)
      branch ancestor = true)
    (hlink : Linked (joined canon branch ancestor)) (hhash : ∀ p ∈ branch, p.2.hash = p.1)
    (hrec : HasAt canon recorded.1 recorded.2) :
    HasAt (joined canon branch ancestor) recorded.1 recorded.2 := by
  unfold retainsFinalized at hret
  simp only [Bool.or_eq_true, decide_eq_true_eq, Bool.and_eq_true, beq_iff_eq, any_eq_true] at hret
  obtain ⟨b, hb, hbx⟩ := hrec
  obtain hanc | ⟨hmax, p, hp, hnum, hpx⟩ := hret
  · -- the recorded block is in the part both chains share
    have hle : recorded.1 < ancestor.number + 1 :=
      Nat.lt_succ_of_le (le_trans (le_max_right _ _) hanc)
    have hlt : recorded.1 < canon.length := (List.getElem?_eq_some_iff.mp hb).1
    refine ⟨b, ?_, hbx⟩
    unfold joined
    rw [getElem?_append_left (by rw [length_take]; exact lt_min hle hlt), getElem?_take, if_pos hle]
    exact hb
  · -- the new branch carries it
    have hmem : p.2 ∈ joined canon branch ancestor :=
      mem_append_right _ (mem_reverse.mpr (mem_map_of_mem hp))
    obtain ⟨n, hn⟩ := mem_iff_getElem?.mp hmem
    have hnn : recorded.1 = n := by
      rw [hmax, ← hnum]
      exact hlink.number hn
    rw [hnn]
    exact ⟨p.2, hn, by rw [hhash p hp, hpx]⟩

end Guard

section Steps

variable (ex : BlockExecutor H X) {g : Block H} {c : Chain H X}

/-- However the canonical chain changes, it keeps the recorded block. -/
theorem CanonStep.hasAt (hstep : CanonStep c canon canon')
    (hrec : HasAt canon c.finalized.1 c.finalized.2) :
    HasAt canon' c.finalized.1 c.finalized.2 := by
  cases hstep with
  | same => exact hrec
  | extend b =>
    obtain ⟨d, hd, hdx⟩ := hrec
    exact ⟨d, getElem?_concat_iff.mpr (.inl hd), hdx⟩
  | reorg hret hlink hhash _ => exact hasAt_of_retainsFinalized hret hlink hhash hrec

/-- The record after an operation: the old one, or a canonical block at a
greater height. -/
theorem step_finalized (c : Chain H X) (op : ChainOp H) :
    (step ex c op).finalized = c.finalized ∨
      (c.finalized.1 < (step ex c op).finalized.1 ∧ (step ex c op).db = c.db ∧
        c.db.isCanonical (step ex c op).finalized.2 (step ex c op).finalized.1 = true) := by
  have heff := step_effect ex c op
  generalize step ex c op = c' at heff ⊢
  generalize succeeds ex c op = ok at heff
  cases heff with
  | rejected | extended | produced | side | reorged => exact .inl rfl
  | @finalized height hash hcan =>
    by_cases hgt : height > c.finalized.1
    · right
      simp only [if_pos hgt]
      exact ⟨hgt, trivial, hcan⟩
    · left
      exact if_neg hgt

theorem Keeps.step {h : ℕ} {x : H} (hk : Keeps g h x c canon) (hg : g.parentHash = 0)
    (op : ChainOp H) : ∃ canon', Keeps g h x (step ex c op) canon' := by
  obtain ⟨canon', hc', hstep, -⟩ := step_inv ex hk.inv hg op
  have hrec := hstep.hasAt hk.recorded
  -- the old record is on both chains, so they agree below it
  have hkept : HasAt canon' h x := by
    obtain ⟨a, ha, hax⟩ := hk.recorded
    obtain ⟨a', ha', hax'⟩ := hrec
    obtain ⟨b, b', hb, hb', hbb⟩ :=
      hk.inv.linked.hash_eq_of_le hc'.linked hk.le ha ha' (hax.trans hax'.symm)
    obtain ⟨d, hd, hdx⟩ := hk.kept
    rw [hb] at hd
    cases hd
    exact ⟨b', hb', hbb.symm.trans hdx⟩
  obtain hsame | ⟨hlt, hdb, hcan⟩ := step_finalized ex c op
  · refine ⟨canon', hc', ?_, ?_, hkept⟩
    · rw [hsame]
      exact hrec
    · rw [hsame]
      exact hk.le
  · refine ⟨canon', hc', ?_, le_trans hk.le hlt.le, hkept⟩
    rw [← hdb] at hcan
    exact (hc'.indexes.isCanonical_iff (Nat.zero_le _)).mp hcan

theorem Keeps.run {h : ℕ} {x : H} (hk : Keeps g h x c canon) (hg : g.parentHash = 0)
    (ops : List (ChainOp H)) : ∃ canon', Keeps g h x (run ex c ops) canon' :=
  Run.invariant (P := fun c => ∃ canon, Keeps g h x c canon) ⟨canon, hk⟩
    (fun _ op ⟨_, h⟩ => h.step ex hg op) ops

end Steps

/-- The import of `b` asks for a reorganisation and is refused it. -/
structure ReorgRefused (ex : BlockExecutor H X) (now : ℕ) (c : Chain H X) (b : Block H)
    (parent : Block H) (head : SealedBlock H) (x : X) (o : ExecutionOutcome H) : Prop where
  head_eq : c.head = some head
  new : c.db.blocksByHash b.hash = none ∧ c.db.blockHashIndex b.hash = none
  parent_eq : c.db.getBlockByHash b.parentHash = some parent
  accepted : Accepted ex c now b parent x o
  side : b.parentHash ≠ head.hash
  better_eq : better b.number b.hash head = true
  refused : (reorgTo ex (storeSide c x b) b.hash b).2.isOk = false

/-- Such an import returns what the reorganisation leaves. -/
theorem ReorgRefused.importBlock_eq {ex : BlockExecutor H X} {now : ℕ} {c : Chain H X}
    {b parent : Block H} {head : SealedBlock H} {x : X} {o : ExecutionOutcome H}
    (h : ReorgRefused ex now c b parent head x o) :
    (importBlock ex now c b).1 = (reorgTo ex (storeSide c x b) b.hash b).1 := by
  rw [importBlock_accepted ex h.new.1 h.new.2 h.parent_eq h.accepted,
    adopt_eq ex (c := { c with exec := x }) h.head_eq]
  unfold adoptOn
  rw [if_neg h.side]
  show (if better b.number b.hash head = true then _ else _) = _
  rw [if_pos h.better_eq]
  rfl

/-- **Local finality.** After every run from a fresh node, the finalized block
stays canonical at its height in every later state, the finalized height never
falls, and an import whose reorg is refused adds the block to the hash-keyed
store and changes nothing else of the chain. -/
theorem finality_run (ex : BlockExecutor H X) (config : GenesisConfig)
    (engine : ConsensusEngine H) (x : X) (root : H) (ops later : List (ChainOp H)) :
    (run ex (initGenesis config engine x root) (ops ++ later)).db.isCanonical
      (run ex (initGenesis config engine x root) ops).finalized.2
      (run ex (initGenesis config engine x root) ops).finalized.1 = true ∧
    (run ex (initGenesis config engine x root) ops).finalized.1
      ≤ (run ex (initGenesis config engine x root) (ops ++ later)).finalized.1 ∧
    ∀ now b parent head y o,
      ReorgRefused ex now (run ex (initGenesis config engine x root) ops) b parent head y o →
      ∃ z, step ex (run ex (initGenesis config engine x root) ops) (.importBlock now b)
        = { run ex (initGenesis config engine x root) ops with
            exec := z
            db := { (run ex (initGenesis config engine x root) ops).db with
              blocksByHash := Function.update
                (run ex (initGenesis config engine x root) ops).db.blocksByHash
                b.hash (some b) } } := by
  have hg : (config.genesisBlock root).parentHash = 0 := rfl
  have hinit : Keeps (config.genesisBlock root) 0 (config.genesisBlock root).hash
      (initGenesis config engine x root) [config.genesisBlock root] :=
    ⟨initGenesis_inv config engine x root, ⟨_, rfl, rfl⟩, le_rfl, ⟨_, rfl, rfl⟩⟩
  obtain ⟨canon, hk⟩ := hinit.run ex hg ops
  set c := run ex (initGenesis config engine x root) ops with hc
  have hkc : Keeps (config.genesisBlock root) c.finalized.1 c.finalized.2 c canon :=
    ⟨hk.inv, hk.recorded, le_rfl, hk.recorded⟩
  obtain ⟨canon', hk'⟩ := hkc.run ex hg later
  have hrun : run ex (initGenesis config engine x root) (ops ++ later) = run ex c later :=
    Run.run_append _ _ _ _
  rw [hrun]
  refine ⟨(hk'.inv.indexes.isCanonical_iff (Nat.zero_le _)).mpr hk'.kept, hk'.le, ?_⟩
  intro now b parent head y o href
  have himp := href.importBlock_eq
  have hrefused := href.refused
  rw [reorgTo_eq ex (c := storeSide c y b) href.head_eq] at himp hrefused
  obtain ⟨z, e, -, he⟩ | ⟨branch, ancestor, executed, z, -, he⟩ :=
    reorgFrom_cases ex (storeSide c y b) head b
  · rw [he] at himp
    exact ⟨z, himp⟩
  · rw [he] at hrefused
    cases hrefused

end Chain

end Qfc
