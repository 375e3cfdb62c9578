import QfcCore.Lib.Run
import QfcCore.Chain.Import

/-!
# What a step can do

The operations on the canonical chain as events of one transition system, and
the inversion lemma the invariants are derived from: `Effect` lists, with
their guards, the six things an operation can do to the chain, and
`step_effect` says that it does one of them. No later proof unfolds the
operations again.
-/

namespace Qfc

/-- The operations that change the canonical chain. Each takes the import lock
and is atomic. -/
inductive ChainOp (H : Type)
  | importBlock (now : ℕ) (b : Block H)
  | storeProducedBlock (now : ℕ) (b : Block H)
  | recordFinalized (height : ℕ) (hash : H)

/-- The block an operation brings in. -/
def ChainOp.block {H : Type} : ChainOp H → Option (Block H)
  | .importBlock _ b => some b
  | .storeProducedBlock _ b => some b
  | .recordFinalized _ _ => none

namespace Chain

variable {H X : Type} [HashScheme H] (ex : BlockExecutor H X) (c : Chain H X)

/-- One operation, whether it succeeds or ends in an error. -/
def step : ChainOp H → Chain H X
  | .importBlock now b => (importBlock ex now c b).1
  | .storeProducedBlock now b => (storeProducedBlock ex now c b).1
  | .recordFinalized height hash => recordFinalized c height hash

/-- Whether an operation is accepted: a block without an error, a finalization
of a canonical block. -/
def succeeds : ChainOp H → Bool
  | .importBlock now b => (importBlock ex now c b).2.isOk
  | .storeProducedBlock now b => (storeProducedBlock ex now c b).2.isOk
  | .recordFinalized height hash => c.db.isCanonical hash height

/-- A list of operations. -/
abbrev run (ops : List (ChainOp H)) : Chain H X := Run.run (step ex) c ops

/-- The columns an executor reaches from `x₀` by executing blocks. -/
inductive ExecReach (x₀ : X) : X → Prop
  | refl : ExecReach x₀ x₀
  | next {x : X} (look : H → Option (Block H)) (b : Block H) (root : H) :
      ExecReach x₀ x → ExecReach x₀ (executeBlock ex x look b root).1

/-- **A block accepted on a parent**: validated, executed on the parent's state
root, and carrying the root and the gas of that execution. -/
structure Accepted (now : ℕ) (b parent : Block H) (x : X) (o : ExecutionOutcome H) : Prop where
  valid : c.engine.validateBlock now b parent = .ok ()
  executed : executeBlock ex c.exec c.db.blocksByHash b parent.stateRoot = (x, .ok o)
  root_eq : o.stateRoot = b.stateRoot
  gas_eq : o.gasUsed = b.header.gasUsed

/-- The chain once an accepted block is stored on its branch. -/
def storeSide (x : X) (b : Block H) : Chain H X :=
  { c with exec := x, db := c.db.applyOp (.putBlock b.hash b) }

/-- **A reorganisation that goes through** from `c` to the branch that ends in
`tip`. -/
structure Reorg (tip : Block H) (branch : List (H × Block H)) (ancestor : Block H)
    (executed : List (Block H × ExecutionOutcome H)) (x : X) : Prop where
  collected : collectBranch c.db (tip.number + 1) tip.hash tip = .ok (branch, ancestor)
  retains : retainsFinalized c.finalized (max c.engine.finalizedHeight c.finalized.1)
    branch ancestor = true
  executed_eq : executeBranch ex c.db.blocksByHash c.exec ancestor.stateRoot branch.reverse
    = (x, .ok executed)

/-- The chain after a reorganisation. -/
def reorged (oldHead : SealedBlock H) (tip ancestor : Block H)
    (executed : List (Block H × ExecutionOutcome H)) (x : X) : Chain H X :=
  { c with
    exec := x
    db := c.db.writeBatch (reorgOps c.db ancestor.number oldHead.block.number executed)
    root := (executed.getLast?.map (fun p => p.2.stateRoot)).getD ancestor.stateRoot
    head := some ⟨tip.hash, tip⟩ }

/-- **What one operation does to the chain**, with the guards it passed and
whether it is accepted. -/
inductive Effect (c : Chain H X) : ChainOp H → Bool → Chain H X → Prop
  /-- Rejected, or a finalization that is ignored: at most the executor's
  columns change. -/
  | rejected (op : ChainOp H) {x : X} : ExecReach ex c.exec x →
      Effect c op false { c with exec := x }
  /-- An imported block extends the head. -/
  | extended {now b parent head x o} :
      c.head = some head → b.parentHash = head.hash →
      c.db.blocksByHash b.hash = none → c.db.getBlockByHash b.parentHash = some parent →
      Accepted ex c now b parent x o →
      Effect c (.importBlock now b) true
        (commitCanonical { c with exec := x } b o.receipts o.stateRoot)
  /-- A produced block extends the head. -/
  | produced {now b head x o} :
      c.head = some head → b.parentHash = head.hash →
      Accepted ex c now b head.block x o →
      Effect c (.storeProducedBlock now b) true
        (commitCanonical { c with exec := x } b o.receipts o.stateRoot)
  /-- An imported block is stored on its branch and the head stays: the fork
  choice keeps it, or the reorg is refused. -/
  | side {now b parent head x x' o} :
      c.head = some head → b.parentHash ≠ head.hash →
      c.db.blocksByHash b.hash = none → c.db.getBlockByHash b.parentHash = some parent →
      Accepted ex c now b parent x o →
      (better b.number b.hash head = false ∨
        ∃ e, reorgFrom ex (storeSide c x b) head b.hash b = (storeSide c x' b, .error e)) →
      ExecReach ex c.exec x' →
      Effect c (.importBlock now b) true (storeSide c x' b)
  /-- An imported block becomes the head by a reorganisation. -/
  | reorged {now b parent head x o branch ancestor executed x'} :
      c.head = some head → b.parentHash ≠ head.hash →
      c.db.blocksByHash b.hash = none → c.db.getBlockByHash b.parentHash = some parent →
      Accepted ex c now b parent x o → better b.number b.hash head = true →
      Reorg ex (storeSide c x b) b branch ancestor executed x' →
      Effect c (.importBlock now b) true
        (Chain.reorged (storeSide c x b) head b ancestor executed x')
  /-- A canonical block is recorded as finalized. -/
  | finalized {height hash} :
      c.db.isCanonical hash height = true →
      Effect c (.recordFinalized height hash) true
        { c with
          finalized := if height > c.finalized.1 then (height, hash) else c.finalized
          engine := { c.engine with finalizedHeight := max height c.engine.finalizedHeight } }

variable {ex} {x : X} {b : Block H} in
theorem ExecReach.trans {y z : X} (h : ExecReach ex x y) (h' : ExecReach ex y z) :
    ExecReach ex x z := by
  induction h' with
  | refl => exact h
  | next look b root _ ih => exact .next look b root ih

theorem execReach_executeBlock {x' : X} {look : H → Option (Block H)} {root : H}
    {r : Except (ChainError H) (ExecutionOutcome H)} (h : executeBlock ex x look b root = (x', r)) :
    ExecReach ex x x' := by
  have hx : ExecReach ex x (executeBlock ex x look b root).1 := .next look b root .refl
  rwa [h] at hx

/-- A branch executes its blocks only, as far as it comes. -/
theorem execReach_executeBranch (look : H → Option (Block H)) (branch : List (H × Block H))
    (x : X) (root : H) : ExecReach ex x (executeBranch ex look x root branch).1 := by
  induction branch generalizing x root with
  | nil => exact .refl
  | cons p branch ih =>
    obtain ⟨hash, b⟩ := p
    unfold executeBranch
    rcases he : executeBlock ex x look b root with ⟨x₁, e | o⟩
    · exact execReach_executeBlock ex he
    dsimp only
    split
    · exact execReach_executeBlock ex he
    · have hrest := (execReach_executeBlock ex he).trans (ih x₁ o.stateRoot)
      rcases hrec : executeBranch ex look x₁ o.stateRoot branch with ⟨x₂, e | executed⟩ <;>
      · rw [hrec] at hrest
        exact hrest

variable {c : Chain H X} {head : SealedBlock H} {o : ExecutionOutcome H} {parent : Block H}

theorem reorgTo_eq (hhead : c.head = some head) (tipHash : H) (tip : Block H) :
    reorgTo ex c tipHash tip = reorgFrom ex c head tipHash tip := by
  unfold reorgTo
  rw [hhead]

/-- A reorg goes through or leaves the chain alone. An error anywhere
changes at most the executor's columns. -/
theorem reorgFrom_cases (c : Chain H X) (head : SealedBlock H) (tip : Block H) :
    (∃ x e, ExecReach ex c.exec x ∧
      reorgFrom ex c head tip.hash tip = ({ c with exec := x }, .error e)) ∨
    ∃ branch ancestor executed x, Reorg ex c tip branch ancestor executed x ∧
      reorgFrom ex c head tip.hash tip = (reorged c head tip ancestor executed x,
        .ok (displacedTxs c.db ancestor.number head.block.number executed)) := by
  unfold reorgFrom
  dsimp only
  cases hb : collectBranch c.db (tip.number + 1) tip.hash tip with
  | error e => exact .inl ⟨c.exec, e, .refl, rfl⟩
  | ok p =>
    obtain ⟨branch, ancestor⟩ := p
    dsimp only
    split
    · exact .inl ⟨c.exec, _, .refl, rfl⟩
    · rename_i hret
      rw [not_not] at hret
      have hx := execReach_executeBranch ex c.db.blocksByHash branch.reverse c.exec
        ancestor.stateRoot
      rcases he : executeBranch ex c.db.blocksByHash c.exec ancestor.stateRoot branch.reverse with
        ⟨x, e | executed⟩ <;> rw [he] at hx
      · exact .inl ⟨x, e, hx, rfl⟩
      · exact .inr ⟨branch, ancestor, executed, x, ⟨hb, hret, he⟩, rfl⟩

theorem Reorg.reorgFrom_eq {ex : BlockExecutor H X} {tip ancestor : Block H}
    {branch : List (H × Block H)} {executed : List (Block H × ExecutionOutcome H)}
    (hr : Reorg ex c tip branch ancestor executed x) (head : SealedBlock H) :
    reorgFrom ex c head tip.hash tip = (reorged c head tip ancestor executed x,
      .ok (displacedTxs c.db ancestor.number head.block.number executed)) := by
  unfold reorgFrom
  rw [hr.collected]
  dsimp only
  rw [if_neg (not_not.mpr hr.retains), hr.executed_eq]
  rfl

/-- A known block is turned away and nothing changes. -/
theorem importBlock_known {d : Block H} (now : ℕ) (h : c.db.blocksByHash b.hash = some d) :
    importBlock ex now c b = (c, .error .blockAlreadyKnown) := by
  unfold importBlock
  rw [h]
  rfl

/-- A new block that is accepted on its parent goes on to the fork choice. -/
theorem importBlock_accepted {now : ℕ} (hnew : c.db.blocksByHash b.hash = none)
    (hidx : c.db.blockHashIndex b.hash = none)
    (hparent : c.db.getBlockByHash b.parentHash = some parent)
    (hacc : Accepted ex c now b parent x o) :
    importBlock ex now c b = adopt ex { c with exec := x } b o := by
  have hproofs : ¬ (ConsensusEngine.checksProofs b = true ∧
      b.header.proofsRoot ≠ ConsensusEngine.expectedProofsRoot b) := fun h =>
    h.2 ((ConsensusEngine.validateBlock_ok hacc.valid).2.2.2 h.1)
  unfold importBlock
  rw [hnew, hidx, hparent]
  simp only [Option.isSome_none, Bool.or_self, Bool.false_eq_true, if_false]
  rw [hacc.valid]
  simp [hproofs, hacc.executed, hacc.root_eq, hacc.gas_eq]

theorem adopt_eq (hhead : c.head = some head) (b : Block H) (o : ExecutionOutcome H) :
    adopt ex c b o = (adoptOn ex c head b o, .ok b.hash) := by
  unfold adopt
  rw [hhead]

/-- The end of an import is one of the effects. -/
theorem adopt_effect {now : ℕ} (hnew : c.db.blocksByHash b.hash = none)
    (hparent : c.db.getBlockByHash b.parentHash = some parent)
    (hacc : Accepted ex c now b parent x o) :
    Effect ex c (.importBlock now b) (adopt ex { c with exec := x } b o).2.isOk
      (adopt ex { c with exec := x } b o).1 := by
  rcases Option.eq_none_or_eq_some c.head with hhead | ⟨head, hhead⟩
  · have hadopt : adopt ex { c with exec := x } b o
        = ({ c with exec := x }, .error .genesisNotFound) := by
      simp [adopt, hhead]
    rw [hadopt]
    exact .rejected _ (execReach_executeBlock ex hacc.executed)
  · rw [adopt_eq ex (c := { c with exec := x }) hhead]
    unfold adoptOn
    split
    · rename_i hp
      exact .extended hhead hp hnew hparent hacc
    · rename_i hp
      show Effect ex c _ true (if better b.number b.hash head then
        (reorgTo ex (storeSide c x b) b.hash b).1 else storeSide c x b)
      split
      · rename_i hbetter
        rw [reorgTo_eq ex (c := storeSide c x b) hhead]
        rcases reorgFrom_cases ex (storeSide c x b) head b with
          ⟨x', e, hx', he⟩ | ⟨branch, ancestor, executed, x', hreorg, he⟩
        · rw [he]
          exact .side hhead hp hnew hparent hacc (.inr ⟨e, he⟩)
            ((execReach_executeBlock ex hacc.executed).trans hx')
        · rw [he]
          exact .reorged hhead hp hnew hparent hacc hbetter hreorg
      · rename_i hbetter
        exact .side hhead hp hnew hparent hacc (.inl (Bool.eq_false_iff.mpr hbetter))
          (execReach_executeBlock ex hacc.executed)

/-- Every operation has one of the six effects. -/
theorem step_effect (c : Chain H X) (op : ChainOp H) :
    Effect ex c op (succeeds ex c op) (step ex c op) := by
  cases op with
  | importBlock now b =>
    show Effect ex c _ (importBlock ex now c b).2.isOk (importBlock ex now c b).1
    unfold importBlock
    split
    · exact .rejected _ .refl
    · rename_i hknown
      have hnew : c.db.blocksByHash b.hash = none := by
        cases h : c.db.blocksByHash b.hash with
        | none => rfl
        | some b' => simp [h] at hknown
      cases hparent : c.db.getBlockByHash b.parentHash with
      | none => exact .rejected _ .refl
      | some parent =>
        dsimp only
        cases hvalid : c.engine.validateBlock now b parent with
        | error e => exact .rejected _ .refl
        | ok u =>
          dsimp only
          split
          · exact .rejected _ .refl
          · rcases hexec : executeBlock ex c.exec c.db.blocksByHash b parent.stateRoot with ⟨x, e | o⟩
            · exact .rejected _ (execReach_executeBlock ex hexec)
            dsimp only
            split
            · exact .rejected _ (execReach_executeBlock ex hexec)
            · rename_i hroot
              split
              · exact .rejected _ (execReach_executeBlock ex hexec)
              · rename_i hgas
                exact adopt_effect ex hnew hparent
                  ⟨hvalid, hexec, not_not.mp hroot, not_not.mp hgas⟩
  | storeProducedBlock now b =>
    show Effect ex c _ (storeProducedBlock ex now c b).2.isOk (storeProducedBlock ex now c b).1
    rcases Option.eq_none_or_eq_some c.head with hhead | ⟨head, hhead⟩
    · have hstore : storeProducedBlock ex now c b = (c, .error .genesisNotFound) := by
        simp [storeProducedBlock, hhead]
      rw [hstore]
      exact .rejected _ .refl
    · have hstore : storeProducedBlock ex now c b = storeProducedOn ex now c head b := by
        simp [storeProducedBlock, hhead]
      rw [hstore]
      unfold storeProducedOn
      split
      · exact .rejected _ .refl
      · rename_i hp
        cases hvalid : c.engine.validateBlock now b head.block with
        | error e => exact .rejected _ .refl
        | ok u =>
          dsimp only
          rcases hexec : executeBlock ex c.exec c.db.blocksByHash b head.block.stateRoot with
            ⟨x, e | o⟩
          · exact .rejected _ (execReach_executeBlock ex hexec)
          dsimp only
          split
          · exact .rejected _ (execReach_executeBlock ex hexec)
          · rename_i hroot
            split
            · exact .rejected _ (execReach_executeBlock ex hexec)
            · rename_i hgas
              exact .produced hhead (not_not.mp hp)
                ⟨hvalid, hexec, not_not.mp hroot, not_not.mp hgas⟩
  | recordFinalized height hash =>
    show Effect ex c _ (c.db.isCanonical hash height) (recordFinalized c height hash)
    unfold recordFinalized
    split
    · rename_i hc
      rw [hc]
      exact .finalized hc
    · rename_i hc
      rw [Bool.eq_false_iff.mpr hc]
      exact .rejected _ .refl

end Chain

end Qfc
