import QfcCore.Chain.Finality
import QfcCore.Lib.History
import QfcCore.Types.CodeHash

/-!
# Convergence of fork choice

Nodes that import the same blocks, each after its parent and with nothing
finalized above the genesis, end on the same chain. Execution is taken to be a
function `f` of the parent's state root and of the block.

The fork choice compares a new block with the current head only. That is
enough: after every import the head *wins* against every stored block, by a
greater number or by the same number and a hash that is not greater. For this
no reorganisation may fail. It does not: a stored block executed on its parent
when it was imported, so its branch executes again, and the guard of the
finalized height is void at the genesis.

Two blocks that differ only in their bodies have one hash, and the one that
comes first is kept. So what two nodes agree on is the hashes, hence the
headers, of their chains, and the blocks themselves as soon as the delivered
blocks have different hashes.
-/

namespace Qfc

open Function List History

namespace Chain

variable {H X : Type} [HashScheme H] {b p : Block H} {head : SealedBlock H}

/-- An execution as a function: parent state root, parent hash, number,
timestamp, producer, transactions. -/
abbrev Execution (H : Type) : Type :=
  H → H → ℕ → ℕ → Address → List Transaction → Except (ChainError H) (ExecutionOutcome H)

/-- **The executor is a function** of the parent root and of the block: neither
its columns nor the other blocks matter. -/
def Functional (ex : BlockExecutor H X) (f : Execution H) : Prop :=
  ∀ x look root parent number time producer txs,
    (ex.executeAt x look root parent number time producer txs).2
      = f root parent number time producer txs

/-- A block that executes on a parent root to what its header says. -/
def ExecutesOn (f : Execution H) (root : H) (b : Block H) : Prop :=
  ∃ o, f root b.parentHash b.number b.header.timestamp b.header.producer b.transactions = .ok o ∧
    o.stateRoot = b.stateRoot ∧ o.gasUsed = b.header.gasUsed

/-- **A block that is valid on a parent** at a time, for an engine. -/
def ValidOn (f : Execution H) (engine : ConsensusEngine H) (now : ℕ) (b parent : Block H) : Prop :=
  engine.validateBlock now b parent = .ok () ∧ ExecutesOn f parent.stateRoot b

/-- Validity depends on the parent's header only. -/
theorem ValidOn.congr {f : Execution H} {engine : ConsensusEngine H} {now : ℕ} {q : Block H}
    (h : ValidOn f engine now b p) (hpq : p.header = q.header) : ValidOn f engine now b q := by
  obtain ⟨hp, _, _, _, _⟩ := p
  obtain ⟨hq, _, _, _, _⟩ := q
  obtain rfl : hp = hq := hpq
  exact h

/-- The order of the fork choice: `a` wins against `b` by a greater number, or
by the same number and a hash that is not greater. -/
def Wins (a b : Block H) : Prop :=
  b.number < a.number ∨ (b.number = a.number ∧ a.hash ≤ b.hash)

theorem wins_refl (a : Block H) : Wins a a := .inr ⟨rfl, le_rfl⟩

theorem Wins.trans {a d : Block H} (hab : Wins a b) (hbd : Wins b d) : Wins a d := by
  obtain hab | ⟨hab, hab'⟩ := hab
  · obtain hbd | ⟨hbd, -⟩ := hbd
    · exact .inl (hbd.trans hab)
    · exact .inl (hbd ▸ hab)
  · obtain hbd | ⟨hbd, hbd'⟩ := hbd
    · exact .inl (hab ▸ hbd)
    · exact .inr ⟨hbd.trans hab, hab'.trans hbd'⟩

/-- Two blocks that win against each other have one hash. -/
theorem Wins.antisymm {a : Block H} (hab : Wins a b) (hba : Wins b a) : a.hash = b.hash := by
  obtain hab | ⟨hab, hab'⟩ := hab
  · obtain hba | ⟨hba, -⟩ := hba
    · exact absurd (hab.trans hba) (lt_irrefl _)
    · exact absurd (hba ▸ hab) (lt_irrefl _)
  · obtain hba | ⟨-, hba'⟩ := hba
    · exact absurd (hab ▸ hba) (lt_irrefl _)
    · exact le_antisymm hab' hba'

/-- The test of the fork choice: what is not better than the head loses to
it, and what is better wins. -/
theorem better_iff (hh : head.hash = head.block.hash) :
    better b.number b.hash head = false ↔ Wins head.block b := by
  unfold better Wins
  rw [← Bool.not_eq_true, Bool.or_eq_true, Bool.and_eq_true, decide_eq_true_eq, decide_eq_true_eq,
    beq_iff_eq, hh, not_or, not_and, not_lt, not_lt]
  constructor
  · rintro ⟨hle, himp⟩
    obtain hlt | heq := lt_or_eq_of_le hle
    · exact .inl hlt
    · exact .inr ⟨heq, himp heq⟩
  · rintro (hlt | ⟨heq, hle⟩)
    · exact ⟨hlt.le, fun heq => absurd (heq ▸ hlt) (lt_irrefl _)⟩
    · exact ⟨heq.le, fun _ => hle⟩

theorem wins_of_better (hh : head.hash = head.block.hash) (hb : better b.number b.hash head = true) :
    Wins b head.block := by
  unfold better at hb
  simp only [Bool.or_eq_true, decide_eq_true_eq, Bool.and_eq_true, beq_iff_eq] at hb
  obtain hlt | ⟨heq, hlt⟩ := hb
  · exact .inl hlt
  · rw [hh] at hlt
    exact .inr ⟨heq.symm, hlt.le⟩

/-! ## A branch of accepted blocks executes again -/

variable {ex : BlockExecutor H X} {f : Execution H}

section Branch

variable {root : H} {l : List (H × Block H)} {db : Database H}

theorem executeBlock_of_functional (hf : Functional ex f) (hb : ExecutesOn f root b) (x : X)
    (look : H → Option (Block H)) :
    ∃ x' o, executeBlock ex x look b root = (x', .ok o) ∧ o.stateRoot = b.stateRoot ∧
      o.gasUsed = b.header.gasUsed := by
  obtain ⟨o, hfo, hroot, hgas⟩ := hb
  have h2 := hf x look root b.parentHash b.number b.header.timestamp b.header.producer
    b.transactions
  refine ⟨(executeBlock ex x look b root).1, o, Prod.ext rfl ?_, hroot, hgas⟩
  exact h2.trans hfo

/-- The blocks of a list execute one on the other, the first on `root`. -/
def ExecutesFrom (f : Execution H) : H → List (H × Block H) → Prop
  | _, [] => True
  | root, p :: l => ExecutesOn f root p.2 ∧ ExecutesFrom f p.2.stateRoot l

omit [HashScheme H] in
theorem executesFrom_concat {f : Execution H} {p : H × Block H} (hl : ExecutesFrom f root l)
    (hp : ExecutesOn f ((l.getLast?.map (fun q => q.2.stateRoot)).getD root) p.2) :
    ExecutesFrom f root (l ++ [p]) := by
  induction l generalizing root with
  | nil => exact ⟨hp, trivial⟩
  | cons q l ih =>
    refine ⟨hl.1, ih hl.2 ?_⟩
    cases l with
    | nil | cons r l => exact hp

/-- A list of blocks that execute one on the other executes as a branch. -/
theorem executeBranch_of_executesFrom (hf : Functional ex f) (look : H → Option (Block H))
    (hl : ExecutesFrom f root l) (x : X) :
    ∃ x' executed, executeBranch ex look x root l = (x', .ok executed) := by
  induction l generalizing root x with
  | nil => exact ⟨x, [], rfl⟩
  | cons p l ih =>
    obtain ⟨x1, o, ho, hroot, -⟩ := executeBlock_of_functional hf hl.1 x look
    have hl2 : ExecutesFrom f o.stateRoot l := by
      rw [hroot]
      exact hl.2
    obtain ⟨x2, executed, hrec⟩ := ih hl2 x1
    refine ⟨x2, (p.2, o) :: executed, ?_⟩
    unfold executeBranch
    rw [ho]
    simp only [hroot, ne_eq, not_true_eq_false, if_false]
    rw [← hroot, hrec]

/-- Every stored block but the genesis executes on its parent. -/
def StoredExecutes (f : Execution H) (db : Database H) (g : Block H) : Prop :=
  ∀ (h : H) (b : Block H), db.blocksByHash h = some b →
    b = g ∨ ∃ p, db.blocksByHash b.parentHash = some p ∧ ExecutesOn f p.stateRoot b

theorem StoredExecutes.put {db' : Database H} {g : Block H} (hexec : StoredExecutes f db g)
    (hnew : db.blocksByHash b.hash = none) (hp : db.blocksByHash b.parentHash = some p)
    (hon : ExecutesOn f p.stateRoot b)
    (hstore : db'.blocksByHash = update db.blocksByHash b.hash (some b)) :
    StoredExecutes f db' g := by
  intro h d hd
  rw [hstore] at hd ⊢
  obtain ⟨-, rfl⟩ | ⟨-, hd⟩ := Table.of_mem_insert hd
  · exact .inr ⟨p, Table.mem_insert_of_new hnew _ hp, hon⟩
  · refine (hexec h d hd).imp_right ?_
    rintro ⟨q, hq, hqd⟩
    exact ⟨q, Table.mem_insert_of_new hnew _ hq, hqd⟩

/-- The branch a walk collects executes on the ancestor, and ends in the
state of the block the walk started from. -/
theorem collectBranch_executes {canon : List (Block H)} {g : Block H} (hidx : Indexes db canon 0)
    (hlink : Linked canon) (htree : Tree db g) (hgen : canon[0]? = some g)
    (hexec : StoredExecutes f db g) {fuel : ℕ} {hash : H} {cursor : Block H}
    (hcur : db.blocksByHash hash = some cursor) {branch : List (H × Block H)} {ancestor : Block H}
    (h : collectBranch db fuel hash cursor = .ok (branch, ancestor)) :
    ExecutesFrom f ancestor.stateRoot branch.reverse ∧
      (branch.reverse.getLast?.map (fun q => q.2.stateRoot)).getD ancestor.stateRoot
        = cursor.stateRoot := by
  induction fuel generalizing hash cursor branch ancestor with
  | zero => cases h
  | succ fuel ih =>
    obtain ⟨-, rfl, rfl⟩ | ⟨hcan, p, rest, hp, hrec, rfl⟩ := collectBranch_succ h
    · exact ⟨trivial, rfl⟩
    · rw [hidx.getBlockByHash] at hp
      obtain ⟨hrest, hlast⟩ := ih hp hrec
      have hon : ExecutesOn f p.stateRoot cursor := by
        obtain rfl | ⟨p', hp', hon⟩ := hexec hash cursor hcur
        · have hnum : cursor.number = 0 := hlink.number hgen
          rw [hnum] at hcan
          exact absurd ((hidx.isCanonical_iff (Nat.zero_le _)).mpr
            ⟨cursor, hgen, htree.hash hcur⟩) hcan
        · rw [hp] at hp'
          cases hp'
          exact hon
      rw [reverse_cons]
      refine ⟨executesFrom_concat hrest ?_, ?_⟩
      · rw [hlast]
        exact hon
      · rw [getLast?_concat]
        rfl

end Branch

/-! ## A node after some imports -/

/-- **A node that has imported `blocks`** with nothing finalized: its store is
the genesis and these blocks, up to blocks of one hash, and its head wins
against all of them. -/
structure Synced (f : Execution H) (g : Block H) (engine : ConsensusEngine H)
    (blocks : List (Block H)) (c : Chain H X) (canon : List (Block H)) : Prop where
  inv : ChainInv g c canon
  engine_eq : c.engine = engine
  finalized_eq : c.finalized.1 = 0
  sound : ∀ {h : H} {b : Block H}, c.db.blocksByHash h = some b → b = g ∨ b ∈ blocks
  complete : ∀ b ∈ blocks, (c.db.blocksByHash b.hash).isSome = true
  executes : StoredExecutes f c.db g
  best : ∀ {head : SealedBlock H}, c.head = some head →
    ∀ {h : H} {b : Block H}, c.db.blocksByHash h = some b → Wins head.block b

section Import

variable {g : Block H} {engine : ConsensusEngine H} {blocks : List (Block H)} {c : Chain H X}
  {canon : List (Block H)}

/-- A node stays synced when a new block is stored and the head wins against
it and against the old head. -/
theorem Synced.grow (hs : Synced f g engine blocks c canon) (hnew : c.db.blocksByHash b.hash = none)
    (hp : c.db.blocksByHash b.parentHash = some p) (hon : ExecutesOn f p.stateRoot b)
    {c' : Chain H X} {canon' : List (Block H)} (hinv : ChainInv g c' canon')
    (hengine : c'.engine = c.engine) (hfin : c'.finalized = c.finalized)
    (hstore : c'.db.blocksByHash = update c.db.blocksByHash b.hash (some b)) {head' : SealedBlock H}
    (hhead : c.head = some head) (hhead' : c'.head = some head') (hb : Wins head'.block b)
    (hold : Wins head'.block head.block) : Synced f g engine (blocks ++ [b]) c' canon' := by
  refine ⟨hinv, hengine.trans hs.engine_eq, by rw [hfin]; exact hs.finalized_eq, ?_, ?_,
    hs.executes.put hnew hp hon hstore, ?_⟩
  · intro h d hd
    rw [hstore] at hd
    obtain ⟨-, rfl⟩ | ⟨-, hd⟩ := Table.of_mem_insert hd
    · exact .inr (mem_append_right _ (mem_singleton_self _))
    · exact (hs.sound hd).imp_right (mem_append_left _)
  · intro d hd
    obtain hd | hd := mem_append.mp hd
    · obtain ⟨d', hd'⟩ := Option.isSome_iff_exists.mp (hs.complete d hd)
      rw [hstore, Table.mem_insert_of_new hnew _ hd']
      rfl
    · rw [mem_singleton.mp hd, hstore, update_self]
      rfl
  · intro head'' hhead'' h d hd
    obtain rfl : head' = head'' := Option.some.inj (hhead'.symm.trans hhead'')
    rw [hstore] at hd
    obtain ⟨-, rfl⟩ | ⟨-, hd⟩ := Table.of_mem_insert hd
    · exact hb
    · exact hold.trans (hs.best hhead hd)

/-- With nothing finalized above the genesis, a reorganisation to a stored
block goes through. -/
theorem reorg_ok (hf : Functional ex f) (hc : ChainInv g c canon)
    (hexec : StoredExecutes f c.db g) (hfin : max c.engine.finalizedHeight c.finalized.1 = 0)
    {tip : Block H} (htip : c.db.blocksByHash tip.hash = some tip) :
    ∃ branch ancestor executed x, Reorg ex c tip branch ancestor executed x := by
  obtain ⟨branch, ancestor, hcol⟩ := collectBranch_ok hc.indexes hc.linked hc.tree hc.genesis
    htip (Nat.lt_succ_self tip.number)
  obtain ⟨hbranch, -⟩ := collectBranch_executes hc.indexes hc.linked hc.tree hc.genesis hexec
    htip hcol
  obtain ⟨x, executed, hrun⟩ := executeBranch_of_executesFrom hf c.db.blocksByHash hbranch c.exec
  refine ⟨branch, ancestor, executed, x, hcol, ?_, hrun⟩
  unfold retainsFinalized
  rw [hfin]
  simp

/-- Importing a valid block keeps a node synced. -/
theorem Synced.importBlock (hf : Functional ex f) (hfin : engine.finalizedHeight = 0)
    (hg : g.parentHash = 0) (hs : Synced f g engine blocks c canon) {now : ℕ}
    (hvalid : ∃ p ∈ g :: blocks, p.hash = b.parentHash ∧ ValidOn f engine now b p) :
    ∃ canon', Synced f g engine (blocks ++ [b]) (step ex c (.importBlock now b)) canon' := by
  have hgstored : c.db.blocksByHash g.hash = some g :=
    hs.inv.indexes.stored (mem_of_getElem? hs.inv.genesis)
  show ∃ canon', Synced f g engine (blocks ++ [b]) (Chain.importBlock ex now c b).1 canon'
  cases hnew : c.db.blocksByHash b.hash with
  | some d =>
    -- a block of this hash is known: nothing changes
    rw [importBlock_known ex now hnew]
    refine ⟨canon, hs.inv, hs.engine_eq, hs.finalized_eq, ?_, ?_, hs.executes, hs.best⟩
    · intro h e he
      exact (hs.sound he).imp_right (mem_append_left _)
    · intro e he
      obtain he | he := mem_append.mp he
      · exact hs.complete e he
      · rw [mem_singleton.mp he, hnew]
        rfl
  | none =>
    -- the parent is stored, under the header the block is valid on
    obtain ⟨q, hq, hqh, hqv⟩ := hvalid
    obtain ⟨p, hp⟩ : ∃ p, c.db.blocksByHash b.parentHash = some p := by
      rw [← hqh]
      obtain rfl | hq := mem_cons.mp hq
      · exact ⟨q, hgstored⟩
      · exact Option.isSome_iff_exists.mp (hs.complete q hq)
    obtain ⟨hval, hon⟩ := hqv.congr (Block.hash_inj.mp (hqh.trans (hs.inv.tree.hash hp).symm))
    obtain ⟨x, o, ho, hroot, hgas⟩ :=
      executeBlock_of_functional hf hon c.exec c.db.blocksByHash
    have hacc : Accepted ex c now b p x o := ⟨by rw [hs.engine_eq]; exact hval, ho, hroot, hgas⟩
    have hnum : b.number = p.number + 1 := (ConsensusEngine.validateBlock_ok hval).1
    have hparent : c.db.getBlockByHash b.parentHash = some p := by
      rw [hs.inv.indexes.getBlockByHash, hp]
    rw [importBlock_accepted ex hnew (hs.inv.indexes.index_eq_none hnew) hparent hacc]
    obtain ⟨a, -, hhead, -⟩ := hs.inv.head
    rw [adopt_eq ex (c := { c with exec := x }) hhead]
    show ∃ canon', Synced f g engine (blocks ++ [b])
      (adoptOn ex { c with exec := x } ⟨a.hash, a⟩ b o) canon'
    unfold adoptOn
    by_cases hext : b.parentHash = a.hash
    · rw [if_pos hext]
      obtain rfl := hs.inv.parent_eq hhead hext hparent
      refine ⟨canon ++ [b], hs.grow hnew hp hon (hs.inv.commit hg hhead hext hnum x _ hroot)
        rfl rfl ?_ hhead rfl (wins_refl b) (.inl (hnum ▸ Nat.lt_succ_self _))⟩
      show (c.db.writeBatch _).blocksByHash = _
      rw [Database.writeBatch_commitBlockOps]
    · rw [if_neg hext]
      show ∃ canon', Synced f g engine (blocks ++ [b])
        (if better b.number b.hash ⟨a.hash, a⟩ = true then
          (reorgTo ex (storeSide c x b) b.hash b).1 else storeSide c x b) canon'
      have hside := hs.inv.side hhead hext hnew hp hnum x
      by_cases hbetter : better b.number b.hash ⟨a.hash, a⟩ = true
      · rw [if_pos hbetter, reorgTo_eq ex (c := storeSide c x b) hhead]
        obtain ⟨htip, hoff, hchild⟩ := hs.inv.stored_side hg hnew hp x
        have hexec : StoredExecutes f (storeSide c x b).db g :=
          hs.executes.put hnew hp hon rfl
        obtain ⟨branch, ancestor, executed, x', hr⟩ := reorg_ok hf hside hexec
          (by show max c.engine.finalizedHeight c.finalized.1 = 0
              rw [hs.engine_eq, hfin, hs.finalized_eq]
              rfl) htip
        rw [hr.reorgFrom_eq]
        have hle : a.number ≤ b.number := number_le_of_better hbetter
        exact ⟨_, hs.grow hnew hp hon (hr.inv hside hhead htip hoff hle hchild) rfl rfl
          (hr.blocksByHash (hr.walk hside htip) _ _) hhead rfl (wins_refl b)
          (wins_of_better rfl hbetter)⟩
      · rw [if_neg hbetter]
        exact ⟨canon, hs.grow hnew hp hon hside rfl rfl rfl hhead hhead
          ((better_iff rfl).mp (Bool.eq_false_iff.mpr hbetter)) (wins_refl a)⟩

/-! ## Deliveries -/

/-- Blocks delivered one after the other, each at a time of the node's
clock. -/
def deliver (ds : List (ℕ × Block H)) : List (ChainOp H) :=
  ds.map (fun d => .importBlock d.1 d.2)

/-- **An order of delivery**: each block comes after a parent it is valid on. -/
def Admissible (f : Execution H) (engine : ConsensusEngine H) (g : Block H)
    (ds : List (ℕ × Block H)) : Prop :=
  ∀ pre d post, ds = pre ++ d :: post →
    ∃ p ∈ g :: pre.map Prod.snd, p.hash = d.2.parentHash ∧ ValidOn f engine d.1 d.2 p

variable {ds : List (ℕ × Block H)}

theorem Admissible.left {es : List (ℕ × Block H)} (h : Admissible f engine g (ds ++ es)) :
    Admissible f engine g ds := by
  intro pre d post heq
  refine h pre d (post ++ es) ?_
  rw [heq, append_assoc, cons_append]

theorem synced_initGenesis (f : Execution H) (config : GenesisConfig)
    (engine : ConsensusEngine H) (x : X) (root : H) :
    Synced f (config.genesisBlock root) (initGenesis config engine x root).engine []
      (initGenesis config engine x root) [config.genesisBlock root] := by
  have hinv := initGenesis_inv config engine x root
  refine ⟨hinv, rfl, rfl, fun hb => .inl (initGenesis_blocksByHash hb).2, by simp,
    fun h b hb => .inl (initGenesis_blocksByHash hb).2, ?_⟩
  intro head hhead h b hb
  cases hhead
  rw [(initGenesis_blocksByHash hb).2]
  exact wins_refl _

/-- A node is synced with every admissible delivery. -/
theorem synced_run (hf : Functional ex f) (config : GenesisConfig) (engine : ConsensusEngine H)
    (hfin : engine.finalizedHeight = 0) (x : X) (root : H)
    (hds : Admissible f (initGenesis config engine x root).engine (config.genesisBlock root) ds) :
    ∃ canon, Synced f (config.genesisBlock root) (initGenesis config engine x root).engine
      (ds.map Prod.snd) (run ex (initGenesis config engine x root) (deliver ds)) canon := by
  induction ds using reverseRecOn with
  | nil => exact ⟨_, synced_initGenesis f config engine x root⟩
  | append_singleton ds d ih =>
    obtain ⟨canon, hs⟩ := ih hds.left
    have hvalid := hds ds d [] rfl
    have hstep : run ex (initGenesis config engine x root) (deliver (ds ++ [d]))
        = step ex (run ex (initGenesis config engine x root) (deliver ds))
            (.importBlock d.1 d.2) := by
      unfold deliver
      rw [map_append]
      exact Run.run_concat _ _ _ _
    rw [hstep, map_append]
    exact hs.importBlock hf
      (show (initGenesis config engine x root).engine.finalizedHeight = 0 from hfin) rfl hvalid

/-- The head is the best of the genesis and some blocks. -/
def IsBest (g : Block H) (blocks : List (Block H)) (head : Option (SealedBlock H)) : Prop :=
  ∃ b ∈ g :: blocks, head = some ⟨b.hash, b⟩ ∧ ∀ a ∈ g :: blocks, Wins b a

/-- The head of a synced node is the best block it was given. -/
theorem Synced.isBest (hs : Synced f g engine blocks c canon) : IsBest g blocks c.head := by
  obtain ⟨b, hlast, hhead, -⟩ := hs.inv.head
  have hstored := hs.inv.indexes.stored (mem_of_getLast? hlast)
  refine ⟨b, mem_cons.mpr (hs.sound hstored), hhead, ?_⟩
  intro a ha
  obtain ⟨d, hd⟩ : ∃ d, c.db.blocksByHash a.hash = some d := by
    obtain rfl | ha := mem_cons.mp ha
    · exact ⟨a, hs.inv.indexes.stored (mem_of_getElem? hs.inv.genesis)⟩
    · exact Option.isSome_iff_exists.mp (hs.complete a ha)
  -- the stored block of this hash has the same header
  have hda := hs.inv.tree.hash hd
  have hwin := hs.best hhead hd
  unfold Wins at hwin ⊢
  rw [hda, show d.number = a.number from
    congrArg BlockHeader.number (Block.hash_inj.mp hda)] at hwin
  exact hwin

/-- A canonical block is stored, hence one of the blocks delivered. -/
theorem Synced.mem_insert (hs : Synced f g engine blocks c canon) {B : Finset (Block H)}
    (hB : ∀ b, b ∈ blocks ↔ b ∈ B) {n : ℕ} (hb : canon[n]? = some b) : b ∈ insert g B :=
  Finset.mem_insert.mpr
    ((hs.sound (hs.inv.indexes.stored (mem_of_getElem? hb))).imp_right (hB b).mp)

/-- The best of the same blocks has one hash. -/
theorem IsBest.hash_eq {blocks blocks' : List (Block H)} {head head' : Option (SealedBlock H)}
    (h : IsBest g blocks head) (h' : IsBest g blocks' head')
    (hmem : ∀ b, b ∈ blocks ↔ b ∈ blocks') :
    head.map SealedBlock.hash = head'.map SealedBlock.hash := by
  obtain ⟨b, hb, rfl, hbest⟩ := h
  obtain ⟨b', hb', rfl, hbest'⟩ := h'
  refine congrArg some ((hbest b' ?_).antisymm (hbest' b ?_))
  · exact mem_cons.mpr ((mem_cons.mp hb').imp_right (hmem b').mpr)
  · exact mem_cons.mpr ((mem_cons.mp hb).imp_right (hmem b).mp)

end Import

/-- **Convergence of fork choice.** Two fresh nodes of one genesis, with nothing
finalized, that import the same finite set of blocks in two orders of delivery
end with the same head hash, blocks of one header at every height and the same
live state root, and with the very same blocks if those of the set have
different hashes. After every beginning of a delivery, the head is the block
of greatest number, then of smallest hash, among those delivered so far. -/
theorem forkChoice_converges (ex : BlockExecutor H X) (f : Execution H) (hf : Functional ex f)
    (config : GenesisConfig) (root : H) (B : Finset (Block H))
    (engine₁ engine₂ : ConsensusEngine H) (x₁ x₂ : X) (ds₁ ds₂ : List (ℕ × Block H))
    (hfin₁ : engine₁.finalizedHeight = 0) (hfin₂ : engine₂.finalizedHeight = 0)
    (hB₁ : ∀ b, b ∈ ds₁.map Prod.snd ↔ b ∈ B) (hB₂ : ∀ b, b ∈ ds₂.map Prod.snd ↔ b ∈ B)
    (h₁ : Admissible f (initGenesis config engine₁ x₁ root).engine (config.genesisBlock root) ds₁)
    (h₂ : Admissible f (initGenesis config engine₂ x₂ root).engine (config.genesisBlock root) ds₂) :
    (run ex (initGenesis config engine₁ x₁ root) (deliver ds₁)).head.map SealedBlock.hash
      = (run ex (initGenesis config engine₂ x₂ root) (deliver ds₂)).head.map SealedBlock.hash ∧
    (∀ n, ((run ex (initGenesis config engine₁ x₁ root) (deliver ds₁)).db.getBlockByNumber n).map
        Block.header
      = ((run ex (initGenesis config engine₂ x₂ root) (deliver ds₂)).db.getBlockByNumber n).map
        Block.header) ∧
    (run ex (initGenesis config engine₁ x₁ root) (deliver ds₁)).root
      = (run ex (initGenesis config engine₂ x₂ root) (deliver ds₂)).root ∧
    ((∀ a ∈ insert (config.genesisBlock root) B, ∀ b ∈ insert (config.genesisBlock root) B,
        a.hash = b.hash → a = b) →
      ∀ n, (run ex (initGenesis config engine₁ x₁ root) (deliver ds₁)).db.getBlockByNumber n
        = (run ex (initGenesis config engine₂ x₂ root) (deliver ds₂)).db.getBlockByNumber n) ∧
    (∀ pre post, ds₁ = pre ++ post →
      IsBest (config.genesisBlock root) (pre.map Prod.snd)
        (run ex (initGenesis config engine₁ x₁ root) (deliver pre)).head) := by
  obtain ⟨canon₁, hs₁⟩ := synced_run hf config engine₁ hfin₁ x₁ root h₁
  obtain ⟨canon₂, hs₂⟩ := synced_run hf config engine₂ hfin₂ x₂ root h₂
  have hprefix : ∀ pre post, ds₁ = pre ++ post →
      IsBest (config.genesisBlock root) (pre.map Prod.snd)
        (run ex (initGenesis config engine₁ x₁ root) (deliver pre)).head := by
    rintro pre post rfl
    obtain ⟨canon, hs⟩ := synced_run hf config engine₁ hfin₁ x₁ root h₁.left
    exact hs.isBest
  generalize run ex (initGenesis config engine₁ x₁ root) (deliver ds₁) = c₁ at hs₁ ⊢
  generalize run ex (initGenesis config engine₂ x₂ root) (deliver ds₂) = c₂ at hs₂ ⊢
  have hhash := hs₁.isBest.hash_eq hs₂.isBest (fun b => (hB₁ b).trans (hB₂ b).symm)
  obtain ⟨a₁, hlast₁, hhead₁, hroot₁, -⟩ := hs₁.inv.head
  obtain ⟨a₂, hlast₂, hhead₂, hroot₂, -⟩ := hs₂.inv.head
  have haa : a₁.hash = a₂.hash := by
    rw [hhead₁, hhead₂] at hhash
    exact Option.some.inj hhash
  have hheader : ∀ n, (c₁.db.getBlockByNumber n).map Block.header
      = (c₂.db.getBlockByNumber n).map Block.header := by
    intro n
    rw [hs₁.inv.indexes.getBlockByNumber (Nat.zero_le _),
      hs₂.inv.indexes.getBlockByNumber (Nat.zero_le _)]
    exact hs₁.inv.linked.header_eq hs₂.inv.linked hlast₁ hlast₂ haa n
  refine ⟨hhash, hheader, ?_, ?_, hprefix⟩
  · rw [hroot₁, hroot₂]
    exact congrArg BlockHeader.stateRoot (Block.hash_inj.mp haa)
  · intro hinj n
    have hn := hheader n
    rw [hs₁.inv.indexes.getBlockByNumber (Nat.zero_le _),
      hs₂.inv.indexes.getBlockByNumber (Nat.zero_le _)] at hn ⊢
    rcases hb₁ : canon₁[n]? with _ | b₁ <;> rcases hb₂ : canon₂[n]? with _ | b₂ <;>
      rw [hb₁, hb₂] at hn
    · cases hn
    · cases hn
    · exact congrArg some (hinj b₁ (hs₁.mem_insert hB₁ hb₁) b₂ (hs₂.mem_insert hB₂ hb₂)
        (Block.hash_inj.mpr (Option.some.inj hn)))

/-! ## Two siblings -/

/-- An executor for chains of empty blocks: the state stays as it is, and a
transaction fails. -/
def idleExecutor (H : Type) [HashScheme H] : BlockExecutor H Unit where
  executeAt _ _ root _ _ _ _ txs := ((), .ok
    { stateRoot := root
      receipts := txs.map (fun tx => ⟨tx.hash, 0, .failure "idle", 0, 0, [], none⟩)
      gasUsed := 0 })
  receipts_match h := by
    cases h
    simp

/-- An engine that trusts its validators: with zero keys no VRF proof is
checked, and the offset of the election is zero. -/
def openEngine (H : Type) (validators : List Address) : ConsensusEngine H where
  crypto := ⟨fun _ _ _ => false, fun _ => 0, fun _ _ _ => false⟩
  validators := validators.map (fun a => ⟨a, PublicKey.zero⟩)
  genesisSeed := none
  finalizedHeight := 0
  validatorKey := none
  address := none
  pendingVotes _ := none
  ownVotes _ := none

/-- The genesis configuration of the testnet, at time zero. -/
def testnet : GenesisConfig := ⟨9000, 0, []⟩

/-- An empty block of the producer at address zero on a parent. -/
def emptyChild (p : Block CodeName) (timestamp : ℕ) : Block CodeName where
  header := { p.header with
    number := p.number + 1, parentHash := p.hash, producer := Address.zero, timestamp := timestamp }
  transactions := []
  votes := []
  inferenceProofs := []
  signature := Signature.zero

/-- The two children of the genesis are valid, and imported in either order
they lead to the same head. -/
theorem forkChoice_converges_siblings :
    (run (idleExecutor CodeName) (initGenesis testnet (openEngine CodeName [Address.zero]) () 0)
        (deliver [(9000, emptyChild (testnet.genesisBlock 0) 5000),
          (9000, emptyChild (testnet.genesisBlock 0) 6000)])).head.map SealedBlock.hash
      = (run (idleExecutor CodeName) (initGenesis testnet (openEngine CodeName [Address.zero]) () 0)
        (deliver [(9000, emptyChild (testnet.genesisBlock 0) 6000),
          (9000, emptyChild (testnet.genesisBlock 0) 5000)])).head.map SealedBlock.hash := by
  refine (forkChoice_converges (idleExecutor CodeName) _ (fun _ _ _ _ _ _ _ _ => rfl) testnet 0
    {emptyChild (testnet.genesisBlock 0) 5000, emptyChild (testnet.genesisBlock 0) 6000}
    _ _ _ _ _ _ rfl rfl ?_ ?_ ?_ ?_).1
  · intro b
    simp
  · intro b
    simp [or_comm]
  all_goals
    exact justified_concat.mpr ⟨justified_concat.mpr ⟨justified_nil, _, mem_cons_self, rfl,
      by decide +kernel, _, rfl, rfl, rfl⟩, _, mem_cons_self, rfl, by decide +kernel, _, rfl, rfl, rfl⟩

/-- A child of the genesis with a signature, which is not part of its header. -/
def signedChild (byte : UInt8) : Block CodeName :=
  { emptyChild (testnet.genesisBlock 0) 5000 with signature := ⟨Vector.replicate 64 byte⟩ }

/-- **Of two blocks with one header the first one is kept**: both orders of
delivery are admissible, and lead to different blocks. -/
theorem forkChoice_keeps_first :
    let g := testnet.genesisBlock (0 : CodeName)
    let node := initGenesis testnet (openEngine CodeName [Address.zero]) () (0 : CodeName)
    (∃ f, Functional (idleExecutor CodeName) f ∧
      Admissible f node.engine g [(9000, signedChild 1), (9000, signedChild 2)] ∧
      Admissible f node.engine g [(9000, signedChild 2), (9000, signedChild 1)]) ∧
    (run (idleExecutor CodeName) node
      (deliver [(9000, signedChild 1), (9000, signedChild 2)])).db.getBlockByNumber 1
        = some (signedChild 1) ∧
    (run (idleExecutor CodeName) node
      (deliver [(9000, signedChild 2), (9000, signedChild 1)])).db.getBlockByNumber 1
        = some (signedChild 2) ∧ signedChild 1 ≠ signedChild 2 := by
  refine ⟨⟨_, fun _ _ _ _ _ _ _ _ => rfl, ?_, ?_⟩, by decide +kernel, by decide +kernel,
    by decide +kernel⟩
  all_goals
    exact justified_concat.mpr ⟨justified_concat.mpr ⟨justified_nil, _, mem_cons_self, rfl,
      by decide +kernel, _, rfl, rfl, rfl⟩, _, mem_cons_self, rfl, by decide +kernel, _, rfl, rfl, rfl⟩

end Chain

end Qfc
