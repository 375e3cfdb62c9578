import QfcCore.Lib.Unwinding
import QfcCore.State.CodeHash
import QfcCore.State.Pruning

/-!
# What pruning keeps

After `prune` every account and every slot of a state that is to be kept should
read as before. It does under two conditions. The root of the state must still be
tracked: the list of the last blocks has twice as many entries as blocks are kept,
and competing blocks of one height fill it up. And the storage roots of its
accounts must be among the roots to keep themselves, since marking looks into the
nodes of a trie and not into the accounts at its leaves.
-/

namespace Qfc

open StateDB List

/-! ## Reads at a root -/

section Reads

variable {H : Type} [HashScheme H] (cols : StateColumns H) (root : H) (a : Address)

/-- An account, read by a fresh database. -/
def readAccount : Except (StateError H) (Account H) :=
  ((withRoot cols root).getAccount a).1

/-- A slot, read by a fresh database. -/
def readStorage (slot : U256) : Except (StateError H) U256 :=
  ((withRoot cols root).getStorage a slot).1

theorem readAccount_eq : readAccount cols root a
      = (Trie.get cols.state (Trie.withRoot root) a.nibbles).mapError .trie
          >>= decodeAccount :=
  getAccount_fst _ _

/-- A slot of an account, in the columns. -/
def slotIn (acc : Account H) (slot : U256) : Except (StateError H) U256 :=
  if storageRootOf acc = 0 then .ok U256.zero
  else
    match Trie.get cols.state (Trie.withRoot (storageRootOf acc)) slot.nibbles with
    | .error e => .error (.trie e)
    | .ok (some (.word value)) => .ok value
    | .ok _ => .ok U256.zero

theorem loadSlot_fst (s : StateDB H) (a : Address) (slot : U256) (acc : Account H) :
    (s.loadSlot a slot acc).1 = slotIn s.cols acc slot := by
  unfold loadSlot slotIn
  split
  · rfl
  · generalize Trie.get s.cols.state (Trie.withRoot (storageRootOf acc)) slot.nibbles = cell
    rcases cell with e | _ | ⟨acc | value⟩ <;> rfl

theorem readStorage_eq (slot : U256) :
    readStorage cols root a slot = readAccount cols root a >>= fun acc => slotIn cols acc slot := by
  have hcached : cachedSlot { withRoot cols root with
      storageCache := (withRoot cols root).storageCache.touch a } a slot = none := by
    unfold cachedSlot
    rw [Lru.find_touch]
    rfl
  unfold readStorage getStorage
  dsimp only
  rw [hcached]
  dsimp only
  set s := { withRoot cols root with
    storageCache := (withRoot cols root).storageCache.touch a } with hs
  obtain ⟨cache, hcache, -⟩ := getAccount_snd s a
  have haccount : (s.getAccount a).1 = readAccount cols root a :=
    (getAccount_fst s a).trans (readAccount_eq cols root a).symm
  rw [← haccount]
  rcases hget : s.getAccount a with ⟨e | acc, t⟩
  · rfl
  · rw [hget] at hcache
    dsimp only at hcache
    dsimp only
    rw [loadSlot_fst, hcache]
    rfl

/-- A slot reads the same in columns with the same storage trie. -/
theorem slotIn_congr {cols cols' : StateColumns H} {acc : Account H} {slot : U256}
    (h : storageRootOf acc ≠ 0 →
      Trie.get cols'.state (Trie.withRoot (storageRootOf acc)) slot.nibbles
        = Trie.get cols.state (Trie.withRoot (storageRootOf acc)) slot.nibbles) :
    slotIn cols' acc slot = slotIn cols acc slot := by
  unfold slotIn
  by_cases h0 : storageRootOf acc = 0
  · rw [if_pos h0, if_pos h0]
  · rw [if_neg h0, if_neg h0, h h0]

/-- A state reads the same in columns that agree on the lookups at its root and at
the storage roots of its accounts. -/
theorem reads_eq {cols cols' : StateColumns H} {root : H} {a : Address}
    (haccount : Trie.get cols'.state (Trie.withRoot root) a.nibbles
      = Trie.get cols.state (Trie.withRoot root) a.nibbles)
    (hslots : ∀ acc, readAccount cols root a = .ok acc → storageRootOf acc ≠ 0 →
      ∀ slot : U256, Trie.get cols'.state (Trie.withRoot (storageRootOf acc)) slot.nibbles
        = Trie.get cols.state (Trie.withRoot (storageRootOf acc)) slot.nibbles) :
    readAccount cols' root a = readAccount cols root a ∧
      ∀ slot, readStorage cols' root a slot = readStorage cols root a slot := by
  have hread : readAccount cols' root a = readAccount cols root a := by
    rw [readAccount_eq, readAccount_eq, haccount]
  refine ⟨hread, fun slot => ?_⟩
  rw [readStorage_eq, readStorage_eq, hread]
  cases hacc : readAccount cols root a with
  | error e =>
    show Except.error e = Except.error e
    rfl
  | ok acc =>
    show slotIn cols' acc slot = slotIn cols acc slot
    exact slotIn_congr fun h0 => hslots acc hacc h0 slot

end Reads

/-! ## Runs -/

/-- A pruner with its database, and all that it has been told. -/
structure PrunedDB (H : Type) where
  pruner : StatePruner H
  cols : StateColumns H
  registered : List (ℕ × H)
  finalized : List H

/-- What happens to a database with a pruner. -/
inductive PruneOp (H : Type)
  /-- A state database writes the new nodes of a trie. -/
  | write (trie : Trie H (Cell H))
  | registerBlock (height : ℕ) (stateRoot : H)
  | markFinalized (stateRoot : H)
  /-- With the keys that the iterator yields. -/
  | prune (currentHeight : ℕ) (keys : List H)

namespace PrunedDB

variable {H : Type} [HashScheme H]

/-- A new pruner over a database. -/
def new (config : PruningConfig) (cols : StateColumns H) : PrunedDB H :=
  ⟨.new config, cols, [], []⟩

variable (s : PrunedDB H) (currentHeight : ℕ)

/-- One operation. -/
def step : PruneOp H → PrunedDB H
  | .write trie => { s with cols := s.cols.write trie }
  | .registerBlock height stateRoot =>
    { s with
      pruner := s.pruner.registerBlock height stateRoot
      registered := s.registered ++ [(height, stateRoot)] }
  | .markFinalized stateRoot =>
    { s with
      pruner := s.pruner.markFinalized stateRoot
      finalized := s.finalized ++ [stateRoot] }
  | .prune currentHeight keys =>
    match s.pruner.prune s.cols.state keys currentHeight with
    | none => s
    | some (_, pruner, state) => { s with pruner := pruner, cols := { s.cols with state := state } }

/-- **A root whose state is to be kept**: it was marked finalized, or registered at
one of the last heights. -/
def KeptRoot (root : H) : Prop :=
  root ∈ s.finalized ∨ ∃ height, (height, root) ∈ s.registered ∧
    currentHeight - s.pruner.config.keepRecent ≤ height ∧ height ≤ currentHeight

/-- **Kept states read as before**, all accounts and all slots. -/
def Unharmed (s s' : PrunedDB H) (currentHeight : ℕ) : Prop :=
  ∀ root, s.KeptRoot currentHeight root → ∀ a : Address,
    readAccount s'.cols root a = readAccount s.cols root a ∧
      ∀ slot, readStorage s'.cols root a slot = readStorage s.cols root a slot

/-- The keys are all the rows of the column. -/
def Listed (keys : List H) : Prop := ∀ h, (s.cols.state h).isSome = true → h ∈ keys

/-- **When pruning is safe.** -/
structure Careful : Prop where
  /-- A block of the last heights is one of the last that were registered. -/
  tracked : ∀ entry ∈ s.registered,
    currentHeight - s.pruner.config.keepRecent ≤ entry.1 → entry.1 ≤ currentHeight →
    entry ∈ s.registered.drop (s.registered.length - s.pruner.config.maxTracked)
  /-- An account of a kept state has no storage, or its storage root is a root to
  keep as well. -/
  storage : ∀ root, s.KeptRoot currentHeight root → ∀ a acc,
    readAccount s.cols root a = .ok acc → storageRootOf acc = 0 ∨
      storageRootOf acc ∈ s.pruner.collectRootsToKeep currentHeight

/-- Every pruning sees all rows and is safe. -/
def PrunesCarefully : PruneOp H → Prop
  | .prune currentHeight keys => s.Listed keys ∧ s.Careful currentHeight
  | _ => True

/-- Every pruning leaves the kept states as they are. -/
def PrunesHarmlessly : PruneOp H → Prop
  | .prune currentHeight keys => s.Unharmed (s.step (.prune currentHeight keys)) currentHeight
  | _ => True

/-! ## What the pruner knows -/

/-- The pruner tracks the last of the registered blocks, and has all finalized
roots. -/
structure Tracks (config : PruningConfig) (s : PrunedDB H) : Prop where
  config_eq : s.pruner.config = config
  blocks : s.pruner.blockRoots = s.registered.drop (s.registered.length - config.maxTracked)
  finalized : config.keepFinalized = true → ∀ root ∈ s.finalized, root ≠ 0 →
    root ∈ s.pruner.preservedRoots

variable {config : PruningConfig} {s : PrunedDB H}

/-- Dropping the oldest of some last entries and one more. -/
theorem drop_last_concat {α : Type} (l : List α) (entry : α) (m : ℕ) :
    (l.drop (l.length - m) ++ [entry]).drop ((l.drop (l.length - m) ++ [entry]).length - m)
      = (l ++ [entry]).drop ((l ++ [entry]).length - m) := by
  rw [← drop_append_of_le_length (Nat.sub_le _ _), drop_drop, length_drop,
    length_append, length_singleton]
  congr 1
  omega

section

variable (h : Tracks config s)
include h

theorem Tracks.registerBlock (height : ℕ) (stateRoot : H) :
    Tracks config (s.step (.registerBlock height stateRoot)) := by
  refine ⟨h.config_eq, ?_, h.finalized⟩
  show (s.pruner.blockRoots ++ [(height, stateRoot)]).drop _ = _
  rw [h.blocks, h.config_eq]
  exact drop_last_concat s.registered (height, stateRoot) config.maxTracked

theorem Tracks.markFinalized (stateRoot : H) :
    Tracks config (s.step (.markFinalized stateRoot)) := by
  have hmark : s.pruner.markFinalized stateRoot
      = { s.pruner with preservedRoots := (s.pruner.markFinalized stateRoot).preservedRoots } := by
    unfold StatePruner.markFinalized
    split <;> rfl
  refine ⟨?_, ?_, fun hkeep root hroot h0 => ?_⟩
  · show (s.pruner.markFinalized stateRoot).config = config
    rw [hmark]
    exact h.config_eq
  · show (s.pruner.markFinalized stateRoot).blockRoots = _
    rw [hmark]
    exact h.blocks
  · show root ∈ (s.pruner.markFinalized stateRoot).preservedRoots
    unfold StatePruner.markFinalized
    rw [h.config_eq]
    obtain hroot | hroot := mem_append.mp hroot
    · split
      · exact mem_insert_of_mem (h.finalized hkeep root hroot h0)
      · exact h.finalized hkeep root hroot h0
    · obtain rfl := mem_singleton.mp hroot
      rw [if_pos ⟨hkeep, h0⟩]
      exact mem_insert_self

theorem Tracks.prune (currentHeight : ℕ) (keys : List H) :
    Tracks config (s.step (.prune currentHeight keys)) := by
  unfold PrunedDB.step StatePruner.prune
  dsimp only
  split_ifs
  all_goals exact ⟨h.config_eq, h.blocks, h.finalized⟩

theorem Tracks.step (op : PruneOp H) : Tracks config (s.step op) := by
  cases op with
  | write trie => exact ⟨h.config_eq, h.blocks, h.finalized⟩
  | registerBlock height stateRoot => exact h.registerBlock height stateRoot
  | markFinalized stateRoot => exact h.markFinalized stateRoot
  | prune currentHeight keys => exact h.prune currentHeight keys

/-- The root of a kept state is among the roots to keep, if its block is
tracked. -/
theorem Tracks.mem_rootsToKeep (hfinal : config.keepFinalized = true) {currentHeight : ℕ}
    (hcareful : s.Careful currentHeight) {root : H} (hroot : s.KeptRoot currentHeight root)
    (h0 : root ≠ 0) : root ∈ s.pruner.collectRootsToKeep currentHeight := by
  refine StatePruner.mem_collectRootsToKeep.mpr ⟨h0, ?_⟩
  obtain hroot | ⟨height, hmem, hlow, hhigh⟩ := hroot
  · exact .inl (h.finalized hfinal root hroot h0)
  · refine .inr ⟨height, ?_, hlow⟩
    rw [h.blocks, ← h.config_eq]
    exact hcareful.tracked (height, root) hmem hlow hhigh

end

/-- A careful pruning harms no kept state. -/
theorem Careful.unharmed {currentHeight : ℕ} (hcareful : s.Careful currentHeight)
    (h : Tracks config s) (hfinal : config.keepFinalized = true) {keys : List H}
    (hlisted : s.Listed keys) : s.Unharmed (s.step (.prune currentHeight keys)) currentHeight := by
  unfold PrunedDB.step
  dsimp only
  cases hprune : s.pruner.prune s.cols.state keys currentHeight with
  | none => exact fun _ _ _ => ⟨rfl, fun _ => rfl⟩
  | some result =>
    obtain ⟨count, pruner, state⟩ := result
    obtain ⟨hgone, rfl | hsame⟩ := StatePruner.prune_spec hprune
    · exact fun _ _ _ => ⟨rfl, fun _ => rfl⟩
    obtain ⟨hmarked, hroots⟩ := StatePruner.markReachableNodes_marks hlisted
      (s.pruner.collectRootsToKeep currentHeight)
    -- below a root to keep nothing is gone
    have hget {root : H} (hroot : root ≠ 0 → root ∈ s.pruner.collectRootsToKeep currentHeight)
        (key : List Nibble) : Trie.get state (Trie.withRoot root) key
          = Trie.get s.cols.state (Trie.withRoot root) key :=
      Trie.get_withRoot_eq_of_marked hmarked hsame hgone
        (fun h0 hpresent => hroots root (hroot h0) h0 hpresent) key
    intro root hroot a
    refine reads_eq (hget (h.mem_rootsToKeep hfinal hcareful hroot) _) fun acc hacc h0 slot => ?_
    exact hget (fun _ => (hcareful.storage root hroot a acc hacc).resolve_left h0) slot.nibbles

/-- **Pruning never damages a kept state**, in every run that prunes carefully. -/
theorem prunes_harmlessly (config : PruningConfig) (hfinal : config.keepFinalized = true)
    (cols : StateColumns H) (ops : List (PruneOp H))
    (hcareful : Run.Along step PrunesCarefully (new config cols) ops) :
    Run.Along step PrunesHarmlessly (new config cols) ops := by
  have hnew : Tracks config (new config cols) := ⟨rfl, drop_nil.symm, nofun⟩
  refine hcareful.of_invariant hnew (fun _ op h _ => h.step op) fun s op h hop => ?_
  cases op with
  | prune currentHeight keys => exact hop.2.unharmed h hfinal hop.1
  | write trie | registerBlock height stateRoot | markFinalized stateRoot => trivial

/-! Three states of one account, and a contract with one slot. -/

/-- The last block and the one before it are kept. -/
def lastBlock : PruningConfig := ⟨1, true, 1000⟩

variable (nonce : UInt64) (heights : ℕ × ℕ × ℕ)

/-- An account with a nonce. -/
def usedAccount : Account CodeName := { Account.newEoa with nonce := nonce }

/-- The trie of a state with this account alone. -/
def oneAccount : Trie CodeName (Cell CodeName) :=
  ((StateDB.new (.empty CodeName)).setAccount (sampleAddress 1) (usedAccount nonce)).2.trie

/-- A state is written and its block registered. -/
def block (height : ℕ) (nonce : UInt64) : List (PruneOp CodeName) :=
  [.write (oneAccount nonce), .registerBlock height (oneAccount nonce).root]

/-- The only node of such a trie. -/
def leafOf : TrieNode CodeName (Cell CodeName) :=
  .leaf (sampleAddress 1).nibbles (.account (usedAccount nonce))

/-- A trie of one node: its root is the hash of the node. -/
structure OneNode {V : Type} (trie : Trie H V) (node : TrieNode H V) : Prop where
  ne_zero : trie.root ≠ 0
  root : trie.dirty trie.root = some node
  others : ∀ h, h ≠ trie.root → trie.dirty h = none

/-- The first value of a trie is a leaf. -/
theorem insert_new_oneNode {V : Type} [Digest H (TrieNode H V)] (db : NodeColumn H V)
    {trie : Trie H V} {key : List Nibble} {value : V}
    (hinsert : Trie.insert db Trie.new key value = .ok trie) : OneNode trie (.leaf key value) := by
  have hne : (TrieNode.leaf key value : TrieNode H V).hash ≠ 0 := Digest.digest_ne_zero _
  unfold Trie.insert Trie.insertAt at hinsert
  rw [if_pos (show (Trie.new : Trie H V).root = 0 from rfl)] at hinsert
  unfold storeNode at hinsert
  rw [if_pos hne] at hinsert
  obtain rfl := Except.ok.inj hinsert
  exact ⟨hne, Function.update_self _ _ (fun _ => none),
    fun h hh => Function.update_of_ne hh _ (fun _ => none)⟩

omit [HashScheme H] in
theorem listed_empty : ∀ h, ((StateColumns.empty H).state h).isSome = true → h ∈ [] :=
  fun _ h => absurd h Bool.false_ne_true

/-- The keys of a column, with the one node of a trie written. -/
theorem listed_write {cols : StateColumns H} {keys : List H} {trie : Trie H (Cell H)}
    {node : TrieNode H (Cell H)} (htrie : OneNode trie node)
    (h : ∀ h, (cols.state h).isSome = true → h ∈ keys) :
    ∀ h, ((cols.write trie).state h).isSome = true → h ∈ trie.root :: keys := by
  intro hash hsome
  by_cases hh : hash = trie.root
  · exact hh ▸ mem_cons_self
  · refine mem_cons_of_mem _ (h hash ?_)
    have hat : (cols.write trie).state hash = cols.state hash := by
      show (trie.dirty hash).or (cols.state hash) = cols.state hash
      rw [htrie.others hash hh, Option.none_or]
    rw [← hat]
    exact hsome

/-- An account with storage that is read in a trie of one leaf is in the leaf. -/
theorem account_of_leaf {cols : StateColumns H} {root : H} {key : List Nibble} {cell : Cell H}
    (h0 : root ≠ 0) (hleaf : cols.state root = some (.leaf key cell)) {a : Address}
    {acc : Account H} (hread : readAccount cols root a = .ok acc) :
    storageRootOf acc = 0 ∨ cell = .account acc := by
  have hheld : Holds (nodeAt cols.state (Trie.withRoot (V := Cell H) root).dirty) key.length
      (Trie.withRoot (V := Cell H) root).root (PathMap.single key cell) := .leaf h0 hleaf
  rw [readAccount_eq, hheld.get_eq] at hread
  unfold PathMap.single at hread
  rw [Function.update_apply] at hread
  split at hread
  · cases cell with
    | account acc' => exact .inr (congrArg Cell.account (Except.ok.inj hread))
    | word value => cases hread
  · obtain rfl := Except.ok.inj hread
    exact .inl rfl

theorem oneAccount_oneNode : OneNode (oneAccount nonce) (leafOf nonce) :=
  insert_new_oneNode (StateColumns.empty CodeName).state rfl

/-- Three blocks. -/
def threeBlocks : List (PruneOp CodeName) :=
  block heights.1 1 ++ block heights.2.1 2 ++ block heights.2.2 3

/-- The keys of the column after three blocks. -/
def threeRoots : List CodeName := [(oneAccount 3).root, (oneAccount 2).root, (oneAccount 1).root]

/-- A new pruner and three blocks. -/
def afterThree : PrunedDB CodeName :=
  Run.run step (new lastBlock (.empty CodeName)) (threeBlocks heights)

theorem afterThree_listed : (afterThree heights).Listed threeRoots :=
  listed_write (oneAccount_oneNode 3)
    (listed_write (oneAccount_oneNode 2) (listed_write (oneAccount_oneNode 1) listed_empty))

/-- A contract with one slot, after the commit. -/
def oneSlot : CodeName × StateDB CodeName :=
  ((StateDB.new (.empty CodeName)).setStorage (sampleAddress 1) U256.zero (.fromU64 7)).2.commit

/-- The trie of its storage. -/
def slotTrie : Trie CodeName (Cell CodeName) :=
  (writeSlot (.empty CodeName) 0 U256.zero (.fromU64 7)).toOption.getD .new

/-- Its account. -/
def contractAccount : Account CodeName :=
  { Account.newEoa with storageRoot := some slotTrie.root }

/-- The trie with its account. -/
def contractTrie : Trie CodeName (Cell CodeName) :=
  ((StateDB.new (.empty CodeName)).setAccount (sampleAddress 1) contractAccount).2.trie

theorem slotTrie_oneNode : OneNode slotTrie (.leaf U256.zero.nibbles (.word (.fromU64 7))) :=
  insert_new_oneNode (StateColumns.empty CodeName).state rfl

theorem contractTrie_oneNode :
    OneNode contractTrie (.leaf (sampleAddress 1).nibbles (.account contractAccount)) :=
  insert_new_oneNode (StateColumns.empty CodeName).state rfl

/-- An account, and two blocks later the contract, whose storage root is marked
finalized. -/
def contractBlocks : List (PruneOp CodeName) :=
  block 1 1 ++ [.write slotTrie, .markFinalized slotTrie.root, .write contractTrie,
    .registerBlock 3 contractTrie.root]

/-- The keys of the column after these blocks. -/
def contractRoots : List CodeName := [contractTrie.root, slotTrie.root, (oneAccount 1).root]

/-- A new pruner and these blocks. -/
def afterContractBlocks : PrunedDB CodeName :=
  Run.run step (new lastBlock (.empty CodeName)) contractBlocks

/-- **The first state is gone**, and the contract reads as before. -/
theorem first_state_pruned :
    Run.Along step PrunesHarmlessly (new lastBlock (.empty CodeName))
        (contractBlocks ++ [.prune 3 contractRoots]) ∧
      (afterContractBlocks.step (.prune 3 contractRoots)).cols.state (oneAccount 1).root = none ∧
      readStorage (afterContractBlocks.step (.prune 3 contractRoots)).cols contractTrie.root
        (sampleAddress 1) U256.zero = .ok (.fromU64 7) := by
  have hlisted : afterContractBlocks.Listed contractRoots :=
    listed_write contractTrie_oneNode (listed_write slotTrie_oneNode
      (listed_write (oneAccount_oneNode 1) listed_empty))
  have hslot : afterContractBlocks.cols.state slotTrie.root
      = some (.leaf U256.zero.nibbles (.word (.fromU64 7))) := by decide +kernel
  have hcontract : afterContractBlocks.cols.state contractTrie.root
      = some (.leaf (sampleAddress 1).nibbles (.account contractAccount)) := by decide +kernel
  have hcareful : afterContractBlocks.Careful 3 := by
    refine ⟨by decide +kernel, fun root hroot a acc hread => ?_⟩
    obtain hroot | ⟨height, hmem, hlow, -⟩ := hroot
    · -- no account is read at the storage root
      obtain rfl := mem_singleton.mp hroot
      exact .inl ((account_of_leaf slotTrie_oneNode.ne_zero hslot hread).resolve_right nofun)
    · obtain _ | ⟨_, _ | ⟨_, ⟨⟩⟩⟩ := hmem
      · exact absurd hlow (by decide)
      · refine (account_of_leaf contractTrie_oneNode.ne_zero hcontract hread).imp_right
          fun hcell => ?_
        obtain rfl := Cell.account.inj hcell
        decide +kernel
  exact ⟨prunes_harmlessly lastBlock rfl _ _ ⟨trivial, trivial, trivial, trivial, trivial, trivial,
    ⟨hlisted, hcareful⟩, trivial⟩, by decide +kernel, by decide +kernel⟩

/-- A pruner over the contract, whose block is registered. -/
def afterContract : PrunedDB CodeName :=
  Run.run step (new lastBlock oneSlot.2.cols) [.registerBlock 1 oneSlot.1]

theorem afterContract_listed : afterContract.Listed [contractTrie.root, slotTrie.root] :=
  listed_write contractTrie_oneNode (listed_write slotTrie_oneNode listed_empty)

/-- **Pruning damages kept states.** The slot of the last block cannot be read any
more, as its storage root is in no node; and of three competing blocks the first is
forgotten. -/
theorem pruning_damages :
    (afterContract.Listed [contractTrie.root, slotTrie.root] ∧
      afterContract.KeptRoot 1 oneSlot.1 ∧
      readStorage afterContract.cols oneSlot.1 (sampleAddress 1) U256.zero
        = .ok (.fromU64 7) ∧
      readStorage (afterContract.step (.prune 1 [contractTrie.root, slotTrie.root])).cols oneSlot.1
        (sampleAddress 1) U256.zero = .error (.trie (.nodeNotFound slotTrie.root))) ∧
    (afterThree (1, 1, 1)).Listed threeRoots ∧
      (afterThree (1, 1, 1)).KeptRoot 1 (oneAccount 1).root ∧
      readAccount (afterThree (1, 1, 1)).cols (oneAccount 1).root (sampleAddress 1)
        = .ok (usedAccount 1) ∧
      readAccount ((afterThree (1, 1, 1)).step (.prune 1 threeRoots)).cols (oneAccount 1).root
        (sampleAddress 1) = .error (.trie (.nodeNotFound (oneAccount 1).root)) := by
  refine ⟨⟨afterContract_listed, .inr ⟨1, mem_cons_self, by decide, le_rfl⟩, ?_, ?_⟩,
    afterThree_listed _, .inr ⟨1, mem_cons_self, by decide, le_rfl⟩, ?_, ?_⟩ <;> decide +kernel

end PrunedDB

end Qfc
