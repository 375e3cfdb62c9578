import QfcCore.Lib.Worklist
import QfcCore.State.Stored

/-!
# Pruning

`StatePruner` of `qfc-state/src/pruning.rs`: a collector that marks the nodes below
the roots to keep and deletes all others from the `STATE` column. It keeps a list
of the roots of the last blocks, which it trims, and a set of finalized roots.

The keys that the iterator of the column yields are an argument; the set of
finalized roots is a list without repetitions. A batch size of zero panics at the
first node to delete, before anything is written. The estimate and the statistics
are left out.
-/

namespace Qfc

open List Trie

/-! ## Marking nodes -/

section Nodes

variable {H V : Type} [Zero H] [DecidableEq H] {child : H}

/-- The hashes in a node, without zeros. -/
def TrieNode.children : TrieNode H V → List H
  | .empty => []
  | .leaf _ _ => []
  | .extension _ child => if child ≠ 0 then [child] else []
  | .branch children _ => (finRange 16).filterMap fun i => (children i).filter (· ≠ 0)

/-- What marking goes on with at a hash: nothing at zero or if the node is
absent. -/
def markNext (db : NodeColumn H V) (h : H) : Option (List H) :=
  if h = 0 then none else (db h).map TrieNode.children

theorem TrieNode.children_extension (key : List Nibble) (child : H) :
    (extension key child : TrieNode H V).children = if child ≠ 0 then [child] else [] := rfl

theorem TrieNode.length_children_le (node : TrieNode H V) : node.children.length ≤ 16 := by
  cases node with
  | empty | leaf key value => exact Nat.zero_le _
  | extension key child =>
    rw [children_extension]
    split
    · exact (by decide : 1 ≤ 16)
    · exact Nat.zero_le _
  | branch children value => exact (length_filterMap_le _ _).trans length_finRange.le

theorem mem_children_extension {key : List Nibble} (h : child ≠ 0) :
    child ∈ (TrieNode.extension key child : TrieNode H V).children := by
  rw [TrieNode.children_extension, if_pos h]
  exact mem_singleton.mpr rfl

theorem mem_children_branch {children : Nibble → Option H} {value : Option V} {i : Nibble}
    (hi : children i = some child) (h : child ≠ 0) :
    child ∈ (TrieNode.branch children value).children := by
  refine mem_filterMap.mpr ⟨i, mem_finRange i, ?_⟩
  rw [hi, Option.filter_some, if_pos (decide_eq_true h)]

theorem isSome_markNext {db : NodeColumn H V} {h : H} :
    (markNext db h).isSome = true ↔ h ≠ 0 ∧ (db h).isSome = true := by
  unfold markNext
  split
  next h0 => exact ⟨nofun, fun hne => absurd h0 hne.1⟩
  next h0 => rw [Option.isSome_map]; exact ⟨fun hs => ⟨h0, hs⟩, fun hs => hs.2⟩

/-- With a node its children are marked, as far as they are there. -/
def MarkedBelow (db : NodeColumn H V) (marked : List H) : Prop :=
  ∀ h node, h ∈ marked → h ≠ 0 → db h = some node →
    ∀ child ∈ node.children, (db child).isSome = true → child ∈ marked

theorem TrieNode.ne_zero_of_mem_children {node : TrieNode H V} (h : child ∈ node.children) :
    child ≠ 0 := by
  cases node with
  | empty | leaf key value => cases h
  | extension key c =>
    rw [children_extension] at h
    split at h
    next hc => exact mem_singleton.mp h ▸ hc
    · cases h
  | branch children value =>
    obtain ⟨i, -, hi⟩ := mem_filterMap.mp h
    exact of_decide_eq_true (Option.filter_eq_some_iff.mp hi).2

/-- A lookup reads marked nodes only: it is the same in a column in which some
others are gone. -/
theorem Trie.getAt_eq_of_marked {db db' : NodeColumn H V} {marked : List H}
    (hmarked : MarkedBelow db marked) (hsame : ∀ h ∈ marked, db' h = db h)
    (hgone : ∀ h, db h = none → db' h = none) (fuel : ℕ) {h : H}
    (hh : (db h).isSome = true → h ∈ marked) (key : List Nibble) :
    getAt db' (fun _ => none) fuel h key = getAt db (fun _ => none) fuel h key := by
  induction fuel generalizing h key with
  | zero => rfl
  | succ fuel ih =>
    unfold getAt
    by_cases h0 : h = 0
    · rw [if_pos h0, if_pos h0]
    rw [if_neg h0, if_neg h0]
    -- a child that is not zero is marked if it is there
    have hchild {node : TrieNode H V} (hnode : db h = some node) {child : H}
        (hc : child ∈ node.children) : (db child).isSome = true → child ∈ marked :=
      hmarked h node (hh (by rw [hnode]; rfl)) h0 hnode child hc
    have hzero (child : H) (hc : child = 0) (key : List Nibble) :
        getAt db' (fun _ => none) fuel child key
          = getAt db (fun _ => none) fuel child key := by
      cases fuel with
      | zero => rfl
      | succ fuel =>
        unfold getAt
        rw [if_pos hc, if_pos hc]
    unfold getNode nodeAt
    rw [if_neg h0, if_neg h0, Option.none_or, Option.none_or]
    cases hnode : db h with
    | none =>
      rw [hgone h hnode]
      rfl
    | some node =>
      rw [hsame h (hh (by rw [hnode]; rfl)), hnode]
      cases node with
      | empty | leaf leafKey value => rfl
      | extension extKey child =>
        show (if extKey <+: key then _ else _) = if extKey <+: key then _ else _
        split
        · by_cases hc : child = 0
          · exact hzero child hc _
          · exact ih (hchild hnode (mem_children_extension hc)) _
        · rfl
      | branch children value =>
        cases key with
        | nil => rfl
        | cons i rest =>
          dsimp only [bind, Except.bind]
          cases hi : children i with
          | none => rfl
          | some child =>
            dsimp only
            by_cases hc : child = 0
            · exact hzero child hc _
            · exact ih (hchild hnode (mem_children_branch hi hc)) _

theorem Trie.get_withRoot_eq_of_marked {db db' : NodeColumn H V} {marked : List H}
    (hmarked : MarkedBelow db marked) (hsame : ∀ h ∈ marked, db' h = db h)
    (hgone : ∀ h, db h = none → db' h = none) {root : H}
    (hroot : root ≠ 0 → (db root).isSome = true → root ∈ marked) (key : List Nibble) :
    get db' (withRoot root) key = get db (withRoot root) key := by
  unfold get
  show (if root = 0 then _ else getAt _ _ _ root key)
    = if root = 0 then _ else getAt _ _ _ root key
  by_cases h0 : root = 0
  · rw [if_pos h0, if_pos h0]
  · rw [if_neg h0, if_neg h0]
    exact getAt_eq_of_marked hmarked hsame hgone _ (hroot h0) key

end Nodes

/-! ## The pruner -/

/-- What is kept. -/
structure PruningConfig where
  keepRecent : ℕ
  keepFinalized : Bool
  batchSize : ℕ
deriving DecidableEq

/-- How many roots are tracked; the product wraps. -/
def PruningConfig.maxTracked (c : PruningConfig) : ℕ := c.keepRecent * 2 % 2 ^ 64

/-- `StatePruner`, without its database. -/
structure StatePruner (H : Type) where
  config : PruningConfig
  preservedRoots : List H
  blockRoots : List (ℕ × H)
  lastPrunedHeight : ℕ
deriving DecidableEq

namespace StatePruner

variable {H : Type} [Zero H] [DecidableEq H]

/-- A pruner with nothing to keep. -/
def new (config : PruningConfig) : StatePruner H := ⟨config, [], [], 0⟩

variable (p : StatePruner H) (currentHeight : ℕ)

/-- `register_block`: the oldest entries are dropped. -/
def registerBlock (height : ℕ) (stateRoot : H) : StatePruner H :=
  let blockRoots := p.blockRoots ++ [(height, stateRoot)]
  { p with blockRoots := blockRoots.drop (blockRoots.length - p.config.maxTracked) }

/-- A root is final. -/
def markFinalized (stateRoot : H) : StatePruner H :=
  if p.config.keepFinalized ∧ stateRoot ≠ 0 then
    { p with preservedRoots := p.preservedRoots.insert stateRoot }
  else p

/-- The roots of kept states. -/
def collectRootsToKeep : List H :=
  let keepFrom := currentHeight - p.config.keepRecent
  let recent := (p.blockRoots.filter (fun entry => keepFrom ≤ entry.1 ∧ entry.2 ≠ 0)).map Prod.snd
  (recent.foldl (fun roots root => roots.insert root) p.preservedRoots).filter (· ≠ 0)

/-- `mark_reachable_nodes`: the roots are a stack. The fuel is enough for a
column whose rows are the keys. -/
def markReachableNodes {V : Type} (db : NodeColumn H V) (keys roots : List H) : List H :=
  Worklist.mark (markNext db) (roots.length + 16 * keys.length + 1) roots.reverse []

/-- `delete_unreachable_nodes`: the deleted nodes. -/
def unreachableNodes (keys reachable : List H) : List H := keys.filter (· ∉ reachable)

/-- `prune`: the number of nodes that are gone, with the pruner and the column
after it, or nothing if it panics. -/
def prune {V : Type} (p : StatePruner H) (db : NodeColumn H V) (keys : List H)
    (currentHeight : ℕ) : Option (ℕ × StatePruner H × NodeColumn H V) :=
  if currentHeight < p.config.keepRecent then some (0, p, db)
  else
    let roots := p.collectRootsToKeep currentHeight
    if roots = [] then some (0, p, db)
    else
      let deleted := unreachableNodes keys (markReachableNodes db keys roots)
      if deleted ≠ [] ∧ p.config.batchSize = 0 then none
      else
        some (deleted.length, { p with lastPrunedHeight := currentHeight },
          fun h => if h ∈ deleted then none else db h)

/-! ## What is marked -/

omit [Zero H] in
/-- Everything in a list that is inserted step by step is there. -/
theorem mem_foldl_insert {recent roots : List H} {root : H} :
    root ∈ recent.foldl (fun roots root => roots.insert root) roots ↔
      root ∈ roots ∨ root ∈ recent := by
  induction recent generalizing roots with
  | nil => exact ⟨.inl, fun h => h.resolve_right not_mem_nil⟩
  | cons r recent ih =>
    rw [foldl_cons, ih, mem_insert_iff, mem_cons]
    tauto

/-- The roots to keep: the preserved ones and the tracked recent ones. -/
theorem mem_collectRootsToKeep {p : StatePruner H} {currentHeight : ℕ} {root : H} :
    root ∈ p.collectRootsToKeep currentHeight ↔ root ≠ 0 ∧ (root ∈ p.preservedRoots ∨
      ∃ height, (height, root) ∈ p.blockRoots ∧ currentHeight - p.config.keepRecent ≤ height) := by
  unfold collectRootsToKeep
  rw [mem_filter, mem_foldl_insert, decide_eq_true_eq, and_comm]
  refine and_congr_right fun h0 => or_congr_right ?_
  constructor
  · intro h
    obtain ⟨⟨height, r⟩, hentry, rfl⟩ := mem_map.mp h
    obtain ⟨hmem, hheight⟩ := mem_filter.mp hentry
    exact ⟨height, hmem, (of_decide_eq_true hheight).1⟩
  · rintro ⟨height, hmem, hheight⟩
    exact mem_map.mpr ⟨(height, root),
      mem_filter.mpr ⟨hmem, decide_eq_true ⟨hheight, h0⟩⟩, rfl⟩

variable {keys : List H}

/-- Marking is complete if the keys are all the rows of the column: every
present root is marked, and with a node its children. -/
theorem markReachableNodes_marks {V : Type} {db : NodeColumn H V}
    (hkeys : ∀ h, (db h).isSome = true → h ∈ keys) (roots : List H) :
    MarkedBelow db (markReachableNodes db keys roots) ∧
      ∀ root ∈ roots, root ≠ 0 → (db root).isSome = true →
        root ∈ markReachableNodes db keys roots := by
  have hmarks : Worklist.Marks (markNext db) roots.reverse [] (markReachableNodes db keys roots) := by
    refine Worklist.mark_marks (fun a ha => hkeys a (isSome_markNext.mp ha).2)
      (d := 16) (fun a succs hnext => ?_) ?_ nofun
    · unfold markNext at hnext
      split at hnext
      · cases hnext
      · obtain ⟨node, -, rfl⟩ := Option.map_eq_some_iff.mp hnext
        exact node.length_children_le
    · have hle := Worklist.unseen_le keys []
      rw [length_reverse]
      omega
  refine ⟨fun h node hmem h0 hnode child hchild hpresent => ?_, fun root hroot h0 hpresent => ?_⟩
  · refine hmarks.closed h hmem child ⟨node.children, ?_, hchild⟩
      (isSome_markNext.mpr ⟨TrieNode.ne_zero_of_mem_children hchild, hpresent⟩)
    unfold markNext
    rw [if_neg h0, hnode, Option.map_some]
  · exact hmarks.stack root (mem_reverse.mpr hroot) (isSome_markNext.mpr ⟨h0, hpresent⟩)

/-- What pruning does to the column: the marked nodes stay as they are, and
nothing is added. -/
theorem prune_spec {V : Type} {p p' : StatePruner H} {db db' : NodeColumn H V}
    {currentHeight count : ℕ} (h : p.prune db keys currentHeight = some (count, p', db')) :
    (∀ hash, db hash = none → db' hash = none) ∧
      (db' = db ∨ ∀ hash ∈ markReachableNodes db keys (p.collectRootsToKeep currentHeight),
        db' hash = db hash) := by
  unfold prune at h
  dsimp only at h
  split_ifs at h
  · cases h
    exact ⟨fun _ h => h, .inl rfl⟩
  · cases h
    exact ⟨fun _ h => h, .inl rfl⟩
  · cases h
    refine ⟨fun hash hnone => ?_, .inr fun hash hmem => ?_⟩
    · dsimp only
      split
      · rfl
      · exact hnone
    · refine if_neg fun hdeleted => ?_
      exact of_decide_eq_true (mem_filter.mp hdeleted).2 hmem

end StatePruner

end Qfc
