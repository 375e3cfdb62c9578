import QfcCore.Lib.Digest

/-!
# The Merkle Patricia trie

The trie of `qfc-trie`: nodes named by their hashes, kept in the state column of
the database and, until they are committed, in the trie's set of dirty nodes.
The functions follow `trie.rs` node by node. A path is a list of nibbles. The
recursion over hashes is bounded by a fuel, which for a stored trie is never
used up.

The cache of clean nodes is left out: nodes are named by their content and
never deleted, so what it returns is what the column holds.
-/

namespace Qfc

open Function List

/-- Half a byte. -/
abbrev Nibble := Fin 16

/-- The nodes of a trie with values in `V`. -/
inductive TrieNode (H V : Type)
  | empty
  | leaf (key : List Nibble) (value : V)
  | extension (key : List Nibble) (child : H)
  | branch (children : Nibble → Option H) (value : Option V)
deriving DecidableEq

/-- The trie's errors. -/
inductive TrieError (H : Type)
  | nodeNotFound (hash : H)
  /-- The fuel is used up; a stored trie never gets here. -/
  | tooDeep
deriving DecidableEq

/-- A column of nodes by hash. -/
abbrev NodeColumn (H V : Type) := H → Option (TrieNode H V)

/-- A trie: its root and the nodes that are not committed yet. -/
structure Trie (H V : Type) where
  root : H
  dirty : NodeColumn H V

/-- How far two paths agree. -/
def commonPrefixLen : List Nibble → List Nibble → ℕ
  | a :: l, b :: m => if a = b then commonPrefixLen l m + 1 else 0
  | _, _ => 0

/-- The low half of a byte or a larger number. -/
abbrev Nibble.ofNat (n : ℕ) : Nibble := Fin.ofNat 16 n

/-- `NibbleSlice::from_bytes`: two nibbles per byte, the high one first. -/
def nibblesOfBytes (bytes : List UInt8) : List Nibble :=
  bytes.flatMap (fun b => [Nibble.ofNat (b.toNat / 16), Nibble.ofNat b.toNat])

theorem nibblesOfBytes_cons (b : UInt8) (l : List UInt8) :
    nibblesOfBytes (b :: l)
      = Nibble.ofNat (b.toNat / 16) :: Nibble.ofNat b.toNat :: nibblesOfBytes l := rfl

theorem nibblesOfBytes_length (l : List UInt8) : (nibblesOfBytes l).length = 2 * l.length := by
  induction l with
  | nil => rfl
  | cons b l ih =>
    rw [nibblesOfBytes_cons, length_cons, length_cons, ih, length_cons]
    ring

/-- The packing loop of `NibbleSlice::from_nibbles`: a byte of each two nibbles. A last
single one is a high half. -/
def packNibbles : List Nibble → List UInt8
  | i :: j :: l => UInt8.ofNat (16 * i.val + j.val) :: packNibbles l
  | [i] => [UInt8.ofNat (16 * i.val)]
  | [] => []

theorem toNat_pair {i j : ℕ} (hi : i < 16) (hj : j < 16) :
    (UInt8.ofNat (16 * i + j)).toNat = 16 * i + j := by
  rw [UInt8.toNat_ofNat']
  omega

theorem nibblesOfBytes_pair (i j : Nibble) (l : List UInt8) :
    nibblesOfBytes (UInt8.ofNat (16 * i.val + j.val) :: l) = i :: j :: nibblesOfBytes l := by
  rw [nibblesOfBytes_cons, toNat_pair i.isLt j.isLt]
  refine congrArg₂ cons (Fin.ext ?_) (congrArg₂ cons (Fin.ext ?_) rfl)
  · show (16 * i.val + j.val) / 16 % 16 = i.val
    omega
  · show (16 * i.val + j.val) % 16 = j.val
    omega

theorem packNibbles_nibblesOfBytes (l : List UInt8) : packNibbles (nibblesOfBytes l) = l := by
  induction l with
  | nil => rfl
  | cons b l ih =>
    have hb := b.toNat_lt
    have hbyte : 16 * (b.toNat / 16 % 16) + b.toNat % 16 = b.toNat := by omega
    show UInt8.ofNat (16 * (b.toNat / 16 % 16) + b.toNat % 16) :: packNibbles (nibblesOfBytes l) = _
    rw [hbyte, UInt8.ofNat_toNat, ih]

theorem nibblesOfBytes_injective : Injective nibblesOfBytes :=
  LeftInverse.injective packNibbles_nibblesOfBytes

/-- Packed nibbles are spelled again, a single last one followed by a zero. -/
theorem nibblesOfBytes_packNibbles (l : List Nibble) :
    nibblesOfBytes (packNibbles l) = l ++ replicate (l.length % 2) (Nibble.ofNat 0) := by
  induction l using packNibbles.induct with
  | case1 i j l ih =>
    rw [packNibbles, nibblesOfBytes_pair, ih, length_cons, length_cons, add_assoc,
      Nat.add_mod_right]
    rfl
  | case2 i => exact nibblesOfBytes_pair i (Nibble.ofNat 0) []
  | case3 => rfl

theorem packNibbles_even {l : List Nibble} (h : l.length % 2 = 0) :
    nibblesOfBytes (packNibbles l) = l := by
  rw [nibblesOfBytes_packNibbles, h, replicate_zero, append_nil]

/-- Every path of even length spells a byte string. -/
theorem exists_nibblesOfBytes (n : ℕ) {k : List Nibble} (hk : k.length = 2 * n) :
    ∃ l : List UInt8, l.length = n ∧ nibblesOfBytes l = k := by
  have hpack : nibblesOfBytes (packNibbles k) = k := packNibbles_even (by omega)
  have hlength := nibblesOfBytes_length (packNibbles k)
  rw [hpack, hk] at hlength
  exact ⟨packNibbles k, (Nat.mul_left_cancel two_pos hlength).symm, hpack⟩

/-- A byte string is a prefix of another exactly when its path is. -/
theorem nibblesOfBytes_prefix_iff {l m : List UInt8} :
    nibblesOfBytes l <+: nibblesOfBytes m ↔ l <+: m := by
  constructor
  · rintro ⟨t, ht⟩
    have hlength := congrArg length ht
    rw [length_append, nibblesOfBytes_length, nibblesOfBytes_length] at hlength
    obtain ⟨t, -, rfl⟩ := exists_nibblesOfBytes (m.length - l.length) (k := t) (by omega)
    exact ⟨t, nibblesOfBytes_injective (flatMap_append.trans ht)⟩
  · rintro ⟨t, rfl⟩
    exact ⟨nibblesOfBytes t, flatMap_append.symm⟩

section Nodes

variable {H V : Type} [Zero H] [DecidableEq H]

/-- The node of a hash: a dirty one, or one of the column. -/
def nodeAt (db dirty : NodeColumn H V) (h : H) : Option (TrieNode H V) := (dirty h).or (db h)

/-- A node, unwritten ones first. -/
def getNode (db dirty : NodeColumn H V) (h : H) : Except (TrieError H) (TrieNode H V) :=
  if h = 0 then .ok .empty
  else
    match nodeAt db dirty h with
    | some node => .ok node
    | none => .error (.nodeNotFound h)

variable [Digest H (TrieNode H V)]

/-- The name of a node. -/
def TrieNode.hash : TrieNode H V → H
  | .empty => 0
  | node => Digest.digest node

/-- `store_node`: the hash of a node that is now dirty. -/
def storeNode (dirty : NodeColumn H V) (node : TrieNode H V) : H × NodeColumn H V :=
  (node.hash, if node.hash ≠ 0 then update dirty node.hash (some node) else dirty)

end Nodes

namespace Trie

variable {H V : Type} [Zero H] [DecidableEq H]

/-- The empty trie. -/
def new : Trie H V := ⟨0, fun _ => none⟩

/-- The trie with a root. -/
def withRoot (root : H) : Trie H V := ⟨root, fun _ => none⟩

/-! ## Lookup -/

/-- The value at a path below a node. -/
def getAt (db dirty : NodeColumn H V) :
    ℕ → H → List Nibble → Except (TrieError H) (Option V)
  | 0, _, _ => .error .tooDeep
  | fuel + 1, h, key =>
    if h = 0 then .ok none
    else
      getNode db dirty h >>= fun
      | .empty => .ok none
      | .leaf leafKey value => .ok (if key = leafKey then some value else none)
      | .extension extKey child =>
        if extKey <+: key then getAt db dirty fuel child (key.drop extKey.length) else .ok none
      | .branch children value =>
        match key with
        | [] => .ok value
        | i :: rest =>
          match children i with
          | some child => getAt db dirty fuel child rest
          | none => .ok none

variable (db : NodeColumn H V) (t : Trie H V)

/-- The value at a key. -/
def get (key : List Nibble) : Except (TrieError H) (Option V) :=
  if t.root = 0 then .ok none else getAt db t.dirty (key.length + 1) t.root key

/-! ## Iteration -/

/-- The children of a branch, with their nibbles. -/
def presentChildren (children : Nibble → Option H) : List (Nibble × H) :=
  (finRange 16).filterMap (fun i => (children i).map (fun c => (i, c)))

/-- `collect_values`: the values below a hash, in the order of the nibbles. -/
def collectValues (db dirty : NodeColumn H V) : ℕ → H → Except (TrieError H) (List V)
  | 0, _ => .error .tooDeep
  | fuel + 1, h =>
    if h = 0 then .ok []
    else
      getNode db dirty h >>= fun
      | .empty => .ok []
      | .leaf _ value => .ok [value]
      | .extension _ child => collectValues db dirty fuel child
      | .branch children value => do
        let below ← (presentChildren children).mapM (fun p => collectValues db dirty fuel p.2)
        return value.toList ++ below.flatten

/-- The deepest trie there is: the keys of storage slots have 64 nibbles. -/
def maxDepth : ℕ := 65

/-- All values. -/
def values : Except (TrieError H) (List V) :=
  collectValues db t.dirty maxDepth t.root

/-! ## Commit -/

/-- `commit`: the dirty nodes go into the column. -/
def commit : NodeColumn H V × Trie H V :=
  (nodeAt db t.dirty, ⟨t.root, fun _ => none⟩)

/-! ## Insertion -/

variable [Digest H (TrieNode H V)]
  (db : NodeColumn H V) (dirty : NodeColumn H V) (key : List Nibble)

/-- The new value of a split, in a branch whose other child is `children`: below
the branch, or at it when the key ends there. -/
def splitWith (children : Nibble → Option H) (n : ℕ) (key : List Nibble) (value : V) :
    H × NodeColumn H V :=
  let (branch, dirty) :=
    match key.drop n with
    | [] => storeNode dirty (.branch children (some value))
    | i :: rest =>
      let (leaf, dirty) := storeNode dirty (.leaf rest value)
      storeNode dirty (.branch (update children i (some leaf)) none)
  -- the common part of the two keys goes into an extension
  if 0 < n then storeNode dirty (.extension (key.take n) branch) else (branch, dirty)

/-- The branch of a leaf that is split. A leaf whose key ends at the branch
leaves no child, and its value is gone. -/
def splitLeaf (value : V) (leafKey : List Nibble) (leafValue : V) : H × NodeColumn H V :=
  let n := commonPrefixLen key leafKey
  match leafKey.drop n with
  | [] => splitWith dirty (fun _ => none) n key value
  | i :: rest =>
    let (old, dirty) := storeNode dirty (.leaf rest leafValue)
    splitWith dirty (update (fun _ => none) i (some old)) n key value

/-- The branch of an extension that is split. -/
def splitExtension (value : V) (extKey : List Nibble) (child : H) : H × NodeColumn H V :=
  let n := commonPrefixLen key extKey
  match extKey.drop n with
  | [] => splitWith dirty (fun _ => none) n key value
  | [i] => splitWith dirty (update (fun _ => none) i (some child)) n key value
  | i :: rest =>
    let (old, dirty) := storeNode dirty (.extension rest child)
    splitWith dirty (update (fun _ => none) i (some old)) n key value

/-- Inserts below a node. -/
def insertAt (db : NodeColumn H V) :
    ℕ → NodeColumn H V → H → List Nibble → V → Except (TrieError H) (H × NodeColumn H V)
  | 0, _, _, _, _ => .error .tooDeep
  | fuel + 1, dirty, h, key, value =>
    if h = 0 then .ok (storeNode dirty (.leaf key value))
    else
      getNode db dirty h >>= fun
      | .empty => .ok (storeNode dirty (.leaf key value))
      | .leaf leafKey leafValue =>
        if key = leafKey then .ok (storeNode dirty (.leaf key value))
        else .ok (splitLeaf dirty key value leafKey leafValue)
      | .extension extKey child =>
        if commonPrefixLen key extKey = extKey.length then do
          let (child, dirty) ← insertAt db fuel dirty child (key.drop extKey.length) value
          return storeNode dirty (.extension extKey child)
        else .ok (splitExtension dirty key value extKey child)
      | .branch children branchValue =>
        match key with
        | [] => .ok (storeNode dirty (.branch children (some value)))
        | i :: rest => do
          let (child, dirty) ← insertAt db fuel dirty ((children i).getD 0) rest value
          return storeNode dirty (.branch (update children i (some child)) branchValue)

/-- Inserts at a key. -/
def insert (t : Trie H V) (key : List Nibble) (value : V) : Except (TrieError H) (Trie H V) := do
  let (root, dirty) ← insertAt db (key.length + 1) t.dirty t.root key value
  return ⟨root, dirty⟩

/-! ## Deletion -/

/-- The extension `extKey` over a child that a deletion changed: it merges with
an extension or a leaf below it. -/
def extendOver (db dirty : NodeColumn H V) (extKey : List Nibble) (child : H) :
    Except (TrieError H) (H × NodeColumn H V) :=
  getNode db dirty child >>= fun
  | .extension key grandchild => .ok (storeNode dirty (.extension (extKey ++ key) grandchild))
  | .leaf key value => .ok (storeNode dirty (.leaf (extKey ++ key) value))
  | _ => .ok (storeNode dirty (.extension extKey child))

/-- A branch with one thing left becomes that. -/
def maybeCollapseBranch (db dirty : NodeColumn H V) (children : Nibble → Option H)
    (value : Option V) : Except (TrieError H) (H × NodeColumn H V) :=
  match presentChildren children, value with
  | [], some v => .ok (storeNode dirty (.leaf [] v))
  | [], none => .ok (0, dirty)
  | [(i, child)], none => extendOver db dirty [i] child
  | _, _ => .ok (storeNode dirty (.branch children value))

/-- `delete_at`: the new hash, or nothing when the key is absent. -/
def deleteAt (db : NodeColumn H V) :
    ℕ → NodeColumn H V → H → List Nibble → Except (TrieError H) (Option H × NodeColumn H V)
  | 0, _, _, _ => .error .tooDeep
  | fuel + 1, dirty, h, key =>
    if h = 0 then .ok (none, dirty)
    else
      getNode db dirty h >>= fun
      | .empty => .ok (none, dirty)
      | .leaf leafKey _ => .ok (if key = leafKey then some 0 else none, dirty)
      | .extension extKey child =>
        if extKey <+: key then
          deleteAt db fuel dirty child (key.drop extKey.length) >>= fun
          | (none, dirty) => .ok (none, dirty)
          | (some child, dirty) =>
            if child = 0 then .ok (some 0, dirty)
            else do
              let (h, dirty) ← extendOver db dirty extKey child
              return (some h, dirty)
        else .ok (none, dirty)
      | .branch children value =>
        match key with
        | [] =>
          if value.isNone then .ok (none, dirty)
          else do
            let (h, dirty) ← maybeCollapseBranch db dirty children none
            return (some h, dirty)
        | i :: rest =>
          match children i with
          | none => .ok (none, dirty)
          | some child =>
            deleteAt db fuel dirty child rest >>= fun
            | (none, dirty) => .ok (none, dirty)
            | (some child, dirty) => do
              let (h, dirty) ← maybeCollapseBranch db dirty
                (update children i (if child = 0 then none else some child)) value
              return (some h, dirty)

/-- Deletes a key. -/
def delete (t : Trie H V) (key : List Nibble) : Except (TrieError H) (Trie H V) :=
  if t.root = 0 then .ok t
  else do
    let (root, dirty) ← deleteAt db (key.length + 1) t.dirty t.root key
    return ⟨root.getD t.root, dirty⟩

end Trie

/-! ## Names to compute with -/

section Names

open Delimited

instance : Delimited Nibble := ofInjective Fin.val (fun _ _ h => Fin.ext h)

instance {H V : Type} [Delimited H] [Delimited V] : Delimited (TrieNode H V) :=
  ofInjective
    (Q := Unit ⊕ (List Nibble × V) ⊕ (List Nibble × H) ⊕ (List (Option H) × Option V))
    (fun
      | .empty => .inl ()
      | .leaf key value => .inr (.inl (key, value))
      | .extension key child => .inr (.inr (.inl (key, child)))
      | .branch children value => .inr (.inr (.inr (ofFn children, value)))) (by
    intro a b h
    cases a <;> cases b <;> simp_all [ofFn_injective.eq_iff, -ofFn_succ])

/-- Nodes over numbers, by their serialisations. -/
instance numberNode : Digest CodeName (TrieNode CodeName ℕ) :=
  CodeName.digest (TrieNode CodeName ℕ) 8

end Names

end Qfc
