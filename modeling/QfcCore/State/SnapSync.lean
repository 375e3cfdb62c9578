import QfcCore.Lib.Column
import QfcCore.State.KeptStates

/-!
# Snap sync

`SnapSyncManager` of `qfc-state/src/snap.rs`: a node that joins downloads the state
at a root from its peers, first ranges of accounts, then ranges of slots, then the
trie nodes that are missing. Peers may send anything.

What a peer sends as a node is a byte string (`NodeData`): the encoding of a node,
whose values may be anything as well, or no encoding at all. Rows under 32-byte keys
of the `STATE` column are such strings; the rows of accounts and slots have keys of
other lengths, and nothing reads them. The estimate of the progress is left out, and
so is what is requested next. The walk of `identify_missing_nodes` remembers no node,
so over rows that form a cycle it does not end; its fuel is an argument.
-/

namespace Qfc

/-! ## Data of peers -/

/-- A node whose values are those of a state, or other bytes. -/
abbrev PeerNode (H : Type) := TrieNode H (Cell H ⊕ Bytes)

/-- A byte string: the encoding of a node, or no such encoding. -/
inductive NodeData (H : Type)
  | node (n : PeerNode H)
  | junk (bytes : Bytes)
deriving DecidableEq

section Data

variable {H : Type}

/-- A node of a state, as data. -/
def TrieNode.wire : TrieNode H (Cell H) → PeerNode H
  | .empty => .empty
  | .leaf key value => .leaf key (.inl value)
  | .extension key child => .extension key child
  | .branch children value => .branch children (value.map .inl)

/-- The node of a state that some data is, if its value is one of a state. -/
def PeerNode.state? : PeerNode H → Option (TrieNode H (Cell H))
  | .empty => some .empty
  | .leaf key (.inl value) => some (.leaf key value)
  | .leaf _ (.inr _) => none
  | .extension key child => some (.extension key child)
  | .branch children none => some (.branch children none)
  | .branch children (some (.inl value)) => some (.branch children (some value))
  | .branch _ (some (.inr _)) => none

/-- `TrieNode::from_bytes`. -/
def NodeData.parse : NodeData H → Option (PeerNode H)
  | .node n => some n
  | .junk _ => none

theorem PeerNode.state?_wire (n : TrieNode H (Cell H)) : state? n.wire = some n := by
  cases n with
  | branch children value => cases value <;> rfl
  | _ => rfl

variable [HashScheme H]

theorem TrieNode.children_wire (n : TrieNode H (Cell H)) : n.wire.children = n.children := by
  cases n <;> rfl

variable [Digest H (TrieNode H (Cell H))]

/-- **How data is hashed**: collision free, and nodes of a state by their own
hashes. The empty node has a short encoding. -/
structure DataFormat (H : Type) [HashScheme H] [Digest H (TrieNode H (Cell H))] where
  blake3 : NodeData H → H
  length : NodeData H → ℕ
  blake3_node : ∀ n : TrieNode H (Cell H), blake3 (.node n.wire) = Digest.digest n
  injective : Function.Injective blake3
  length_empty : length (.node .empty) < 32

end Data

/-! ## The manager -/

/-- The state that is fetched. -/
structure SnapSyncConfig (H : Type) where
  targetRoot : H
  targetBlock : ℕ
  maxConcurrentRequests : ℕ

/-- A response with accounts. -/
structure AccountRange (H : Type) where
  start : Address
  stop : Address
  accounts : List (Address × Account H)
  proof : List (NodeData H)

/-- A response with slots. -/
structure StorageRange (H : Type) where
  address : Address
  start : U256
  stop : U256
  slots : List (U256 × U256)
  proof : List (NodeData H)

/-- The stage of a sync. -/
inductive SnapSyncPhase
  | notStarted
  | accountSync
  | storageSync
  | trieHealing
  | verification
  | complete
deriving DecidableEq

/-- `SnapSyncProgress`, without its estimate. -/
structure SnapSyncProgress where
  accountsSynced : ℕ
  storageSlotsSynced : ℕ
  nodesHealed : ℕ
  phase : SnapSyncPhase
  lastAddress : Option Address

/-- `SnapSyncManager`, with the rows of its database. -/
structure SnapSyncManager (H : Type) where
  rows : H → Option (NodeData H)
  accountRows : Address → Option (Account H)
  slotRows : Address → U256 → Option U256
  config : Option (SnapSyncConfig H)
  progress : SnapSyncProgress
  pendingStorage : List Address
  missingNodes : List H

namespace SnapSyncManager

variable {H : Type} [HashScheme H]

/-- `Address::MAX`. -/
def maxAddress : Address := ⟨Vector.replicate 20 255⟩

/-- `new`, over an empty database. -/
def new : SnapSyncManager H :=
  ⟨fun _ => none, fun _ => none, fun _ _ => none, none, ⟨0, 0, 0, .notStarted, none⟩, [], []⟩

variable (m : SnapSyncManager H)

/-- A sync starts. -/
def start (config : SnapSyncConfig H) : SnapSyncManager H :=
  { m with
    config := some config
    progress := ⟨0, 0, 0, .accountSync, none⟩ }

/-- The columns that a state database reads; rows that are no node of a state are
as good as absent. -/
def columns : StateColumns H :=
  { StateColumns.empty H with
    state := fun h => (m.rows h).bind fun d => d.parse.bind PeerNode.state? }

/-- What the walk goes on with at a hash. -/
def walkNext (rows : H → Option (NodeData H)) (h : H) : Option (List H) :=
  if h = 0 then some []
  else (rows h).map fun d => (d.parse.map TrieNode.children).getD []

/-- `identify_missing_nodes`: how many there are, nothing if the walk does not
come to its end. -/
def identifyMissingNodes (fuel : ℕ) : Option ℕ × SnapSyncManager H :=
  match m.config with
  | none => (some 0, m)
  | some config =>
    match Worklist.walk (walkNext m.rows) fuel [config.targetRoot] [] with
    | none => (none, m)
    | some missing => (some missing.length, { m with missingNodes := missing })

/-- `process_trie_nodes`: all are stored under the hashes they come with. -/
def processTrieNodes (nodes : List (H × NodeData H)) : SnapSyncManager H :=
  let missing := m.missingNodes.filter (fun hash => !nodes.any (fun row => row.1 = hash))
  { m with
    rows := Column.putAll m.rows nodes
    missingNodes := missing
    progress :=
      { m.progress with
        nodesHealed := (m.progress.nodesHealed + nodes.length) % 2 ^ 64
        phase := if missing = [] then .verification else m.progress.phase } }

/-- `verify`: the root of a database that was opened at the target. -/
def verify : Bool × SnapSyncManager H :=
  match m.config with
  | none => (false, m)
  | some config =>
    let computedRoot := (StateDB.withRoot m.columns config.targetRoot).root
    if computedRoot = config.targetRoot then
      (true, { m with progress := { m.progress with phase := .complete } })
    else (false, m)

/-- The state, if the sync is over. -/
def complete : Option (StateDB H) :=
  match m.config with
  | none => none
  | some config =>
    if m.progress.phase ≠ .complete then none
    else some (StateDB.withRoot m.columns config.targetRoot)

variable [Digest H (TrieNode H (Cell H))] (W : DataFormat H)

/-- `TrieNode::hash`, of data. -/
def hashOf : PeerNode H → H
  | .empty => 0
  | n => W.blake3 (.node n)

/-- The proof nodes that are stored, under their own hashes. -/
def proofRows (proof : List (NodeData H)) : List (H × NodeData H) :=
  proof.filterMap fun d =>
    if 32 ≤ W.length d then d.parse.map fun n => (hashOf W n, d) else none

/-- Accounts arrive. -/
def processAccountRange (m : SnapSyncManager H) (range : AccountRange H) : SnapSyncManager H :=
  let stored := range.accounts.filter fun entry => StateDB.storageRootOf entry.2 ≠ 0
  { m with
    rows := Column.putAll m.rows (proofRows W range.proof)
    accountRows := Column.putAll m.accountRows range.accounts
    pendingStorage := m.pendingStorage ++ stored.map Prod.fst
    progress :=
      { m.progress with
        accountsSynced := (m.progress.accountsSynced + range.accounts.length) % 2 ^ 64
        lastAddress := (range.accounts.getLast?.map Prod.fst).or m.progress.lastAddress
        phase :=
          if range.stop = maxAddress ∨ range.accounts = [] then .storageSync
          else m.progress.phase } }

/-- Slots arrive. -/
def processStorageRange (m : SnapSyncManager H) (range : StorageRange H) : SnapSyncManager H :=
  let pending :=
    if u256Size - 1 ≤ range.stop.val ∨ range.slots = [] then m.pendingStorage.tail
    else m.pendingStorage
  { m with
    rows := Column.putAll m.rows (proofRows W range.proof)
    slotRows := Function.update m.slotRows range.address
      (Column.putAll (m.slotRows range.address) range.slots)
    pendingStorage := pending
    progress :=
      { m.progress with
        storageSlotsSynced := (m.progress.storageSlotsSynced + range.slots.length) % 2 ^ 64
        phase := if pending = [] then .trieHealing else m.progress.phase } }

end SnapSyncManager

end Qfc
