import QfcCore.Lib.Lru
import QfcCore.Lib.Prog
import QfcCore.Lib.SortedRows
import QfcCore.Trie.Node
import QfcCore.Types.Account
import QfcCore.Types.Block

/-!
# The state database

`StateDB` of `qfc-state/src/state_db.rs`: the accounts of the chain in a trie
whose nodes live in the `STATE` column, the storage of each contract in a trie
of its own in the same column, contract code in `CODE`, and the pending
undelegations in `UNDELEGATIONS`. In front of the tries stand two LRU caches.
The account trie is *working*: its new nodes are dirty until `commit`, and
`root` is the root of the last commit. Storage tries are committed with every
write.

A trie value is the encoding of an account or of a 32-byte word, and neither
decodes as the other; `Cell` is the two of them. The code cache and the
trie's cache of clean nodes are left out: both are keyed by content.

The methods that read and write whole accounts are programs over a handful of
commands, so that one definition of a method runs against this database and
against the ledger it implements.
-/

namespace Qfc

/-- What a trie stores: an account, or the value of a storage slot. -/
inductive Cell (H : Type)
  | account (acc : Account H)
  | word (w : U256)
deriving DecidableEq

/-- The columns the state lives in. -/
structure StateColumns (H : Type) where
  /-- `STATE`: the nodes of all tries, by hash. -/
  state : NodeColumn H (Cell H)
  /-- `CODE`: contract code, by hash. -/
  code : H → Option Bytes
  /-- `UNDELEGATIONS`, in the order of the keys. -/
  undelegations : SortedRows Undelegation.key

/-- Columns without a row. -/
def StateColumns.empty (H : Type) : StateColumns H := ⟨fun _ => none, fun _ => none, .empty⟩

/-- The columns with the dirty nodes of a trie written. -/
def StateColumns.write {H : Type} [Zero H] [DecidableEq H] (cols : StateColumns H)
    (trie : Trie H (Cell H)) : StateColumns H :=
  ⟨(Trie.commit cols.state trie).1, cols.code, cols.undelegations⟩

/-- The columns with a piece of code written. -/
def StateColumns.putCode {H : Type} [DecidableEq H] (cols : StateColumns H) (hash : H)
    (code : Bytes) : StateColumns H :=
  ⟨cols.state, Function.update cols.code hash (some code), cols.undelegations⟩

/-- The most cached accounts. -/
def ACCOUNT_CACHE_SIZE : ℕ := 10000

/-- The most cached storages. -/
def STORAGE_CACHE_SIZE : ℕ := 5000

instance : NeZero ACCOUNT_CACHE_SIZE := ⟨by decide⟩

instance : NeZero STORAGE_CACHE_SIZE := ⟨by decide⟩

/-- The cached slots of an account. -/
abbrev Slots := U256 → Option U256

/-- The state database. -/
structure StateDB (H : Type) where
  cols : StateColumns H
  /-- The account trie, with its dirty nodes. -/
  trie : Trie H (Cell H)
  accountCache : Lru Address (Account H) ACCOUNT_CACHE_SIZE
  storageCache : Lru Address Slots STORAGE_CACHE_SIZE
  /-- The root of the last commit. -/
  root : H

/-- The errors of the state database. -/
inductive StateError (H : Type)
  | insufficientBalance (need available : U256)
  | trie (e : TrieError H)
  | serialization
deriving DecidableEq

/-- The path of an address in the account trie. -/
def Address.nibbles (a : Address) : List Nibble := nibblesOfBytes a.bytes.toList

/-- The path of a slot in a storage trie: its 32 big-endian bytes. -/
def U256.nibbles (slot : U256) : List Nibble :=
  (List.range 64).map (fun i => Nibble.ofNat (slot.val / 16 ^ (63 - i)))

/-- The order in which a hash map of cached entries is iterated: some
permutation of them. -/
structure IterOrder where
  order : {V : Type} → List (Address × V) → List (Address × V)
  perm : ∀ {V : Type} (l : List (Address × V)), (order l).Perm l

/-- A snapshot: the root of the last commit and the cached entries. -/
structure StateSnapshot (H : Type) where
  root : H
  accounts : List (Address × Account H)
  storage : List (Address × Slots)

namespace StateDB

variable {H : Type} [HashScheme H]

/-- The state with a root. -/
def withRoot (cols : StateColumns H) (root : H) : StateDB H where
  cols := cols
  trie := Trie.withRoot root
  accountCache := .empty
  storageCache := .empty
  root := root

/-- `new`: the empty state. -/
def new (cols : StateColumns H) : StateDB H := withRoot cols 0

/-- The account a trie value decodes to; an absent one is fresh. -/
def decodeAccount : Option (Cell H) → Except (StateError H) (Account H)
  | none => .ok Account.newEoa
  | some (.account acc) => .ok acc
  | some (.word _) => .error .serialization

variable (s : StateDB H) (a : Address) (slot : U256)

/-- What the working trie says of an address, whatever the cache holds. -/
def trieAccount : Except (StateError H) (Option (Cell H)) :=
  (Trie.get s.cols.state s.trie a.nibbles).mapError .trie

/-- `get_account`. A hit marks the entry as used, an account that the trie has
is cached, and an absent one is not. -/
def getAccount : Except (StateError H) (Account H) × StateDB H :=
  match s.accountCache.find a with
  | some acc => (.ok acc, { s with accountCache := s.accountCache.touch a })
  | none =>
    match s.trieAccount a with
    | .error e => (.error e, s)
    | .ok (some (.account acc)) => (.ok acc, { s with accountCache := s.accountCache.put a acc })
    | .ok cell => (decodeAccount cell, s)

/-- The storage root of an account, zero when there is none. -/
def storageRootOf (acc : Account H) : H := acc.storageRoot.getD 0

/-- A slot put into the storage cache. -/
def cacheSlot (slot value : U256) : StateDB H :=
  { s with
    storageCache := s.storageCache.put a
      (Function.update ((s.storageCache.find a).getD (fun _ => none)) slot (some value)) }

/-- The cached value of a slot. -/
def cachedSlot : Option U256 :=
  (s.storageCache.find a).bind (fun slots => slots slot)

/-- `get_storage` behind the cache, for an account. -/
def loadSlot (acc : Account H) : Except (StateError H) U256 × StateDB H :=
  if storageRootOf acc = 0 then (.ok U256.zero, s)
  else
    match Trie.get s.cols.state (Trie.withRoot (storageRootOf acc)) slot.nibbles with
    | .error e => (.error (.trie e), s)
    | .ok (some (.word value)) => (.ok value, s.cacheSlot a slot value)
    | .ok _ => (.ok U256.zero, s)

/-- Reads a slot. -/
def getStorage : Except (StateError H) U256 × StateDB H :=
  let s := { s with storageCache := s.storageCache.touch a }
  match s.cachedSlot a slot with
  | some value => (.ok value, s)
  | none =>
    match s.getAccount a with
    | (.error e, s) => (.error e, s)
    | (.ok acc, s) => s.loadSlot a slot acc

/-- `get_code`: the code of an account, empty when it has none. -/
def getCode : Except (StateError H) Bytes × StateDB H :=
  match s.getAccount a with
  | (.error e, s) => (.error e, s)
  | (.ok acc, s) => (.ok ((acc.codeHash.bind s.cols.code).getD []), s)

/-- The accounts of the working trie, in the order of their paths. -/
def accounts : Except (StateError H) (List (Account H)) := do
  let cells ← (Trie.values s.cols.state s.trie).mapError .trie
  cells.mapM (fun cell => decodeAccount (some cell))

/-- `get_total_delegated_to`: a saturating sum over the working trie. -/
def getTotalDelegatedTo (validator : Address) : Except (StateError H) U256 := do
  return (← s.accounts).foldl
    (fun total acc =>
      if acc.delegatedTo = some validator then total.satAdd acc.getDelegatedAmount else total)
    U256.zero

/-- `get_total_stake`: a saturating sum over the working trie. -/
def getTotalStake : Except (StateError H) U256 := do
  return (← s.accounts).foldl
    (fun total acc => (total.satAdd acc.getStake).satAdd acc.getDelegatedAmount) U256.zero

/-- The undelegations that are due. -/
def getMatureUndelegations (currentTime : ℕ) : List Undelegation :=
  s.cols.undelegations.rows.filter (fun u => u.isUnlocked currentTime)

/-- `store_undelegation`: over a record of the same key. -/
def storeUndelegation (u : Undelegation) : StateDB H :=
  { s with cols := { s.cols with undelegations := s.cols.undelegations.put u } }

/-- An undelegation is gone. -/
def deleteUndelegation (delegator validator : Address) (unlockAt : ℕ) : StateDB H :=
  { s with
    cols :=
      { s.cols with
        undelegations :=
          s.cols.undelegations.erase (Undelegation.storageKey delegator validator unlockAt) } }

/-- `commit`: the dirty nodes go into the column, and the root of the working
trie is the root. -/
def commit : H × StateDB H :=
  (s.trie.root,
    { s with
      cols := s.cols.write s.trie
      trie := (Trie.commit s.cols.state s.trie).2
      root := s.trie.root })

/-- Keeps the state. -/
def snapshot (iter : IterOrder) (s : StateDB H) : StateSnapshot H where
  root := s.root
  accounts := iter.order s.accountCache.entries
  storage := iter.order s.storageCache.entries

/-- `revert`: the caches are rebuilt, and the working trie starts again at the
root of the snapshot. -/
def revert (snap : StateSnapshot H) : StateDB H :=
  { s with
    trie := Trie.withRoot snap.root
    accountCache := Lru.rebuild snap.accounts
    storageCache := Lru.rebuild snap.storage
    root := snap.root }

variable [Digest H (TrieNode H (Cell H))] (s : StateDB H) (a : Address) (slot value : U256)

/-- `set_account`: the cache first, then the trie. -/
def setAccount (acc : Account H) : Except (StateError H) Unit × StateDB H :=
  let s := { s with accountCache := s.accountCache.put a acc }
  match Trie.insert s.cols.state s.trie a.nibbles (.account acc) with
  | .error e => (.error (.trie e), s)
  | .ok trie => (.ok (), { s with trie := trie })

/-- The storage trie with one slot written: a zero deletes it. -/
def writeSlot (cols : StateColumns H) (root : H) (slot value : U256) :
    Except (TrieError H) (Trie H (Cell H)) :=
  if value.isZero then Trie.delete cols.state (Trie.withRoot root) slot.nibbles
  else Trie.insert cols.state (Trie.withRoot root) slot.nibbles (.word value)

/-- `set_storage` behind the cache: the storage trie, which is committed, then
the account with its new storage root. -/
def storeSlot : Except (StateError H) Unit × StateDB H :=
  match s.getAccount a with
  | (.error e, s) => (.error e, s)
  | (.ok acc, s) =>
    match writeSlot s.cols (storageRootOf acc) slot value with
    | .error e => (.error (.trie e), s)
    | .ok trie =>
      match { s with cols := s.cols.write trie }.getAccount a with
      | (.error e, s) => (.error e, s)
      | (.ok acc, s) =>
        s.setAccount a { acc with storageRoot := if trie.root = 0 then none else some trie.root }

/-- Writes a slot. -/
def setStorage : Except (StateError H) Unit × StateDB H :=
  (s.cacheSlot a slot value).storeSlot a slot value

/-- `set_code`: the code goes into its column at once. -/
def setCode (code : Bytes) : Except (StateError H) H × StateDB H :=
  let hash : H := Digest.digest code
  match { s with cols := s.cols.putCode hash code }.getAccount a with
  | (.error e, s) => (.error e, s)
  | (.ok acc, s) =>
    match s.setAccount a { acc with codeHash := some hash } with
    | (.error e, s) => (.error e, s)
    | (.ok (), s) => (.ok hash, s)

end StateDB

/-! ## Methods on whole accounts -/

/-- The commands on whole accounts. -/
inductive AccountCmd (H : Type)
  | getAccount (a : Address)
  | setAccount (a : Address) (acc : Account H)
  | getTotalDelegatedTo (validator : Address)
  | getTotalStake
  | storeUndelegation (u : Undelegation)
  | deleteUndelegation (delegator validator : Address) (unlockAt : ℕ)

/-- The response to a command. -/
abbrev AccountCmd.Resp {H : Type} : AccountCmd H → Type
  | .getAccount _ => Except (StateError H) (Account H)
  | .setAccount _ _ => Except (StateError H) Unit
  | .getTotalDelegatedTo _ => Except (StateError H) U256
  | .getTotalStake => Except (StateError H) U256
  | .storeUndelegation _ => Unit
  | .deleteUndelegation _ _ _ => Unit

/-- A program over the commands on accounts. -/
abbrev StateProg (H ε α : Type) : Type := Prog (AccountCmd H) AccountCmd.Resp ε α

/-- What the database answers to a command. -/
def StateDB.exec {H : Type} [HashScheme H] [Digest H (TrieNode H (Cell H))] :
    (c : AccountCmd H) → StateDB H → c.Resp × StateDB H
  | .getAccount a, s => s.getAccount a
  | .setAccount a acc, s => s.setAccount a acc
  | .getTotalDelegatedTo v, s => (s.getTotalDelegatedTo v, s)
  | .getTotalStake, s => (s.getTotalStake, s)
  | .storeUndelegation u, s => ((), s.storeUndelegation u)
  | .deleteUndelegation d v t, s => ((), s.deleteUndelegation d v t)

namespace StateProg

variable {H : Type} (delegator validator : Address) (a : Address) (amount : U256)

/-- Reads an account. -/
def getAccount : StateProg H (StateError H) (Account H) :=
  Prog.send (.getAccount a) >>= Prog.ofExcept

/-- Writes an account. -/
def setAccount (acc : Account H) : StateProg H (StateError H) Unit :=
  Prog.send (.setAccount a acc) >>= Prog.ofExcept

/-- Reads an account, changes it and writes it back. -/
def updateAccount (f : Account H → Account H) : StateProg H (StateError H) Unit := do
  setAccount a (f (← getAccount a))

/-- The balance of an account. -/
def getBalance : StateProg H (StateError H) U256 := do
  return (← getAccount a).balance

/-- Replaces the balance. -/
def setBalance (balance : U256) : StateProg H (StateError H) Unit :=
  updateAccount a (fun acc => { acc with balance := balance })

/-- Adds to the balance. -/
def addBalance : StateProg H (StateError H) Unit :=
  updateAccount a (fun acc => acc.addBalance amount)

/-- Takes from the balance, if it is there. -/
def subBalance : StateProg H (StateError H) Unit := do
  let acc ← getAccount a
  match acc.subBalance amount with
  | none => .fail (.insufficientBalance amount acc.balance)
  | some acc => setAccount a acc

/-- `transfer`: nothing is read for a zero amount. -/
def transfer (source target : Address) (amount : U256) : StateProg H (StateError H) Unit :=
  if amount.isZero then pure ()
  else do
    let sender ← getAccount source
    if sender.balance.val < amount.val then .fail (.insufficientBalance amount sender.balance)
    else do
      subBalance source amount
      addBalance target amount

/-- The nonce of an account. -/
def getNonce : StateProg H (StateError H) UInt64 := do
  return (← getAccount a).nonce

/-- Replaces the nonce. -/
def setNonce (nonce : UInt64) : StateProg H (StateError H) Unit :=
  updateAccount a (fun acc => { acc with nonce := nonce })

/-- Counts the nonce up. -/
def incrementNonce : StateProg H (StateError H) Unit :=
  updateAccount a Account.incrementNonce

/-- The stake of an account. -/
def getStake : StateProg H (StateError H) U256 := do
  return (← getAccount a).getStake

/-- Replaces the stake. -/
def setStake (stake : U256) : StateProg H (StateError H) Unit :=
  updateAccount a (fun acc => acc.setStake stake)

/-- Replaces the score. -/
def setContributionScore (score : UInt64) : StateProg H (StateError H) Unit :=
  updateAccount a (fun acc => acc.setContributionScore score)

/-- The validator and the amount delegated. -/
def getDelegation : StateProg H (StateError H) (Option Address × U256) := do
  let acc ← getAccount a
  return (acc.delegatedTo, acc.getDelegatedAmount)

/-- The amount delegated to a validator. -/
def getDelegationAmount : StateProg H (StateError H) U256 := do
  let acc ← getAccount delegator
  return if acc.delegatedTo = some validator then acc.getDelegatedAmount else U256.zero

/-- Replaces the delegation. -/
def setDelegation : StateProg H (StateError H) Unit :=
  updateAccount delegator (fun acc => acc.setDelegation validator amount)

/-- Adds to the delegation. -/
def addDelegationAmount (delegator : Address) (amount : U256) : StateProg H (StateError H) Unit :=
  updateAccount delegator (fun acc => acc.addDelegatedAmount amount)

/-- `sub_delegation_amount`: whether there was enough. -/
def subDelegationAmount (delegator : Address) (amount : U256) :
    StateProg H (StateError H) Bool := do
  match (← getAccount delegator).subDelegatedAmount amount with
  | none => return false
  | some acc => do
    setAccount delegator acc
    return true

/-- The stake delegated to a validator. -/
def getTotalDelegatedTo (validator : Address) : StateProg H (StateError H) U256 :=
  Prog.send (.getTotalDelegatedTo validator) >>= Prog.ofExcept

/-- All stake. -/
def getTotalStake : StateProg H (StateError H) U256 :=
  Prog.send .getTotalStake >>= Prog.ofExcept

/-- An undelegation starts. -/
def storeUndelegation (u : Undelegation) : StateProg H (StateError H) Unit :=
  Prog.send (AccountCmd.storeUndelegation u)

/-- An undelegation is gone. -/
def deleteUndelegation (unlockAt : ℕ) : StateProg H (StateError H) Unit :=
  Prog.send (AccountCmd.deleteUndelegation delegator validator unlockAt)

end StateProg

end Qfc
