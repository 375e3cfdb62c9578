import QfcCore.State.CodeHash
import QfcCore.State.Ledger
import QfcCore.Trie.CanonicalRoot

/-!
# The caches are transparent

The state database with all three of its caches, against maps without any: an
account for every address, a word for every slot of every address, and code by
its hash. Whatever is done to both, in whatever order, and whatever the caches
drop in between, they give the same answers.

The account record names the root of the storage trie. On the side of the maps
it is the root that belongs to the slots of the account (`slotsRoot`): tries in
normal form have one root for one content, so there is no choice.
-/

namespace Qfc

open PathMap Function StateProg StateDB U256 Digest

/-! ## The database with its code cache -/

/-- The most cached codes. -/
def CODE_CACHE_SIZE : ℕ := 1000

instance : NeZero CODE_CACHE_SIZE := ⟨by decide⟩

variable {H : Type} [HashScheme H]

/-- The state database with all its caches. -/
structure CachedState (H : Type) [HashScheme H] extends StateDB H where
  codeCache : Lru H Bytes CODE_CACHE_SIZE

namespace CachedState

/-- Columns with an empty cache. -/
def new (cols : StateColumns H) : CachedState H := ⟨StateDB.new cols, .empty⟩

variable (s : CachedState H)

/-- The code of an account. -/
def getCode (a : Address) : Except (StateError H) Bytes × CachedState H :=
  match s.getAccount a with
  | (.error e, db) => (.error e, { s with toStateDB := db })
  | (.ok acc, db) =>
    match acc.codeHash with
    | none => (.ok [], { s with toStateDB := db })
    | some hash =>
      match s.codeCache.find hash with
      | some code => (.ok code, ⟨db, s.codeCache.touch hash⟩)
      | none =>
        match db.cols.code hash with
        | some code => (.ok code, ⟨db, s.codeCache.put hash code⟩)
        | none => (.ok [], { s with toStateDB := db })

/-- `clear_cache`: code is immutable and stays. -/
def clearCache : CachedState H :=
  { s with accountCache := .empty, storageCache := .empty }

/-- Goes to another state. -/
def setRoot (root : H) : CachedState H :=
  { s with
    trie := Trie.withRoot root
    root := root
    accountCache := .empty
    storageCache := .empty }

/-- Entries of the caches are dropped. -/
def evict (accounts storage : Address → Bool) (code : H → Bool) : CachedState H :=
  { s with
    accountCache := s.accountCache.retain accounts
    storageCache := s.storageCache.retain storage
    codeCache := s.codeCache.retain code }

variable [Digest H (TrieNode H (Cell H))]

/-- `set_code`: the code goes into its column and into the cache first. -/
def setCode (s : CachedState H) (a : Address) (code : Bytes) :
    Except (StateError H) H × CachedState H :=
  let r := s.toStateDB.setCode a code
  (r.1, ⟨r.2, s.codeCache.put (digest code) code⟩)

end CachedState

/-- `increment_nonce`, with the nonce it returns. -/
def StateProg.incrementNonceReturning (a : Address) : StateProg H (StateError H) UInt64 := do
  let acc ← getAccount a
  setAccount a acc.incrementNonce
  return acc.incrementNonce.nonce

/-! ## Calls -/

/-- What is called on a state database. -/
inductive StateCall (H : Type)
  | getAccount (a : Address)
  | setBalance (a : Address) (balance : U256)
  | addBalance (a : Address) (amount : U256)
  | subBalance (a : Address) (amount : U256)
  | transfer (source target : Address) (amount : U256)
  | setNonce (a : Address) (nonce : UInt64)
  | incrementNonce (a : Address)
  | setStake (a : Address) (stake : U256)
  | setDelegation (delegator validator : Address) (amount : U256)
  | addDelegationAmount (delegator : Address) (amount : U256)
  | subDelegationAmount (delegator : Address) (amount : U256)
  | getStorage (a : Address) (slot : U256)
  | setStorage (a : Address) (slot value : U256)
  | getCode (a : Address)
  | setCode (a : Address) (code : Bytes)
  | commit
  | clearCache
  /-- `set_root` at the root that the `i`-th commit returned. -/
  | setRoot (i : ℕ)
  /-- The caches keep only some of their entries. -/
  | evict (accounts storage : Address → Bool) (code : H → Bool)

/-- What a call returns. -/
inductive StateReply (H : Type)
  | unit
  | account (acc : Account H)
  | nonce (nonce : UInt64)
  | flag (b : Bool)
  | word (w : U256)
  | code (code : Bytes)
  | hash (h : H)
  | error (e : StateError H)
  | panic

/-- The reply of a function that may fail. -/
def StateReply.ofExcept {α : Type} (f : α → StateReply H) : Except (StateError H) α → StateReply H
  | .ok a => f a
  | .error e => .error e

/-- The reply of a program. -/
def StateReply.ofOutcome : Outcome (StateError H) (StateReply H) → StateReply H
  | .ok r => r
  | .err e => .error e
  | .panic => .panic

/-- The calls that read and write whole accounts are programs. -/
def StateCall.program : StateCall H → Option (StateProg H (StateError H) (StateReply H))
  | .getAccount a => some do return .account (← StateProg.getAccount a)
  | .setBalance a balance => some do StateProg.setBalance a balance; return .unit
  | .addBalance a amount => some do StateProg.addBalance a amount; return .unit
  | .subBalance a amount => some do StateProg.subBalance a amount; return .unit
  | .transfer source target amount => some do
    StateProg.transfer source target amount
    return .unit
  | .setNonce a nonce => some do StateProg.setNonce a nonce; return .unit
  | .incrementNonce a => some do return .nonce (← incrementNonceReturning a)
  | .setStake a stake => some do StateProg.setStake a stake; return .unit
  | .setDelegation delegator validator amount => some do
    StateProg.setDelegation delegator validator amount
    return .unit
  | .addDelegationAmount delegator amount => some do
    StateProg.addDelegationAmount delegator amount
    return .unit
  | .subDelegationAmount delegator amount => some do
    return .flag (← StateProg.subDelegationAmount delegator amount)
  | _ => none

/-- A state database in use, with the roots its commits returned. -/
structure Session (H : Type) [HashScheme H] where
  db : CachedState H
  roots : List H

namespace Session

variable [Digest H (TrieNode H (Cell H))]

/-- The calls that are not programs over accounts. -/
def direct (s : Session H) : StateCall H → StateReply H × Session H
  | .getStorage a slot =>
    let r := s.db.getStorage a slot
    (.ofExcept .word r.1, { s with db := { s.db with toStateDB := r.2 } })
  | .setStorage a slot value =>
    let r := s.db.setStorage a slot value
    (.ofExcept (fun _ => .unit) r.1, { s with db := { s.db with toStateDB := r.2 } })
  | .getCode a =>
    let r := s.db.getCode a
    (.ofExcept .code r.1, { s with db := r.2 })
  | .setCode a code =>
    let r := s.db.setCode a code
    (.ofExcept .hash r.1, { s with db := r.2 })
  | .commit =>
    let r := s.db.commit
    (.unit, ⟨{ s.db with toStateDB := r.2 }, s.roots ++ [r.1]⟩)
  | .clearCache => (.unit, { s with db := s.db.clearCache })
  | .setRoot i =>
    match s.roots[i]? with
    | some root => (.unit, { s with db := s.db.setRoot root })
    | none => (.unit, s)
  | .evict accounts storage code => (.unit, { s with db := s.db.evict accounts storage code })
  | _ => (.unit, s)

/-- One call. -/
def step (s : Session H) (c : StateCall H) : StateReply H × Session H :=
  match c.program with
  | some p =>
    let r := p.run exec s.db.toStateDB
    (.ofOutcome r.1, { s with db := { s.db with toStateDB := r.2 } })
  | none => s.direct c

/-- A sequence of calls, with their replies. -/
def run (s : Session H) : List (StateCall H) → List (StateReply H)
  | [] => []
  | c :: cs => (s.step c).1 :: run (s.step c).2 cs

end Session

/-! ## Maps without caches -/

/-- What a storage trie holds for the value of a slot: nothing for zero. -/
def slotCell (value : U256) : Option (Cell H) := if value.isZero then none else some (.word value)

/-- The content of the storage trie of an account. -/
noncomputable def slotContent (slots : U256 → U256) : List Nibble → Option (Cell H) :=
  rename nibbles (fun slot => slotCell (slots slot))

section Slots

omit [HashScheme H]

theorem eq_zero_of_slotCell {value : U256} (h : (slotCell value : Option (Cell H)) = none) :
    value = zero := by
  unfold slotCell at h
  split at h
  · exact ext ((isZero_iff value).mp ‹_›)
  · cases h

theorem slotContent_nibbles (slots : U256 → U256) (slot : U256) :
    (slotContent slots slot.nibbles : Option (Cell H)) = slotCell (slots slot) :=
  rename_apply nibbles_injective _ slot

theorem slotContent_update (slots : U256 → U256) (slot value : U256) :
    (slotContent (update slots slot value) : List Nibble → Option (Cell H))
      = update (slotContent slots) slot.nibbles (slotCell value) := by
  unfold slotContent
  rw [← rename_update nibbles_injective]
  refine congrArg (rename nibbles) (funext fun k => ?_)
  by_cases hk : k = slot
  · rw [hk, update_self, update_self]
  · rw [update_of_ne hk, update_of_ne hk]

theorem slotContent_zero :
    (slotContent (fun _ => zero) : List Nibble → Option (Cell H)) = empty :=
  rename_none nibbles

/-- All paths of slots have one length, so none is in the way of another. -/
theorem room_slotContent (slots : U256 → U256) (slot : U256) :
    Room (slotContent slots : List Nibble → Option (Cell H)) slot.nibbles := by
  intro p hp hpre hne
  obtain ⟨k, rfl⟩ := exists_of_rename hp
  exact absurd (hpre.eq_of_length (k.nibbles_length.trans slot.nibbles_length.symm)) hne

end Slots

/-- What a root stands for: accounts and the slots of each. -/
structure Contents (H : Type) where
  accounts : Address → Account H
  storage : Address → U256 → U256

/-- **The state as maps**, with the contents of every commit. -/
structure StateMap (H : Type) extends Ledger H where
  storage : Address → U256 → U256
  code : H → Option Bytes
  commits : List (Contents H)

variable [Digest H (TrieNode H (Cell H))] {root : H}

open Classical in
/-- The storage root that belongs to the slots of an account. -/
noncomputable def slotsRoot (slots : U256 → U256) : Option H :=
  if h : ∃ root look, SoundColumn look ∧
      CanonicalAt look root (slotContent slots : List Nibble → Option (Cell H)) then
    if h.choose = 0 then none else some h.choose
  else none

/-- Any trie in normal form with these slots has this root. -/
theorem slotsRoot_eq {look : NodeColumn H (Cell H)} {slots : U256 → U256} (hs : SoundColumn look)
    (hc : CanonicalAt look root (slotContent slots)) :
    slotsRoot slots = if root = 0 then none else some root := by
  have h : ∃ root look, SoundColumn look ∧
      CanonicalAt look root (slotContent slots : List Nibble → Option (Cell H)) :=
    ⟨root, look, hs, hc⟩
  obtain ⟨look', hs', hc'⟩ := h.choose_spec
  have hroot : h.choose = root := (hc'.root_eq_iff hs' hs hc).mpr rfl
  unfold slotsRoot
  rw [dif_pos h, hroot]

namespace StateMap

/-- The empty state over columns of code and undelegations. -/
def new (cols : StateColumns H) : StateMap H where
  accounts _ := Account.newEoa
  undelegations := cols.undelegations
  storage _ _ := zero
  code := cols.code
  commits := []

/-- The calls that are not programs over accounts. -/
noncomputable def direct (m : StateMap H) : StateCall H → StateReply H × StateMap H
  | .getStorage a slot => (.word (m.storage a slot), m)
  | .setStorage a slot value =>
    let slots := update (m.storage a) slot value
    (.unit,
      { m with
        toLedger := m.toLedger.set a { m.accounts a with storageRoot := slotsRoot slots }
        storage := update m.storage a slots })
  | .getCode a => (.code (((m.accounts a).codeHash.bind m.code).getD []), m)
  | .setCode a code =>
    let hash : H := digest code
    (.hash hash,
      { m with
        toLedger := m.toLedger.set a { m.accounts a with codeHash := some hash }
        code := update m.code hash (some code) })
  | .commit => (.unit, { m with commits := m.commits ++ [⟨m.accounts, m.storage⟩] })
  | .setRoot i =>
    match m.commits[i]? with
    | some c => (.unit, { m with accounts := c.accounts, storage := c.storage })
    | none => (.unit, m)
  | _ => (.unit, m)

/-- One call. -/
noncomputable def step (m : StateMap H) (c : StateCall H) : StateReply H × StateMap H :=
  match c.program with
  | some p =>
    let r := p.run Ledger.exec m.toLedger
    (.ofOutcome r.1, { m with toLedger := r.2 })
  | none => m.direct c

/-- A sequence of calls, with their replies. -/
noncomputable def run (m : StateMap H) : List (StateCall H) → List (StateReply H)
  | [] => []
  | c :: cs => (m.step c).1 :: run (m.step c).2 cs

end StateMap

/-! ## Programs leave storage and code alone -/

/-- What a program over accounts does not touch. -/
structure StateDB.SameStorage (s t : StateDB H) : Prop where
  state : t.cols.state = s.cols.state
  code : t.cols.code = s.cols.code
  storageCache : t.storageCache = s.storageCache

/-- A write of an account changes the working trie and the account cache. -/
theorem StateDB.setAccount_snd (s : StateDB H) (a : Address) (acc : Account H) :
    ∃ trie c, (s.setAccount a acc).2 = { s with trie := trie, accountCache := c } := by
  unfold setAccount
  dsimp only
  split
  · exact ⟨s.trie, _, rfl⟩
  · exact ⟨_, _, rfl⟩

theorem StateDB.exec_sameStorage (c : AccountCmd H) {s t : StateDB H} (h : SameStorage s t) :
    SameStorage s (exec c t).2 := by
  cases c with
  | getAccount a =>
    obtain ⟨cache, hcache, -⟩ := getAccount_snd t a
    show SameStorage s (t.getAccount a).2
    rw [hcache]
    exact ⟨h.state, h.code, h.storageCache⟩
  | setAccount a acc =>
    obtain ⟨trie, cache, hset⟩ := setAccount_snd t a acc
    show SameStorage s (t.setAccount a acc).2
    rw [hset]
    exact ⟨h.state, h.code, h.storageCache⟩
  | getTotalDelegatedTo v | getTotalStake => exact h
  | storeUndelegation u | deleteUndelegation d v t => exact ⟨h.state, h.code, h.storageCache⟩

theorem StateDB.run_sameStorage {ε α : Type} (p : StateProg H ε α) (s : StateDB H) :
    SameStorage s (p.run exec s).2 := by
  have hkeeps : Act.Keeps (SameStorage s) (p.run exec) :=
    (Prog.returns_of_forall (fun _ => trivial) p).run
      (fun c t ht _ => ⟨trivial, exec_sameStorage c ht⟩)
  exact hkeeps s ⟨rfl, rfl, rfl⟩

variable {G : Address → Account H → Prop} {U : Undelegation → Prop} {a : Address}
  {p : StateProg H (StateError H) (StateReply H)} {cols : StateColumns H} {c : StateCall H}

section

omit [HashScheme H] [Digest H (TrieNode H (Cell H))]

/-- A ledger whose accounts meet a condition keeps it, under the contract. -/
theorem Ledger.run_within {ε α : Type} {Q : α → Prop} {p : StateProg H ε α}
    (hp : Within G U Q p) {l : Ledger H} (hl : ∀ a, G a (l.accounts a)) (a : Address) :
    G a ((p.run Ledger.exec l).2.accounts a) := by
  have hkeeps : Act.Keeps (fun l : Ledger H => ∀ a, G a (l.accounts a)) (p.run Ledger.exec) := by
    refine hp.run (fun c l hl hpre => ?_)
    cases c with
    | getAccount a =>
      refine ⟨fun acc hacc => ?_, hl⟩
      cases hacc
      exact hl a
    | setAccount a acc =>
      refine ⟨trivial, fun b => ?_⟩
      show G b ((l.set a acc).accounts b)
      by_cases hba : b = a
      · rw [hba, Ledger.set_accounts_self]
        exact hpre
      · rw [Ledger.set_accounts_of_ne l hba]
        exact hl b
    | getTotalDelegatedTo v | getTotalStake | storeUndelegation u
    | deleteUndelegation d v t => exact ⟨trivial, hl⟩
  exact hkeeps l hl a

theorem StateProg.incrementNonceReturning_within (ho : Owner G a) :
    Within G U (fun _ => True) (incrementNonceReturning a) := by
  refine (getAccount_within a).bind fun acc hacc => ?_
  refine (setAccount_within (ho acc acc.incrementNonce hacc rfl rfl)).bind fun _ _ => ?_
  trivial

/-- The programs of the calls change neither storage nor code of an
account. -/
theorem StateCall.program_within (ho : ∀ a, Owner G a) (hp : c.program = some p) :
    Within G U (fun _ => True) p := by
  have hc : Credits G := fun a acc _ hacc => ho a acc _ hacc rfl rfl
  have reply {α : Type} {q : StateProg H (StateError H) α} {f : α → StateReply H}
      (hq : Allowed G U q) : Allowed G U (q >>= fun a => pure (f a)) := hq.bind fun _ _ => trivial
  cases c with
  | getAccount a => cases hp; exact map_getAccount_within a _
  | setBalance a b => cases hp; exact reply (StateProg.setBalance_within (ho a).charges b)
  | addBalance a b => cases hp; exact reply (StateProg.addBalance_within hc a b)
  | subBalance a b => cases hp; exact reply (StateProg.subBalance_within (ho a).charges b)
  | transfer a b n => cases hp; exact reply (StateProg.transfer_within (ho a).charges hc b n)
  | setNonce a n => cases hp; exact reply (StateProg.setNonce_within (ho a) n)
  | incrementNonce a => cases hp; exact reply (incrementNonceReturning_within (ho a))
  | setStake a n => cases hp; exact reply (StateProg.setStake_within (ho a).spends n)
  | setDelegation a b n => cases hp; exact reply (StateProg.setDelegation_within (ho a).spends b n)
  | addDelegationAmount a n =>
    cases hp
    exact reply (StateProg.addDelegationAmount_within (ho a).spends n)
  | subDelegationAmount a n =>
    cases hp
    exact reply (StateProg.subDelegationAmount_within (ho a).spends n)
  | _ => cases hp

end

/-! ## Storage and code beside the ledger -/

namespace StateDB

variable {s : StateDB H} {l : Ledger H} {slots : U256 → U256}

/-- A slot is written to a storage trie in normal form. -/
theorem writeSlot_canonical (hs : cols.Sound) (hc : CanonicalAt cols.state root (slotContent slots))
    (slot value : U256) :
    ∃ trie, writeSlot cols root slot value = .ok trie ∧
      Grows cols.state (nodeAt cols.state trie.dirty) ∧
      CanonicalAt (nodeAt cols.state trie.dirty) trie.root
        (slotContent (update slots slot value)) := by
  have hopen : CanonicalAt (nodeAt cols.state (Trie.withRoot (V := Cell H) root).dirty)
      (Trie.withRoot (V := Cell H) root).root (slotContent slots) := hc
  rw [slotContent_update]
  unfold writeSlot slotCell
  split
  · obtain ⟨trie, htrie, -, hgrows, hnew⟩ := hopen.delete_eq hs.state slot.nibbles
    exact ⟨trie, htrie, hgrows, hnew⟩
  · exact hopen.insert_eq hs.state (room_slotContent slots slot) (.word value)

/-- `set_storage` behind the cache: the slot is in the storage trie, and the
account has its root. -/
theorem storeSlot_eq (h : Refines s l) (hs : s.cols.Sound)
    (hslots : CanonicalAt s.cols.state (storageRootOf (l.accounts a)) (slotContent slots))
    (slot value : U256) :
    ∃ t root, s.storeSlot a slot value = (.ok (), t) ∧ t.cols.Sound ∧
      ColumnLe s.cols.state t.cols.state ∧ t.cols.code = s.cols.code ∧
      t.storageCache = s.storageCache ∧
      CanonicalAt t.cols.state root (slotContent (update slots slot value)) ∧
      Refines t
        (l.set a { l.accounts a with storageRoot := if root = 0 then none else some root }) := by
  obtain ⟨trie, htrie, hgrows, hnew⟩ := writeSlot_canonical hs hslots slot value
  obtain ⟨trie', c, hstore, hrefines⟩ := h.storeSlot_eq hs htrie hgrows
  exact ⟨_, trie.root, hstore, ⟨hgrows.sound, hs.code⟩, hgrows.keeps, rfl, rfl, hnew, hrefines⟩

omit [Digest H (TrieNode H (Cell H))] in
/-- `get_storage` behind the cache returns the slot, and may cache it. -/
theorem loadSlot_eq (s : StateDB H) (a : Address) {acc : Account H}
    (hslots : CanonicalAt s.cols.state (storageRootOf acc) (slotContent slots)) (slot : U256) :
    ∃ t, s.loadSlot a slot acc = (.ok (slots slot), t) ∧
      (t = s ∨ t = s.cacheSlot a slot (slots slot)) := by
  have hopen : CanonicalAt (nodeAt s.cols.state (Trie.withRoot (V := Cell H) (storageRootOf acc)).dirty)
      (Trie.withRoot (V := Cell H) (storageRootOf acc)).root (slotContent slots) := hslots
  have hget := hopen.get_eq slot.nibbles
  rw [slotContent_nibbles] at hget
  unfold loadSlot
  by_cases h0 : storageRootOf acc = 0
  · rw [if_pos h0]
    refine ⟨s, ?_, .inl rfl⟩
    obtain ⟨-, hempty⟩ | hc := hslots
    · have hcell := congrFun hempty slot.nibbles
      rw [slotContent_nibbles] at hcell
      rw [eq_zero_of_slotCell hcell]
    · exact absurd h0 hc.ne_zero
  · rw [if_neg h0, hget]
    unfold slotCell
    by_cases hz : (slots slot).isZero
    · rw [if_pos hz]
      have hzero : slots slot = zero := ext ((isZero_iff _).mp hz)
      exact ⟨s, by rw [hzero], .inl rfl⟩
    · rw [if_neg hz]
      exact ⟨_, rfl, .inr rfl⟩

omit [HashScheme H] [Digest H (TrieNode H (Cell H))] in
/-- What is cached of a slot after one slot is put there: that one, or what was
cached before. -/
theorem cachedSlot_cacheSlot {b : Address} {slot k value v : U256}
    (h : (s.cacheSlot a slot value).cachedSlot b k = some v) :
    (b = a ∧ k = slot ∧ v = value) ∨ (¬ (b = a ∧ k = slot) ∧ s.cachedSlot b k = some v) := by
  unfold cachedSlot cacheSlot at h
  dsimp only at h
  by_cases hba : b = a
  · subst hba
    rw [Lru.find_put_self] at h
    by_cases hk : k = slot
    · rw [hk] at h
      simp only [Option.bind_some, update_self, Option.some.injEq] at h
      exact .inl ⟨rfl, hk, h.symm⟩
    · refine .inr ⟨fun hboth => hk hboth.2, ?_⟩
      simp only [Option.bind_some, update_of_ne hk] at h
      unfold cachedSlot
      cases hfind : s.storageCache.find b with
      | none => rw [hfind] at h; cases h
      | some slots => rw [hfind] at h; exact h
  · refine .inr ⟨fun hboth => hba hboth.1, ?_⟩
    obtain ⟨slots, hslots, hv⟩ := Option.bind_eq_some_iff.mp h
    unfold cachedSlot
    rw [Lru.find_of_find_put hba hslots]
    exact hv

end StateDB

/-! ## The database represents the maps -/

/-- **The contents stored under a root.** -/
structure StoredContents (cols : StateColumns H) (root : H) (c : Contents H) : Prop where
  accounts : ∃ f, Holds cols.state 40 root f ∧
    ∀ a, decodeAccount (f a.nibbles) = .ok (c.accounts a)
  slots : ∀ a, CanonicalAt cols.state (storageRootOf (c.accounts a))
    (slotContent (c.storage a))

variable {cols' : StateColumns H}

omit [Digest H (TrieNode H (Cell H))] in
theorem StoredContents.mono {c : Contents H} (h : StoredContents cols root c)
    (hle : ColumnLe cols.state cols'.state) : StoredContents cols' root c := by
  obtain ⟨f, hf, hacc⟩ := h.accounts
  exact ⟨⟨f, hf.mono hle, hacc⟩, fun a => (h.slots a).mono hle⟩

/-- Two related lists are related place by place. -/
theorem forall₂_getElem? {A B : Type} {R : A → B → Prop} {l : List A} {m : List B}
    (h : List.Forall₂ R l m) (i : ℕ) :
    (l[i]? = none ∧ m[i]? = none) ∨ ∃ a b, l[i]? = some a ∧ m[i]? = some b ∧ R a b := by
  induction h generalizing i with
  | nil => exact .inl ⟨rfl, rfl⟩
  | @cons a b l m hab _ ih =>
    cases i with
    | zero => exact .inr ⟨a, b, rfl, rfl, hab⟩
    | succ i => exact ih i

/-- **The session represents the maps**: what is stored is what the maps hold,
and what is cached is no different. -/
structure Session.Represents (s : Session H) (m : StateMap H) : Prop where
  cols : s.db.cols.Sound
  refines : Refines s.db.toStateDB m.toLedger
  code : s.db.cols.code = m.code
  slots : ∀ a, CanonicalAt s.db.cols.state (storageRootOf (m.accounts a))
    (slotContent (m.storage a))
  cachedSlots : ∀ a slot value, s.db.cachedSlot a slot = some value → m.storage a slot = value
  cachedCode : ∀ hash code, s.db.codeCache.find hash = some code → m.code hash = some code
  commits : List.Forall₂ (StoredContents s.db.cols) s.roots m.commits

namespace Session.Represents

variable {s : Session H} {m : StateMap H}

omit [Digest H (TrieNode H (Cell H))] in
theorem commits_mono {roots : List H} {commits : List (Contents H)}
    (h : List.Forall₂ (StoredContents cols) roots commits) (hle : ColumnLe cols.state cols'.state) :
    List.Forall₂ (StoredContents cols') roots commits :=
  h.imp fun _ _ hc => hc.mono hle

variable (h : s.Represents m)
include h

/-- A program over accounts gets the same answer from both. -/
theorem program (hp : c.program = some p) :
    (s.step c).1 = (m.step c).1 ∧ (s.step c).2.Represents (m.step c).2 := by
  obtain ⟨hreply, hrefines⟩ := Refines.run p s.db.toStateDB m.toLedger h.refines
  have hsame := run_sameStorage p s.db.toStateDB
  have hroots : ∀ a, ((p.run Ledger.exec m.toLedger).2.accounts a).storageRoot
      = (m.accounts a).storageRoot := by
    have howner : ∀ a, Owner
        (fun a (acc : Account H) => acc.storageRoot = (m.accounts a).storageRoot) a :=
      fun a acc acc' hacc hroot _ => hroot.trans hacc
    exact Ledger.run_within (U := fun _ => True) (StateCall.program_within howner hp) (fun _ => rfl)
  unfold Session.step StateMap.step
  rw [hp]
  refine ⟨congrArg StateReply.ofOutcome hreply, ?_, hrefines, ?_, fun a => ?_, ?_, h.cachedCode, ?_⟩
  · exact ⟨fun h' node hn => h.cols.state h' node (by rw [← hsame.state]; exact hn),
      fun h' code hc => h.cols.code h' code (by rw [← hsame.code]; exact hc)⟩
  · exact hsame.code.trans h.code
  · have hslots := h.slots a
    unfold storageRootOf at hslots ⊢
    show CanonicalAt (p.run exec s.db.toStateDB).2.cols.state _ _
    rw [hsame.state, hroots a]
    exact hslots
  · intro a slot value hcached
    refine h.cachedSlots a slot value ?_
    unfold cachedSlot at hcached ⊢
    rw [← hsame.storageCache]
    exact hcached
  · exact commits_mono h.commits (by rw [hsame.state]; exact ColumnLe.refl _)

/-- Another database over the same columns that implements the same ledger. -/
theorem withDB {db : StateDB H} (hcols : db.cols = s.db.cols) (hrefines : Refines db m.toLedger)
    (hcached : ∀ a slot value, db.cachedSlot a slot = some value → m.storage a slot = value) :
    Session.Represents { s with db := { s.db with toStateDB := db } } m where
  cols := by rw [hcols]; exact h.cols
  refines := hrefines
  code := by rw [hcols]; exact h.code
  slots a := by rw [hcols]; exact h.slots a
  cachedSlots := hcached
  cachedCode := h.cachedCode
  commits := by rw [hcols]; exact h.commits

theorem getStorage (a : Address) (slot : U256) :
    (s.db.getStorage a slot).1 = .ok (m.storage a slot) ∧
      Session.Represents { s with db := { s.db with toStateDB := (s.db.getStorage a slot).2 } } m := by
  have htouch : ∀ b k v, cachedSlot
      { s.db.toStateDB with storageCache := s.db.storageCache.touch a } b k = some v →
      m.storage b k = v := by
    intro b k v hv
    refine h.cachedSlots b k v ?_
    unfold cachedSlot at hv ⊢
    rwa [Lru.find_touch] at hv
  have h₁ : Refines { s.db.toStateDB with storageCache := s.db.storageCache.touch a } m.toLedger :=
    ⟨h.refines.sound, h.refines.content, h.refines.cached, h.refines.undelegations⟩
  obtain ⟨c, hget, h₂⟩ := h₁.getAccount_eq a
  unfold StateDB.getStorage
  dsimp only
  cases hcached : cachedSlot
      { s.db.toStateDB with storageCache := s.db.storageCache.touch a } a slot with
  | some value => exact ⟨congrArg Except.ok (htouch a slot value hcached).symm,
      h.withDB rfl h₁ htouch⟩
  | none =>
    rw [hget]
    dsimp only
    obtain ⟨t, ht, hcase⟩ := loadSlot_eq
      { s.db.toStateDB with accountCache := c, storageCache := s.db.storageCache.touch a } a
      (h.slots a) slot
    rw [ht]
    refine ⟨rfl, ?_⟩
    obtain rfl | rfl := hcase
    · exact h.withDB rfl h₂ htouch
    · refine h.withDB rfl ⟨h₂.sound, h₂.content, h₂.cached, h₂.undelegations⟩ (fun b k v hv => ?_)
      obtain ⟨rfl, rfl, rfl⟩ | ⟨-, hv⟩ := cachedSlot_cacheSlot hv
      · rfl
      · exact htouch b k v hv

theorem setStorage (a : Address) (slot value : U256) :
    (s.direct (.setStorage a slot value)).1 = .unit ∧
      (s.direct (.setStorage a slot value)).2.Represents
        (m.direct (.setStorage a slot value)).2 := by
  have h₁ : Refines (s.db.cacheSlot a slot value) m.toLedger :=
    ⟨h.refines.sound, h.refines.content, h.refines.cached, h.refines.undelegations⟩
  obtain ⟨t, root, hstore, hsound, hle, hcode, hcache, hslots, hrefines⟩ :=
    storeSlot_eq h₁ h.cols (h.slots a) slot value
  have hset : s.db.setStorage a slot value = (.ok (), t) := hstore
  have hroot : slotsRoot (update (m.storage a) slot value)
      = if root = 0 then none else some root := slotsRoot_eq hsound.state hslots
  unfold Session.direct StateMap.direct
  dsimp only
  rw [hset, hroot]
  refine ⟨rfl, hsound, hrefines, hcode.trans h.code, fun b => ?_, fun b k v hv => ?_, h.cachedCode,
    commits_mono h.commits hle⟩
  · show CanonicalAt t.cols.state (storageRootOf ((m.toLedger.set a _).accounts b))
      (slotContent (update m.storage a _ b))
    by_cases hba : b = a
    · subst hba
      have hself : (if root = 0 then none else some root).getD 0 = root := by
        split
        · exact ‹root = 0›.symm
        · rfl
      rw [Ledger.set_accounts_self, update_self, storageRootOf, hself]
      exact hslots
    · rw [Ledger.set_accounts_of_ne _ hba, update_of_ne hba]
      exact (h.slots b).mono hle
  · have hv' : (s.db.cacheSlot a slot value).cachedSlot b k = some v := by
      unfold cachedSlot at hv ⊢
      rwa [← hcache]
    show update m.storage a (update (m.storage a) slot value) b k = v
    obtain ⟨rfl, rfl, rfl⟩ | ⟨hne, hv'⟩ := cachedSlot_cacheSlot hv'
    · rw [update_self, update_self]
    · have hold := h.cachedSlots b k v hv'
      by_cases hba : b = a
      · subst hba
        rw [update_self, update_of_ne (fun hk => hne ⟨rfl, hk⟩), hold]
      · rw [update_of_ne hba, hold]

theorem getCode (a : Address) :
    (s.db.getCode a).1 = .ok (((m.accounts a).codeHash.bind m.code).getD []) ∧
      Session.Represents { s with db := (s.db.getCode a).2 } m := by
  obtain ⟨c, hget, h₁⟩ := h.refines.getAccount_eq a
  have hdb : Session.Represents
      { s with db := { s.db with accountCache := c } } m := h.withDB rfl h₁ h.cachedSlots
  unfold CachedState.getCode
  rw [hget]
  dsimp only
  cases hhash : (m.accounts a).codeHash with
  | none => exact ⟨rfl, hdb⟩
  | some hash =>
    show _ = Except.ok ((m.code hash).getD []) ∧ _
    dsimp only
    cases hfind : s.db.codeCache.find hash with
    | some code =>
      rw [h.cachedCode hash code hfind]
      refine ⟨rfl, hdb.cols, hdb.refines, hdb.code, hdb.slots, hdb.cachedSlots, ?_, hdb.commits⟩
      intro hash' code' hcode
      exact h.cachedCode hash' code' (by rwa [Lru.find_touch] at hcode)
    | none =>
      rw [h.code]
      cases hcode : m.code hash with
      | none => exact ⟨rfl, hdb⟩
      | some code =>
        refine ⟨rfl, hdb.cols, hdb.refines, hdb.code, hdb.slots, hdb.cachedSlots, ?_, hdb.commits⟩
        intro hash' code' hcode'
        by_cases hh : hash' = hash
        · rw [hh, Lru.find_put_self] at hcode'
          rw [hh, hcode, hcode']
        · exact h.cachedCode hash' code' (Lru.find_of_find_put hh hcode')

theorem setCode (a : Address) (code : Bytes) :
    (s.direct (.setCode a code)).1 = (m.direct (.setCode a code)).1 ∧
      (s.direct (.setCode a code)).2.Represents (m.direct (.setCode a code)).2 := by
  obtain ⟨trie, c, hset, hrefines⟩ := h.refines.setCode_eq h.cols a code
  unfold Session.direct StateMap.direct CachedState.setCode
  dsimp only
  rw [hset]
  refine ⟨rfl, putCode_sound h.cols code, hrefines, ?_, fun b => ?_, h.cachedSlots,
    fun hash code' hcode => ?_, commits_mono h.commits (ColumnLe.refl _)⟩
  · show update s.db.cols.code _ _ = update m.code _ _
    rw [h.code]
  · have hroot : storageRootOf ((m.toLedger.set a
        { m.accounts a with codeHash := some (digest code) }).accounts b)
        = storageRootOf (m.accounts b) := by
      by_cases hba : b = a
      · rw [hba, Ledger.set_accounts_self]
        rfl
      · rw [Ledger.set_accounts_of_ne _ hba]
    dsimp only
    rw [hroot]
    exact h.slots b
  · show update m.code _ _ hash = some code'
    by_cases hh : hash = digest code
    · rw [hh] at hcode ⊢
      rw [Lru.find_put_self] at hcode
      rw [update_self, hcode]
    · rw [update_of_ne hh]
      exact h.cachedCode hash code' (Lru.find_of_find_put hh hcode)

theorem commit : (s.direct .commit).2.Represents (m.direct .commit).2 := by
  have hle : ColumnLe s.db.cols.state (nodeAt s.db.cols.state s.db.trie.dirty) :=
    columnLe_nodeAt h.cols.state h.refines.sound
  refine ⟨⟨h.refines.sound, h.cols.code⟩, h.refines.commit, h.code, fun a => (h.slots a).mono hle,
    h.cachedSlots, h.cachedCode, ?_⟩
  exact List.rel_append (commits_mono h.commits hle)
    (.cons ⟨h.refines.content, fun a => (h.slots a).mono hle⟩ .nil)

theorem clearCache : (s.direct .clearCache).2.Represents (m.direct .clearCache).2 :=
  h.withDB rfl ⟨h.refines.sound, h.refines.content, nofun, h.refines.undelegations⟩ nofun

theorem evict (accounts storage : Address → Bool) (code : H → Bool) :
    (s.direct (.evict accounts storage code)).2.Represents
      (m.direct (.evict accounts storage code)).2 := by
  refine ⟨h.cols, ⟨h.refines.sound, h.refines.content, fun a acc hfind => ?_,
    h.refines.undelegations⟩, h.code, h.slots, fun a slot value hcached => ?_,
    fun hash c hfind => ?_, h.commits⟩
  · exact h.refines.cached a acc (Lru.find_of_find_retain hfind)
  · obtain ⟨slots, hslots, hvalue⟩ := Option.bind_eq_some_iff.mp hcached
    refine h.cachedSlots a slot value (Option.bind_eq_some_iff.mpr ⟨slots, ?_, hvalue⟩)
    exact Lru.find_of_find_retain hslots
  · exact h.cachedCode hash c (Lru.find_of_find_retain hfind)

theorem setRoot (i : ℕ) :
    (s.direct (.setRoot i)).1 = (m.direct (.setRoot i)).1 ∧
      (s.direct (.setRoot i)).2.Represents (m.direct (.setRoot i)).2 := by
  unfold Session.direct StateMap.direct
  dsimp only
  obtain ⟨hroot, hcommit⟩ | ⟨root, c, hroot, hcommit, hstored⟩ := forall₂_getElem? h.commits i
  · rw [hroot, hcommit]
    exact ⟨rfl, h⟩
  · rw [hroot, hcommit]
    exact ⟨rfl, h.cols, ⟨h.cols.state, hstored.accounts, nofun, h.refines.undelegations⟩, h.code,
      hstored.slots, nofun, h.cachedCode, h.commits⟩

/-- Every call gets the same answer from the database and from the maps. -/
theorem step (c : StateCall H) :
    (s.step c).1 = (m.step c).1 ∧ (s.step c).2.Represents (m.step c).2 := by
  cases hp : c.program with
  | some p => exact h.program hp
  | none =>
    unfold Session.step StateMap.step
    rw [hp]
    cases c with
    | getStorage a slot =>
      obtain ⟨hreply, hrep⟩ := h.getStorage a slot
      exact ⟨congrArg (StateReply.ofExcept .word) hreply, hrep⟩
    | setStorage a slot value => exact h.setStorage a slot value
    | getCode a =>
      obtain ⟨hreply, hrep⟩ := h.getCode a
      exact ⟨congrArg (StateReply.ofExcept .code) hreply, hrep⟩
    | setCode a code => exact h.setCode a code
    | commit => exact ⟨rfl, h.commit⟩
    | clearCache => exact ⟨rfl, h.clearCache⟩
    | setRoot i => exact h.setRoot i
    | evict accounts storage code => exact ⟨rfl, h.evict accounts storage code⟩
    | _ => cases hp

theorem run (cs : List (StateCall H)) : s.run cs = m.run cs := by
  induction cs generalizing s m with
  | nil => rfl
  | cons c cs ih =>
    obtain ⟨hreply, hrep⟩ := h.step c
    show (s.step c).1 :: (s.step c).2.run cs = (m.step c).1 :: (m.step c).2.run cs
    rw [hreply, ih hrep]

end Session.Represents

/-- A fresh database, without commits. -/
def Session.new (cols : StateColumns H) : Session H := ⟨.new cols, []⟩

theorem Session.represents_new (hs : cols.Sound) :
    (Session.new cols).Represents (StateMap.new cols) where
  cols := hs
  refines := .new hs
  code := rfl
  slots _ := .inl ⟨rfl, slotContent_zero⟩
  cachedSlots := nofun
  cachedCode := nofun
  commits := .nil

/-- **The caches are transparent**: every sequence of calls on a state database
gets the replies of the maps. -/
theorem Session.run_eq_maps {cols : StateColumns H} (hs : cols.Sound) (cs : List (StateCall H)) :
    (Session.new cols).run cs = (StateMap.new cols).run cs :=
  (represents_new hs).run cs

/-- A balance and a slot are written and committed, both change, and the root of
the commit is restored with empty caches. -/
def restoring : List (StateCall CodeName) :=
  [.setBalance (sampleAddress 1) ⟨5, by decide⟩,
    .setStorage (sampleAddress 1) ⟨0, by decide⟩ ⟨7, by decide⟩, .commit,
    .setStorage (sampleAddress 1) ⟨0, by decide⟩ zero, .setRoot 0,
    .getStorage (sampleAddress 1) ⟨0, by decide⟩]

theorem Session.run_eq_maps_restore :
    (StateColumns.empty CodeName).Sound ∧
      (Session.new (StateColumns.empty CodeName)).run restoring
        = (StateMap.new (StateColumns.empty CodeName)).run restoring :=
  ⟨StateColumns.empty_sound CodeName, run_eq_maps (StateColumns.empty_sound CodeName) _⟩

end Qfc
