import QfcCore.State.StateDB
import QfcCore.Trie.Growth
import QfcCore.Trie.Iteration

/-!
# Stored states

A state is *stored* under a root when the nodes of its account trie are all
there, when every account in it has its storage trie in the column as well, and
its code. `WellStored` says so of a state database: of its working trie, of the
root of its last commit, and of the accounts in its cache. It says nothing
about the cache and the trie agreeing, so it survives everything the database
does, a revert included, and it is what makes every read succeed.

Columns only grow: nodes and code are named by their content and never deleted.
What is stored stays stored.
-/

namespace Qfc

open Function StateDB Digest

/-! ## Paths -/

theorem Address.nibbles_length (a : Address) : a.nibbles.length = 40 := by
  unfold Address.nibbles
  rw [nibblesOfBytes_length, Vector.length_toList]

theorem Address.nibbles_injective : Injective Address.nibbles := by
  rintro ⟨u⟩ ⟨v⟩ h
  exact congrArg Address.mk (Vector.toList_inj.mp (nibblesOfBytes_injective h))

/-- Every path of 40 nibbles is the path of an address. -/
theorem Address.exists_nibbles {k : List Nibble} (hk : k.length = 40) :
    ∃ a : Address, a.nibbles = k := by
  obtain ⟨l, hl, hlk⟩ := exists_nibblesOfBytes 20 hk
  refine ⟨⟨⟨l.toArray, by simpa using hl⟩⟩, ?_⟩
  exact hlk

theorem U256.nibbles_length (slot : U256) : slot.nibbles.length = 64 := by
  unfold U256.nibbles
  rw [List.length_map, List.length_range]

/-- A number below `16 ^ n` is given by its `n` digits. -/
theorem eq_of_hexDigits {a b n : ℕ} (ha : a < 16 ^ n) (hb : b < 16 ^ n)
    (h : ∀ j < n, a / 16 ^ j % 16 = b / 16 ^ j % 16) : a = b := by
  have hmod : ∀ j ≤ n, a % 16 ^ j = b % 16 ^ j := by
    intro j hj
    induction j with
    | zero => rw [pow_zero, Nat.mod_one, Nat.mod_one]
    | succ j ih => rw [Nat.mod_pow_succ, Nat.mod_pow_succ, ih (Nat.le_of_succ_le hj), h j hj]
  rw [← Nat.mod_eq_of_lt ha, hmod n le_rfl, Nat.mod_eq_of_lt hb]

theorem U256.nibbles_injective : Injective U256.nibbles := by
  intro a b h
  refine U256.ext (eq_of_hexDigits (n := 64) a.isLt b.isLt (fun j hj => ?_))
  have hdigit : ∀ i ∈ List.range 64, Nibble.ofNat (a.val / 16 ^ (63 - i))
      = Nibble.ofNat (b.val / 16 ^ (63 - i)) := List.map_inj_left.mp h
  have hj' := hdigit (63 - j) (List.mem_range.mpr (by omega))
  rw [Nat.sub_sub_self (Nat.le_of_lt_succ hj)] at hj'
  exact congrArg Fin.val hj'

/-! ## Stored accounts -/

variable {H : Type} {c c' : StateColumns H}

/-- One set of columns has everything another one has, undelegations apart. -/
structure StateColumns.Le (c c' : StateColumns H) : Prop where
  state : ColumnLe c.state c'.state
  code : ∀ {h : H} {code : Bytes}, c.code h = some code → c'.code h = some code

theorem StateColumns.Le.refl (c : StateColumns H) : c.Le c :=
  ⟨ColumnLe.refl _, fun h => h⟩

theorem StateColumns.Le.trans {c'' : StateColumns H} (h : c.Le c') (h' : c'.Le c'') : c.Le c'' :=
  ⟨fun hn => h'.state (h.state hn), fun hc => h'.code (h.code hc)⟩

variable [HashScheme H]
  (cols : StateColumns H) {acc : Account H} {look look' : NodeColumn H (Cell H)}

/-- **An account whose storage and code are in the columns.** -/
structure Closed (acc : Account H) : Prop where
  storage : ∃ g, Holds cols.state 64 (storageRootOf acc) g
  code : ∀ h, acc.codeHash = some h → ∃ code, cols.code h = some code

theorem Closed.mono (h : Closed c acc) (hle : c.Le c') : Closed c' acc := by
  obtain ⟨g, hg⟩ := h.storage
  refine ⟨⟨g, hg.mono hle.state⟩, fun hash hh => ?_⟩
  obtain ⟨code, hcode⟩ := h.code hash hh
  exact ⟨code, hle.code hcode⟩

/-- Accounts that differ in neither storage nor code are closed together. -/
theorem Closed.congr {cols : StateColumns H} {acc' : Account H} (h : Closed cols acc)
    (hroot : acc'.storageRoot = acc.storageRoot) (hcode : acc'.codeHash = acc.codeHash) :
    Closed cols acc' := by
  refine ⟨?_, fun hash hh => h.code hash (hcode ▸ hh)⟩
  unfold storageRootOf
  rw [hroot]
  exact h.storage

/-- The slots of a closed account are read alike from all larger columns. -/
theorem Closed.slots {cols : StateColumns H} (h : Closed cols acc) :
    ∃ g : List Nibble → Option (Cell H), ∀ {cols' : StateColumns H}, cols.Le cols' →
      ∀ slot : U256, Trie.get cols'.state (Trie.withRoot (storageRootOf acc)) slot.nibbles
        = .ok (g slot.nibbles) := by
  obtain ⟨g, hg⟩ := h.storage
  refine ⟨g, fun {cols'} hle slot => ?_⟩
  have hheld : Holds
      (nodeAt cols'.state (Trie.withRoot (V := Cell H) (storageRootOf acc)).dirty) 64
      (Trie.withRoot (V := Cell H) (storageRootOf acc)).root g := hg.mono hle.state
  exact hheld.get_eq _

theorem closed_newEoa : Closed cols Account.newEoa :=
  ⟨⟨_, .empty 64⟩, nofun⟩

/-- **A state stored under a root**: an account trie whose values are closed
accounts. -/
def HoldsAccounts (look : NodeColumn H (Cell H)) (root : H) : Prop :=
  ∃ f, Holds look 40 root f ∧ ∀ k c, f k = some c → ∃ acc, c = .account acc ∧ Closed cols acc

theorem HoldsAccounts.mono {root : H} (h : HoldsAccounts c look root) (hle : c.Le c')
    (hlook : ColumnLe look look') : HoldsAccounts c' look' root := by
  obtain ⟨f, hf, hacc⟩ := h
  refine ⟨f, hf.mono hlook, fun k cell hk => ?_⟩
  obtain ⟨acc, hcell, hclosed⟩ := hacc k cell hk
  exact ⟨acc, hcell, hclosed.mono hle⟩

theorem holdsAccounts_zero (look : NodeColumn H (Cell H)) : HoldsAccounts cols look 0 :=
  ⟨_, .empty 40, nofun⟩

variable [Digest H (TrieNode H (Cell H))] {db dirty : NodeColumn H (Cell H)}

/-- Columns whose rows are filed under their own hashes. -/
structure StateColumns.Sound (cols : StateColumns H) : Prop where
  state : SoundColumn cols.state
  code : ∀ h code, cols.code h = some code → (digest code : H) = h

theorem StateColumns.empty_sound (H : Type) [HashScheme H] [Digest H (TrieNode H (Cell H))] :
    (StateColumns.empty H).Sound :=
  ⟨fun _ _ h => (nomatch h), fun _ _ h => (nomatch h)⟩

/-- Two nodes filed under one hash are one node. -/
theorem node_eq_of_hash_eq (hs : SoundColumn look) (hs' : SoundColumn look') {h : H}
    {node node' : TrieNode H (Cell H)} (hn : look h = some node) (hn' : look' h = some node') :
    node = node' := by
  have hdigest : ∀ {look : NodeColumn H (Cell H)} {node : TrieNode H (Cell H)}, SoundColumn look →
      look h = some node → digest node = h := by
    intro look node hs hn
    obtain ⟨h0, hhash⟩ := hs h node hn
    cases node with
    | empty => exact absurd hhash.symm h0
    | _ => exact hhash
  exact digest_injective ((hdigest hs hn).trans (hdigest hs' hn').symm)

/-- A sound column has its nodes below sound dirty nodes as well. -/
theorem columnLe_nodeAt (hs : SoundColumn db) (hs' : SoundColumn (nodeAt db dirty)) :
    ColumnLe db (nodeAt db dirty) := by
  intro h node hn
  have hat : ∃ node', nodeAt db dirty h = some node' := by
    unfold nodeAt
    rw [hn]
    cases dirty h with
    | none => exact ⟨node, rfl⟩
    | some d => exact ⟨d, rfl⟩
  obtain ⟨node', hn'⟩ := hat
  rw [hn', node_eq_of_hash_eq hs hs' hn hn']

namespace StateDB

/-- **A state database that finds everything it reads.** -/
structure WellStored (s : StateDB H) : Prop where
  cols : s.cols.Sound
  sound : SoundColumn (nodeAt s.cols.state s.trie.dirty)
  /-- The working trie. -/
  work : HoldsAccounts s.cols (nodeAt s.cols.state s.trie.dirty) s.trie.root
  /-- The last commit. -/
  base : HoldsAccounts s.cols s.cols.state s.root
  /-- The cached accounts. -/
  cached : ∀ a acc, s.accountCache.find a = some acc → Closed s.cols acc

variable {cols : StateColumns H}

theorem withRoot_wellStored {root : H} (hs : cols.Sound) (h : HoldsAccounts cols cols.state root) :
    (withRoot cols root).WellStored where
  cols := hs
  sound := hs.state
  work := h
  base := h
  cached a acc hfind := by cases hfind

variable {s t : StateDB H} {a : Address}

section

omit [Digest H (TrieNode H (Cell H))]

variable (s : StateDB H) (a : Address)

/-- What `get_account` does: a cached account is returned and marked as
used; otherwise the trie is read, and an account that it has is cached. -/
theorem getAccount_cases : (∃ acc, s.accountCache.find a = some acc ∧
        s.getAccount a = (.ok acc, { s with accountCache := s.accountCache.touch a })) ∨
      (s.accountCache.find a = none ∧ ∃ acc, s.trieAccount a = .ok (some (.account acc)) ∧
        s.getAccount a = (.ok acc, { s with accountCache := s.accountCache.put a acc })) ∨
      (s.accountCache.find a = none ∧ s.getAccount a = (s.trieAccount a >>= decodeAccount, s)) := by
  unfold getAccount
  cases hfind : s.accountCache.find a with
  | some acc => exact .inl ⟨acc, rfl, rfl⟩
  | none =>
    refine .inr ?_
    cases htrie : s.trieAccount a with
    | error e => exact .inr ⟨rfl, rfl⟩
    | ok cell =>
      match cell with
      | none | some (.word w) => exact .inr ⟨rfl, rfl⟩
      | some (.account acc) => exact .inl ⟨rfl, acc, rfl, rfl⟩

/-- The answer of `get_account`: the cache, or else the trie. -/
theorem getAccount_fst : (s.getAccount a).1 = match s.accountCache.find a with
      | some acc => .ok acc
      | none => s.trieAccount a >>= decodeAccount := by
  obtain ⟨acc, hfind, h⟩ | ⟨hfind, acc, htrie, h⟩ | ⟨hfind, h⟩ := getAccount_cases s a
  · rw [h, hfind]
  · rw [h, hfind, htrie]
    rfl
  · rw [h, hfind]

/-- `get_account` changes the account cache and nothing else, and there only
adds what the trie says. -/
theorem getAccount_snd : ∃ c, (s.getAccount a).2 = { s with accountCache := c } ∧
      ∀ b acc, c.find b = some acc →
        s.accountCache.find b = some acc ∨ (b = a ∧ s.trieAccount a = .ok (some (.account acc))) := by
  obtain ⟨acc, hfind, h⟩ | ⟨hfind, acc, htrie, h⟩ | ⟨hfind, h⟩ := getAccount_cases s a
  · exact ⟨_, by rw [h], fun b acc' hb => .inl (by rw [← hb, Lru.find_touch])⟩
  · refine ⟨_, by rw [h], fun b acc' hb => ?_⟩
    by_cases hba : b = a
    · rw [hba, Lru.find_put_self] at hb
      exact .inr ⟨hba, by rw [htrie, Option.some.inj hb]⟩
    · exact .inl (Lru.find_of_find_put hba hb)
  · exact ⟨s.accountCache, by rw [h], fun b acc' hb => .inl hb⟩

end

/-- A stored trie answers every address, with a closed account or none. -/
theorem WellStored.trieAccount_eq (h : s.WellStored) (a : Address) :
    ∃ o : Option (Account H), s.trieAccount a = .ok (o.map .account) ∧
      ∀ acc, o = some acc → Closed s.cols acc := by
  obtain ⟨f, hf, hacc⟩ := h.work
  have hget : s.trieAccount a = .ok (f a.nibbles) := by
    unfold trieAccount
    rw [hf.get_eq]
    rfl
  cases hcell : f a.nibbles with
  | none => exact ⟨none, by rw [hget, hcell]; rfl, nofun⟩
  | some cell =>
    obtain ⟨acc, rfl, hclosed⟩ := hacc _ _ hcell
    refine ⟨some acc, by rw [hget, hcell]; rfl, fun acc' hacc' => ?_⟩
    rw [← Option.some.inj hacc']
    exact hclosed

/-- A read succeeds and returns a closed account. -/
theorem WellStored.getAccount_eq (h : s.WellStored) (a : Address) :
    ∃ acc cache, s.getAccount a = (.ok acc, { s with accountCache := cache }) ∧
      Closed s.cols acc ∧ WellStored { s with accountCache := cache } := by
  obtain ⟨o, htrie, hclosed⟩ := h.trieAccount_eq a
  obtain ⟨cache, hcache, hfind⟩ := getAccount_snd s a
  have hok : ∃ acc, (s.getAccount a).1 = .ok acc ∧ Closed s.cols acc := by
    rw [getAccount_fst]
    cases hfind : s.accountCache.find a with
    | some acc => exact ⟨acc, rfl, h.cached a acc hfind⟩
    | none =>
      rw [htrie]
      cases o with
      | none => exact ⟨_, rfl, closed_newEoa _⟩
      | some acc => exact ⟨acc, rfl, hclosed acc rfl⟩
  obtain ⟨acc, hacc, hacc'⟩ := hok
  refine ⟨acc, cache, Prod.ext hacc hcache, hacc',
    ⟨h.cols, h.sound, h.work, h.base, fun b accb hb => ?_⟩⟩
  obtain hb | ⟨rfl, hb⟩ := hfind b accb hb
  · exact h.cached b accb hb
  · rw [htrie] at hb
    cases o with
    | none => cases hb
    | some acc' => cases hb; exact hclosed accb rfl

theorem WellStored.setAccount_eq (h : s.WellStored) (hacc : Closed s.cols acc) :
    ∃ trie, s.setAccount a acc
        = (.ok (), { s with trie := trie, accountCache := s.accountCache.put a acc }) ∧
      WellStored { s with trie := trie, accountCache := s.accountCache.put a acc } := by
  obtain ⟨f, hf, hclosed⟩ := h.work
  obtain ⟨trie, hins, hgrows, hheld⟩ := hf.insert_eq h.sound (.account acc) a.nibbles_length
  refine ⟨trie, ?_, ⟨h.cols, hgrows.sound, ⟨_, hheld, fun k cell hk => ?_⟩, h.base, ?_⟩⟩
  · unfold setAccount
    dsimp only
    rw [hins]
  · by_cases hka : k = a.nibbles
    · rw [hka, update_self] at hk
      exact ⟨acc, (Option.some.inj hk).symm, hacc⟩
    · rw [update_of_ne hka] at hk
      exact hclosed k cell hk
  · intro b acc' hb
    by_cases hba : b = a
    · rw [hba, Lru.find_put_self] at hb
      rw [← Option.some.inj hb]
      exact hacc
    · exact h.cached b acc' (Lru.find_of_find_put hba hb)

/-- A commit keeps a stored state stored, under its new root. -/
theorem WellStored.commit (h : s.WellStored) :
    s.commit.2.WellStored ∧ s.cols.Le s.commit.2.cols := by
  have hle : s.cols.Le s.commit.2.cols := ⟨columnLe_nodeAt h.cols.state h.sound, fun hc => hc⟩
  have hwork : HoldsAccounts s.commit.2.cols s.commit.2.cols.state s.commit.2.root :=
    h.work.mono hle (ColumnLe.refl _)
  exact ⟨⟨⟨h.sound, h.cols.code⟩, h.sound, hwork, hwork, fun a acc hfind =>
    (h.cached a acc hfind).mono hle⟩, hle⟩

/-- A revert to a snapshot of a stored state gives a stored state. -/
theorem WellStored.revert (hs : s.WellStored) (ht : t.WellStored) (hle : s.cols.Le t.cols)
    (iter : IterOrder) : (t.revert (s.snapshot iter)).WellStored where
  cols := ht.cols
  sound := ht.cols.state
  work := hs.base.mono hle hle.state
  base := hs.base.mono hle hle.state
  cached a acc hfind := by
    have hfind' : s.accountCache.find a = some acc := by
      rw [← hfind]
      exact (Lru.find_rebuild (iter.perm s.accountCache.entries) a).symm
    exact (hs.cached a acc hfind').mono hle

/-! ## Contract storage and code -/

/-- Dirty nodes stay sound over any sound column. -/
theorem soundColumn_nodeAt {db' : NodeColumn H (Cell H)} (hs : SoundColumn (nodeAt db dirty))
    (hs' : SoundColumn db') : SoundColumn (nodeAt db' dirty) := by
  intro h node hn
  unfold nodeAt at hn
  cases hd : dirty h with
  | none =>
    rw [hd] at hn
    exact hs' h node hn
  | some d =>
    rw [hd] at hn
    refine hs h node ?_
    unfold nodeAt
    rw [hd]
    exact hn

/-- Growing columns keep a stored state stored. -/
theorem WellStored.grow (h : s.WellStored) (cols : StateColumns H) (hs : cols.Sound)
    (hle : s.cols.Le cols) : WellStored { s with cols := cols } where
  cols := hs
  sound := soundColumn_nodeAt h.sound hs.state
  work := h.work.mono hle (ColumnLe.nodeAt hle.state _)
  base := h.base.mono hle hle.state
  cached a acc hfind := (h.cached a acc hfind).mono hle

/-- A written piece of code is the only one of its hash. -/
theorem putCode_le (hs : cols.Sound) (code : Bytes) :
    cols.Le (cols.putCode (digest code) code) := by
  refine ⟨fun hn => hn, fun {hash} {code'} hcode => ?_⟩
  show update cols.code (digest code) (some code) hash = some code'
  by_cases hh : hash = digest code
  · have hcc : code' = code := digest_injective (H := H) ((hs.code _ _ hcode).trans hh)
    rw [hh, update_self, hcc]
  · rw [update_of_ne hh]
    exact hcode

theorem putCode_sound (hs : cols.Sound) (code : Bytes) :
    (cols.putCode (digest code) code).Sound := by
  refine ⟨hs.state, fun hash code' hcode => ?_⟩
  unfold StateColumns.putCode at hcode
  by_cases hh : hash = digest code
  · dsimp only at hcode
    rw [hh, update_self] at hcode
    rw [hh, Option.some.inj hcode]
  · dsimp only at hcode
    rw [update_of_ne hh] at hcode
    exact hs.code hash code' hcode

/-- A slot is written to the storage trie of a closed account. -/
theorem writeSlot_holds (hs : cols.Sound) (hacc : Closed cols acc) (slot value : U256) :
    ∃ trie g, writeSlot cols (storageRootOf acc) slot value = .ok trie ∧
      Grows cols.state (nodeAt cols.state trie.dirty) ∧
      Holds (nodeAt cols.state trie.dirty) 64 trie.root g := by
  obtain ⟨g, hg⟩ := hacc.storage
  have hheld : Holds (nodeAt cols.state (Trie.withRoot (storageRootOf acc)).dirty) 64
      (Trie.withRoot (V := Cell H) (storageRootOf acc)).root g := hg
  unfold writeSlot
  split
  · obtain ⟨trie, htrie, hgrows, hheld'⟩ := hheld.delete_eq hs.state slot.nibbles
    exact ⟨trie, _, htrie, hgrows, hheld'⟩
  · obtain ⟨trie, htrie, hgrows, hheld'⟩ :=
      hheld.insert_eq hs.state (.word value) slot.nibbles_length
    exact ⟨trie, _, htrie, hgrows, hheld'⟩

theorem WellStored.storeSlot (h : s.WellStored) (a : Address) (slot value : U256) :
    (s.storeSlot a slot value).1 = .ok () ∧ (s.storeSlot a slot value).2.WellStored ∧
      s.cols.Le (s.storeSlot a slot value).2.cols := by
  obtain ⟨acc, cache, hget, hclosed, h2⟩ := h.getAccount_eq a
  obtain ⟨trie, g, htrie, hgrows, hheld⟩ := writeSlot_holds h.cols hclosed slot value
  -- the storage trie goes into the column
  have hle : s.cols.Le (s.cols.write trie) := ⟨hgrows.keeps, fun hcode => hcode⟩
  have h3 : WellStored { s with cols := s.cols.write trie, accountCache := cache } :=
    h2.grow _ ⟨hgrows.sound, h.cols.code⟩ hle
  obtain ⟨acc', cache', hget', hclosed', h4⟩ := h3.getAccount_eq a
  have hnew : Closed (s.cols.write trie)
      { acc' with storageRoot := if trie.root = 0 then none else some trie.root } := by
    refine ⟨?_, hclosed'.code⟩
    unfold storageRootOf
    dsimp only
    split
    · exact ⟨_, .empty 64⟩
    · exact ⟨g, hheld⟩
  obtain ⟨trie', hset, hstored⟩ := h4.setAccount_eq (a := a) hnew
  unfold StateDB.storeSlot
  rw [hget]
  dsimp only
  rw [htrie]
  dsimp only
  rw [hget']
  dsimp only
  rw [hset]
  exact ⟨rfl, hstored, hle⟩

/-- `set_storage` succeeds on a stored state, which stays stored. -/
theorem WellStored.setStorage (h : s.WellStored) (a : Address) (slot value : U256) :
    (s.setStorage a slot value).1 = .ok () ∧ (s.setStorage a slot value).2.WellStored ∧
      s.cols.Le (s.setStorage a slot value).2.cols := by
  have hcache : (s.cacheSlot a slot value).WellStored :=
    ⟨h.cols, h.sound, h.work, h.base, h.cached⟩
  exact hcache.storeSlot a slot value

/-- `set_code` succeeds on a stored state, which stays stored. -/
theorem WellStored.setCode (h : s.WellStored) (a : Address) (code : Bytes) :
    (s.setCode a code).1 = .ok (digest code) ∧ (s.setCode a code).2.WellStored ∧
      s.cols.Le (s.setCode a code).2.cols := by
  have hle := putCode_le h.cols code
  have h1 := h.grow _ (putCode_sound h.cols code) hle
  obtain ⟨acc, cache, hget, hclosed, h2⟩ := h1.getAccount_eq a
  have hnew : Closed (s.cols.putCode (digest code) code)
      { acc with codeHash := some (digest code) } := by
    refine ⟨hclosed.storage, fun hash hh => ⟨code, ?_⟩⟩
    rw [← Option.some.inj hh]
    exact update_self _ _ _
  obtain ⟨trie, hset, hstored⟩ := h2.setAccount_eq (a := a) hnew
  unfold StateDB.setCode
  dsimp only
  rw [hget]
  dsimp only
  rw [hset]
  exact ⟨rfl, hstored, hle⟩

end StateDB

end Qfc
