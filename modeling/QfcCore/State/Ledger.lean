import QfcCore.State.Contract

/-!
# The ledger

What the state database is for: every address has an account, and there is a
set of pending undelegations. A `Ledger` is that and nothing more. It answers
the same commands as the database: a read returns the account, a write replaces
it, and the two totals are sums over all addresses.

`Refines s l` says that the database `s` implements the ledger `l`: the working
trie holds the accounts of `l`, and the cache, as far as it goes, agrees with
it. Every command keeps the two together and gets the same answer from both
(`Refines.exec`), so every program runs alike on them (`Refines.run`). Cache
eviction plays no role in that, because a cached account is also in the trie.
-/

namespace Qfc

open Function List PathMap StateDB Digest

variable {H : Type}

/-- **A ledger**: an account for every address, and the pending undelegations. -/
structure Ledger (H : Type) where
  accounts : Address → Account H
  undelegations : SortedRows Undelegation.key

namespace Ledger

variable (l : Ledger H) (a : Address) (acc : Account H)

/-- The ledger with one account replaced. -/
def set : Ledger H :=
  { l with accounts := update l.accounts a acc }

@[simp] theorem set_accounts_self : (l.set a acc).accounts a = acc :=
  update_self ..

theorem set_accounts_of_ne {a b : Address} (h : b ≠ a) (acc : Account H) :
    (l.set a acc).accounts b = l.accounts b :=
  update_of_ne h ..

theorem set_set (acc acc' : Account H) : (l.set a acc).set a acc' = l.set a acc' := by
  unfold set
  rw [update_idem]

/-- All stake and all delegations. -/
noncomputable def totalStake : ℕ :=
  ∑ a, ((l.accounts a).getStake.val + (l.accounts a).getDelegatedAmount.val)

/-- What one account delegates to a validator. -/
def delegatedTo (validator : Address) : ℕ :=
  if acc.delegatedTo = some validator then acc.getDelegatedAmount.val else 0

/-- All delegations to a validator. -/
noncomputable def totalDelegatedTo (validator : Address) : ℕ :=
  ∑ a, delegatedTo (l.accounts a) validator

/-- A ledger without delegations. -/
structure Undelegated : Prop where
  amounts : ∀ a, (l.accounts a).getDelegatedAmount.val = 0
  rows : l.undelegations = SortedRows.empty

/-- What the ledger answers to a command. -/
noncomputable def exec : (c : AccountCmd H) → Ledger H → c.Resp × Ledger H
  | .getAccount a, l => (.ok (l.accounts a), l)
  | .setAccount a acc, l => (.ok (), l.set a acc)
  | .getTotalDelegatedTo v, l => (.ok (U256.saturated (l.totalDelegatedTo v)), l)
  | .getTotalStake, l => (.ok (U256.saturated l.totalStake), l)
  | .storeUndelegation u, l => ((), { l with undelegations := l.undelegations.put u })
  | .deleteUndelegation d v t, l =>
    ((), { l with undelegations := l.undelegations.erase (Undelegation.storageKey d v t) })

end Ledger

/-! ## Sums over a trie -/

section Sums

variable {f : List Nibble → Option (Cell H)} {w : Account H → ℕ}

/-- The paths of a trie of accounts are the paths of the addresses. -/
theorem paths_perm_nibbles :
    (paths (finRange 16) 40).Perm
      ((Finset.univ : Finset Address).toList.map Address.nibbles) := by
  refine (perm_ext_iff_of_nodup (paths_nodup nibbles_nodup 40)
    ((Finset.nodup_toList _).map Address.nibbles_injective)).mpr (fun k => ?_)
  rw [mem_paths mem_nibbles, mem_map]
  constructor
  · intro hk
    obtain ⟨a, rfl⟩ := Address.exists_nibbles hk
    exact ⟨a, Finset.mem_toList.mpr (Finset.mem_univ a), rfl⟩
  · rintro ⟨a, -, rfl⟩
    exact a.nibbles_length

/-- The account a cell stands for. -/
def cellAccount : Option (Cell H) → Account H
  | some (.account acc) => acc
  | _ => Account.newEoa

/-- Absent cells have no weight, so a sum over the values of a map is a sum
over all paths. -/
theorem sum_filterMap (hw : w Account.newEoa = 0) (l : List (List Nibble)) :
    ((l.filterMap f).map (fun c => w (cellAccount (some c)))).sum
      = (l.map (fun k => w (cellAccount (f k)))).sum := by
  induction l with
  | nil => rfl
  | cons k l ih =>
    rw [map_cons, sum_cons, ← ih]
    cases hk : f k with
    | none =>
      have hzero : w (cellAccount (none : Option (Cell H))) = 0 := hw
      rw [filterMap_cons_none hk, hzero, Nat.zero_add]
    | some c => rw [filterMap_cons_some hk, map_cons, sum_cons]

/-- A sum over the values of an account trie is a sum over all addresses. -/
theorem sum_values (hw : w Account.newEoa = 0) :
    ((values (finRange 16) 40 f).map (fun c => w (cellAccount (some c)))).sum
      = ∑ a : Address, w (cellAccount (f a.nibbles)) := by
  unfold values
  rw [sum_filterMap hw, (paths_perm_nibbles.map _).sum_eq, map_map]
  exact Finset.sum_map_toList _ _

end Sums

variable [HashScheme H] [Digest H (TrieNode H (Cell H))]

/-- **The database `s` implements the ledger `l`.** -/
structure Refines (s : StateDB H) (l : Ledger H) : Prop where
  sound : SoundColumn (nodeAt s.cols.state s.trie.dirty)
  /-- The working trie holds the accounts. -/
  content : ∃ f, Holds (nodeAt s.cols.state s.trie.dirty) 40 s.trie.root f ∧
    ∀ a, decodeAccount (f a.nibbles) = .ok (l.accounts a)
  /-- The cache agrees. -/
  cached : ∀ a acc, s.accountCache.find a = some acc → l.accounts a = acc
  undelegations : s.cols.undelegations = l.undelegations

namespace Refines

variable {s : StateDB H} {l : Ledger H} {a : Address} {cols : StateColumns H}

theorem new (hs : cols.Sound) : Refines (new cols) ⟨fun _ => .newEoa, cols.undelegations⟩ :=
  ⟨hs.state, ⟨_, .empty 40, fun _ => rfl⟩, nofun, rfl⟩

section

variable (h : Refines s l)
include h

theorem trieAccount_eq (a : Address) :
    (s.trieAccount a >>= decodeAccount) = .ok (l.accounts a) := by
  obtain ⟨f, hf, hacc⟩ := h.content
  unfold trieAccount
  rw [hf.get_eq]
  exact hacc a

theorem getAccount_fst (a : Address) : (s.getAccount a).1 = .ok (l.accounts a) := by
  rw [StateDB.getAccount_fst]
  cases hfind : s.accountCache.find a with
  | some acc => rw [h.cached a acc hfind]
  | none => exact h.trieAccount_eq a

theorem getAccount_snd (a : Address) : Refines (s.getAccount a).2 l := by
  obtain ⟨c, hc, hfind⟩ := StateDB.getAccount_snd s a
  rw [hc]
  refine ⟨h.sound, h.content, fun b acc hb => ?_, h.undelegations⟩
  obtain hb | ⟨rfl, htrie⟩ := hfind b acc hb
  · exact h.cached b acc hb
  · have hacc := h.trieAccount_eq b
    rw [htrie] at hacc
    exact (Except.ok.inj hacc).symm

theorem getAccount_eq (a : Address) :
    ∃ c, s.getAccount a = (.ok (l.accounts a), { s with accountCache := c }) ∧
      Refines { s with accountCache := c } l := by
  obtain ⟨c, hc, -⟩ := StateDB.getAccount_snd s a
  refine ⟨c, Prod.ext (h.getAccount_fst a) hc, ?_⟩
  have hsnd := h.getAccount_snd a
  rwa [hc] at hsnd

/-- A write replaces the account, and changes the working trie and the account
cache. -/
theorem setAccount_eq (a : Address) (acc : Account H) :
    ∃ trie c, s.setAccount a acc = (.ok (), { s with trie := trie, accountCache := c }) ∧
      Refines { s with trie := trie, accountCache := c } (l.set a acc) := by
  obtain ⟨f, hf, hacc⟩ := h.content
  obtain ⟨trie, hins, hgrows, hheld⟩ := hf.insert_eq h.sound (.account acc) a.nibbles_length
  unfold StateDB.setAccount
  dsimp only
  rw [hins]
  refine ⟨trie, _, rfl, hgrows.sound, ⟨_, hheld, fun b => ?_⟩, fun b acc' hb => ?_, h.undelegations⟩
  · by_cases hba : b = a
    · rw [hba, update_self, Ledger.set_accounts_self]
      rfl
    · rw [update_of_ne (fun hn => hba (Address.nibbles_injective hn)),
        Ledger.set_accounts_of_ne l hba]
      exact hacc b
  · by_cases hba : b = a
    · subst hba
      rw [Lru.find_put_self] at hb
      rw [Ledger.set_accounts_self, Option.some.inj hb]
    · rw [Ledger.set_accounts_of_ne l hba]
      exact h.cached b acc' (Lru.find_of_find_put hba hb)

theorem setAccount (a : Address) (acc : Account H) :
    (s.setAccount a acc).1 = .ok () ∧ Refines (s.setAccount a acc).2 (l.set a acc) := by
  obtain ⟨trie, c, hset, hrefines⟩ := h.setAccount_eq a acc
  rw [hset]
  exact ⟨rfl, hrefines⟩

/-- The accounts of the working trie sum up to the sum over all addresses. -/
theorem accounts_eq :
    ∃ accs, s.accounts = .ok accs ∧ ∀ w : Account H → ℕ, w Account.newEoa = 0 →
      (accs.map w).sum = ∑ a, w (l.accounts a) := by
  obtain ⟨f, hf, hacc⟩ := h.content
  have hcell : ∀ a, cellAccount (f a.nibbles) = l.accounts a := by
    intro a
    have ha := hacc a
    match hfa : f a.nibbles, ha with
    | none, ha | some (.account acc), ha => exact Except.ok.inj ha
  have hmem : ∀ c ∈ values (finRange 16) 40 f,
      decodeAccount (some c) = .ok (cellAccount (some c)) := by
    intro c hc
    obtain ⟨k, hk, hfk⟩ := mem_filterMap.mp hc
    obtain ⟨a, rfl⟩ := Address.exists_nibbles ((mem_paths mem_nibbles).mp hk)
    have ha := hacc a
    rw [hfk] at ha
    cases c with
    | account acc => rfl
    | word w => cases ha
  refine ⟨(values (finRange 16) 40 f).map (fun c => cellAccount (some c)), ?_, ?_⟩
  · unfold accounts
    rw [hf.values_eq (by decide)]
    show (values (finRange 16) 40 f).mapM _ = _
    generalize values (finRange 16) 40 f = cells at hmem ⊢
    induction cells with
    | nil => rfl
    | cons c cells ih =>
      rw [mapM_cons, hmem c (mem_cons_self ..), ih (fun d hd => hmem d (mem_cons_of_mem _ hd))]
      rfl
  · intro w hw
    rw [map_map]
    exact (sum_values hw).trans (Finset.sum_congr rfl (fun a _ => by rw [hcell a]))

theorem getTotalStake_eq : s.getTotalStake = .ok (U256.saturated l.totalStake) := by
  obtain ⟨accs, haccs, hsum⟩ := h.accounts_eq
  have hfold := U256.foldl_saturated
    (fun total (acc : Account H) => (total.satAdd acc.getStake).satAdd acc.getDelegatedAmount)
    (fun acc => acc.getStake.val + acc.getDelegatedAmount.val)
    (fun n acc => by rw [U256.saturated_satAdd, U256.saturated_satAdd, Nat.add_assoc]) accs 0
  rw [Nat.zero_add, hsum _ rfl] at hfold
  unfold getTotalStake
  rw [haccs]
  exact congrArg Except.ok hfold

theorem getTotalDelegatedTo_eq (v : Address) :
    s.getTotalDelegatedTo v = .ok (U256.saturated (l.totalDelegatedTo v)) := by
  obtain ⟨accs, haccs, hsum⟩ := h.accounts_eq
  have hfold := U256.foldl_saturated
    (fun total (acc : Account H) =>
      if acc.delegatedTo = some v then total.satAdd acc.getDelegatedAmount else total)
    (fun acc => Ledger.delegatedTo acc v)
    (fun n acc => by
      unfold Ledger.delegatedTo
      split
      · exact U256.saturated_satAdd n _
      · rfl) accs 0
  rw [Nat.zero_add, hsum _ rfl] at hfold
  unfold getTotalDelegatedTo
  rw [haccs]
  exact congrArg Except.ok hfold

/-- Growing columns change nothing the ledger sees. -/
theorem grow (hs : cols.Sound) (hle : s.cols.Le cols)
    (hund : cols.undelegations = s.cols.undelegations) : Refines { s with cols := cols } l := by
  obtain ⟨f, hf, hacc⟩ := h.content
  exact ⟨soundColumn_nodeAt h.sound hs.state,
    ⟨f, hf.mono (ColumnLe.nodeAt hle.state _), hacc⟩, h.cached, hund.trans h.undelegations⟩

/-- `set_storage` behind the cache: the storage trie goes into the column, and the
account gets its root. -/
theorem storeSlot_eq (hs : s.cols.Sound) {slot value : U256} {trie : Trie H (Cell H)}
    (htrie : writeSlot s.cols (storageRootOf (l.accounts a)) slot value = .ok trie)
    (hgrows : Grows s.cols.state (nodeAt s.cols.state trie.dirty)) :
    ∃ trie' c, s.storeSlot a slot value
        = (.ok (), { s with cols := s.cols.write trie, trie := trie', accountCache := c }) ∧
      Refines { s with cols := s.cols.write trie, trie := trie', accountCache := c } (l.set a
        { l.accounts a with storageRoot := if trie.root = 0 then none else some trie.root }) := by
  obtain ⟨c, hget, h₁⟩ := h.getAccount_eq a
  have h₂ : Refines { s with cols := s.cols.write trie, accountCache := c } l :=
    h₁.grow ⟨hgrows.sound, hs.code⟩ ⟨hgrows.keeps, fun hcode => hcode⟩ rfl
  obtain ⟨c', hget', h₃⟩ := h₂.getAccount_eq a
  obtain ⟨trie', c'', hset, h₄⟩ := h₃.setAccount_eq a
    { l.accounts a with storageRoot := if trie.root = 0 then none else some trie.root }
  refine ⟨trie', c'', ?_, h₄⟩
  unfold storeSlot
  rw [hget]
  dsimp only
  rw [htrie]
  dsimp only
  rw [hget']
  exact hset

/-- `set_code`: the code is in its column, and the account has its hash. -/
theorem setCode_eq (hs : s.cols.Sound) (a : Address) (code : Bytes) :
    ∃ trie c, s.setCode a code = (.ok (digest code),
        { s with cols := s.cols.putCode (digest code) code, trie := trie, accountCache := c }) ∧
      Refines { s with cols := s.cols.putCode (digest code) code, trie := trie, accountCache := c }
        (l.set a { l.accounts a with codeHash := some (digest code) }) := by
  have h₁ : Refines { s with cols := s.cols.putCode (digest code) code } l :=
    h.grow (putCode_sound hs code) (putCode_le hs code) rfl
  obtain ⟨c, hget, h₂⟩ := h₁.getAccount_eq a
  obtain ⟨trie, c', hset, h₃⟩ := h₂.setAccount_eq a
    { l.accounts a with codeHash := some (digest code) }
  refine ⟨trie, c', ?_, h₃⟩
  unfold setCode
  dsimp only
  rw [hget]
  dsimp only
  rw [hset]

theorem commit : Refines s.commit.2 l :=
  ⟨h.sound, h.content, h.cached, h.undelegations⟩

end

/-- Database and ledger answer every command alike. -/
theorem exec (c : AccountCmd H) (s : StateDB H) (l : Ledger H) (h : Refines s l) :
    (exec c s).1 = (Ledger.exec c l).1 ∧
      Refines (exec c s).2 (Ledger.exec c l).2 := by
  cases c with
  | getAccount a => exact ⟨h.getAccount_fst a, h.getAccount_snd a⟩
  | setAccount a acc => exact h.setAccount a acc
  | getTotalDelegatedTo v => exact ⟨h.getTotalDelegatedTo_eq v, h⟩
  | getTotalStake => exact ⟨h.getTotalStake_eq, h⟩
  | storeUndelegation u =>
    refine ⟨rfl, h.sound, h.content, h.cached, ?_⟩
    show s.cols.undelegations.put u = l.undelegations.put u
    rw [h.undelegations]
  | deleteUndelegation d v t =>
    refine ⟨rfl, h.sound, h.content, h.cached, ?_⟩
    show s.cols.undelegations.erase _ = l.undelegations.erase _
    rw [h.undelegations]

/-- Every program runs alike on the database and on the ledger. -/
theorem run {ε α : Type} (p : StateProg H ε α) :
    Act.Simulates Refines (p.run StateDB.exec) (p.run Ledger.exec) :=
  Prog.run_simulates Refines.exec p

end Refines

end Qfc
