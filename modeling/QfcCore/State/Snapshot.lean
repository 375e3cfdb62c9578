import QfcCore.Lib.Run
import QfcCore.State.CodeHash
import QfcCore.State.Ledger

/-!
# Snapshot and revert

A snapshot holds the root of the last *commit* and the contents of the caches.
Reverting to it puts the caches back and restarts the working trie at that
root, so what was written and not committed before the snapshot is gone from
the trie, and survives only as long as the cache keeps it.

The main result says exactly when a revert restores the state of the snapshot:
when nothing was pending at that moment, that is, when every address had the
same account in the working trie as under the root of the last commit.
-/

namespace Qfc

open StateProg

/-- The operations on a state database. -/
inductive StateOp
  | setBalance (a : Address) (balance : U256)
  | addBalance (a : Address) (amount : U256)
  | subBalance (a : Address) (amount : U256)
  | transfer (source target : Address) (amount : U256)
  | setNonce (a : Address) (nonce : UInt64)
  | setStake (a : Address) (stake : U256)
  | setStorage (a : Address) (slot value : U256)
  | setCode (a : Address) (code : Bytes)
  | commit

variable {H : Type} [HashScheme H] [Digest H (TrieNode H (Cell H))]

namespace StateDB

/-- The state an operation leaves, whether it succeeds or not. -/
def apply (s : StateDB H) : StateOp → StateDB H
  | .setBalance a balance => ((setBalance a balance).run exec s).2
  | .addBalance a amount => ((addBalance a amount).run exec s).2
  | .subBalance a amount => ((subBalance a amount).run exec s).2
  | .transfer source target amount => ((transfer source target amount).run exec s).2
  | .setNonce a nonce => ((setNonce a nonce).run exec s).2
  | .setStake a stake => ((setStake a stake).run exec s).2
  | .setStorage a slot value => (s.setStorage a slot value).2
  | .setCode a code => (s.setCode a code).2
  | .commit => s.commit.2

/-- A stored state whose cache agrees with its trie. -/
structure Coherent (s : StateDB H) : Prop where
  stored : s.WellStored
  refines : ∃ l, Refines s l

/-! ## Every operation keeps a state coherent -/

variable {s : StateDB H} {cols : StateColumns H}

section Operations

/-- Without its cache a stored database implements the ledger of its trie. -/
theorem WellStored.uncached_refines (h : s.WellStored) :
    ∃ l, Refines { s with accountCache := .empty } l := by
  obtain ⟨f, hf, hacc⟩ := h.work
  refine ⟨⟨fun a => cellAccount (f a.nibbles), s.cols.undelegations⟩, h.sound,
    ⟨f, hf, fun a => ?_⟩, (fun a acc hfind => nomatch hfind), rfl⟩
  show decodeAccount (f a.nibbles) = .ok (cellAccount (f a.nibbles))
  cases hcell : f a.nibbles with
  | none => rfl
  | some cell =>
    obtain ⟨acc, rfl, -⟩ := hacc _ _ hcell
    rfl

theorem withRoot_coherent {root : H} (hs : cols.Sound) (h : HoldsAccounts cols cols.state root) :
    (withRoot cols root).Coherent :=
  ⟨withRoot_wellStored hs h, (withRoot_wellStored hs h).uncached_refines⟩

variable (h : s.Coherent)
include h

/-- A program that writes closed accounts only. -/
theorem Coherent.run {ε α : Type} {Q : α → Prop} {p : StateProg H ε α}
    (hp : Within (fun _ acc => Closed s.cols acc) (fun _ => True) Q p) :
    (p.run exec s).2.Coherent ∧ s.cols.Le (p.run exec s).2.cols := by
  obtain ⟨l, hl⟩ := h.refines
  have hstored := StoredOver.run hp s h.stored.over
  exact ⟨⟨hstored.stored, _, (Refines.run p s l hl).2⟩, hstored.le⟩

theorem Coherent.storeSlot (a : Address) (slot value : U256) :
    (s.storeSlot a slot value).2.Coherent := by
  obtain ⟨l, hl⟩ := h.refines
  refine ⟨(h.stored.storeSlot a slot value).2.1, ?_⟩
  obtain ⟨acc, cache, hget, hclosed, -⟩ := h.stored.getAccount_eq a
  have hacc := hl.getAccount_fst a
  rw [hget] at hacc
  obtain rfl := Except.ok.inj hacc
  obtain ⟨trie, g, htrie, hgrows, -⟩ := writeSlot_holds h.stored.cols hclosed slot value
  obtain ⟨trie', c, hstore, hrefines⟩ := hl.storeSlot_eq h.stored.cols htrie hgrows
  rw [hstore]
  exact ⟨_, hrefines⟩

theorem Coherent.setCode (a : Address) (code : Bytes) : (s.setCode a code).2.Coherent := by
  obtain ⟨l, hl⟩ := h.refines
  refine ⟨(h.stored.setCode a code).2.1, ?_⟩
  obtain ⟨trie, c, hset, hrefines⟩ := hl.setCode_eq h.stored.cols a code
  rw [hset]
  exact ⟨_, hrefines⟩

/-- Every operation keeps a state coherent, and its columns grow. -/
theorem Coherent.apply (op : StateOp) : (s.apply op).Coherent ∧ s.cols.Le (s.apply op).cols := by
  have ho := owner_closed s.cols
  have hc := credits_closed s.cols
  cases op with
  | setBalance a balance => exact h.run (setBalance_within (ho a).charges balance)
  | addBalance a amount => exact h.run (addBalance_within hc a amount)
  | subBalance a amount => exact h.run (subBalance_within (ho a).charges amount)
  | transfer source target amount =>
    exact h.run (transfer_within (ho source).charges hc target amount)
  | setNonce a nonce => exact h.run (setNonce_within (ho a) nonce)
  | setStake a stake => exact h.run (setStake_within (ho a).spends stake)
  | setStorage a slot value =>
    have hcache : (s.cacheSlot a slot value).Coherent := by
      obtain ⟨l, hl⟩ := h.refines
      exact ⟨⟨h.stored.cols, h.stored.sound, h.stored.work, h.stored.base, h.stored.cached⟩, l,
        hl.sound, hl.content, hl.cached, hl.undelegations⟩
    exact ⟨hcache.storeSlot a slot value, (h.stored.setStorage a slot value).2.2⟩
  | setCode a code => exact ⟨h.setCode a code, (h.stored.setCode a code).2.2⟩
  | commit =>
    obtain ⟨l, hl⟩ := h.refines
    exact ⟨⟨h.stored.commit.1, l, hl.commit⟩, h.stored.commit.2⟩

theorem Coherent.applyAll (ops : List StateOp) : (Run.run StateDB.apply s ops).Coherent :=
  Run.invariant h (fun _ op hs => (hs.apply op).1) ops

theorem Coherent.le_applyAll (ops : List StateOp) : s.cols.Le (Run.run StateDB.apply s ops).cols :=
  Run.related (r := fun s t : StateDB H => s.cols.Le t.cols) (fun _ => .refl _)
    (fun h h' => h.trans h') h (fun _ op hs => (hs.apply op).1) (fun _ op hs => (hs.apply op).2) ops

end Operations

/-! ## What a revert restores -/

/-- The account of an address under the root of the last commit. -/
def committedAccount (s : StateDB H) (a : Address) : Except (StateError H) (Account H) :=
  (withRoot s.cols s.root).trieAccount a >>= decodeAccount

/-- The account of an address in the working trie. -/
def workingAccount (s : StateDB H) (a : Address) : Except (StateError H) (Account H) :=
  s.trieAccount a >>= decodeAccount

/-- **Nothing is pending**: every address has the same account in the working
trie as under the root of the last commit. -/
def NoPending (s : StateDB H) : Prop := ∀ a, s.committedAccount a = s.workingAccount a

/-- The state after a snapshot, some operations and a revert. -/
def reverted (iter : IterOrder) (s : StateDB H) (ops : List StateOp) : StateDB H :=
  (Run.run apply s ops).revert (s.snapshot iter)

/-- A database opened at the root a commit returns. -/
def reopened (s : StateDB H) : StateDB H := withRoot s.commit.2.cols s.commit.1

/-- **The state `t` is what `s` was**: to reads of accounts and storage, and
to reads after a commit and a reopening. -/
structure Restores (s t : StateDB H) : Prop where
  accounts : ∀ a, (t.getAccount a).1 = (s.getAccount a).1
  storage : ∀ a slot, (t.getStorage a slot).1 = (s.getStorage a slot).1
  committed : ∀ a, (t.reopened.getAccount a).1 = (s.getAccount a).1

section Restore

variable {t : StateDB H}

/-- The committed account is read alike from grown columns. -/
theorem WellStored.committed_eq (h : s.WellStored) (hle : s.cols.Le cols) (a : Address) :
    ((withRoot cols s.root).trieAccount a >>= decodeAccount) = s.committedAccount a := by
  obtain ⟨f, hf, -⟩ := h.base
  have hget : ∀ cols' : StateColumns H, Holds cols'.state 40 s.root f →
      (withRoot cols' s.root).trieAccount a = .ok (f a.nibbles) := by
    intro cols' hf'
    have hheld : Holds (nodeAt cols'.state (Trie.withRoot (V := Cell H) s.root).dirty) 40
        (Trie.withRoot (V := Cell H) s.root).root f := hf'
    show (Trie.get cols'.state (Trie.withRoot s.root) a.nibbles).mapError StateError.trie = _
    rw [hheld.get_eq]
    rfl
  unfold committedAccount
  rw [hget s.cols hf, hget cols (hf.mono hle.state)]

/-- A coherent database reads accounts off the working trie. -/
theorem Coherent.getAccount_fst (h : s.Coherent) (a : Address) :
    (s.getAccount a).1 = s.workingAccount a := by
  obtain ⟨l, hl⟩ := h.refines
  exact (hl.getAccount_fst a).trans (hl.trieAccount_eq a).symm

section

omit [Digest H (TrieNode H (Cell H))]

/-- The slots of a closed account are read alike from grown columns. -/
theorem loadSlot_fst_eq {acc : Account H} (hacc : Closed s.cols acc) (hle : s.cols.Le t.cols)
    (a : Address) (slot : U256) : (t.loadSlot a slot acc).1 = (s.loadSlot a slot acc).1 := by
  obtain ⟨g, hg⟩ := hacc.slots
  unfold loadSlot
  rw [hg hle slot, hg (.refl _) slot]
  split
  · rfl
  · match g slot.nibbles with
    | none | some (.account _) | some (.word _) => rfl

/-- The answer of `get_storage`: the cache, or else the storage trie of the
account. -/
theorem getStorage_fst (s : StateDB H) (a : Address) (slot : U256) :
    (s.getStorage a slot).1 = match s.cachedSlot a slot with
      | some value => .ok value
      | none => (s.getAccount a).1 >>= fun acc => (s.loadSlot a slot acc).1 := by
  have hcached : cachedSlot { s with storageCache := s.storageCache.touch a } a slot
      = s.cachedSlot a slot := by
    unfold cachedSlot
    rw [Lru.find_touch]
  have haccount : (getAccount { s with storageCache := s.storageCache.touch a } a).1
      = (s.getAccount a).1 := by
    rw [StateDB.getAccount_fst, StateDB.getAccount_fst]
    rfl
  obtain ⟨c, hc, -⟩ := getAccount_snd { s with storageCache := s.storageCache.touch a } a
  unfold getStorage
  dsimp only
  rw [hcached]
  cases s.cachedSlot a slot with
  | some value => rfl
  | none =>
    dsimp only
    rw [← haccount]
    rcases hget : getAccount { s with storageCache := s.storageCache.touch a } a with ⟨r, s'⟩
    rw [hget] at hc
    obtain rfl : s' = _ := hc
    cases r with
    | error e => rfl
    | ok acc =>
      show (loadSlot _ a slot acc).1 = (s.loadSlot a slot acc).1
      unfold loadSlot
      dsimp only
      split
      · rfl
      · match Trie.get s.cols.state (Trie.withRoot (storageRootOf acc)) slot.nibbles with
        | .error e | .ok none | .ok (some (.account _)) | .ok (some (.word _)) => rfl

theorem noPending_commit (s : StateDB H) : s.commit.2.NoPending := fun _ => rfl

end

variable (iter : IterOrder)

/-- After a revert and a commit, exactly the committed accounts are there. -/
theorem reopened_reverted (h : s.Coherent) (ops : List StateOp) (a : Address) :
    ((s.reverted iter ops).reopened.getAccount a).1 = s.committedAccount a := by
  have hopen : (s.reverted iter ops).reopened
      = withRoot (Run.run StateDB.apply s ops).cols s.root := rfl
  rw [hopen, StateDB.getAccount_fst]
  exact h.stored.committed_eq (h.le_applyAll ops) a

/-- With nothing pending, a revert restores every account. -/
theorem NoPending.getAccount_reverted (hp : s.NoPending) (h : s.Coherent) (ops : List StateOp)
    (a : Address) : ((s.reverted iter ops).getAccount a).1 = (s.getAccount a).1 := by
  have hcache : (s.reverted iter ops).accountCache.find a = s.accountCache.find a :=
    Lru.find_rebuild (iter.perm s.accountCache.entries) a
  have htrie : ((s.reverted iter ops).trieAccount a >>= decodeAccount) = s.workingAccount a := by
    rw [← hp a]
    exact h.stored.committed_eq (h.le_applyAll ops) a
  rw [StateDB.getAccount_fst, StateDB.getAccount_fst, hcache, htrie]
  rfl

/-- With nothing pending, a revert restores every slot. -/
theorem NoPending.getStorage_reverted (hp : s.NoPending) (h : s.Coherent) (ops : List StateOp)
    (a : Address) (slot : U256) :
    ((s.reverted iter ops).getStorage a slot).1 = (s.getStorage a slot).1 := by
  have hcache : (s.reverted iter ops).cachedSlot a slot = s.cachedSlot a slot := by
    have hfind : (s.reverted iter ops).storageCache.find a = s.storageCache.find a :=
      Lru.find_rebuild (iter.perm s.storageCache.entries) a
    unfold cachedSlot
    rw [hfind]
  obtain ⟨acc, cache, hget, hclosed, -⟩ := h.stored.getAccount_eq a
  rw [getStorage_fst, getStorage_fst, hcache, hp.getAccount_reverted iter h ops a, hget]
  cases s.cachedSlot a slot with
  | some value => rfl
  | none => exact loadSlot_fst_eq (t := s.reverted iter ops) hclosed (h.le_applyAll ops) a slot

end Restore

/-- **A revert restores the state of the snapshot exactly when nothing was
pending.** The database is opened at a stored root, any operations lead to the
snapshot and any others follow it. -/
theorem restores_reverted_iff (iter : IterOrder) {cols : StateColumns H} {root : H}
    (hcols : cols.Sound) (hroot : HoldsAccounts cols cols.state root) (before after : List StateOp) :
    (Run.run apply (withRoot cols root) before).Restores
        ((Run.run apply (withRoot cols root) before).reverted iter after) ↔
      (Run.run apply (withRoot cols root) before).NoPending := by
  have h : (Run.run apply (withRoot cols root) before).Coherent :=
    (withRoot_coherent hcols hroot).applyAll before
  generalize Run.run apply (withRoot cols root) before = s at h ⊢
  constructor
  · intro hrestores a
    rw [← h.getAccount_fst a, ← hrestores.committed a, reopened_reverted iter h after a]
  · intro hp
    refine ⟨hp.getAccount_reverted iter h after, hp.getStorage_reverted iter h after, fun a => ?_⟩
    rw [reopened_reverted iter h after a, hp a, h.getAccount_fst a]

/-- A balance is set and committed, and another one set after the snapshot: the
revert restores the first state. -/
theorem restores_after_commit :
    (Run.run apply (new (.empty CodeName))
        [.setBalance (sampleAddress 1) (U256.fromU64 1000), .commit]).Restores
      ((Run.run apply (new (.empty CodeName))
        [.setBalance (sampleAddress 1) (U256.fromU64 1000), .commit]).reverted sampleOrder
          [.setBalance (sampleAddress 1) (U256.fromU64 5)]) :=
  (restores_reverted_iff sampleOrder (StateColumns.empty_sound CodeName) (holdsAccounts_zero _ _)
    _ _).mpr (noPending_commit _)

/-- A balance is set and not committed, then a snapshot is taken and reverted
to: the commit that follows does not have it. -/
theorem revert_loses_pending :
    ¬ (Run.run apply (new (.empty CodeName))
        [.setBalance (sampleAddress 1) (U256.fromU64 1000)]).Restores
      ((Run.run apply (new (.empty CodeName))
        [.setBalance (sampleAddress 1) (U256.fromU64 1000)]).reverted sampleOrder []) :=
  fun h => absurd (h.committed (sampleAddress 1)) (by decide +kernel)

end StateDB

end Qfc
