import QfcCore.Lib.Run
import QfcCore.Lib.SortedRows
import QfcCore.Types.CodeHash

/-!
# The transaction pool

The pool of `qfc-mempool/src/pool.rs` keeps its transactions under their hash
and two indexes: one by sender and nonce, with which it counts the transactions
of an account, and one by gas price, with which it selects and evicts. The four
structures are updated separately.

`add` looks for the hash of a transaction and not for its nonce. A second
transaction of one sender and nonce overwrites the entry of the first in the
sender's index, and both stay in the pool; the removal of either then takes the
other's entry. From there on the account is counted short. In the runs that
never add to a taken nonce, the three structures describe one set of
transactions (`coherent_run`).

Instants are natural numbers, and the clock is an argument of the operations
that read it.
-/

namespace Qfc

open Function SortedRows Address List

/-- A transaction in the pool. -/
structure PooledTransaction (H : Type) where
  tx : Transaction
  hash : H
  sender : Address
  addedAt : ℕ
deriving DecidableEq

/-- The configuration of the pool. -/
structure MempoolConfig where
  maxSize : ℕ
  maxPerAccount : ℕ
  minGasPrice : U256
  txLifetime : ℕ

/-- `MempoolConfig::default`; the lifetime is in seconds. -/
def MempoolConfig.default : MempoolConfig := ⟨10000, 64, .fromU64 1000000000, 3600⟩

/-- The errors of `add`. -/
inductive MempoolError
  | alreadyKnown
  | poolFull
  | accountPoolFull
  | gasPriceTooLow (minimum provided : U256)
  | invalidNonce (expected actual : UInt64)
  | state (message : String)
deriving DecidableEq

/-- `get_nonce` of the state, which may fail. -/
abbrev NonceLookup := Address → Except String UInt64

section Keys

variable {H : Type}

/-- The key of an entry of the sender's index. -/
def nonceKey (e : UInt64 × H) : ℕ := e.1.toNat

/-- The key of an entry of the price index: the price, then the hash. -/
def priceKey (e : U256 × H) : ℕ ×ₗ H := toLex (e.1.val, e.2)

end Keys

/-- **The pool**: the transactions by hash, the hashes by sender and nonce and
by price, and the size. -/
structure Mempool (H : Type) [HashScheme H] where
  byHash : SortedRows (PooledTransaction.hash (H := H))
  bySender : Address → SortedRows (nonceKey (H := H))
  byPrice : SortedRows (priceKey (H := H))
  size : ℕ

namespace Mempool

variable {H : Type} [HashScheme H]

/-- An empty pool. -/
def new : Mempool H := ⟨.empty, fun _ => .empty, .empty, 0⟩

variable (cfg : MempoolConfig) (m : Mempool H) (now : ℕ)

/-- A transaction by its hash. -/
def get (hash : H) : Option (PooledTransaction H) :=
  m.byHash.rows.find? (fun p => p.hash = hash)

/-- Takes a transaction out of every index. -/
def remove (hash : H) : Mempool H :=
  match m.get hash with
  | none => m
  | some pooled =>
    { byHash := m.byHash.erase hash
      bySender := update m.bySender pooled.sender
        ((m.bySender pooled.sender).erase pooled.tx.nonce.toNat)
      byPrice := m.byPrice.erase (priceKey (pooled.tx.gasPrice, hash))
      size := m.size - 1 }

/-- One after the other. -/
def removeMany (hashes : List H) : Mempool H := hashes.foldl remove m

variable (tx : Transaction) (sender : Address) (lookup : Option NonceLookup)

/-- One turn of the loop of `remove_confirmed`: an entry of the sender's index
goes, and with it the transaction it names. -/
def removeEntry (m : Mempool H) (e : UInt64 × H) : Mempool H :=
  let bySender := update m.bySender sender ((m.bySender sender).erase (nonceKey e))
  match m.get e.2 with
  | none => { m with bySender := bySender }
  | some pooled =>
    { byHash := m.byHash.erase e.2
      bySender := bySender
      byPrice := m.byPrice.erase (priceKey (pooled.tx.gasPrice, e.2))
      size := m.size - 1 }

/-- Takes out what a block has used. -/
def removeConfirmed (confirmedNonce : UInt64) : Mempool H :=
  ((m.bySender sender).rows.filter (fun e => e.1 ≤ confirmedNonce)).foldl (removeEntry sender) m

/-- `evict_one`: removes the transaction of the lowest price; the flag says
whether there was an entry. -/
def evictOne : Mempool H × Bool :=
  match m.byPrice.rows with
  | [] => (m, false)
  | (_, hash) :: _ => (m.remove hash, true)

/-- The order in which the transactions are visited by `remove_expired`. -/
structure HashOrder (H : Type) where
  order : List H → List H
  perm : ∀ l, (order l).Perm l

/-- Takes out what is too old. -/
def removeExpired (order : HashOrder H) : Mempool H :=
  m.removeMany (order.order
    ((m.byHash.rows.filter (fun p => cfg.txLifetime < now - p.addedAt)).map
      PooledTransaction.hash))

/-- Takes out everything. -/
def clear (_ : Mempool H) : Mempool H := new

/-- The checks of `add_with_nonce_check` that read the transaction. -/
def checkTx : Except MempoolError Unit := do
  if (m.get tx.hash).isSome then throw .alreadyKnown
  if tx.gasPrice.val < cfg.minGasPrice.val then
    throw (.gasPriceTooLow cfg.minGasPrice tx.gasPrice)
  match lookup with
  | none => return ()
  | some getNonce =>
    match getNonce sender with
    | .error e => throw (.state e)
    | .ok nonce => if tx.nonce < nonce then throw (.invalidNonce nonce tx.nonce)

/-- Puts a transaction into the four structures. -/
def insert : Mempool H where
  byHash := m.byHash.put ⟨tx, tx.hash, sender, now⟩
  bySender := update m.bySender sender ((m.bySender sender).put (tx.nonce, tx.hash))
  byPrice := m.byPrice.put (tx.gasPrice, tx.hash)
  size := m.size + 1

/-- The pool in which `add_with_nonce_check` looks for a place: a full pool
evicts. The flag says whether there is room. -/
def makeRoom : Mempool H × Bool :=
  if cfg.maxSize ≤ m.size then m.evictOne else (m, true)

/-- `add_with_nonce_check` after its first checks: the pool makes room, and a
full account refuses. -/
def enter : Mempool H × Except MempoolError H :=
  let (m, room) := m.makeRoom cfg
  if room = false then (m, .error .poolFull)
  else if cfg.maxPerAccount ≤ (m.bySender sender).rows.length then
    (m, .error .accountPoolFull)
  else (m.insert now tx sender, .ok tx.hash)

/-- `add_with_nonce_check`; `add` passes no lookup. -/
def addWithNonceCheck : Mempool H × Except MempoolError H :=
  match m.checkTx cfg tx sender lookup with
  | .error e => (m, .error e)
  | .ok () => m.enter cfg now tx sender

/-- Adds a transaction, its nonce unchecked. -/
def add : Mempool H × Except MempoolError H :=
  m.addWithNonceCheck cfg now tx sender none

end Mempool

/-- The operations on the pool. -/
inductive MempoolOp (H : Type)
  | add (now : ℕ) (tx : Transaction) (sender : Address) (lookup : Option NonceLookup)
  | remove (hash : H)
  | removeMany (hashes : List H)
  | removeConfirmed (sender : Address) (confirmedNonce : UInt64)
  | evictOne
  | removeExpired (now : ℕ) (order : Mempool.HashOrder H)
  | clear

namespace Mempool

variable {H : Type} [HashScheme H]
  (cfg : MempoolConfig) (m : Mempool H) {p : PooledTransaction H} {sender : Address}
  {tx : Transaction}

/-- One operation, whether it succeeds or ends in an error. -/
def step : MempoolOp H → Mempool H
  | .add now tx sender lookup => (m.addWithNonceCheck cfg now tx sender lookup).1
  | .remove hash => m.remove hash
  | .removeMany hashes => m.removeMany hashes
  | .removeConfirmed sender confirmedNonce => m.removeConfirmed sender confirmedNonce
  | .evictOne => m.evictOne.1
  | .removeExpired now order => m.removeExpired cfg now order
  | .clear => m.clear

/-- **The indexes are coherent**: the three structures describe one set of
transactions, of the recorded size and within the limits. -/
structure Coherent : Prop where
  bySender : ∀ a nonce h, (nonce, h) ∈ (m.bySender a).rows ↔
    ∃ p ∈ m.byHash.rows, p.hash = h ∧ p.sender = a ∧ p.tx.nonce = nonce
  byPrice : ∀ price h, (price, h) ∈ m.byPrice.rows ↔
    ∃ p ∈ m.byHash.rows, p.hash = h ∧ p.tx.gasPrice = price
  size_eq : m.size = m.byHash.rows.length
  size_le : m.size ≤ cfg.maxSize
  account_le : ∀ a, (m.byHash.rows.filter (fun p => p.sender = a)).length ≤ cfg.maxPerAccount

/-! ## The invariant -/

/-- Coherence with the limit counted as the pool counts it, in the sender's
index. -/
structure Indexed : Prop where
  bySender : ∀ a nonce h, (nonce, h) ∈ (m.bySender a).rows ↔
    ∃ p ∈ m.byHash.rows, p.hash = h ∧ p.sender = a ∧ p.tx.nonce = nonce
  byPrice : ∀ price h, (price, h) ∈ m.byPrice.rows ↔
    ∃ p ∈ m.byHash.rows, p.hash = h ∧ p.tx.gasPrice = price
  size_eq : m.size = m.byHash.rows.length
  size_le : m.size ≤ cfg.maxSize
  account_le : ∀ a, (m.bySender a).rows.length ≤ cfg.maxPerAccount

theorem priceKey_inj {H : Type} {e e' : U256 × H} : priceKey e = priceKey e' ↔ e = e' := by
  obtain ⟨price, h⟩ := e
  obtain ⟨price', h'⟩ := e'
  constructor
  · intro heq
    have hpair : (price.val, h) = (price'.val, h') := toLex.injective heq
    obtain ⟨hprice, rfl⟩ := Prod.mk.inj hpair
    rw [U256.ext hprice]
  · exact fun heq => congrArg priceKey heq

theorem get_eq_some {m : Mempool H} {hash : H} :
    m.get hash = some p ↔ p ∈ m.byHash.rows ∧ p.hash = hash := by
  constructor
  · intro h
    exact ⟨mem_of_find?_eq_some h, by simpa using find?_some h⟩
  · rintro ⟨hp, rfl⟩
    cases hget : m.get p.hash with
    | none =>
      have hnot := find?_eq_none.mp hget p hp
      simp at hnot
    | some q =>
      have hq : q.hash = p.hash := by simpa using find?_some hget
      rw [eq_of_key_eq (mem_of_find?_eq_some hget) hp hq]

section Indexed

variable {cfg : MempoolConfig} {m : Mempool H}

theorem indexed_new (cfg : MempoolConfig) : Indexed cfg (new : Mempool H) where
  bySender a nonce h := by simp [new, empty]
  byPrice price h := by simp [new, empty]
  size_eq := rfl
  size_le := Nat.zero_le _
  account_le a := Nat.zero_le _

variable (hm : Indexed cfg m)
include hm

/-- The count in the sender's index is a count of the pool. -/
theorem Indexed.coherent : Coherent cfg m := by
  refine ⟨hm.bySender, hm.byPrice, hm.size_eq, hm.size_le, fun a => ?_⟩
  refine le_trans ?_ (hm.account_le a)
  have hnodup : ((m.byHash.rows.filter (fun p => p.sender = a)).map
      (fun p => (p.tx.nonce, p.hash))).Nodup := by
    refine Nodup.map_on ?_ (m.byHash.nodup.filter _)
    intro p hp q hq heq
    exact eq_of_key_eq (mem_of_mem_filter hp) (mem_of_mem_filter hq)
      (Prod.mk.inj heq).2
  have hsubset : ((m.byHash.rows.filter (fun p => p.sender = a)).map
      (fun p => (p.tx.nonce, p.hash))) ⊆ (m.bySender a).rows := by
    intro e he
    obtain ⟨p, hp, rfl⟩ := mem_map.mp he
    obtain ⟨hmem, hsender⟩ := mem_filter.mp hp
    exact (hm.bySender a _ _).mpr ⟨p, hmem, rfl, by simpa using hsender, rfl⟩
  simpa using (subperm_of_subset hnodup hsubset).length_le

/-! ## Removal -/

theorem Indexed.remove (hash : H) : Indexed cfg (m.remove hash) := by
  unfold Mempool.remove
  cases hget : m.get hash with
  | none => exact hm
  | some p =>
    obtain ⟨hp, rfl⟩ := get_eq_some.mp hget
    have hlength := length_erase hp
    have hsize := hm.size_eq
    -- in each index, the entry of `p` is the only one that goes
    have hslot := (hm.bySender p.sender p.tx.nonce p.hash).mpr ⟨p, hp, rfl, rfl, rfl⟩
    have hprice := (hm.byPrice p.tx.gasPrice p.hash).mpr ⟨p, hp, rfl, rfl⟩
    refine ⟨fun a nonce h => ?_, fun price h => ?_, ?_, ?_, fun a => ?_⟩
    · dsimp only
      by_cases ha : a = p.sender
      · subst ha
        rw [update_self]
        refine (mem_erase_key hslot).trans ?_
        rw [hm.bySender]
        constructor
        · rintro ⟨⟨q, hq, rfl, hsender, rfl⟩, hne⟩
          exact ⟨q, (mem_erase_key hp).mpr ⟨hq, fun heq => hne (heq ▸ rfl)⟩, rfl, hsender, rfl⟩
        · rintro ⟨q, hq, rfl, hsender, rfl⟩
          obtain ⟨hq, hne⟩ := (mem_erase_key hp).mp hq
          exact ⟨⟨q, hq, rfl, hsender, rfl⟩,
            fun heq => hne (eq_of_key_eq hq hp (Prod.mk.inj heq).2)⟩
      · rw [update_of_ne ha, hm.bySender]
        refine exists_congr fun q => and_congr_left fun hrest => ?_
        rw [mem_erase_key hp, and_iff_left]
        exact fun heq => ha (heq ▸ hrest.2.1.symm)
    · dsimp only
      rw [mem_erase_key hprice, hm.byPrice]
      constructor
      · rintro ⟨⟨q, hq, rfl, rfl⟩, hne⟩
        exact ⟨q, (mem_erase_key hp).mpr ⟨hq, fun heq => hne (heq ▸ rfl)⟩, rfl, rfl⟩
      · rintro ⟨q, hq, rfl, rfl⟩
        obtain ⟨hq, hne⟩ := (mem_erase_key hp).mp hq
        exact ⟨⟨q, hq, rfl, rfl⟩, fun heq => hne (eq_of_key_eq hq hp (Prod.mk.inj heq).2)⟩
    · dsimp only
      omega
    · exact le_trans (Nat.sub_le _ _) hm.size_le
    · dsimp only
      by_cases ha : a = p.sender
      · subst ha
        rw [update_self]
        exact le_trans (length_erase_le _ _) (hm.account_le _)
      · rw [update_of_ne ha]
        exact hm.account_le a

/-- A pooled transaction that is removed makes room. -/
theorem Indexed.size_remove (hp : p ∈ m.byHash.rows) : (m.remove p.hash).size < cfg.maxSize := by
  have hpos : 0 < m.size := by
    rw [hm.size_eq]
    exact length_pos_of_mem hp
  have hle := hm.size_le
  unfold Mempool.remove
  rw [get_eq_some.mpr ⟨hp, rfl⟩]
  dsimp only
  omega

theorem Indexed.removeMany (hashes : List H) : Indexed cfg (m.removeMany hashes) := by
  induction hashes generalizing m with
  | nil => exact hm
  | cons h hashes ih => exact ih (hm.remove h)

variable {a : Address}

/-- An entry of the sender's index goes as its transaction would. -/
theorem Indexed.removeEntry_eq {e : UInt64 × H} (he : e ∈ (m.bySender a).rows) :
    removeEntry a m e = m.remove e.2 := by
  obtain ⟨p, hp, hhash, rfl, hnonce⟩ := (hm.bySender a e.1 e.2).mp he
  have hget : m.get e.2 = some p := get_eq_some.mpr ⟨hp, hhash⟩
  unfold removeEntry Mempool.remove
  rw [hget]
  dsimp only
  rw [hnonce]
  rfl

/-- The removal of one entry leaves the entries of other nonces. -/
theorem Indexed.mem_bySender_remove {e e' : UInt64 × H} (he : e ∈ (m.bySender a).rows)
    (he' : e' ∈ (m.bySender a).rows) (hne : nonceKey e' ≠ nonceKey e) :
    e' ∈ ((m.remove e.2).bySender a).rows := by
  obtain ⟨q, hq, hhash, hsender, hnonce⟩ := (hm.bySender a e'.1 e'.2).mp he'
  refine ((hm.remove e.2).bySender a e'.1 e'.2).mpr ⟨q, ?_, hhash, hsender, hnonce⟩
  obtain ⟨p, hp, hphash, hpsender, hpnonce⟩ := (hm.bySender a e.1 e.2).mp he
  unfold Mempool.remove
  rw [get_eq_some.mpr ⟨hp, hphash⟩]
  refine mem_erase.mpr ⟨hq, fun h => hne ?_⟩
  have hqp : q = p := eq_of_key_eq hq hp (h.trans hphash.symm)
  show e'.1.toNat = e.1.toNat
  rw [← hnonce, ← hpnonce, hqp]

theorem Indexed.removeEntries {entries : List (UInt64 × H)}
    (hmem : ∀ e ∈ entries, e ∈ (m.bySender a).rows)
    (hkeys : entries.Pairwise (fun e e' => nonceKey e < nonceKey e')) :
    Indexed cfg (entries.foldl (removeEntry a) m) := by
  induction entries generalizing m with
  | nil => exact hm
  | cons e entries ih =>
    obtain ⟨hlt, hkeys⟩ := pairwise_cons.mp hkeys
    have he := hmem e mem_cons_self
    rw [foldl_cons, hm.removeEntry_eq he]
    refine ih (hm.remove e.2) (fun e' he' => ?_) hkeys
    exact hm.mem_bySender_remove he (hmem e' (mem_cons_of_mem _ he')) (hlt e' he').ne'

theorem Indexed.removeConfirmed (a : Address) (confirmedNonce : UInt64) :
    Indexed cfg (m.removeConfirmed a confirmedNonce) :=
  hm.removeEntries (fun _ he => mem_of_mem_filter he) ((m.bySender a).sorted.filter _)

/-- An eviction keeps the indexes coherent, and one that finds an entry makes
room. -/
theorem Indexed.evictOne :
    Indexed cfg m.evictOne.1 ∧ (m.evictOne.2 = true → m.evictOne.1.size < cfg.maxSize) ∧
      ∀ p ∈ m.evictOne.1.byHash.rows, p ∈ m.byHash.rows := by
  unfold Mempool.evictOne
  cases hrows : m.byPrice.rows with
  | nil => exact ⟨hm, fun h => absurd h Bool.false_ne_true, fun _ hp => hp⟩
  | cons e rows =>
    obtain ⟨price, hash⟩ := e
    have he : (price, hash) ∈ m.byPrice.rows := by
      rw [hrows]
      exact mem_cons_self
    obtain ⟨p, hp, rfl, -⟩ := (hm.byPrice price hash).mp he
    refine ⟨hm.remove p.hash, fun _ => hm.size_remove hp, fun q hq => ?_⟩
    dsimp only at hq
    unfold Mempool.remove at hq
    rw [get_eq_some.mpr ⟨hp, rfl⟩] at hq
    exact (mem_erase.mp hq).1

/-! ## Insertion -/

/-- A transaction with a new hash and a free nonce enters all four
structures. -/
theorem Indexed.insert {now : ℕ} (hhash : ∀ p ∈ m.byHash.rows, p.hash ≠ tx.hash)
    (hslot : ∀ p ∈ m.byHash.rows, p.sender = sender → p.tx.nonce ≠ tx.nonce)
    (hroom : m.size < cfg.maxSize)
    (haccount : (m.bySender sender).rows.length < cfg.maxPerAccount) :
    Indexed cfg (m.insert now tx sender) := by
  have hfree : ∀ e ∈ (m.bySender sender).rows, nonceKey e ≠ nonceKey (tx.nonce, (tx.hash : H)) := by
    intro e he hkey
    obtain ⟨p, hp, -, hsender, hnonce⟩ := (hm.bySender sender e.1 e.2).mp he
    exact hslot p hp hsender (hnonce.trans (UInt64.toNat_inj.mp hkey))
  have hprice : ∀ e ∈ m.byPrice.rows, priceKey e ≠ priceKey (tx.gasPrice, (tx.hash : H)) := by
    intro e he hkey
    obtain ⟨p, hp, hp', -⟩ := (hm.byPrice e.1 e.2).mp he
    rw [priceKey_inj] at hkey
    exact hhash p hp (hp'.trans (congrArg Prod.snd hkey))
  have hmem : ∀ q, q ∈ (m.insert now tx sender).byHash.rows ↔
      q = ⟨tx, tx.hash, sender, now⟩ ∨ q ∈ m.byHash.rows := fun _ => mem_put_of_fresh hhash
  refine ⟨fun a nonce h => ?_, fun price h => ?_, ?_, hroom, fun a => ?_⟩
  · simp only [hmem, or_and_right, exists_or, exists_eq_left, ← hm.bySender]
    show (nonce, h) ∈ (update m.bySender sender _ a).rows ↔ _
    by_cases ha : a = sender
    · subst ha
      rw [update_self, mem_put_of_fresh hfree]
      exact or_congr_left ⟨by rintro ⟨⟩; trivial, by rintro ⟨rfl, -, rfl⟩; rfl⟩
    · rw [update_of_ne ha]
      exact ⟨.inr, fun h => h.resolve_left (fun hnew => ha hnew.2.1.symm)⟩
  · simp only [hmem, or_and_right, exists_or, exists_eq_left, ← hm.byPrice]
    show (price, h) ∈ (m.byPrice.put _).rows ↔ _
    rw [mem_put_of_fresh hprice]
    exact or_congr_left ⟨by rintro ⟨⟩; trivial, by rintro ⟨rfl, rfl⟩; rfl⟩
  · show m.size + 1 = (m.byHash.put _).rows.length
    rw [length_put hhash, hm.size_eq]
  · show (update m.bySender sender _ a).rows.length ≤ _
    by_cases ha : a = sender
    · subst ha
      rw [update_self, length_put hfree]
      exact haccount
    · rw [update_of_ne ha]
      exact hm.account_le a

/-- Making room keeps the indexes coherent and adds nothing. -/
theorem Indexed.makeRoom :
    Indexed cfg (m.makeRoom cfg).1 ∧
      ((m.makeRoom cfg).2 = true → (m.makeRoom cfg).1.size < cfg.maxSize) ∧
      ∀ p ∈ (m.makeRoom cfg).1.byHash.rows, p ∈ m.byHash.rows := by
  unfold Mempool.makeRoom
  split
  · exact hm.evictOne
  · rename_i hroom
    exact ⟨hm, fun _ => not_le.mp hroom, fun _ hp => hp⟩

theorem Indexed.enter {now : ℕ} (hhash : ∀ p ∈ m.byHash.rows, p.hash ≠ tx.hash)
    (hslot : ∀ p ∈ m.byHash.rows, p.sender = sender → p.tx.nonce ≠ tx.nonce) :
    Indexed cfg (m.enter cfg now tx sender).1 := by
  obtain ⟨hmade, hroom, hrows⟩ := hm.makeRoom
  unfold Mempool.enter
  dsimp only
  split
  · exact hmade
  · rename_i hok
    split
    · exact hmade
    · rename_i hcount
      exact hmade.insert (fun p hp => hhash p (hrows p hp)) (fun p hp => hslot p (hrows p hp))
        (hroom (by simpa using hok)) (not_le.mp hcount)

end Indexed

/-! ## Runs -/

variable (cfg : MempoolConfig) (m : Mempool H)

/-- **A transaction that is added finds its nonce free**: if it passes the
checks that read it, no pooled transaction has its sender and its nonce. -/
def SlotFree : MempoolOp H → Prop
  | .add _ tx sender lookup => m.checkTx cfg tx sender lookup = .ok () →
      ∀ p ∈ m.byHash.rows, p.sender = sender → p.tx.nonce ≠ tx.nonce
  | _ => True

/-- A transaction that passes the checks is not in the pool. -/
theorem hash_ne_of_checkTx {cfg : MempoolConfig} {m : Mempool H} {lookup : Option NonceLookup}
    (h : m.checkTx cfg tx sender lookup = .ok ()) : ∀ p ∈ m.byHash.rows, p.hash ≠ tx.hash := by
  intro p hp hhash
  have hget : m.get tx.hash = some p := get_eq_some.mpr ⟨hp, hhash⟩
  unfold checkTx at h
  rw [hget] at h
  cases h

/-- One operation keeps the indexes coherent, unless it adds to a taken
nonce. -/
theorem Indexed.step {cfg : MempoolConfig} {m : Mempool H} (hm : Indexed cfg m)
    (op : MempoolOp H) (hfree : SlotFree cfg m op) : Indexed cfg (m.step cfg op) := by
  cases op with
  | add now tx sender lookup =>
    show Indexed cfg (m.addWithNonceCheck cfg now tx sender lookup).1
    unfold addWithNonceCheck
    cases hcheck : m.checkTx cfg tx sender lookup with
    | error e => exact hm
    | ok u => exact hm.enter (hash_ne_of_checkTx hcheck) (hfree hcheck)
  | remove hash => exact hm.remove hash
  | removeMany hashes => exact hm.removeMany hashes
  | removeConfirmed sender confirmedNonce => exact hm.removeConfirmed sender confirmedNonce
  | evictOne => exact hm.evictOne.1
  | removeExpired now order => exact hm.removeMany _
  | clear => exact indexed_new cfg

/-- **The pool's indexes are coherent in every state of every run** from an
empty pool in which no transaction is added to a taken nonce. -/
theorem coherent_run (ops : List (MempoolOp H))
    (hfree : Run.Along (step cfg) (SlotFree cfg) (new : Mempool H) ops) :
    Coherent cfg (Run.run (step cfg) new ops) :=
  (Run.invariant_along (indexed_new cfg) (fun _ op h hop => h.step op hop) hfree).coherent

/-! ## Two transactions of one nonce -/

/-- A transfer with a nonce and a price, of the account the caller names. -/
def poolTx (nonce price : UInt64) : Transaction where
  txType := .transfer
  chainId := 9000
  nonce := nonce
  recipient := some zero
  value := .zero
  data := []
  gasLimit := 21000
  gasPrice := .fromU64 price
  publicKey := PublicKey.zero
  signature := Signature.zero

/-- Two transactions for each account. -/
def twoEach : MempoolConfig := { MempoolConfig.default with maxPerAccount := 2 }

instance : DecidablePred (SlotFree cfg m) := fun op => by
  cases op <;> dsimp only [SlotFree] <;> infer_instance

/-- Two nonces of one sender, the first of them confirmed. -/
theorem coherent_run_confirmed :
    Coherent twoEach (Run.run (step twoEach) (new : Mempool CodeName)
      [.add 0 (poolTx 0 1000000000) zero none,
        .add 0 (poolTx 1 2000000000) zero (some (fun _ => .ok 0)),
        .removeConfirmed zero 0]) :=
  coherent_run twoEach _ (by decide +kernel)

/-- The pool after two transactions of one nonce and a third one. -/
def replacedPool : Mempool CodeName :=
  Run.run (step twoEach) new
    [.add 0 (poolTx 0 1000000000) zero none,
      .add 0 (poolTx 0 2000000000) zero none,
      .add 0 (poolTx 1 1000000000) zero none]

/-- The first transaction is in the pool and not in the sender's index, and the
account has three transactions where two are allowed. -/
theorem coherent_same_nonce :
    (replacedPool.get (poolTx 0 1000000000).hash).isSome = true ∧
      (0, (poolTx 0 1000000000).hash) ∉ (replacedPool.bySender zero).rows ∧
      (replacedPool.byHash.rows.filter (fun p => p.sender = zero)).length = 3 ∧
      ¬ Coherent twoEach replacedPool := by
  refine ⟨by decide +kernel, by decide +kernel, by decide +kernel, fun hcoherent => ?_⟩
  exact absurd (hcoherent.account_le zero) (by decide +kernel)

end Mempool

end Qfc
