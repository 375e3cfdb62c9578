import QfcCore.Mempool.Pool

/-!
# Rejection and eviction

`add_with_nonce_check` makes room before it looks at the limit of the account,
and it makes room without looking at the price it is offered. A call that ends
in `AccountPoolFull` may so have evicted a transaction, and a successful one may
have evicted a transaction that pays more.

Both depend on the state and the arguments only: on the transaction at the head
of the price index and on the number of entries of the sender
(`add_clean_iff`).
-/

namespace Qfc

namespace Mempool

variable {H : Type} [HashScheme H]

/-- The transaction that a full pool evicts, if the head of the price index
names one. -/
def lowest (m : Mempool H) : Option (PooledTransaction H) :=
  match m.byPrice.rows with
  | [] => none
  | (_, hash) :: _ => m.get hash

/-- The entries of a sender apart from the one of a transaction. -/
def entriesBeside (m : Mempool H) (p : PooledTransaction H) (sender : Address) : ℕ :=
  if p.sender = sender then ((m.bySender sender).erase p.tx.nonce.toNat).rows.length
  else (m.bySender sender).rows.length

/-- **A call without side effects**: an error leaves the pool as it was, and a
transaction that gives way to the new one pays no more. -/
structure CleanAdd (cfg : MempoolConfig) (m : Mempool H) (now : ℕ) (tx : Transaction)
    (sender : Address) (lookup : Option NonceLookup) : Prop where
  rejected : ∀ e, (m.addWithNonceCheck cfg now tx sender lookup).2 = .error e →
    (m.addWithNonceCheck cfg now tx sender lookup).1 = m
  evicted : ∀ hash, (m.addWithNonceCheck cfg now tx sender lookup).2 = .ok hash →
    cfg.maxSize ≤ m.size → ∀ p ∈ m.byHash.rows,
      p ∉ (m.addWithNonceCheck cfg now tx sender lookup).1.byHash.rows →
      p.tx.gasPrice.val ≤ tx.gasPrice.val

/-- **What a full pool would evict gives way to a transaction that enters and
pays as much.** -/
def FairEviction (cfg : MempoolConfig) (m : Mempool H) (tx : Transaction) (sender : Address)
    (lookup : Option NonceLookup) : Prop :=
  m.checkTx cfg tx sender lookup = .ok () → cfg.maxSize ≤ m.size → ∀ p, m.lowest = some p →
    m.entriesBeside p sender < cfg.maxPerAccount ∧ p.tx.gasPrice.val ≤ tx.gasPrice.val

section

variable {cfg : MempoolConfig} {m : Mempool H} {now : ℕ} {tx : Transaction} {sender : Address}
  {lookup : Option NonceLookup} {p q : PooledTransaction H}

theorem lowest_mem (h : m.lowest = some p) : p ∈ m.byHash.rows := by
  unfold lowest at h
  cases hrows : m.byPrice.rows with
  | nil =>
    rw [hrows] at h
    cases h
  | cons e rows =>
    rw [hrows] at h
    exact (get_eq_some.mp h).1

/-- A full pool evicts the lowest transaction. -/
theorem makeRoom_eq_remove (hfull : cfg.maxSize ≤ m.size) (h : m.lowest = some p) :
    m.makeRoom cfg = (m.remove p.hash, true) := by
  unfold makeRoom evictOne
  rw [if_pos hfull]
  unfold lowest at h
  cases hrows : m.byPrice.rows with
  | nil =>
    rw [hrows] at h
    cases h
  | cons e rows =>
    rw [hrows] at h
    dsimp only at h ⊢
    rw [(get_eq_some.mp h).2]

theorem makeRoom_eq_self (h : cfg.maxSize ≤ m.size → m.lowest = none) :
    (m.makeRoom cfg).1 = m := by
  unfold makeRoom evictOne
  split
  · rename_i hfull
    have hnone := h hfull
    unfold lowest at hnone
    cases hrows : m.byPrice.rows with
    | nil => rfl
    | cons e rows =>
      rw [hrows] at hnone
      show m.remove e.2 = m
      unfold remove
      rw [show m.get e.2 = none from hnone]
  · rfl

theorem remove_bySender_length (hp : p ∈ m.byHash.rows) :
    ((m.remove p.hash).bySender sender).rows.length = m.entriesBeside p sender := by
  unfold remove entriesBeside
  rw [get_eq_some.mpr ⟨hp, rfl⟩]
  dsimp only
  by_cases hsender : p.sender = sender
  · subst hsender
    rw [Function.update_self, if_pos rfl]
  · rw [Function.update_of_ne (Ne.symm hsender), if_neg hsender]

theorem mem_byHash_remove (hp : p ∈ m.byHash.rows) :
    q ∈ (m.remove p.hash).byHash.rows ↔ q ∈ m.byHash.rows ∧ q.hash ≠ p.hash := by
  unfold remove
  rw [get_eq_some.mpr ⟨hp, rfl⟩]
  exact SortedRows.mem_erase

/-- A transaction that enters leaves the others of the pool there. -/
theorem mem_byHash_insert (hq : q ∈ m.byHash.rows) (hhash : q.hash ≠ tx.hash) :
    q ∈ (m.insert now tx sender).byHash.rows :=
  SortedRows.mem_put.mpr (.inr ⟨hq, hhash⟩)

theorem cleanAdd_of_room (hcheck : m.checkTx cfg tx sender lookup = .ok ())
    (hroom : (m.makeRoom cfg).1 = m) : CleanAdd cfg m now tx sender lookup := by
  have hadd : m.addWithNonceCheck cfg now tx sender lookup = m.enter cfg now tx sender := by
    unfold addWithNonceCheck
    rw [hcheck]
  have hpool : (m.enter cfg now tx sender).1 = m ∨
      m.enter cfg now tx sender = (m.insert now tx sender, .ok tx.hash) := by
    unfold enter
    dsimp only
    rw [hroom]
    split
    · exact .inl rfl
    · split
      · exact .inl rfl
      · exact .inr rfl
  refine ⟨fun e he => ?_, fun hash hok hfull q hq hgone => absurd ?_ hgone⟩
  · rw [hadd] at he ⊢
    obtain hsame | henter := hpool
    · exact hsame
    · rw [henter] at he
      cases he
  · rw [hadd]
    obtain hsame | henter := hpool
    · rw [hsame]
      exact hq
    · rw [henter]
      exact mem_byHash_insert hq (hash_ne_of_checkTx hcheck q hq)

/-- A call that evicts is clean exactly if the transaction enters and pays as
much. -/
theorem cleanAdd_iff_of_lowest (hcheck : m.checkTx cfg tx sender lookup = .ok ())
    (hfull : cfg.maxSize ≤ m.size) (hlowest : m.lowest = some p) :
    CleanAdd cfg m now tx sender lookup ↔
      m.entriesBeside p sender < cfg.maxPerAccount ∧ p.tx.gasPrice.val ≤ tx.gasPrice.val := by
  have hp := lowest_mem hlowest
  have hgone : p ∉ (m.remove p.hash).byHash.rows := fun h => ((mem_byHash_remove hp).mp h).2 rfl
  have hne := hash_ne_of_checkTx hcheck
  have hadd : m.addWithNonceCheck cfg now tx sender lookup =
      if cfg.maxPerAccount ≤ m.entriesBeside p sender then
        (m.remove p.hash, .error .accountPoolFull)
      else ((m.remove p.hash).insert now tx sender, .ok tx.hash) := by
    unfold addWithNonceCheck enter
    rw [hcheck]
    dsimp only
    rw [makeRoom_eq_remove hfull hlowest]
    dsimp only
    rw [if_neg (by decide), remove_bySender_length hp]
  by_cases hcount : cfg.maxPerAccount ≤ m.entriesBeside p sender
  · -- the account is full, and the lowest transaction is gone
    rw [if_pos hcount] at hadd
    refine ⟨fun hclean => ?_, fun h => absurd h.1 (not_lt.mpr hcount)⟩
    have hsame := hclean.rejected .accountPoolFull (by rw [hadd])
    rw [hadd] at hsame
    rw [show m.remove p.hash = m from hsame] at hgone
    exact absurd hp hgone
  · rw [if_neg hcount] at hadd
    refine ⟨fun hclean => ⟨not_le.mp hcount, ?_⟩, fun h => ⟨fun e he => ?_, ?_⟩⟩
    · refine hclean.evicted tx.hash (by rw [hadd]) hfull p hp ?_
      rw [hadd]
      intro hmem
      obtain heq | ⟨hmem, -⟩ := SortedRows.mem_put.mp hmem
      · exact hne p hp (by rw [heq])
      · exact hgone hmem
    · rw [hadd] at he
      cases he
    · intro hash hok _ q hq hnot
      rw [hadd] at hnot
      have heq : q.hash = p.hash := by
        by_contra hhash
        exact hnot (mem_byHash_insert ((mem_byHash_remove hp).mpr ⟨hq, hhash⟩) (hne q hq))
      rw [SortedRows.eq_of_key_eq hq hp heq]
      exact h.2

end

/-- **A call of `add_with_nonce_check` is without side effects** exactly if the
transaction that a full pool would evict gives way to one that enters and pays
as much. -/
theorem add_clean_iff (cfg : MempoolConfig) (m : Mempool H) (now : ℕ) (tx : Transaction)
    (sender : Address) (lookup : Option NonceLookup) :
    CleanAdd cfg m now tx sender lookup ↔ FairEviction cfg m tx sender lookup := by
  cases hcheck : m.checkTx cfg tx sender lookup with
  | error e =>
    have hadd : m.addWithNonceCheck cfg now tx sender lookup = (m, .error e) := by
      unfold addWithNonceCheck
      rw [hcheck]
    refine ⟨fun _ hok => (nomatch hcheck.symm.trans hok), fun _ => ⟨fun _ _ => ?_, ?_⟩⟩
    · rw [hadd]
    · intro hash hok
      rw [hadd] at hok
      cases hok
  | ok u =>
    by_cases hevicts : cfg.maxSize ≤ m.size ∧ m.lowest ≠ none
    · obtain ⟨hfull, hsome⟩ := hevicts
      obtain ⟨p, hlowest⟩ := Option.ne_none_iff_exists'.mp hsome
      rw [cleanAdd_iff_of_lowest hcheck hfull hlowest]
      constructor
      · intro h _ _ q hq
        cases hlowest.symm.trans hq
        exact h
      · exact fun h => h hcheck hfull p hlowest
    · have hnone : cfg.maxSize ≤ m.size → m.lowest = none :=
        fun hfull => by_contra fun hsome => hevicts ⟨hfull, hsome⟩
      refine ⟨fun _ _ hfull p hp => ?_, fun _ => cleanAdd_of_room hcheck (makeRoom_eq_self hnone)⟩
      exact nomatch (hnone hfull).symm.trans hp

/-! ## A pool of two -/

/-- The address with one byte everywhere. -/
def addressOf (byte : UInt8) : Address := ⟨Vector.replicate 20 byte⟩

/-- Room for two transactions, of different accounts. -/
def twoPlaces : MempoolConfig := { MempoolConfig.default with maxSize := 2, maxPerAccount := 1 }

/-- A full pool: the first account pays three, the second one two. -/
def fullPool : Mempool CodeName :=
  Run.run (step twoPlaces) new
    [.add 0 (poolTx 0 3000000000) (addressOf 1) none,
      .add 0 (poolTx 0 2000000000) (addressOf 2) none]

/-- A second transaction of the first account. -/
def rejectedAdd : Mempool CodeName × Except MempoolError CodeName :=
  fullPool.add twoPlaces 0 (poolTx 1 1000000000) (addressOf 1)

/-- A transaction of a third account, which pays one. -/
def cheaperAdd : Mempool CodeName × Except MempoolError CodeName :=
  fullPool.add twoPlaces 0 (poolTx 1 1000000000) (addressOf 3)

/-- The transaction of the second account is lost to a call of the first one
that is rejected, and to a call of a third one that pays less. -/
theorem add_unclean :
    ((fullPool.get (poolTx 0 2000000000).hash).isSome ∧
      rejectedAdd.2 = .error .accountPoolFull ∧
      (rejectedAdd.1.get (poolTx 0 2000000000).hash).isNone) ∧
    (cheaperAdd.2 = .ok (poolTx 1 1000000000).hash ∧
      (cheaperAdd.1.get (poolTx 0 2000000000).hash).isNone) ∧
    ¬CleanAdd twoPlaces fullPool 0 (poolTx 1 1000000000) (addressOf 1) none ∧
    ¬CleanAdd twoPlaces fullPool 0 (poolTx 1 1000000000) (addressOf 3) none := by
  have hunclean (a : Address) : ¬CleanAdd twoPlaces fullPool 0 (poolTx 1 1000000000) a none := by
    intro hclean
    have hcheck : fullPool.checkTx twoPlaces (poolTx 1 1000000000) a none = .ok () := by
      show fullPool.checkTx twoPlaces (poolTx 1 1000000000) Address.zero none = .ok ()
      decide +kernel
    have hlowest := (Option.some_get (by decide +kernel : fullPool.lowest.isSome = true)).symm
    exact absurd ((cleanAdd_iff_of_lowest hcheck (by decide +kernel) hlowest).mp hclean).2
      (by decide +kernel)
  exact ⟨by decide +kernel, by decide +kernel, hunclean _, hunclean _⟩

end Mempool

end Qfc
