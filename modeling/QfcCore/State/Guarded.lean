import QfcCore.State.Snapshot

/-!
# Conditions on every version of an account

After a revert the cache and the working trie may have different accounts for
one address. A state is *guarded* by a condition when both versions meet it,
at every address. Programs that write within the condition keep a state
guarded, and so does a revert, if the last commit meets the condition too.
-/

namespace Qfc.StateDB

variable {H ε α : Type} [HashScheme H] [Digest H (TrieNode H (Cell H))]
  {G : Address → Account H → Prop} {U : Undelegation → Prop} {cols : StateColumns H}
  {s t : StateDB H}

theorem WellStored.workingAccount_eq (h : s.WellStored) (a : Address) :
    ∃ acc, s.workingAccount a = .ok acc := by
  obtain ⟨o, ho, -⟩ := h.trieAccount_eq a
  unfold workingAccount
  rw [ho]
  cases o with
  | none => exact ⟨_, rfl⟩
  | some acc => exact ⟨acc, rfl⟩

/-- A write replaces one account of the working trie. -/
theorem WellStored.workingAccount_setAccount (h : s.WellStored) (a b : Address) (acc : Account H) :
    (s.setAccount a acc).2.workingAccount b
      = if b = a then .ok acc else s.workingAccount b := by
  obtain ⟨f, hf, -⟩ := h.work
  obtain ⟨trie, hins, -, hheld⟩ := hf.insert_eq h.sound (.account acc) a.nibbles_length
  unfold setAccount workingAccount trieAccount
  dsimp only
  rw [hins]
  dsimp only
  rw [hheld.get_eq, hf.get_eq]
  split
  · rename_i hba
    rw [hba, Function.update_self]
    rfl
  · rename_i hba
    rw [Function.update_of_ne fun hn => hba (Address.nibbles_injective hn)]

/-- **A guarded state**: what the working trie has and what the cache has of an
address meets the condition. -/
structure Guarded (G : Address → Account H → Prop) (cols : StateColumns H) (s : StateDB H) :
    Prop where
  stored : StoredOver cols s
  working : ∀ a acc, s.workingAccount a = .ok acc → G a acc
  cached : ∀ a acc, s.accountCache.find a = some acc → G a acc

namespace Guarded

/-- A write within the condition keeps a state guarded. -/
theorem exec (c : AccountCmd H) (s : StateDB H) (h : Guarded G cols s)
    (hpre : StateProg.pre (fun a acc => Closed cols acc ∧ G a acc) U c) :
    StateProg.post (fun a acc => Closed cols acc ∧ G a acc) c (StateDB.exec c s).1 ∧
      Guarded G cols (StateDB.exec c s).2 := by
  have hclosed : StateProg.pre (fun _ acc => Closed cols acc) U c := by
    cases c with
    | setAccount a acc => exact hpre.1
    | _ => exact hpre
  obtain ⟨hpost, hover⟩ := h.stored.exec c s hclosed
  cases c with
  | getAccount a =>
    obtain ⟨cache, hsnd, hfind⟩ := getAccount_snd s a
    refine ⟨fun acc hacc => ⟨hpost acc hacc, ?_⟩, hover, ?_, ?_⟩
    · change (s.getAccount a).1 = .ok acc at hacc
      rw [getAccount_fst] at hacc
      cases hcache : s.accountCache.find a with
      | some acc' =>
        rw [hcache] at hacc
        cases hacc
        exact h.cached a acc hcache
      | none =>
        rw [hcache] at hacc
        exact h.working a acc hacc
    · show ∀ b acc, (s.getAccount a).2.workingAccount b = .ok acc → G b acc
      rw [hsnd]
      exact h.working
    · show ∀ b acc, (s.getAccount a).2.accountCache.find b = some acc → G b acc
      rw [hsnd]
      intro b acc hb
      obtain hb | ⟨rfl, htrie⟩ := hfind b acc hb
      · exact h.cached b acc hb
      · refine h.working b acc ?_
        unfold workingAccount
        rw [htrie]
        rfl
  | setAccount a acc =>
    obtain ⟨trie, hset, -⟩ := h.stored.stored.setAccount_eq (a := a) (hpre.1.mono h.stored.le)
    refine ⟨trivial, hover, fun b acc' hb => ?_, ?_⟩
    · change (s.setAccount a acc).2.workingAccount b = .ok acc' at hb
      rw [h.stored.stored.workingAccount_setAccount] at hb
      split at hb
      · rename_i hba
        cases hb
        exact hba ▸ hpre.2
      · exact h.working b acc' hb
    · show ∀ b acc', (s.setAccount a acc).2.accountCache.find b = some acc' → G b acc'
      rw [hset]
      intro b acc' hb
      by_cases hba : b = a
      · rw [hba, Lru.find_put_self] at hb
        cases hb
        exact hba ▸ hpre.2
      · exact h.cached b acc' (Lru.find_of_find_put hba hb)
  | getTotalDelegatedTo v | getTotalStake => exact ⟨trivial, h⟩
  | storeUndelegation u | deleteUndelegation d v t => exact ⟨trivial, hover, h.working, h.cached⟩

/-- A program that writes within the condition keeps a state guarded. -/
theorem run {Q : α → Prop} {p : StateProg H ε α}
    (hp : StateProg.Within (fun a acc => Closed cols acc ∧ G a acc) U Q p) :
    Act.Keeps (Guarded G cols) (p.run StateDB.exec) :=
  hp.run exec

/-- A revert keeps a state guarded, if the last commit meets the condition. -/
theorem revert (h : Guarded G s.cols s)
    (hc : ∀ a acc, s.committedAccount a = .ok acc → G a acc) (ht : StoredOver s.cols t)
    (iter : IterOrder) : Guarded G s.cols (t.revert (s.snapshot iter)) where
  stored := ⟨h.stored.stored.revert ht.stored ht.le iter, ht.le, ht.ge⟩
  working a acc hacc := by
    refine hc a acc (Eq.trans ?_ hacc)
    exact (h.stored.stored.committed_eq ht.le a).symm
  cached a acc hfind := by
    refine h.cached a acc (Eq.trans ?_ hfind)
    exact (Lru.find_rebuild (iter.perm s.accountCache.entries) a).symm

end Guarded

end Qfc.StateDB
