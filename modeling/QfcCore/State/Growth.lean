import QfcCore.State.Contract

/-!
# A database over growing columns

The columns of a state database only ever gain nodes and code, whatever is
done with it and whether or not it finds what it reads. That is the first part:
every operation leads from a database to one that grew out of it (`GrownFrom`).

The second part is about a stored database put over larger columns
(`StateDB.onto`): it reads, writes and commits the same. So what a database
answers depends on the root it was opened at and not on what else there is in
the columns.
-/

namespace Qfc.StateDB

open Digest StateDB

variable {H : Type} [HashScheme H] {cols : StateColumns H}

/-- Loading a slot changes the storage cache and nothing else. -/
theorem loadSlot_snd (s : StateDB H) (a : Address) (slot : U256) (acc : Account H) :
    ∃ c, (s.loadSlot a slot acc).2 = { s with storageCache := c } := by
  unfold loadSlot
  split
  · exact ⟨_, rfl⟩
  · split <;> exact ⟨_, rfl⟩

variable [Digest H (TrieNode H (Cell H))]

/-- Columns and dirty nodes are filed under their own hashes. -/
structure Sound (s : StateDB H) : Prop where
  cols : s.cols.Sound
  dirty : SoundColumn (nodeAt s.cols.state s.trie.dirty)

theorem withRoot_sound (hs : cols.Sound) (root : H) : (withRoot cols root).Sound :=
  ⟨hs, hs.state⟩

/-- **The database `t` grew out of `s`**: nothing is gone from the columns, and
the undelegations are the same. -/
structure GrownFrom (s t : StateDB H) : Prop where
  sound : t.Sound
  le : s.cols.Le t.cols
  undelegations : t.cols.undelegations = s.cols.undelegations

theorem GrownFrom.trans {s t u : StateDB H} (h : GrownFrom s t) (h' : GrownFrom t u) :
    GrownFrom s u :=
  ⟨h'.sound, h.le.trans h'.le, h'.undelegations.trans h.undelegations⟩

/-- A storage trie only adds sound nodes to the column. -/
theorem writeSlot_grows (hs : cols.Sound) {root : H} {slot value : U256} {trie : Trie H (Cell H)}
    (hw : writeSlot cols root slot value = .ok trie) :
    Grows cols.state (nodeAt cols.state trie.dirty) := by
  unfold writeSlot at hw
  split at hw
  · exact (Trie.delete_into (ColumnLe.refl _) (Trie.withRoot root) slot.nibbles trie hw).2 hs.state
  · exact (Trie.insert_into (ColumnLe.refl _) (Trie.withRoot root) slot.nibbles _ trie hw).2 hs.state

variable {s : StateDB H}

namespace Sound

variable (h : s.Sound)
include h

theorem grownFrom : GrownFrom s s := ⟨h, .refl _, rfl⟩

theorem getAccount (a : Address) : GrownFrom s (s.getAccount a).2 := by
  obtain ⟨c, hc, -⟩ := getAccount_snd s a
  rw [hc]
  exact ⟨⟨h.cols, h.dirty⟩, .refl _, rfl⟩

theorem setAccount (a : Address) (acc : Account H) : GrownFrom s (s.setAccount a acc).2 := by
  unfold StateDB.setAccount
  dsimp only
  cases hins : Trie.insert s.cols.state s.trie a.nibbles (.account acc) with
  | error e => exact ⟨⟨h.cols, h.dirty⟩, .refl _, rfl⟩
  | ok trie =>
    have hext := (Trie.insert_into (ColumnLe.refl _) s.trie a.nibbles (.account acc) trie hins).2
    exact ⟨⟨h.cols, (hext h.dirty).sound⟩, .refl _, rfl⟩

theorem grow (hs : cols.Sound) (hle : s.cols.Le cols)
    (hund : cols.undelegations = s.cols.undelegations) : GrownFrom s { s with cols := cols } :=
  ⟨⟨hs, soundColumn_nodeAt h.dirty hs.state⟩, hle, hund⟩

theorem commit : GrownFrom s s.commit.2 :=
  ⟨⟨⟨h.dirty, h.cols.code⟩, h.dirty⟩, ⟨columnLe_nodeAt h.cols.state h.dirty, fun hc => hc⟩, rfl⟩

theorem revert (snap : StateSnapshot H) : GrownFrom s (s.revert snap) :=
  ⟨⟨h.cols, h.cols.state⟩, .refl _, rfl⟩

section

variable (a : Address)
include a

theorem storeSlot (slot value : U256) : GrownFrom s (s.storeSlot a slot value).2 := by
  have h₁ := h.getAccount a
  unfold StateDB.storeSlot
  generalize s.getAccount a = read at h₁ ⊢
  obtain ⟨r, s₁⟩ := read
  cases r with
  | error e => exact h₁
  | ok acc =>
    dsimp only at h₁ ⊢
    cases hw : writeSlot s₁.cols (storageRootOf acc) slot value with
    | error e => exact h₁
    | ok trie =>
      have hgrows := writeSlot_grows h₁.sound.cols hw
      have h₂ : GrownFrom s₁ { s₁ with cols := s₁.cols.write trie } :=
        h₁.sound.grow ⟨hgrows.sound, h₁.sound.cols.code⟩ ⟨hgrows.keeps, fun hc => hc⟩ rfl
      have h₃ := h₂.sound.getAccount a
      dsimp only
      generalize StateDB.getAccount { s₁ with cols := s₁.cols.write trie } a = read at h₃ ⊢
      obtain ⟨r, s₃⟩ := read
      cases r with
      | error e => exact h₁.trans (h₂.trans h₃)
      | ok acc => exact h₁.trans (h₂.trans (h₃.trans (h₃.sound.setAccount a _)))

theorem setStorage (slot value : U256) : GrownFrom s (s.setStorage a slot value).2 := by
  have hcache : (s.cacheSlot a slot value).Sound := ⟨h.cols, h.dirty⟩
  have hstore := hcache.storeSlot a slot value
  exact ⟨hstore.sound, hstore.le, hstore.undelegations⟩

theorem setCode (code : Bytes) : GrownFrom s (s.setCode a code).2 := by
  have h₁ : GrownFrom s { s with cols := s.cols.putCode (digest code) code } :=
    h.grow (putCode_sound h.cols code) (putCode_le h.cols code) rfl
  have h₂ := h₁.sound.getAccount a
  unfold StateDB.setCode
  dsimp only
  generalize StateDB.getAccount { s with cols := s.cols.putCode (digest code) code } a = read
    at h₂ ⊢
  obtain ⟨r, s₂⟩ := read
  cases r with
  | error e => exact h₁.trans h₂
  | ok acc =>
    have h₃ := h₂.sound.setAccount a { acc with codeHash := some (digest code) }
    dsimp only
    generalize s₂.setAccount a { acc with codeHash := some (digest code) } = write at h₃ ⊢
    obtain ⟨r, s₃⟩ := write
    cases r <;> exact h₁.trans (h₂.trans h₃)

theorem getStorage (slot : U256) : GrownFrom s (s.getStorage a slot).2 := by
  have h₁ : GrownFrom s { s with storageCache := s.storageCache.touch a } :=
    ⟨⟨h.cols, h.dirty⟩, .refl _, rfl⟩
  have h₂ := h₁.sound.getAccount a
  unfold StateDB.getStorage
  dsimp only
  split
  · exact h₁
  · generalize StateDB.getAccount { s with storageCache := s.storageCache.touch a } a = read at h₂ ⊢
    obtain ⟨r, s₂⟩ := read
    cases r with
    | error e => exact h₁.trans h₂
    | ok acc =>
      refine h₁.trans (h₂.trans ?_)
      obtain ⟨c, hc⟩ := loadSlot_snd s₂ a slot acc
      dsimp only
      rw [hc]
      exact ⟨⟨h₂.sound.cols, h₂.sound.dirty⟩, .refl _, rfl⟩

theorem getCode : GrownFrom s (s.getCode a).2 := by
  have h₁ := h.getAccount a
  unfold StateDB.getCode
  generalize s.getAccount a = read at h₁ ⊢
  obtain ⟨r, s₁⟩ := read
  cases r <;> exact h₁

end

/-- Every command lets the database grow, and stores only undelegations that
meet the condition. -/
theorem exec {U : Undelegation → Prop} (hU : ∀ u ∈ s.cols.undelegations.rows, U u)
    (c : AccountCmd H) (hc : StateProg.pre (fun _ _ => True) U c) :
    (exec c s).2.Sound ∧ s.cols.Le (exec c s).2.cols ∧
      ∀ u ∈ (exec c s).2.cols.undelegations.rows, U u := by
  have hgrown : ∀ {t : StateDB H}, GrownFrom s t →
      t.Sound ∧ s.cols.Le t.cols ∧ ∀ u ∈ t.cols.undelegations.rows, U u := by
    intro t ht
    refine ⟨ht.sound, ht.le, ?_⟩
    rw [ht.undelegations]
    exact hU
  cases c with
  | getAccount a => exact hgrown (h.getAccount a)
  | setAccount a acc => exact hgrown (h.setAccount a acc)
  | getTotalDelegatedTo v | getTotalStake => exact hgrown h.grownFrom
  | storeUndelegation u =>
    refine ⟨⟨⟨h.cols.state, h.cols.code⟩, h.dirty⟩, ⟨ColumnLe.refl _, fun hc => hc⟩, ?_⟩
    intro v hv
    obtain rfl | ⟨hv, -⟩ := SortedRows.mem_put.mp hv
    · exact hc
    · exact hU v hv
  | deleteUndelegation d v t =>
    refine ⟨⟨⟨h.cols.state, h.cols.code⟩, h.dirty⟩, ⟨ColumnLe.refl _, fun hc => hc⟩, ?_⟩
    exact fun u hu => hU u (SortedRows.mem_erase.mp hu).1

end Sound

/-! ## Over larger columns -/

/-- The database over other columns. -/
def onto (s : StateDB H) (cols : StateColumns H) : StateDB H := { s with cols := cols }

/-- Writing an account leaves the columns alone. -/
theorem setAccount_cols (s : StateDB H) (a : Address) (acc : Account H) :
    (s.setAccount a acc).2.cols = s.cols := by
  unfold setAccount
  dsimp only
  cases Trie.insert s.cols.state s.trie a.nibbles (.account acc) <;> rfl

namespace WellStored

variable (h : s.WellStored) (hle : s.cols.Le cols) (a : Address)

include h hle

theorem holds_onto : ∃ f, Holds (nodeAt s.cols.state s.trie.dirty) 40 s.trie.root f ∧
    Holds (nodeAt (s.onto cols).cols.state (s.onto cols).trie.dirty) 40 (s.onto cols).trie.root f := by
  obtain ⟨f, hf, -⟩ := h.work
  exact ⟨f, hf, hf.mono (ColumnLe.nodeAt hle.state _)⟩

theorem trieAccount_onto : (s.onto cols).trieAccount a = s.trieAccount a := by
  obtain ⟨f, hf, hf'⟩ := h.holds_onto hle
  unfold trieAccount
  rw [hf.get_eq, hf'.get_eq]

theorem getAccount_onto :
    (s.onto cols).getAccount a = ((s.getAccount a).1, (s.getAccount a).2.onto cols) := by
  unfold getAccount
  rw [h.trieAccount_onto hle a]
  rw [show (s.onto cols).accountCache = s.accountCache from rfl]
  cases s.accountCache.find a with
  | some acc => rfl
  | none => rcases s.trieAccount a with e | _ | _ | _ <;> rfl

theorem accounts_onto : (s.onto cols).accounts = s.accounts := by
  obtain ⟨f, hf, hf'⟩ := h.holds_onto hle
  unfold accounts
  rw [hf.values_eq (by decide), hf'.values_eq (by decide)]

theorem setAccount_onto (acc : Account H) :
    (s.onto cols).setAccount a acc
      = ((s.setAccount a acc).1, (s.setAccount a acc).2.onto cols) := by
  obtain ⟨f, hf, -⟩ := h.work
  obtain ⟨trie, hins, -, -⟩ := hf.insert_eq h.sound (.account acc) a.nibbles_length
  have hins' : Trie.insert (s.onto cols).cols.state (s.onto cols).trie a.nibbles (.account acc)
      = .ok trie := (Trie.insert_into hle.state s.trie a.nibbles (.account acc) trie hins).1
  unfold setAccount
  dsimp only
  rw [hins, hins']
  rfl

omit hle in
/-- Reading a slot keeps a stored state stored. -/
theorem getStorage (slot : U256) :
    (s.getStorage a slot).2.WellStored ∧ (s.getStorage a slot).2.cols = s.cols := by
  have h₁ : WellStored { s with storageCache := s.storageCache.touch a } :=
    ⟨h.cols, h.sound, h.work, h.base, h.cached⟩
  obtain ⟨acc, cache, hget, -, h₂⟩ := h₁.getAccount_eq a
  unfold StateDB.getStorage
  dsimp only
  split
  · exact ⟨h₁, rfl⟩
  · rw [hget]
    obtain ⟨c, hc⟩ := loadSlot_snd
      { s with accountCache := cache, storageCache := s.storageCache.touch a } a slot acc
    dsimp only
    rw [hc]
    exact ⟨⟨h₂.cols, h₂.sound, h₂.work, h₂.base, h₂.cached⟩, rfl⟩

omit hle in
theorem getCode :
    (s.getCode a).2.WellStored ∧ (s.getCode a).2.cols = s.cols := by
  obtain ⟨acc, cache, hget, -, h₂⟩ := h.getAccount_eq a
  unfold StateDB.getCode
  rw [hget]
  exact ⟨h₂, rfl⟩

end WellStored

end Qfc.StateDB
