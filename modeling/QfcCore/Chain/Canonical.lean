import QfcCore.Chain.Rows

/-!
# The canonical chain

The columns of a node describe one chain of blocks from genesis, the
*canonical* chain, inside a tree of all blocks the node accepted. This module
gives the two as abstract objects, a list of blocks linked by parent hashes
and the hash-keyed store, and says when the columns describe them:
`Indexes db canon bound` for the number-keyed rows and the hash index, with
`bound` the height up to which rows of an abandoned branch may still be left
above the chain, as they are in the middle of a reorg's batch, and `Tree` for
the store.

The three updates the chain is built from keep the description: one more
block at the end, a chain cut at an ancestor, and a branch block by block. The
walk of a reorg finds the branch that joins the new tip to the canonical chain
and never runs out of fuel.
-/

namespace Qfc

open Function List Database

variable {H : Type} [HashScheme H] {n : ℕ}

theorem getElem?_concat_iff {α : Type} {l : List α} {a b : α} :
    (l ++ [b])[n]? = some a ↔ l[n]? = some a ∨ n = l.length ∧ a = b := by
  grind

/-- **A chain of blocks**: the block at position `n` has number `n` and names
its predecessor as its parent. -/
structure Linked (canon : List (Block H)) : Prop where
  number : ∀ {n : ℕ} {b : Block H}, canon[n]? = some b → b.number = n
  parent : ∀ {n : ℕ} {a b : Block H}, canon[n]? = some a → canon[n + 1]? = some b →
    b.parentHash = a.hash

variable {canon : List (Block H)} {b : Block H}

namespace Linked

variable {a : Block H} (h : Linked canon)
include h

/-- The blocks of a chain have different hashes. -/
theorem eq_of_hash_eq {m : ℕ} (ha : canon[m]? = some a) (hb : canon[n]? = some b)
    (hab : a.hash = b.hash) : m = n := by
  rw [← h.number ha, ← h.number hb]
  exact congrArg BlockHeader.number (Block.hash_inj.mp hab)

/-- The last block of a chain has the greatest number. -/
theorem number_getLast (hb : canon.getLast? = some b) : b.number + 1 = canon.length := by
  rw [getLast?_eq_getElem?] at hb
  have hne : canon ≠ [] := by
    rintro rfl
    simp at hb
  rw [h.number hb]
  exact Nat.sub_add_cancel (length_pos_iff.mpr hne)

theorem take (k : ℕ) : Linked (canon.take k) where
  number hn := by
    rw [getElem?_take] at hn
    split at hn
    · exact h.number hn
    · cases hn
  parent ha hb := by
    rw [getElem?_take] at ha hb
    split at hb
    · split at ha
      · exact h.parent ha hb
      · cases ha
    · cases hb

/-- A chain grows by a block that names its last block as its parent. -/
theorem concat (ha : canon.getLast? = some a) (hnum : b.number = a.number + 1)
    (hpar : b.parentHash = a.hash) : Linked (canon ++ [b]) := by
  have hlen : a.number + 1 = canon.length := h.number_getLast ha
  rw [getLast?_eq_getElem?] at ha
  constructor
  · intro n d hd
    obtain hd | ⟨rfl, rfl⟩ := getElem?_concat_iff.mp hd
    · exact h.number hd
    · exact hnum.trans hlen
  · intro n c d hc hd
    have hlt := (List.getElem?_eq_some_iff.mp hd).1
    rw [getElem?_concat_iff] at hc hd
    obtain hc | ⟨rfl, -⟩ := hc
    · obtain hd | ⟨hn, rfl⟩ := hd
      · exact h.parent hc hd
      · rw [Nat.eq_sub_of_add_eq hn, ha] at hc
        cases hc
        exact hpar
    · simp at hlt

end Linked

/-- **The number-keyed rows and the hash index describe a chain.** Above the
chain, rows may be left only below `bound`. -/
structure Indexes (db : Database H) (canon : List (Block H)) (bound : ℕ) : Prop where
  header : ∀ {n : ℕ} {b : Block H}, canon[n]? = some b → db.blockHeaders n = some b.header
  body : ∀ {n : ℕ} {b : Block H}, canon[n]? = some b → db.blockBodies n = some b.body
  above : ∀ {n : ℕ}, canon.length ≤ n → bound ≤ n →
    db.blockHeaders n = none ∧ db.blockBodies n = none
  index : ∀ {h : H} {n : ℕ},
    db.blockHashIndex h = some n ↔ ∃ b, canon[n]? = some b ∧ b.hash = h
  stored : ∀ {b : Block H}, b ∈ canon → db.blocksByHash b.hash = some b

variable {hash : H}

variable {db : Database H}

namespace Indexes

variable {bound : ℕ} (h : Indexes db canon bound)
include h

/-- The block read at a height of the chain is the block of the chain. -/
theorem getBlockByNumber_eq (hb : canon[n]? = some b) : db.getBlockByNumber n = some b := by
  unfold getBlockByNumber
  rw [h.header hb, h.body hb]
  rfl

/-- With nothing left above it, the chain is what the rows hold. -/
theorem getBlockByNumber (hbound : bound ≤ canon.length) (n : ℕ) :
    db.getBlockByNumber n = canon[n]? := by
  rcases Nat.lt_or_ge n canon.length with hlt | hge
  · obtain ⟨b, hb⟩ : ∃ b, canon[n]? = some b := ⟨_, getElem?_eq_getElem hlt⟩
    rw [hb]
    exact h.getBlockByNumber_eq hb
  · unfold Database.getBlockByNumber
    rw [(h.above hge (le_trans hbound hge)).1, getElem?_eq_none hge]

/-- A canonical hash is the hash of a block of the chain. -/
theorem isCanonical_iff (hbound : bound ≤ canon.length) :
    db.isCanonical hash n = true ↔ ∃ b, canon[n]? = some b ∧ b.hash = hash := by
  unfold isCanonical
  rw [h.getBlockByNumber hbound]
  cases canon[n]? with
  | none | some b => simp

/-- Every indexed hash is in the store. -/
theorem index_eq_none (hs : db.blocksByHash hash = none) : db.blockHashIndex hash = none := by
  cases hi : db.blockHashIndex hash with
  | none => rfl
  | some n =>
    obtain ⟨b, hb, rfl⟩ := h.index.mp hi
    rw [h.stored (mem_of_getElem? hb)] at hs
    cases hs

theorem getBlockByHash (hash : H) : db.getBlockByHash hash = db.blocksByHash hash := by
  unfold Database.getBlockByHash
  cases hs : db.blocksByHash hash with
  | some b => rfl
  | none => rw [h.index_eq_none hs]

/-- Committing the next block extends the chain described. -/
theorem commit (hlink : Linked (canon ++ [b])) (rs : List (Receipt H)) (root : H) :
    Indexes (db.writeBatch (commitBlockOps b rs root)) (canon ++ [b]) bound := by
  have hlast : (canon ++ [b])[canon.length]? = some b := getElem?_concat_length
  have hnum : b.number = canon.length := hlink.number hlast
  -- an older block differs from the new one in its number, hence in its hash
  have hold : ∀ {n : ℕ} {a : Block H}, canon[n]? = some a → n ≠ b.number ∧ a.hash ≠ b.hash := by
    intro n a ha
    have hlt : n < canon.length := (List.getElem?_eq_some_iff.mp ha).1
    refine ⟨by omega, fun he => ?_⟩
    have := hlink.eq_of_hash_eq (getElem?_concat_iff.mpr (.inl ha)) hlast he
    omega
  have hnew : ∀ {n : ℕ} {a : Block H}, (canon ++ [b])[n]? = some a →
      canon[n]? = some a ∨ (n = b.number ∧ a = b) := by
    intro n a ha
    rw [hnum]
    exact getElem?_concat_iff.mp ha
  rw [writeBatch_commitBlockOps]
  constructor
  · intro n a ha
    dsimp only
    rcases hnew ha with ha | ⟨rfl, rfl⟩
    · rw [update_of_ne (hold ha).1]
      exact h.header ha
    · rw [update_self]
  · intro n a ha
    dsimp only
    rcases hnew ha with ha | ⟨rfl, rfl⟩
    · rw [update_of_ne (hold ha).1]
      exact h.body ha
    · rw [update_self]
  · intro n hn hbn
    rw [length_append, length_singleton] at hn
    have hne : n ≠ b.number := by omega
    dsimp only
    rw [update_of_ne hne, update_of_ne hne]
    exact h.above (by omega) hbn
  · intro hash n
    dsimp only
    by_cases hh : hash = b.hash
    · subst hh
      rw [update_self]
      constructor
      · rintro ⟨⟩
        exact ⟨b, hnum ▸ hlast, rfl⟩
      · rintro ⟨a, ha, hab⟩
        rcases hnew ha with ha | ⟨rfl, rfl⟩
        · exact absurd hab (hold ha).2
        · rfl
    · rw [update_of_ne hh, h.index]
      constructor
      · rintro ⟨a, ha, rfl⟩
        exact ⟨a, getElem?_concat_iff.mpr (.inl ha), rfl⟩
      · rintro ⟨a, ha, rfl⟩
        rcases hnew ha with ha | ⟨rfl, rfl⟩
        · exact ⟨a, ha, rfl⟩
        · exact absurd rfl hh
  · intro a ha
    dsimp only
    rcases mem_append.mp ha with ha | ha
    · obtain ⟨n, hn⟩ := mem_iff_getElem?.mp ha
      rw [update_of_ne (hold hn).2]
      exact h.stored ha
    · rw [mem_singleton.mp ha, update_self]

/-- Once the chain reaches the old rows, none is left above it. -/
theorem settled (hbound : bound ≤ canon.length) : Indexes db canon 0 :=
  ⟨h.header, h.body, fun hn _ => h.above hn (le_trans hbound hn), h.index, h.stored⟩

/-- A branch committed block by block extends the chain described. -/
theorem commitAll {executed : List (Block H × ExecutionOutcome H)}
    (hlink : Linked (canon ++ executed.map Prod.fst)) :
    Indexes (db.writeBatch (branchOps executed)) (canon ++ executed.map Prod.fst) bound := by
  induction executed generalizing db canon with
  | nil =>
    rw [map_nil, append_nil]
    exact h
  | cons p executed ih =>
    rw [map_cons, append_cons] at hlink ⊢
    rw [branchOps_cons, writeBatch_append]
    refine ih (h.commit ?_ _ _) hlink
    have := hlink.take (canon ++ [p.1]).length
    rwa [take_left] at this

/-- The hashes of the blocks a reorg abandons. -/
theorem mem_abandonedHashes (hbound : bound ≤ canon.length) (k : ℕ) :
    hash ∈ (Chain.abandonedHeights k (canon.length - 1)).flatMap db.abandonedHashes ↔
      ∃ n b, k < n ∧ canon[n]? = some b ∧ b.hash = hash := by
  unfold Chain.abandonedHeights abandonedHashes
  simp only [mem_flatMap, mem_range'_1, h.getBlockByNumber hbound]
  constructor
  · rintro ⟨n, hn, hmem⟩
    cases hb : canon[n]? with
    | none => simp [hb] at hmem
    | some b =>
      simp only [hb, Option.map_some, Option.getD_some, mem_singleton] at hmem
      exact ⟨n, b, by omega, hb, hmem.symm⟩
  · rintro ⟨n, b, hkn, hb, rfl⟩
    have hlt : n < canon.length := (List.getElem?_eq_some_iff.mp hb).1
    exact ⟨n, by omega, by simp [hb]⟩

/-- Cutting the chain at an ancestor: the first half of a reorg's batch
leaves the columns describing the chain up to the ancestor, with the old rows
still above it. -/
theorem cut (hbound : bound ≤ canon.length) (hlink : Linked canon) (kept : List H) (k : ℕ) :
    Indexes (db.writeBatch ((Chain.abandonedHeights k (canon.length - 1)).flatMap
      (db.abandonOps kept))) (canon.take (k + 1)) canon.length := by
  have hold : ∀ {n : ℕ} {a : Block H}, (canon.take (k + 1))[n]? = some a →
      n ≤ k ∧ canon[n]? = some a := by
    intro n a ha
    rw [getElem?_take] at ha
    split at ha
    · exact ⟨by omega, ha⟩
    · cases ha
  rw [writeBatch_abandon]
  constructor
  · intro n a ha
    exact h.header (hold ha).2
  · intro n a ha
    exact h.body (hold ha).2
  · intro n _ hn
    exact h.above hn (le_trans hbound hn)
  · intro hash n
    dsimp only
    unfold Column.eraseAll
    by_cases hmem : hash ∈ (Chain.abandonedHeights k (canon.length - 1)).flatMap
        db.abandonedHashes
    · rw [if_pos hmem]
      obtain ⟨m, b, hkm, hb, rfl⟩ := (h.mem_abandonedHashes hbound k).mp hmem
      constructor
      · intro hn
        cases hn
      · rintro ⟨a, ha, hab⟩
        obtain ⟨hnk, ha⟩ := hold ha
        have := hlink.eq_of_hash_eq ha hb hab
        omega
    · rw [if_neg hmem, h.index]
      constructor
      · rintro ⟨a, ha, rfl⟩
        refine ⟨a, ?_, rfl⟩
        have hnk : n ≤ k := by
          by_contra hlt
          exact hmem ((h.mem_abandonedHashes hbound k).mpr ⟨n, a, by omega, ha, rfl⟩)
        rw [getElem?_take, if_pos (by omega)]
        exact ha
      · rintro ⟨a, ha, rfl⟩
        exact ⟨a, (hold ha).2, rfl⟩
  · intro a ha
    exact h.stored (mem_of_mem_take ha)

end Indexes

/-! ## The tree of stored blocks -/

/-- **The store is a tree**: a block is filed under its hash, and its parent is
in the store, one below, unless the block is the genesis `g`. -/
structure Tree (db : Database H) (g : Block H) : Prop where
  hash : ∀ {h : H} {b : Block H}, db.blocksByHash h = some b → b.hash = h
  parent : ∀ {h : H} {b : Block H}, db.blocksByHash h = some b →
    b = g ∨ ∃ p, db.blocksByHash b.parentHash = some p ∧ b.number = p.number + 1

/-- The chain a walk from a stored block describes: the canonical chain up to
the ancestor, then the branch. -/
def joined (canon : List (Block H)) (branch : List (H × Block H)) (ancestor : Block H) :
    List (Block H) :=
  canon.take (ancestor.number + 1) ++ (branch.map Prod.snd).reverse

section Walk

variable {g cursor ancestor : Block H} {branch : List (H × Block H)} {fuel : ℕ}

/-- **What the walk of a reorg finds**: an ancestor on the canonical chain and
a branch of stored blocks that continues it to the block the walk started
from. -/
structure Walk (db : Database H) (canon : List (Block H)) (cursor : Block H)
    (branch : List (H × Block H)) (ancestor : Block H) : Prop where
  ancestor_mem : canon[ancestor.number]? = some ancestor
  linked : Linked (joined canon branch ancestor)
  last : (joined canon branch ancestor).getLast? = some cursor
  branch_stored : ∀ p ∈ branch, db.blocksByHash p.1 = some p.2
  branch_hash : ∀ p ∈ branch, p.2.hash = p.1
  branch_side : ∀ p ∈ branch, p.2 ∉ canon

/-- The last step of a walk: its cursor is canonical, or the walk goes on from the parent. -/
theorem collectBranch_succ
    (h : Chain.collectBranch db (fuel + 1) hash cursor = .ok (branch, ancestor)) :
    db.isCanonical hash cursor.number = true ∧ branch = [] ∧ ancestor = cursor ∨
    ¬db.isCanonical hash cursor.number = true ∧ ∃ p rest,
      db.getBlockByHash cursor.parentHash = some p ∧
      Chain.collectBranch db fuel cursor.parentHash p = .ok (rest, ancestor) ∧
      branch = (hash, cursor) :: rest := by
  unfold Chain.collectBranch at h
  split at h
  · rename_i hcan
    cases h
    exact .inl ⟨hcan, rfl, rfl⟩
  · rename_i hcan
    cases hp : db.getBlockByHash cursor.parentHash with
    | none => simp [hp] at h
    | some p =>
      simp only [hp] at h
      cases hrec : Chain.collectBranch db fuel cursor.parentHash p with
      | error e => simp [hrec] at h
      | ok r =>
        simp only [hrec] at h
        cases h
        exact .inr ⟨hcan, p, r.1, rfl, hrec, rfl⟩

variable (hidx : Indexes db canon 0) (hlink : Linked canon) (htree : Tree db g)
include hidx hlink htree

/-- A walk that ends well found such a branch. -/
theorem collectBranch_walk (hgen : canon[0]? = some g) (hcur : db.blocksByHash hash = some cursor)
    (h : Chain.collectBranch db fuel hash cursor = .ok (branch, ancestor)) :
    Walk db canon cursor branch ancestor := by
  induction fuel generalizing hash cursor branch ancestor with
  | zero => cases h
  | succ fuel ih =>
    obtain ⟨hcan, rfl, rfl⟩ | ⟨hcan, p, rest, hp, hrec, rfl⟩ := collectBranch_succ h
    · -- the cursor is canonical, and the store has one block for its hash
      obtain ⟨b, hb, hbh⟩ := (hidx.isCanonical_iff (Nat.zero_le _)).mp hcan
      have hstored := hidx.stored (mem_of_getElem? hb)
      rw [hbh, hcur] at hstored
      obtain rfl := Option.some.inj hstored
      have hlt := (List.getElem?_eq_some_iff.mp hb).1
      refine ⟨hb, ?_, ?_, by simp, by simp, by simp⟩
      · simpa [joined] using hlink.take (ancestor.number + 1)
      · simp only [joined, map_nil, reverse_nil, append_nil,
          getLast?_eq_getElem?, length_take, getElem?_take]
        rw [show min (ancestor.number + 1) canon.length - 1 = ancestor.number by omega,
          if_pos (by omega)]
        exact hb
    · rw [hidx.getBlockByHash] at hp
      have hw := ih hp hrec
      have hside : cursor ∉ canon := by
        intro hmem
        obtain ⟨n, hn⟩ := mem_iff_getElem?.mp hmem
        refine hcan ((hidx.isCanonical_iff (Nat.zero_le _)).mpr ⟨cursor, ?_, htree.hash hcur⟩)
        rw [hlink.number hn]
        exact hn
      have hnum : cursor.number = p.number + 1 := by
        rcases htree.parent hcur with rfl | ⟨p', hp', hnum⟩
        · exact absurd (mem_of_getElem? hgen) hside
        · rw [hp] at hp'
          cases hp'
          exact hnum
      have hjoin : joined canon ((hash, cursor) :: rest) ancestor
          = joined canon rest ancestor ++ [cursor] := by
        simp [joined]
      refine ⟨hw.ancestor_mem, ?_, ?_, ?_, ?_, ?_⟩
      · rw [hjoin]
        exact hw.linked.concat hw.last hnum (htree.hash hp).symm
      · rw [hjoin]
        simp
      · exact forall_mem_cons.mpr ⟨hcur, hw.branch_stored⟩
      · exact forall_mem_cons.mpr ⟨htree.hash hcur, hw.branch_hash⟩
      · exact forall_mem_cons.mpr ⟨hside, hw.branch_side⟩

/-- The walk never runs out of fuel: numbers fall by one along parents, so
`number + 1` steps reach the genesis at the latest. -/
theorem collectBranch_ok (hgen : canon[0]? = some g) (hcur : db.blocksByHash hash = some cursor)
    (hfuel : cursor.number < fuel) :
    ∃ branch ancestor, Chain.collectBranch db fuel hash cursor = .ok (branch, ancestor) := by
  induction fuel generalizing hash cursor with
  | zero => omega
  | succ fuel ih =>
    unfold Chain.collectBranch
    split
    · exact ⟨[], cursor, rfl⟩
    · rename_i hcan
      rcases htree.parent hcur with rfl | ⟨p, hp, hnum⟩
      · have hnum : cursor.number = 0 := hlink.number hgen
        rw [hnum] at hcan
        exact absurd ((hidx.isCanonical_iff (Nat.zero_le _)).mpr
          ⟨cursor, hgen, htree.hash hcur⟩) hcan
      · obtain ⟨branch, ancestor, hrec⟩ := ih hp (by omega)
        rw [hidx.getBlockByHash, hp]
        simp only [hrec]
        exact ⟨_, _, rfl⟩

end Walk

end Qfc
