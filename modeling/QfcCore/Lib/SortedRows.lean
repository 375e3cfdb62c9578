import Mathlib

/-!
# Rows sorted by a key

A column whose rows are values that carry their own key, iterated in the order
of the keys: a list of values with strictly increasing keys. Storing a value
replaces the row of its key; deleting a key removes its row if there is one.

Up to the order of the rows these are the operations of a finite map
(`mem_put`, `mem_erase`), and a sum over the rows changes by the row that is
added or removed (`sum_put`, `sum_erase`).
-/

/-- **A list of values with strictly increasing keys.** -/
structure SortedRows {α K : Type} [LinearOrder K] (key : α → K) where
  rows : List α
  /-- The keys increase. -/
  sorted : rows.Pairwise (fun a b => key a < key b)

namespace SortedRows

open List

variable {α K : Type} [LinearOrder K] {key : α → K} {a x : α}

@[ext] theorem ext {r r' : SortedRows key} (h : r.rows = r'.rows) : r = r' := by
  cases r; cases r'; cases h; rfl

/-- No row. -/
def empty : SortedRows key := ⟨[], Pairwise.nil⟩

/-- A value put at its place, over the row of its key. -/
def insertRow (key : α → K) (a : α) : List α → List α
  | [] => [a]
  | b :: l =>
    if key a < key b then a :: b :: l
    else if key a = key b then a :: l
    else b :: insertRow key a l

theorem mem_insertRow {l : List α} (hl : l.Pairwise (fun a b => key a < key b)) :
    x ∈ insertRow key a l ↔ x = a ∨ (x ∈ l ∧ key x ≠ key a) := by
  induction l with
  | nil => simp [insertRow]
  | cons b l ih =>
    obtain ⟨hb, hl⟩ := pairwise_cons.mp hl
    -- what comes after `b` has a larger key
    have hafter : key a ≤ key b → ∀ y ∈ l, key y ≠ key a :=
      fun hab y hy => (lt_of_le_of_lt hab (hb y hy)).ne'
    unfold insertRow
    split
    · rename_i hlt
      have hne : ∀ y ∈ b :: l, key y ≠ key a := by
        intro y hy
        obtain rfl | hy := mem_cons.mp hy
        · exact hlt.ne'
        · exact hafter hlt.le y hy
      rw [mem_cons]
      exact or_congr_right ⟨fun h => ⟨h, hne x h⟩, fun h => h.1⟩
    · split
      · rename_i heq
        rw [mem_cons, mem_cons]
        refine or_congr_right ⟨fun h => ⟨.inr h, hafter heq.le x h⟩, ?_⟩
        rintro ⟨rfl | h, hne⟩
        · exact absurd heq.symm hne
        · exact h
      · rename_i hlt hne
        have hba : key b ≠ key a := fun h => hne h.symm
        rw [mem_cons, ih hl, mem_cons]
        constructor
        · rintro (rfl | rfl | ⟨h, hk⟩)
          · exact .inr ⟨.inl rfl, hba⟩
          · exact .inl rfl
          · exact .inr ⟨.inr h, hk⟩
        · rintro (rfl | ⟨rfl | h, hk⟩)
          · exact .inr (.inl rfl)
          · exact .inl rfl
          · exact .inr (.inr ⟨h, hk⟩)

theorem insertRow_sorted {l : List α} (hl : l.Pairwise (fun a b => key a < key b)) :
    (insertRow key a l).Pairwise (fun a b => key a < key b) := by
  induction l with
  | nil => exact pairwise_singleton _ _
  | cons b l ih =>
    obtain ⟨hb, hl'⟩ := pairwise_cons.mp hl
    unfold insertRow
    split
    · rename_i hlt
      refine pairwise_cons.mpr ⟨fun y hy => ?_, hl⟩
      obtain rfl | hy := mem_cons.mp hy
      · exact hlt
      · exact hlt.trans (hb y hy)
    · split
      · rename_i heq
        exact pairwise_cons.mpr ⟨fun y hy => heq ▸ hb y hy, hl'⟩
      · rename_i hlt hne
        refine pairwise_cons.mpr ⟨fun y hy => ?_, ih hl'⟩
        obtain rfl | ⟨hy, -⟩ := (mem_insertRow hl').mp hy
        · exact lt_of_le_of_ne (not_lt.mp hlt) (fun h => hne h.symm)
        · exact hb y hy

/-- Stores a value under its key. -/
def put (r : SortedRows key) (a : α) : SortedRows key :=
  ⟨insertRow key a r.rows, insertRow_sorted r.sorted⟩

/-- Deletes the row of a key. -/
def erase (r : SortedRows key) (k : K) : SortedRows key :=
  ⟨r.rows.filter (fun a => key a ≠ k), r.sorted.filter _⟩

variable {r : SortedRows key}

theorem mem_put : x ∈ (r.put a).rows ↔ x = a ∨ (x ∈ r.rows ∧ key x ≠ key a) :=
  mem_insertRow r.sorted

theorem mem_erase {k : K} : x ∈ (r.erase k).rows ↔ x ∈ r.rows ∧ key x ≠ k := by
  simp [erase]

theorem mem_put_of_fresh (hfresh : ∀ b ∈ r.rows, key b ≠ key a) :
    x ∈ (r.put a).rows ↔ x = a ∨ x ∈ r.rows :=
  mem_put.trans (or_congr_right (and_iff_left_of_imp (hfresh x)))

theorem nodup (r : SortedRows key) : r.rows.Nodup :=
  r.sorted.imp (fun h heq => h.ne (congrArg key heq))

/-- A key has one row. -/
theorem eq_of_key_eq {b : α} (ha : a ∈ r.rows) (hb : b ∈ r.rows) (h : key a = key b) : a = b := by
  have hkeys : (r.rows.map key).Nodup := pairwise_map.mpr (r.sorted.imp ne_of_lt)
  exact inj_on_of_nodup_map hkeys ha hb h

theorem mem_erase_key (ha : a ∈ r.rows) : x ∈ (r.erase (key a)).rows ↔ x ∈ r.rows ∧ x ≠ a :=
  mem_erase.trans (and_congr_right fun hx =>
    not_congr ⟨eq_of_key_eq hx ha, fun h => congrArg key h⟩)

/-- Rows are determined by which there are. -/
theorem ext_mem {r r' : SortedRows key} (h : ∀ a, a ∈ r.rows ↔ a ∈ r'.rows) : r = r' := by
  have hperm := (perm_ext_iff_of_nodup r.nodup r'.nodup).mpr h
  refine ext (hperm.eq_of_pairwise (fun a b _ _ hab hba => ?_) r.sorted r'.sorted)
  exact absurd (hab.trans hba) (lt_irrefl _)

/-- A sum over the rows grows by the value of a new row. -/
theorem sum_put (f : α → ℕ) (hfresh : ∀ b ∈ r.rows, key b ≠ key a) :
    ((r.put a).rows.map f).sum = (r.rows.map f).sum + f a := by
  have hperm : (r.put a).rows.Perm (a :: r.rows) := by
    have hnot : a ∉ r.rows := fun h => hfresh a h rfl
    refine (perm_ext_iff_of_nodup (r.put a).nodup (nodup_cons.mpr ⟨hnot, r.nodup⟩)).mpr
      (fun x => ?_)
    rw [mem_put_of_fresh hfresh, mem_cons]
  rw [(hperm.map f).sum_eq, map_cons, sum_cons, Nat.add_comm]

/-- A sum over the rows loses the value of a deleted row. -/
theorem sum_erase (f : α → ℕ) (ha : a ∈ r.rows) :
    ((r.erase (key a)).rows.map f).sum + f a = (r.rows.map f).sum := by
  have hperm : r.rows.Perm (a :: (r.erase (key a)).rows) := by
    have hnot : a ∉ (r.erase (key a)).rows := fun h => (mem_erase.mp h).2 rfl
    refine (perm_ext_iff_of_nodup r.nodup
      (nodup_cons.mpr ⟨hnot, (r.erase (key a)).nodup⟩)).mpr (fun x => ?_)
    rw [mem_cons, mem_erase_key ha]
    constructor
    · exact fun hx => or_iff_not_imp_left.mpr fun hne => ⟨hx, hne⟩
    · rintro (rfl | h)
      · exact ha
      · exact h.1
  rw [(hperm.map f).sum_eq, map_cons, sum_cons, Nat.add_comm]

theorem length_put (hfresh : ∀ b ∈ r.rows, key b ≠ key a) :
    (r.put a).rows.length = r.rows.length + 1 := by
  simpa using sum_put (fun _ => 1) hfresh

/-- A deleted row takes one from the number of rows. -/
theorem length_erase (ha : a ∈ r.rows) : (r.erase (key a)).rows.length + 1 = r.rows.length := by
  simpa using sum_erase (fun _ => 1) ha

theorem length_erase_le (r : SortedRows key) (k : K) : (r.erase k).rows.length ≤ r.rows.length :=
  length_filter_le _ _

end SortedRows
