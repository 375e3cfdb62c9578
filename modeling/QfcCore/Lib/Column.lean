import Mathlib

/-!
# Columns of a key-value store

A column is a partial map. `putAll` writes a list of rows in order and
`eraseAll` deletes the rows of some keys. Of several rows written under one
key the last one stays, whatever the column held before; a key that is not
written keeps its row.
-/

namespace Column

open Function

variable {K V W : Type*} [DecidableEq K] (col : K → Option V)

/-- The column after a list of writes, in order. -/
def putAll (rows : List (K × V)) : K → Option V :=
  rows.foldl (fun col row => update col row.1 (some row.2)) col

/-- The column without the rows of some keys. -/
def eraseAll (keys : List K) : K → Option V :=
  fun k => if k ∈ keys then none else col k

theorem putAll_cons (k : K) (v : V) (rows : List (K × V)) :
    putAll col ((k, v) :: rows) = putAll (update col k (some v)) rows := rfl

theorem putAll_append (rows rows' : List (K × V)) :
    putAll col (rows ++ rows') = putAll (putAll col rows) rows' :=
  List.foldl_append

variable {rows : List (K × V)}

theorem putAll_of_notMem {k : K} (h : k ∉ rows.map Prod.fst) (col : K → Option V) :
    putAll col rows k = col k := by
  induction rows generalizing col with
  | nil => rfl
  | cons row rows ih =>
    rw [List.map_cons, List.mem_cons, not_or] at h
    rw [show row = (row.1, row.2) from rfl, putAll_cons, ih h.2, update_of_ne h.1]

/-- A key that is written gets a row that does not depend on the column
before. -/
theorem putAll_congr {k : K} (h : k ∈ rows.map Prod.fst) (col col' : K → Option V) :
    putAll col rows k = putAll col' rows k := by
  induction rows generalizing col col' with
  | nil => cases h
  | cons row rows ih =>
    rw [show row = (row.1, row.2) from rfl, putAll_cons, putAll_cons]
    by_cases hk : k ∈ rows.map Prod.fst
    · exact ih hk _ _
    · obtain rfl : k = row.1 := by
        rw [List.map_cons, List.mem_cons] at h
        exact h.resolve_right hk
      rw [putAll_of_notMem hk, putAll_of_notMem hk, update_self, update_self]

/-- A written key has a row, one of those written. -/
theorem putAll_mem {k : K} (h : k ∈ rows.map Prod.fst) (col : K → Option V) :
    ∃ v, putAll col rows k = some v ∧ (k, v) ∈ rows := by
  induction rows generalizing col with
  | nil => cases h
  | cons row rows ih =>
    rw [show row = (row.1, row.2) from rfl, putAll_cons]
    by_cases hk : k ∈ rows.map Prod.fst
    · obtain ⟨v, hv, hmem⟩ := ih hk (update col row.1 (some row.2))
      exact ⟨v, hv, List.mem_cons_of_mem _ hmem⟩
    · obtain rfl : k = row.1 := by
        rw [List.map_cons, List.mem_cons] at h
        exact h.resolve_right hk
      refine ⟨row.2, ?_, List.mem_cons_self⟩
      rw [putAll_of_notMem hk, update_self]

/-- Writing commutes with a map of the values. -/
theorem putAll_map (f : V → W) (col : K → Option V) (rows : List (K × V)) (k : K) :
    (putAll col rows k).map f
      = putAll (fun k => (col k).map f) (rows.map (fun row => (row.1, f row.2))) k := by
  induction rows generalizing col with
  | nil => rfl
  | cons row rows ih =>
    rw [show row = (row.1, row.2) from rfl, putAll_cons, ih, List.map_cons, putAll_cons]
    congr 1
    funext j
    by_cases hj : j = row.1
    · rw [hj, update_self, update_self]
      rfl
    · rw [update_of_ne hj, update_of_ne hj]

@[simp] theorem eraseAll_nil : eraseAll col [] = col := by
  funext k
  rfl

theorem eraseAll_cons (k : K) (keys : List K) :
    eraseAll (update col k none) keys = eraseAll col (k :: keys) := by
  funext j
  unfold eraseAll
  by_cases hj : j = k
  · subst hj
    simp
  · simp [hj]

theorem eraseAll_eraseAll (keys keys' : List K) :
    eraseAll (eraseAll col keys) keys' = eraseAll col (keys ++ keys') := by
  funext k
  unfold eraseAll
  by_cases hk : k ∈ keys <;> simp [hk]

/-- Replacing the end of a history. A column written by `kept ++ old`, with
some keys erased and `new` written over it, is the one written by
`kept ++ new`, provided that every key of `old` that is not written again is
erased, and is not a key of `kept`. -/
theorem putAll_eraseAll_eq {kept old new : List (K × V)} {keys : List K}
    (herase : ∀ k, k ∈ keys ↔ k ∈ old.map Prod.fst ∧ k ∉ new.map Prod.fst)
    (hlost : ∀ k ∈ keys, k ∉ kept.map Prod.fst) :
    putAll (eraseAll (putAll (fun _ => none) (kept ++ old)) keys) new
      = putAll (fun _ => none) (kept ++ new) := by
  funext k
  rw [putAll_append (fun _ => none) kept new]
  by_cases hnew : k ∈ new.map Prod.fst
  · exact putAll_congr hnew _ _
  · rw [putAll_of_notMem hnew, putAll_of_notMem hnew]
    unfold eraseAll
    by_cases hk : k ∈ keys
    · rw [if_pos hk, putAll_of_notMem (hlost k hk)]
    · rw [if_neg hk, putAll_append, putAll_of_notMem]
      exact fun hold => hk ((herase k).mpr ⟨hold, hnew⟩)

end Column
