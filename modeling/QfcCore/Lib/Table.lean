import Mathlib.Data.Option.Basic
import Mathlib.Logic.Function.Basic

/-!
# Tables

A table is a function that gives some keys a value. What holds of every value of a
table is kept by a change at one key if it holds of the new value.
-/

namespace Table

open Function

variable {κ β : Type*} [DecidableEq κ] {f : κ → Option β} {k : κ} {P : κ → β → Prop}

/-- A value after an insertion is the new one, or was there before. -/
theorem of_mem_insert {b x : β} {key : κ} (h : update f k (some b) key = some x) :
    key = k ∧ x = b ∨ key ≠ k ∧ f key = some x := by
  obtain rfl | hkey := eq_or_ne key k
  · rw [update_self] at h
    exact .inl ⟨rfl, (Option.some.inj h).symm⟩
  · rw [update_of_ne hkey] at h
    exact .inr ⟨hkey, h⟩

theorem mem_insert_of_new (hnew : f k = none) (v : Option β) {x : β} {key : κ}
    (h : f key = some x) : update f k v key = some x := by
  rw [update_of_ne]
  · exact h
  · rintro rfl
    rw [hnew] at h
    cases h

section

variable (hold : ∀ key ≠ k, ∀ x ∈ f key, P key x)
include hold

/-- What holds of the old values elsewhere and of the new one holds in the new
table. -/
theorem forall_mem_update {v : Option β} (hnew : ∀ x ∈ v, P k x) :
    ∀ key, ∀ x ∈ update f k v key, P key x := by
  intro key x hx
  obtain rfl | hkey := eq_or_ne key k
  · rw [update_self] at hx
    exact hnew x hx
  · rw [update_of_ne hkey] at hx
    exact hold key hkey x hx

theorem forall_mem_insert {b : β} (hnew : P k b) :
    ∀ key, ∀ x ∈ update f k (some b) key, P key x :=
  forall_mem_update hold fun _ hx => Option.mem_some_iff.mp hx ▸ hnew

theorem forall_mem_erase : ∀ key, ∀ x ∈ update f k none key, P key x :=
  forall_mem_update hold nofun

end

/-- What holds of the keys all of whose values have a property. -/
theorem forall_of_forall_insert {b : β} {Q : β → Prop} {C : κ → Prop}
    (hold : ∀ key ≠ k, (∀ x ∈ f key, Q x) → C key) (hnew : Q b → C k) :
    ∀ key, (∀ x ∈ update f k (some b) key, Q x) → C key := by
  intro key hall
  obtain rfl | hkey := eq_or_ne key k
  · rw [update_self] at hall
    exact hnew (hall b rfl)
  · rw [update_of_ne hkey] at hall
    exact hold key hkey hall

/-- Among rows of different keys, leaving out the one of a key lowers a count by
one if the row counts. -/
theorem countP_without {l : List (κ × β)} (hnodup : (l.map Prod.fst).Nodup) {row : κ × β}
    (hrow : row ∈ l) (p : κ × β → Bool) :
    l.countP p = l.countP (fun x => p x && decide (x.1 ≠ row.1)) + if p row then 1 else 0 := by
  induction l with
  | nil => cases hrow
  | cons x l ih =>
    rw [List.map_cons, List.nodup_cons] at hnodup
    rw [List.countP_cons, List.countP_cons]
    obtain rfl | hmem := List.mem_cons.mp hrow
    · -- no other row has this key
      have hrest : l.countP (fun y => p y && decide (y.1 ≠ row.1)) = l.countP p := by
        refine List.countP_congr fun y hy => ?_
        have hne : y.1 ≠ row.1 := fun heq =>
          hnodup.1 (heq ▸ List.mem_map_of_mem (f := Prod.fst) hy)
        rw [decide_eq_true hne, Bool.and_true]
      rw [hrest]
      simp
    · have hne : x.1 ≠ row.1 := fun heq =>
        hnodup.1 (heq ▸ List.mem_map_of_mem (f := Prod.fst) hmem)
      rw [ih hnodup.2 hmem, decide_eq_true hne, Bool.and_true]
      omega

end Table
