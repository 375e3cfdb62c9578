import Mathlib

/-!
# Canonical encodings of multisets

A multiset is written down by sorting a list of its elements and putting their code
words one after the other. Sorting by a total order forgets the order of the list;
sorting by a preorder does so exactly if no two different elements of the list are
tied (`insertionSort_eq_iff`), since a stable sort leaves ties as they came. Code
words of one length can be told apart without a separator, so the sorted list can be
read back (`flatMap_injective`), and with it the multiset.
-/

namespace Canonical

open List

section Sorting

variable {α : Type*} {r : α → α → Prop} [DecidableRel r] {l l' : List α}

/-- A sorted list does not depend on the order before, if ties are equal. -/
theorem insertionSort_eq_of_perm [Std.Total r] [IsTrans α r] (hperm : l.Perm l')
    (hties : ∀ a ∈ l, ∀ b ∈ l, r a b → r b a → a = b) :
    l.insertionSort r = l'.insertionSort r := by
  have hsorted := ((l.perm_insertionSort r).trans hperm).trans (l'.perm_insertionSort r).symm
  refine Perm.eq_of_pairwise ?_ (l.pairwise_insertionSort r) (l'.pairwise_insertionSort r)
    hsorted
  intro a b ha hb hab hba
  have hb' := hperm.mem_iff.mpr ((mem_insertionSort r).mp hb)
  exact hties a ((mem_insertionSort r).mp ha) b hb' hab hba

/-- Of two tied elements the one that is inserted last comes first. -/
theorem orderedInsert_tied [IsTrans α r] {a b : α} (hab : r a b) (hba : r b a) (l : List α) :
    ∃ p q, (l.orderedInsert r b).orderedInsert r a = p ++ a :: b :: q ∧
      (l.orderedInsert r a).orderedInsert r b = p ++ b :: a :: q := by
  induction l with
  | nil => exact ⟨[], [], by simp [hab], by simp [hba]⟩
  | cons c l ih =>
    by_cases hac : r a c
    · have hbc : r b c := Trans.trans hba hac
      exact ⟨[], c :: l, by simp [hbc, hab], by simp [hac, hba]⟩
    · have hbc : ¬ r b c := fun hbc => hac (Trans.trans hab hbc)
      obtain ⟨p, q, hp, hq⟩ := ih
      exact ⟨c :: p, q, by simp [hac, hbc, hp], by simp [hac, hbc, hq]⟩

theorem insertionSort_swap_ne [IsTrans α r] {a b : α} (hab : r a b) (hba : r b a) (hne : a ≠ b)
    (l : List α) : (a :: b :: l).insertionSort r ≠ (b :: a :: l).insertionSort r := by
  obtain ⟨p, q, hp, hq⟩ := orderedInsert_tied hab hba (l.insertionSort r)
  intro heq
  rw [insertionSort_cons, insertionSort_cons, insertionSort_cons, insertionSort_cons, hp, hq] at heq
  exact hne (cons.inj (append_cancel_left heq)).1

/-- A stable sort forgets the order exactly if ties are equal. -/
theorem insertionSort_eq_iff [Std.Total r] [IsTrans α r] :
    (∀ l', l.Perm l' → l.insertionSort r = l'.insertionSort r) ↔
      ∀ a ∈ l, ∀ b ∈ l, r a b → r b a → a = b := by
  classical
  constructor
  · intro hsort a ha b hb hab hba
    by_contra hne
    have hb' : b ∈ l.erase a := (mem_erase_of_ne (Ne.symm hne)).mpr hb
    have hperm : l.Perm (a :: b :: (l.erase a).erase b) :=
      (perm_cons_erase ha).trans ((perm_cons_erase hb').cons a)
    exact insertionSort_swap_ne hab hba hne _
      ((hsort _ hperm).symm.trans (hsort _ (hperm.trans (Perm.swap b a _))))
  · exact fun hties l' hperm => insertionSort_eq_of_perm hperm hties

end Sorting

section Code

variable {α β : Type*} {code : α → List β} {n : ℕ} {l l' : List α}

/-- Code words of one length are read back one by one. -/
theorem flatMap_injective (hn : 0 < n) (hlength : ∀ a, (code a).length = n)
    (hcode : ∀ a ∈ l, ∀ b ∈ l', code a = code b → a = b)
    (h : l.flatMap code = l'.flatMap code) : l = l' := by
  induction l generalizing l' with
  | nil =>
    cases l' with
    | nil => rfl
    | cons b l' =>
      have hlen := congrArg length h
      rw [flatMap_cons, length_append, hlength] at hlen
      simp at hlen
      omega
  | cons a l ih =>
    cases l' with
    | nil =>
      have hlen := congrArg length h
      rw [flatMap_cons, length_append, hlength] at hlen
      simp at hlen
      omega
    | cons b l' =>
      rw [flatMap_cons, flatMap_cons] at h
      obtain ⟨hword, hrest⟩ := append_inj h (by rw [hlength, hlength])
      rw [hcode a mem_cons_self b mem_cons_self hword]
      refine congrArg (b :: ·) (ih (fun c hc d hd => ?_) hrest)
      exact hcode c (mem_cons_of_mem _ hc) d (mem_cons_of_mem _ hd)

end Code

end Canonical
