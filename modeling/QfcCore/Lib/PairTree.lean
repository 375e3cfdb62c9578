import Mathlib

/-!
# Lists folded level by level

Neighbours are joined in pairs until one element is left, and an odd last element
is joined with itself. What comes out for any operation can be read from the
outcome for the free operation, a binary tree with the elements of the list at
its leaves.
-/

variable {α β γ : Type}

/-- One level: neighbours are joined, an odd last one with itself. -/
def pairWith (op : β → β → β) : List β → List β
  | [] => []
  | [a] => [op a a]
  | a :: b :: l => op a b :: pairWith op l

/-- Levels until one element is left. -/
def levelsWith (op : β → β → β) (z : β) : ℕ → List β → β
  | _, [] => z
  | _, [a] => a
  | 0, a :: _ => a
  | fuel + 1, l => levelsWith op z fuel (pairWith op l)

variable {op : β → β → β} {f : β → γ} {op' : γ → γ → γ} {P : β → Prop}

theorem pairWith_map (hop : ∀ a b, f (op a b) = op' (f a) (f b)) (l : List β) :
    pairWith op' (l.map f) = (pairWith op l).map f := by
  fun_induction pairWith op l with
  | case1 => rfl
  | case2 a => simp [pairWith, hop]
  | case3 a b l ih => simp [pairWith, hop, ih]

/-- The outcome is natural in the operation. -/
theorem levelsWith_map {z : β} {z' : γ} (hop : ∀ a b, f (op a b) = op' (f a) (f b)) (hz : f z = z')
    (fuel : ℕ) (l : List β) : levelsWith op' z' fuel (l.map f) = f (levelsWith op z fuel l) := by
  fun_induction levelsWith op z fuel l with
  | case1 => simp [levelsWith, hz]
  | case2 => simp [levelsWith]
  | case3 a l hl =>
    cases l with
    | nil => exact (hl rfl).elim
    | cons b l => rfl
  | case4 fuel l hnil hone ih =>
    match l with
    | [] => exact (hnil rfl).elim
    | [a] => exact (hone a rfl).elim
    | a :: b :: l => exact (congrArg _ (pairWith_map hop (a :: b :: l))).trans ih

theorem pairWith_mem (hop : ∀ a b, P a → P b → P (op a b)) {l : List β} (h : ∀ a ∈ l, P a) :
    ∀ a ∈ pairWith op l, P a := by
  fun_induction pairWith op l with
  | case1 => exact h
  | case2 a => simpa using hop a a (h a (by simp)) (h a (by simp))
  | case3 a b l ih =>
    simp only [List.forall_mem_cons] at h ⊢
    exact ⟨hop a b h.1 h.2.1, ih h.2.2⟩

/-- What the operation keeps holds of the outcome. -/
theorem levelsWith_mem {z : β} (hop : ∀ a b, P a → P b → P (op a b)) (hz : P z) (fuel : ℕ)
    {l : List β} (h : ∀ a ∈ l, P a) : P (levelsWith op z fuel l) := by
  fun_induction levelsWith op z fuel l with
  | case1 => exact hz
  | case2 _ a | case3 a l hl => exact h a (by simp)
  | case4 fuel l hnil hone ih => exact ih (pairWith_mem hop h)

/-- A binary tree with values at its leaves. -/
inductive PairTree (α : Type)
  | leaf (a : α)
  | node (left right : PairTree α)

namespace PairTree

/-- The value of a tree under an operation. -/
def fold (op : α → α → α) : PairTree α → α
  | leaf a => a
  | node l r => op (fold op l) (fold op r)

/-- The leaves, from left to right. -/
def leaves : PairTree α → List α
  | leaf a => [a]
  | node l r => leaves l ++ leaves r

/-- All leaves are at one depth. -/
def Perfect : ℕ → PairTree α → Prop
  | 0, leaf _ => True
  | d + 1, node l r => Perfect d l ∧ Perfect d r
  | _, _ => False

variable {t t' : PairTree α} {d : ℕ} {l : List (PairTree α)}

/-- An injective operation that yields no leaf has an injective value. -/
theorem fold_inj {op : α → α → α} (hop : ∀ a b a' b', op a b = op a' b' → a = a' ∧ b = b')
    (ht : ∀ a ∈ t.leaves, ∀ b b', a ≠ op b b') (ht' : ∀ a ∈ t'.leaves, ∀ b b', a ≠ op b b')
    (h : t.fold op = t'.fold op) : t = t' := by
  induction t generalizing t' with
  | leaf a =>
    cases t' with
    | leaf a' => exact congrArg leaf h
    | node l r => exact (ht a (List.mem_singleton_self a) _ _ h).elim
  | node l r ihl ihr =>
    cases t' with
    | leaf a' => exact (ht' a' (List.mem_singleton_self a') _ _ h.symm).elim
    | node l' r' =>
      simp only [leaves, List.forall_mem_append] at ht ht'
      obtain ⟨hl, hr⟩ := hop _ _ _ _ h
      rw [ihl ht.1 ht'.1 hl, ihr ht.2 ht'.2 hr]

theorem Perfect.length_leaves (h : t.Perfect d) : t.leaves.length = 2 ^ d := by
  induction t generalizing d with
  | leaf a =>
    cases d with
    | zero => rfl
    | succ d => exact h.elim
  | node l r ihl ihr =>
    cases d with
    | zero => exact h.elim
    | succ d => rw [leaves, List.length_append, ihl h.1, ihr h.2, Nat.pow_succ, Nat.mul_two]

/-- A perfect tree is determined by its leaves. -/
theorem Perfect.eq_of_leaves (h : t.Perfect d) (h' : t'.Perfect d) (hleaves : t.leaves = t'.leaves) :
    t = t' := by
  induction d generalizing t t' with
  | zero =>
    match t, t', h, h' with
    | leaf a, leaf a', _, _ => rw [List.singleton_inj.mp hleaves]
  | succ d ih =>
    match t, t', h, h' with
    | node l r, node l' r', h, h' =>
      obtain ⟨hl, hr⟩ := List.append_inj hleaves
        (h.1.length_leaves.trans h'.1.length_leaves.symm)
      rw [ih h.1 h'.1 hl, ih h.2 h'.2 hr]

theorem perfect_pairWith (h : ∀ t ∈ l, t.Perfect d) : ∀ t ∈ pairWith node l, t.Perfect (d + 1) := by
  fun_induction pairWith node l with
  | case1 => nofun
  | case2 a => simpa using ⟨h a (by simp), h a (by simp)⟩
  | case3 a b l ih =>
    simp only [List.forall_mem_cons] at h ⊢
    exact ⟨⟨h.1, h.2.1⟩, ih h.2.2⟩

/-- The tree of a list is perfect. -/
theorem perfect_levelsWith {z : α} (fuel : ℕ) (h : ∀ t ∈ l, t.Perfect d) :
    ∃ d', (levelsWith node (leaf z) fuel l).Perfect d' := by
  induction fuel generalizing d l with
  | zero =>
    match l with
    | [] => exact ⟨0, trivial⟩
    | [a] | a :: b :: l => exact ⟨d, h a (by simp)⟩
  | succ fuel ih =>
    match l with
    | [] => exact ⟨0, trivial⟩
    | [a] => exact ⟨d, h a (by simp)⟩
    | a :: b :: l => exact ih (perfect_pairWith h)

end PairTree
