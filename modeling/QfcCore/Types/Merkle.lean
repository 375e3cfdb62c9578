import QfcCore.Types.CodeHash
import QfcCore.Lib.PairTree

/-!
# What a Merkle root binds

The odd hash at the end of a level is paired with itself, and a list without hashes
has the root zero. A root therefore determines the leaves of its tree, repetitions
included, and these determine the list once its length is known.
-/

namespace Qfc

open Digest

section Merkle

variable {H : Type} [HashScheme H]

theorem length_pairUp (l : List H) : (pairUp l).length = (l.length + 1) / 2 := by
  fun_induction pairUp l with
  | case1 | case2 a => simp
  | case3 a b l ih =>
    simp only [List.length_cons, ih]
    omega

variable {l l' : List H}

/-- One level determines the level below it, among the lists of one length. -/
theorem pairUp_inj (hlen : l.length = l'.length) (h : pairUp l = pairUp l') : l = l' := by
  induction l using pairUp.induct generalizing l' with
  | case1 => exact (List.length_eq_zero_iff.mp hlen.symm).symm
  | case2 a =>
    obtain ⟨a', rfl⟩ := List.length_eq_one_iff.mp hlen.symm
    have hdigest := (List.cons.inj h).1
    rw [(Prod.mk.inj (digest_inj.mp hdigest)).1]
  | case3 a b l ih =>
    match l' with
    | a' :: b' :: l' =>
      obtain ⟨hdigest, htail⟩ := List.cons.inj h
      obtain ⟨rfl, rfl⟩ := Prod.mk.inj (digest_inj.mp hdigest)
      rw [ih (by simpa using hlen) htail]

theorem merkleLevels_inj (fuel : ℕ) (hfuel : l.length ≤ fuel + 1) (hlen : l.length = l'.length)
    (h : merkleLevels fuel l = merkleLevels fuel l') : l = l' := by
  induction fuel generalizing l l' with
  | zero =>
    match l, l' with
    | [], [] => rfl
    | [a], [a'] => exact congrArg (fun x => [x]) h
    | _ :: _ :: _, _ => simp at hfuel
  | succ fuel ih =>
    match l, l' with
    | [], [] => rfl
    | [a], [a'] => exact congrArg (fun x => [x]) h
    | a :: b :: l, a' :: b' :: l' =>
      refine pairUp_inj hlen (ih ?_ ?_ h)
      · rw [length_pairUp]
        simp only [List.length_cons] at hfuel ⊢
        omega
      · rw [length_pairUp, length_pairUp, hlen]

/-- A Merkle root determines the hashes under it, once their number is
known. -/
theorem merkleRoot_inj (hlen : l.length = l'.length) (h : merkleRoot l = merkleRoot l') :
    l = l' := by
  unfold merkleRoot at h
  rw [← hlen] at h
  exact merkleLevels_inj _ (Nat.le_succ _) hlen h

/-! ## Lists of any length -/

/-- The leaves of the Merkle tree of a list, with the repetitions; zero stands for no
leaf. -/
def merkleLeaves (l : List H) : List H :=
  levelsWith (· ++ ·) [0] l.length (l.map (fun a => [a]))

/-- The Merkle tree of a list. -/
def merkleTree (l : List H) : PairTree H :=
  levelsWith .node (.leaf 0) l.length (l.map .leaf)

theorem pairUp_eq (l : List H) : pairUp l = pairWith (fun a b => digest (a, b)) l := by
  fun_induction pairUp l with
  | case1 => rfl
  | case2 a => rfl
  | case3 a b l ih => rw [ih, pairWith]

theorem merkleLevels_eq (fuel : ℕ) (l : List H) :
    merkleLevels fuel l = levelsWith (fun a b => digest (a, b)) 0 fuel l := by
  induction fuel generalizing l with
  | zero =>
    match l with
    | [] | [a] | a :: b :: l => rfl
  | succ fuel ih =>
    match l with
    | [] | [a] => rfl
    | a :: b :: l =>
      show merkleLevels fuel (pairUp (a :: b :: l)) = _
      rw [ih, pairUp_eq]
      rfl

theorem merkleRoot_eq_fold (l : List H) :
    merkleRoot l = (merkleTree l).fold (fun a b => digest (a, b)) := by
  have hmap : (l.map PairTree.leaf).map (PairTree.fold fun a b => digest (a, b)) = l := by
    rw [List.map_map]
    exact List.map_id l
  calc merkleRoot l
    _ = levelsWith (fun a b => digest (a, b)) 0 l.length
          ((l.map PairTree.leaf).map (PairTree.fold fun a b => digest (a, b))) := by
      rw [hmap, merkleRoot, merkleLevels_eq]
    _ = _ := levelsWith_map (f := PairTree.fold _) (z := .leaf 0) (fun _ _ => rfl) rfl _ _

theorem merkleLeaves_eq_leaves (l : List H) : merkleLeaves l = (merkleTree l).leaves := by
  have hmap : l.map (fun a => [a]) = (l.map PairTree.leaf).map PairTree.leaves := by
    rw [List.map_map]
    rfl
  unfold merkleLeaves
  rw [hmap]
  exact levelsWith_map (f := PairTree.leaves) (z := .leaf 0) (fun _ _ => rfl) rfl _ _

/-- The leaves are hashes of the list, or zero. -/
theorem merkleTree_leaves {P : H → Prop} {l : List H} (h : ∀ a ∈ l, P a) (hzero : P 0) :
    ∀ a ∈ (merkleTree l).leaves, P a := by
  refine levelsWith_mem (P := fun t : PairTree H => ∀ a ∈ t.leaves, P a) ?_ ?_ _ ?_
  · exact fun _ _ hl hr => List.forall_mem_append.mpr ⟨hl, hr⟩
  · simpa [PairTree.leaves] using hzero
  · simpa [PairTree.leaves] using h

theorem merkleTree_inj : merkleTree l = merkleTree l' ↔ merkleLeaves l = merkleLeaves l' := by
  rw [merkleLeaves_eq_leaves, merkleLeaves_eq_leaves]
  refine ⟨congrArg _, fun h => ?_⟩
  obtain ⟨d, hd⟩ := PairTree.perfect_levelsWith (z := (0 : H)) l.length
    (l := l.map PairTree.leaf) (d := 0) (by simp [PairTree.Perfect])
  obtain ⟨d', hd'⟩ := PairTree.perfect_levelsWith (z := (0 : H)) l'.length
    (l := l'.map PairTree.leaf) (d := 0) (by simp [PairTree.Perfect])
  have hpow : 2 ^ d = 2 ^ d' :=
    hd.length_leaves.symm.trans ((congrArg List.length h).trans hd'.length_leaves)
  obtain rfl := Nat.pow_right_injective le_rfl hpow
  exact hd.eq_of_leaves hd' h

/-- **A Merkle root binds the leaves of its tree**, if the hash of a pair is never the hash
of a leaf. Lists with other leaves have other roots, and among the lists of one length the
root determines the list. -/
theorem merkleRoot_binds_leaves {l l' : List H} (hleaf : ∀ a ∈ l ++ l', ∀ p : H × H, a ≠ digest p) :
    (merkleRoot l = merkleRoot l' ↔ merkleLeaves l = merkleLeaves l') ∧
      (l.length = l'.length → merkleRoot l = merkleRoot l' → l = l') := by
  have hzero : ∀ p : H × H, (0 : H) ≠ digest p := fun p => (digest_ne_zero p).symm
  have hpairs : ∀ a b a' b' : H, (digest (a, b) : H) = digest (a', b') →
      a = a' ∧ b = b' := fun _ _ _ _ h => Prod.mk.inj (digest_inj.mp h)
  rw [List.forall_mem_append] at hleaf
  refine ⟨?_, merkleRoot_inj⟩
  rw [← merkleTree_inj, merkleRoot_eq_fold, merkleRoot_eq_fold]
  refine ⟨fun h => PairTree.fold_inj hpairs ?_ ?_ h, congrArg _⟩
  · exact fun a ha b b' => merkleTree_leaves hleaf.1 hzero a ha (b, b')
  · exact fun a ha b b' => merkleTree_leaves hleaf.2 hzero a ha (b, b')

/-- The names of pairs begin with their tag. -/
theorem ne_digest_pair {a : CodeName} (h : a.letters.head? ≠ some 4) (p : CodeName × CodeName) :
    a ≠ digest p :=
  fun ha => h (congrArg (fun b => b.letters.head?) ha)

/-- Three hashes in another order have another root. -/
theorem merkleRoot_binds_three :
    merkleRoot [(⟨[7]⟩ : CodeName), ⟨[8]⟩, ⟨[9]⟩] ≠ merkleRoot [⟨[8]⟩, ⟨[7]⟩, ⟨[9]⟩] := by
  intro h
  have hleaf : ∀ a ∈ [(⟨[7]⟩ : CodeName), ⟨[8]⟩, ⟨[9]⟩] ++ [⟨[8]⟩, ⟨[7]⟩, ⟨[9]⟩],
      a.letters.head? ≠ some 4 := by decide
  exact absurd ((merkleRoot_binds_leaves fun a ha => ne_digest_pair (hleaf a ha)).1.mp h)
    (by decide)

/-- **The number of hashes is not bound.** The last of three hashes may stand once or
twice, and the hash zero alone has the root of the empty list. -/
theorem merkleRoot_repeats_last :
    (∀ a ∈ [(⟨[7]⟩ : CodeName), ⟨[8]⟩, ⟨[9]⟩, 0], ∀ p : CodeName × CodeName,
      a ≠ digest p) ∧
    merkleRoot [(⟨[7]⟩ : CodeName), ⟨[8]⟩, ⟨[9]⟩] = merkleRoot [⟨[7]⟩, ⟨[8]⟩, ⟨[9]⟩, ⟨[9]⟩] ∧
    merkleRoot [(0 : CodeName)] = merkleRoot [] := by
  have hleaf : ∀ a ∈ [(⟨[7]⟩ : CodeName), ⟨[8]⟩, ⟨[9]⟩, 0], a.letters.head? ≠ some 4 := by decide
  exact ⟨fun a ha => ne_digest_pair (hleaf a ha), rfl, rfl⟩

end Merkle

end Qfc
