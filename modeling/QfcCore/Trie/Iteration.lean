import QfcCore.Trie.Content

/-!
# What an iteration returns

`values` of a complete trie returns the values of its content, in the order of
the keys. Together with the lookups this is all the state database reads from a
trie.
-/

namespace Qfc

open PathMap List

variable {H V : Type} [Zero H] [DecidableEq H] {f : List Nibble → Option V}

theorem mem_nibbles (i : Nibble) : i ∈ finRange 16 := mem_finRange i

theorem nibbles_nodup : (finRange 16).Nodup := nodup_finRange 16

/-- The values below the children of a branch, where the child at `i` returns
`vals i`. -/
theorem mapM_presentChildren {H : Type} {children : Nibble → Option H} {vals : Nibble → List V}
    {collect : H → Except (TrieError H) (List V)} (hnone : ∀ i, children i = none → vals i = [])
    (hsome : ∀ i c, children i = some c → collect c = .ok (vals i)) :
    ∃ below, (Trie.presentChildren children).mapM (fun p => collect p.2) = .ok below ∧
      below.flatten = (finRange 16).flatMap vals := by
  unfold Trie.presentChildren
  generalize finRange 16 = l
  induction l with
  | nil => exact ⟨[], rfl, rfl⟩
  | cons i l ih =>
    obtain ⟨below, hbelow, hflat⟩ := ih
    cases hc : children i with
    | none =>
      rw [filterMap_cons_none (by rw [hc]; rfl)]
      refine ⟨below, hbelow, ?_⟩
      rw [flatMap_cons, hnone i hc, hflat, nil_append]
    | some c =>
      rw [filterMap_cons_some (by rw [hc]; rfl), mapM_cons]
      refine ⟨vals i :: below, ?_, ?_⟩
      · rw [hsome i c hc, hbelow]
        rfl
      · rw [flatten_cons, flatMap_cons, hflat]

/-- An iteration returns the values of the content. -/
theorem Holds.collectValues_eq {db dirty : NodeColumn H V} {n fuel : ℕ} {h : H}
    (hh : Holds (nodeAt db dirty) n h f) (hfuel : n < fuel) :
    Trie.collectValues db dirty fuel h = .ok (PathMap.values (finRange 16) n f) := by
  induction hh generalizing fuel with
  | empty n =>
    obtain ⟨fuel, rfl⟩ := exists_succ_of_lt hfuel
    unfold Trie.collectValues
    rw [if_pos rfl, values_empty]
  | leaf h0 hl =>
    obtain ⟨fuel, rfl⟩ := exists_succ_of_lt hfuel
    unfold Trie.collectValues
    rw [if_neg h0, getNode_bind h0 hl, values_single nibbles_nodup mem_nibbles]
  | @extension h child key n f h0 hl hk _ _ ih =>
    obtain ⟨fuel, rfl⟩ := exists_succ_of_lt hfuel
    have hkey : 0 < key.length := length_pos_iff.mpr hk
    unfold Trie.collectValues
    rw [if_neg h0, getNode_bind h0 hl, values_under nibbles_nodup mem_nibbles]
    exact ih (by omega)
  | @branch h children n g h0 hl hnone _ _ ih =>
    obtain ⟨fuel, rfl⟩ := exists_succ_of_lt hfuel
    obtain ⟨below, hbelow, hflat⟩ := mapM_presentChildren
      (fun i hi => by rw [hnone i hi, values_empty])
      (fun i c hc => ih i c hc (Nat.lt_of_succ_lt_succ hfuel))
    unfold Trie.collectValues
    rw [if_neg h0, getNode_bind h0 hl]
    dsimp only
    rw [hbelow, values_fork, ← hflat]
    rfl

theorem Holds.values_eq {db : NodeColumn H V} {t : Trie H V} {n : ℕ}
    (hh : Holds (nodeAt db t.dirty) n t.root f) (hn : n < Trie.maxDepth) :
    t.values db = .ok (PathMap.values (finRange 16) n f) :=
  hh.collectValues_eq hn

end Qfc
