import QfcCore.Lib.OkLe
import QfcCore.Trie.Content

/-!
# Tries over a growing column

The state column only grows. An operation that finds all its nodes in a column
does the same over every larger one, dirty nodes included. So its result
depends on the trie alone and not on what else the column holds.
-/

namespace Qfc

variable {H V : Type} [Zero H]

/-- The column `db'` has every node of `db`. -/
def ColumnLe (db db' : NodeColumn H V) : Prop :=
  ∀ {h : H} {node : TrieNode H V}, db h = some node → db' h = some node

variable {db db' dirty : NodeColumn H V}

omit [Zero H] in
theorem ColumnLe.refl (db : NodeColumn H V) : ColumnLe db db := fun h => h

omit [Zero H] in
theorem ColumnLe.nodeAt (h : ColumnLe db db') (dirty : NodeColumn H V) :
    ColumnLe (Qfc.nodeAt db dirty) (Qfc.nodeAt db' dirty) := by
  intro hash node hn
  unfold Qfc.nodeAt at hn ⊢
  cases hd : dirty hash with
  | some d =>
    rw [hd] at hn
    exact hn
  | none =>
    rw [hd] at hn
    exact h hn

variable [DecidableEq H]

theorem getNode_into (h : ColumnLe db db') (hash : H) :
    OkInto (fun _ => True) (getNode db dirty hash) (getNode db' dirty hash) := by
  unfold getNode
  refine .ite (.any _) (fun node hn => ⟨?_, trivial⟩)
  cases hat : nodeAt db dirty hash with
  | none =>
    rw [hat] at hn
    cases hn
  | some d =>
    rw [hat] at hn
    rw [h.nodeAt dirty hat]
    exact hn

namespace Trie

variable [Digest H (TrieNode H V)]

/-! ## New nodes -/

/-- Over sound nodes, the dirty nodes `dirty'` add sound ones to `dirty`. -/
def Extends (db dirty dirty' : NodeColumn H V) : Prop :=
  SoundColumn (nodeAt db dirty) → Grows (nodeAt db dirty) (nodeAt db dirty')

omit [DecidableEq H] in
theorem Extends.refl (db dirty : NodeColumn H V) : Extends db dirty dirty := fun hs => .refl hs

omit [DecidableEq H] in
theorem Extends.trans {dirty' dirty'' : NodeColumn H V} (h : Extends db dirty dirty')
    (h' : Extends db dirty' dirty'') : Extends db dirty dirty'' :=
  fun hs => (h hs).trans (h' (h hs).sound)

variable (db dirty : NodeColumn H V) (key : List Nibble) (children : Nibble → Option H)

theorem storeNode_extends {node : TrieNode H V} (hne : node ≠ .empty) :
    Extends db dirty (storeNode dirty node).2 :=
  fun hs => (storeNode_grows hs hne).1

theorem leaf_extends (value : V) : Extends db dirty (storeNode dirty (.leaf key value)).2 :=
  storeNode_extends db dirty (by simp)

theorem extension_extends (child : H) :
    Extends db dirty (storeNode dirty (.extension key child)).2 :=
  storeNode_extends db dirty (by simp)

theorem branch_extends (value : Option V) :
    Extends db dirty (storeNode dirty (.branch children value)).2 :=
  storeNode_extends db dirty (by simp)

theorem splitWith_extends (n : ℕ) (key : List Nibble) (value : V) :
    Extends db dirty (splitWith dirty children n key value).2 := by
  -- the branch, with or without an extension above it
  have habove : ∀ r : H × NodeColumn H V, Extends db dirty r.2 →
      Extends db dirty
        (if 0 < n then storeNode r.2 (.extension (key.take n) r.1) else (r.1, r.2)).2 := by
    intro r hr
    split
    · exact hr.trans (extension_extends db r.2 _ _)
    · exact hr
  unfold splitWith
  cases key.drop n with
  | nil => exact habove _ (branch_extends db dirty _ _)
  | cons i rest =>
    exact habove _ ((leaf_extends db dirty rest value).trans (branch_extends db _ _ _))

theorem splitLeaf_extends (value : V) (leafKey : List Nibble) (leafValue : V) :
    Extends db dirty (splitLeaf dirty key value leafKey leafValue).2 := by
  unfold splitLeaf
  dsimp only
  cases leafKey.drop (commonPrefixLen key leafKey) with
  | nil => exact splitWith_extends _ _ _ _ _ _
  | cons i rest => exact (leaf_extends db dirty rest leafValue).trans (splitWith_extends _ _ _ _ _ _)

theorem splitExtension_extends (value : V) (extKey : List Nibble) (child : H) :
    Extends db dirty (splitExtension dirty key value extKey child).2 := by
  unfold splitExtension
  dsimp only
  match extKey.drop (commonPrefixLen key extKey) with
  | [] | [i] => exact splitWith_extends _ _ _ _ _ _
  | i :: j :: rest =>
    exact (extension_extends db dirty (j :: rest) child).trans (splitWith_extends _ _ _ _ _ _)

/-! ## Over a larger column -/

variable {db dirty} (h : ColumnLe db db')
include h

/-- An insertion only adds sound nodes, and does the same over a larger column if it
succeeds. -/
theorem insertAt_into (fuel : ℕ) (hash : H) (key : List Nibble) (value : V) :
    OkInto (fun r => Extends db dirty r.2) (insertAt db fuel dirty hash key value)
      (insertAt db' fuel dirty hash key value) := by
  induction fuel generalizing hash key with
  | zero => exact .error _
  | succ fuel ih =>
    unfold insertAt
    refine .ite (.ok (leaf_extends db dirty _ _)) ((getNode_into h hash).bind (fun node _ => ?_))
    cases node with
    | empty => exact .ok (leaf_extends db dirty _ _)
    | leaf leafKey leafValue =>
      exact .ite (.ok (leaf_extends db dirty _ _)) (.ok (splitLeaf_extends db dirty _ _ _ _))
    | extension extKey child =>
      refine .ite ((ih child _).bind (fun r hr => ?_)) (.ok (splitExtension_extends db dirty _ _ _ _))
      exact .ok (hr.trans (extension_extends db r.2 _ _))
    | branch children branchValue =>
      cases key with
      | nil => exact .ok (branch_extends db dirty _ _)
      | cons i rest =>
        refine (ih _ rest).bind (fun r hr => ?_)
        exact .ok (hr.trans (branch_extends db r.2 _ _))

theorem insert_into (t : Trie H V) (key : List Nibble) (value : V) :
    OkInto (fun t' => Extends db t.dirty t'.dirty) (t.insert db key value)
      (t.insert db' key value) :=
  (insertAt_into h _ t.root key value).bind (fun _ hr => .ok hr)

theorem extendOver_into (extKey : List Nibble) (child : H) :
    OkInto (fun r => Extends db dirty r.2) (extendOver db dirty extKey child)
      (extendOver db' dirty extKey child) := by
  refine (getNode_into h child).bind (fun node _ => ?_)
  cases node with
  | empty | extension key grandchild
  | branch children value => exact .ok (extension_extends db dirty _ _)
  | leaf key value => exact .ok (leaf_extends db dirty _ _)

theorem maybeCollapseBranch_into (children : Nibble → Option H) (value : Option V) :
    OkInto (fun r => Extends db dirty r.2) (maybeCollapseBranch db dirty children value)
      (maybeCollapseBranch db' dirty children value) := by
  unfold maybeCollapseBranch
  split
  · exact .ok (leaf_extends db dirty _ _)
  · exact .ok (.refl db dirty)
  · exact extendOver_into h _ _
  · exact .ok (branch_extends db dirty _ _)

/-- So does a deletion. -/
theorem deleteAt_into (fuel : ℕ) (hash : H) (key : List Nibble) :
    OkInto (fun r => Extends db dirty r.2) (deleteAt db fuel dirty hash key)
      (deleteAt db' fuel dirty hash key) := by
  induction fuel generalizing hash key with
  | zero => exact .error _
  | succ fuel ih =>
    unfold deleteAt
    refine .ite (.ok (.refl db dirty)) ((getNode_into h hash).bind (fun node _ => ?_))
    cases node with
    | empty | leaf leafKey value => exact .ok (.refl db dirty)
    | extension extKey child =>
      refine .ite ((ih child _).bind (fun r hr => ?_)) (.ok (.refl db dirty))
      obtain ⟨o, d⟩ := r
      cases o with
      | none => exact .ok hr
      | some c =>
        refine .ite (.ok hr) ((extendOver_into h extKey c).bind (fun r' hr' => ?_))
        exact .ok (hr.trans hr')
    | branch children value =>
      cases key with
      | nil =>
        refine .ite (.ok (.refl db dirty)) ((maybeCollapseBranch_into h children none).bind ?_)
        exact fun r hr => .ok hr
      | cons i rest =>
        dsimp only
        cases children i with
        | none => exact .ok (.refl db dirty)
        | some child =>
          refine (ih child rest).bind (fun r hr => ?_)
          obtain ⟨o, d⟩ := r
          cases o with
          | none => exact .ok hr
          | some c =>
            refine (maybeCollapseBranch_into h _ value).bind (fun r' hr' => ?_)
            exact .ok (hr.trans hr')

theorem delete_into (t : Trie H V) (key : List Nibble) :
    OkInto (fun t' => Extends db t.dirty t'.dirty) (t.delete db key) (t.delete db' key) :=
  .ite (.ok (.refl db t.dirty)) ((deleteAt_into h _ t.root key).bind (fun _ hr => .ok hr))

end Trie

end Qfc
