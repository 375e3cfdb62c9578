import QfcCore.State.SnapComplete

/-!
# What the healing of a trie looks for

`identify_missing_nodes` goes through a trie without a memory of where it has been,
over rows that peers chose. So it lists an absent hash as often as there are ways to it
from the target root, and it comes to its end if the ways do.
-/

namespace Qfc

namespace SnapSyncManager

open SnapSync Worklist List

variable {H : Type} [HashScheme H] (m : SnapSyncManager H) (rows : H → Option (NodeData H)) (root : H)

/-- **The missing nodes are found**: the call returns, and each hash that is absent and
that there is a way to is listed once. -/
def FindsMissing : Prop :=
  ∃ fuel count, (m.identifyMissingNodes fuel).1 = some count ∧
    (m.identifyMissingNodes fuel).2.missingNodes.Nodup ∧
    ∀ h, h ∈ (m.identifyMissingNodes fuel).2.missingNodes ↔
      h ≠ 0 ∧ Reaches m.rows root h ∧ m.rows h = none

/-- **One way to each**: the ways from the root come to an end, and no two of them end
at one absent hash. -/
def OneWay : Prop :=
  ∃ d, ends (walkNext rows) d [root] = [] ∧ (absentEnds (walkNext rows) d [root]).Nodup

/-- **The missing nodes are found just if there is one way to each of them.** -/
theorem findsMissing_iff (config : SnapSyncConfig H) :
    FindsMissing { m with config := some config } config.targetRoot ↔
      OneWay m.rows config.targetRoot := by
  constructor
  · rintro ⟨fuel, count, hcount, hnodup, -⟩
    obtain ⟨d, hd, hmissing, -⟩ := walk_of_identify rfl hcount
    exact ⟨d, hd, hmissing ▸ hnodup⟩
  · rintro ⟨d, hd, hnodup⟩
    obtain ⟨fuel, hwalk⟩ := exists_walk_iff.mpr ⟨d, hd, (nil_append _).symm⟩
    refine ⟨fuel, (absentEnds (walkNext m.rows) d [config.targetRoot]).length, ?_⟩
    unfold identifyMissingNodes
    simp only [hwalk]
    refine ⟨trivial, hnodup, fun h => ?_⟩
    rw [mem_absentEnds hd, walkNext_eq_none]
    simp only [mem_singleton, exists_eq_left, Reaches]
    tauto

/-- A database with a node that a peer has sent under a hash of its choice: the node
refers to that hash. -/
def looped : SnapSyncManager CodeName :=
  { new with
    rows := Function.update (fun _ => none) ⟨[1]⟩ (some (.node (.extension [Nibble.ofNat 0] ⟨[1]⟩)))
    config := some ⟨⟨[1]⟩, 1, 4⟩ }

/-- The search for missing nodes does not come to its end. -/
theorem missing_not_found : ¬ FindsMissing looped ⟨[1]⟩ := by
  rintro ⟨fuel, count, hcount, -⟩
  obtain ⟨d, hd, -⟩ := walk_of_identify rfl hcount
  have hstep : steps (walkNext looped.rows) [⟨[1]⟩] = [⟨[1]⟩] := by decide +kernel
  rw [ends, Function.iterate_fixed hstep] at hd
  cases hd

end SnapSyncManager

end Qfc
