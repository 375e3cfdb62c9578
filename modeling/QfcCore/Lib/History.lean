import Mathlib.Data.List.Perm.Subperm
import Mathlib.Algebra.Order.BigOperators.Group.List

/-!
# Histories

A history is the list of what has happened, the latest last. A rule for events
says of each event what must have happened before it; a history is justified if
each of its events meets the rule with respect to what came before
(`Justified`). Whether it is, is decided event by event (`justified_concat`).
-/

namespace History

variable {α : Type*} {P : List α → α → Prop} {h : List α} {e : α}

/-- **Every event of the history is justified** by the events before it. -/
def Justified (P : List α → α → Prop) (h : List α) : Prop :=
  ∀ before e after, h = before ++ e :: after → P before e

theorem justified_nil : Justified P [] := by
  intro before e after heq
  simp at heq

theorem justified_concat : Justified P (h ++ [e]) ↔ Justified P h ∧ P h e := by
  constructor
  · intro hall
    refine ⟨fun before x after heq => hall before x (after ++ [e]) ?_, hall h e [] rfl⟩
    rw [heq, List.append_assoc, List.cons_append]
  · rintro ⟨hall, he⟩ before x after heq
    obtain rfl | ⟨after, last, rfl⟩ := List.eq_nil_or_concat after
    · obtain ⟨rfl, hx⟩ := List.append_inj' heq rfl
      rw [← (List.cons.inj hx).1]
      exact he
    · rw [List.concat_eq_append, ← List.cons_append, ← List.append_assoc] at heq
      exact hall before x after (List.append_inj' heq rfl).1

end History
