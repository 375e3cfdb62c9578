import Mathlib

/-!
# Runs of a step function

A system given by a step function `step : S → E → S` runs over a list of
events. Two rules reduce a statement about all the states of a run to one
about a single step: an invariant that every step preserves, and an invariant
that is preserved only by the steps that meet a side condition, for the runs
all of whose steps do. A third one carries a reflexive and transitive relation
from one step to a run.
-/

namespace Run

variable {S E : Type*}

/-- The state a list of events leads to. -/
def run (step : S → E → S) (s : S) (events : List E) : S := events.foldl step s

section Equations

variable (step : S → E → S)

@[simp] theorem run_nil (s : S) : run step s [] = s := rfl

@[simp] theorem run_cons (s : S) (e : E) (l : List E) :
    run step s (e :: l) = run step (step s e) l := rfl

theorem run_append (s : S) (l m : List E) :
    run step s (l ++ m) = run step (run step s l) m :=
  List.foldl_append

theorem run_concat (s : S) (l : List E) (e : E) :
    run step s (l ++ [e]) = step (run step s l) e := by
  rw [run_append, run_cons, run_nil]

end Equations

/-- Every step of the run from `s` meets the condition, read in the state
before the step. -/
def Along (step : S → E → S) (cond : S → E → Prop) : S → List E → Prop
  | _, [] => True
  | s, e :: l => cond s e ∧ Along step cond (step s e) l

variable {step : S → E → S} {cond : S → E → Prop} {l : List E} {s : S} {P : S → Prop}

instance decidableAlong [∀ s e, Decidable (cond s e)] :
    ∀ (s : S) (l : List E), Decidable (Along step cond s l)
  | _, [] => .isTrue trivial
  | s, e :: l => @instDecidableAnd _ _ inferInstance (decidableAlong (step s e) l)

theorem along_append {m : List E} :
    Along step cond s (l ++ m) ↔
      Along step cond s l ∧ Along step cond (run step s l) m := by
  induction l generalizing s with
  | nil => exact ⟨fun h => ⟨trivial, h⟩, fun h => h.2⟩
  | cons e l ih =>
    show cond s e ∧ Along step cond (step s e) (l ++ m) ↔ _
    rw [ih, ← and_assoc]
    rfl

/-- Invariant rule. What holds at the start and is preserved by every step
that meets the condition holds after every run whose steps all meet it. -/
theorem invariant_along (h0 : P s) (hstep : ∀ s e, P s → cond s e → P (step s e))
    (hl : Along step cond s l) : P (run step s l) := by
  induction l generalizing s with
  | nil => exact h0
  | cons e l ih => exact ih (hstep s e h0 hl.1) hl.2

theorem along_of_forall {C : E → Prop} (h : ∀ e ∈ l, C e) : Along step (fun _ e => C e) s l := by
  induction l generalizing s with
  | nil => trivial
  | cons e l ih => exact ⟨h e List.mem_cons_self, ih fun x hx => h x (List.mem_cons_of_mem _ hx)⟩

/-- Invariant rule, no condition. -/
theorem invariant (h0 : P s) (hstep : ∀ s e, P s → P (step s e)) (l : List E) : P (run step s l) :=
  invariant_along h0 (fun s e hs _ => hstep s e hs) (along_of_forall fun _ _ => trivial)

/-- Relation rule. A reflexive and transitive relation that every step
from a state of the invariant extends relates the two ends of a run. -/
theorem related {r : S → S → Prop} (hrefl : ∀ s, r s s) (htrans : ∀ {a b c}, r a b → r b c → r a c)
    (h0 : P s) (hstep : ∀ s e, P s → P (step s e)) (hrel : ∀ s e, P s → r s (step s e))
    (l : List E) : r s (run step s l) := by
  induction l generalizing s with
  | nil => exact hrefl s
  | cons e l ih => exact htrans (hrel s e h0) (ih (hstep s e h0))

end Run
