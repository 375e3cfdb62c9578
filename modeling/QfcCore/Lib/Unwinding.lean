import QfcCore.Lib.Run

/-!
# Unwinding

Some of the events of a run are kept and the others are erased. If a relation
between states survives a kept event on both sides and an erased event on one
side, then it relates the end of the run to the end of the run of the kept
events alone. This is how two runs that differ in the requests of one party are
compared.
-/

namespace Run

variable {S E : Type*} {step : S → E → S} {cond cond' : S → E → Prop} {keep : E → Bool}
  {R : S → S → Prop} {events : List E} {s : S}

/-- A condition may be exchanged for one that follows from it at the events of
the run. -/
theorem Along.imp (hl : Along step cond s events) (himp : ∀ e ∈ events, ∀ s, cond s e → cond' s e) :
    Along step cond' s events := by
  induction events generalizing s with
  | nil => trivial
  | cons e events ih =>
    exact ⟨himp e List.mem_cons_self s hl.1,
      ih hl.2 fun x hx => himp x (List.mem_cons_of_mem _ hx)⟩

/-- A condition may be exchanged for one that follows from it in the states of an
invariant. -/
theorem Along.of_invariant {P : S → Prop} (hl : Along step cond s events) (h0 : P s)
    (hstep : ∀ s e, P s → cond s e → P (step s e)) (himp : ∀ s e, P s → cond s e → cond' s e) :
    Along step cond' s events := by
  induction events generalizing s with
  | nil => trivial
  | cons e events ih => exact ⟨himp s e h0 hl.1, ih hl.2 (hstep s e h0 hl.1)⟩

/-- Unwinding rule. The condition is read in the run of all the events. -/
theorem unwinding {t : S} (h0 : R s t)
    (hkept : ∀ s t e, keep e = true → cond s e → R s t → R (step s e) (step t e))
    (herased : ∀ s t e, keep e = false → cond s e → R s t → R (step s e) t)
    (hl : Along step cond s events) : R (run step s events) (run step t (events.filter keep)) := by
  induction events generalizing s t with
  | nil => exact h0
  | cons e events ih =>
    cases he : keep e with
    | true =>
      rw [List.filter_cons_of_pos he]
      exact ih (hkept s t e he hl.1 h0) hl.2
    | false =>
      rw [List.filter_cons_of_neg (by rw [he]; exact Bool.false_ne_true)]
      exact ih (herased s t e he hl.1 h0) hl.2

end Run
