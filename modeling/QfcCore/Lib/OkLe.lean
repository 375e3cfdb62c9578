import Mathlib

/-!
# Results that survive

`OkInto P x y` says that the computation `y` returns whatever `x` returns, and that
this has the property `P`: `x` may fail where `y` does not, and when it succeeds the
two agree. So grows a computation that looks things up when there is more to find, and
sequences and choices are monotone. `OkSat P x` is about one computation.
-/

variable {ε α β : Type} {P : α → Prop} {Q : β → Prop}

/-- What a computation returns has a property. -/
def OkSat (P : α → Prop) (x : Except ε α) : Prop := ∀ a, x = .ok a → P a

/-- `y` returns what `x` returns, which has a property. -/
def OkInto (P : α → Prop) (x y : Except ε α) : Prop := ∀ a, x = .ok a → y = .ok a ∧ P a

namespace OkInto

variable {x y : Except ε α}

theorem sat (h : OkInto P x y) : OkSat P x := fun a ha => (h a ha).2

theorem ok {a : α} (h : P a) : OkInto P (.ok a : Except ε α) (.ok a) := by
  intro b hb
  cases hb
  exact ⟨rfl, h⟩

theorem error (e : ε) : OkInto P (.error e) y := fun _ h => nomatch h

theorem any (x : Except ε α) : OkInto (fun _ => True) x x := fun _ h => ⟨h, trivial⟩

theorem bind {f g : α → Except ε β} (h : OkInto P x y) (hfg : ∀ a, P a → OkInto Q (f a) (g a)) :
    OkInto Q (x >>= f) (y >>= g) := by
  cases x with
  | error e => exact error e
  | ok a =>
    rw [(h a rfl).1]
    exact hfg a (h a rfl).2

theorem ite {p : Prop} [Decidable p] {x' y' : Except ε α} (h : OkInto P x y)
    (h' : OkInto P x' y') : OkInto P (if p then x else x') (if p then y else y') := by
  split
  · exact h
  · exact h'

end OkInto
