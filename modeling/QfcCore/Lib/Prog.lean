import Mathlib

/-!
# Programs over commands

A program is a tree: it returns, fails with an error, panics, or issues a
command and goes on with the response. What a command does is not part of the
program; it is given by a handler that answers the command in a state and
changes the state. One program can so be run against several handlers.

Two rules relate what a program does to what its commands do, and both are
proved once, by induction on the tree. *Simulation*: two handlers that answer
alike in related states, and keep them related, run every program to the same
end. *Contract*: if a program issues only commands that meet a precondition,
given that the responses meet a postcondition, then an invariant of the handler
under that contract is kept by the whole run.

Running a program is an action: a function from a state to the way the program
ends and the state it leaves. Errors and panics keep the state; an error can be
caught, a panic cannot.
-/

/-- How a computation ends. -/
inductive Outcome (ε α : Type)
  | ok (a : α)
  | err (e : ε)
  | panic
deriving DecidableEq

/-- **An action on states `S`**: the way it ends, and the state it leaves. -/
def Act (S ε α : Type) : Type := S → Outcome ε α × S

namespace Act

variable {S T ε ε' α β : Type} {f : α → Act S ε β}

instance : Monad (Act S ε) where
  pure a s := (.ok a, s)
  bind x f s :=
    match x s with
    | (.ok a, s') => f a s'
    | (.err e, s') => (.err e, s')
    | (.panic, s') => (.panic, s')

/-- The end of an action as a value: errors are caught, panics are not. -/
def attempt (x : Act S ε α) : Act S ε' (Except ε α) := fun s =>
  match x s with
  | (.ok a, s') => (.ok (.ok a), s')
  | (.err e, s') => (.ok (.error e), s')
  | (.panic, s') => (.panic, s')

/-- The action with its errors converted. -/
def mapErr (f : ε → ε') (x : Act S ε α) : Act S ε' α := fun s =>
  match x s with
  | (.ok a, s') => (.ok a, s')
  | (.err e, s') => (.err (f e), s')
  | (.panic, s') => (.panic, s')

/-- Reads the state. -/
def get : Act S ε S := fun s => (.ok s, s)

/-- Changes the state. -/
def modify (f : S → S) : Act S ε Unit := fun s => (.ok (), f s)

/-- A partial value: its absence is a panic. -/
def orPanic : Option α → Act S ε α
  | some a, s => (.ok a, s)
  | none, s => (.panic, s)

/-- A function of the state that may fail. -/
def ofExcept (f : S → Except ε α × S) : Act S ε α := fun s =>
  match f s with
  | (.ok a, s') => (.ok a, s')
  | (.error e, s') => (.err e, s')

/-! ## The steps of a run -/

variable {x : Act S ε α}

section Bind

variable {s s' : S}

theorem bind_ok (f : α → Act S ε β) {a : α} (h : x s = (.ok a, s')) : (x >>= f) s = f a s' := by
  show (match x s with | (.ok a, s') => _ | (.err e, s') => _ | (.panic, s') => _) = _
  rw [h]

theorem bind_err (f : α → Act S ε β) {e : ε} (h : x s = (.err e, s')) :
    (x >>= f) s = (.err e, s') := by
  show (match x s with | (.ok a, s') => _ | (.err e, s') => _ | (.panic, s') => _) = _
  rw [h]

theorem bind_panic (f : α → Act S ε β) (h : x s = (.panic, s')) :
    (x >>= f) s = (.panic, s') := by
  show (match x s with | (.ok a, s') => _ | (.err e, s') => _ | (.panic, s') => _) = _
  rw [h]

theorem attempt_ok (f : Except ε α → Act S ε' β) {a : α} (h : x s = (.ok a, s')) :
    (x.attempt >>= f) s = f (.ok a) s' :=
  bind_ok f (show x.attempt s = _ by rw [attempt, h])

theorem attempt_err (f : Except ε α → Act S ε' β) {e : ε} (h : x s = (.err e, s')) :
    (x.attempt >>= f) s = f (.error e) s' :=
  bind_ok f (show x.attempt s = _ by rw [attempt, h])

/-- A sequence that succeeds is two successes. -/
theorem bind_eq_ok {b : β} :
    (x >>= f) s = (.ok b, s') ↔ ∃ a s₁, x s = (.ok a, s₁) ∧ f a s₁ = (.ok b, s') := by
  rcases h : x s with ⟨o, s₁⟩
  cases o with
  | ok a =>
    rw [bind_ok f h]
    constructor
    · exact fun hf => ⟨a, s₁, rfl, hf⟩
    · rintro ⟨a', s₁', heq, hf⟩
      cases heq
      exact hf
  | err e =>
    rw [bind_err f h]
    simp
  | panic =>
    rw [bind_panic f h]
    simp

/-- A sequence that panics does so in its first part or in its second. -/
theorem bind_eq_panic :
    ((x >>= f) s).1 = .panic ↔
      (x s).1 = .panic ∨ ∃ a s₁, x s = (.ok a, s₁) ∧ (f a s₁).1 = .panic := by
  rcases h : x s with ⟨o, s₁⟩
  cases o with
  | ok a =>
    rw [bind_ok f h]
    refine ⟨fun hf => .inr ⟨a, s₁, rfl, hf⟩, ?_⟩
    rintro (hx | ⟨_, _, heq, hf⟩)
    · cases hx
    · cases heq
      exact hf
  | err e =>
    rw [bind_err f h]
    simp
  | panic =>
    rw [bind_panic f h]
    simp

theorem bind_assoc {γ : Type} (x : Act S ε α) (f : α → Act S ε β) (g : β → Act S ε γ) :
    x >>= f >>= g = x >>= fun a => f a >>= g := by
  funext s
  rcases h : x s with ⟨o, s₁⟩
  cases o with
  | ok a =>
    rw [bind_ok _ h]
    rcases hf : f a s₁ with ⟨o, s₂⟩
    have hxf := (bind_ok f h).trans hf
    cases o with
    | ok b => rw [bind_ok g hxf, bind_ok g hf]
    | err e => rw [bind_err g hxf, bind_err g hf]
    | panic => rw [bind_panic g hxf, bind_panic g hf]
  | err e => rw [bind_err _ (bind_err f h), bind_err _ h]
  | panic => rw [bind_panic _ (bind_panic f h), bind_panic _ h]

theorem mapErr_eq_ok {f : ε → ε'} {a : α} : x.mapErr f s = (.ok a, s') ↔ x s = (.ok a, s') := by
  unfold mapErr
  rcases x s with ⟨o, s₁⟩
  cases o <;> simp

end Bind

theorem ofExcept_snd (f : S → Except ε α × S) (s : S) : (ofExcept f s).2 = (f s).2 := by
  unfold ofExcept
  rcases f s with ⟨r, s'⟩
  cases r <;> rfl

/-! ## Success -/

section Succeeds

/-- **The action returns**, and what it returns and leaves is a `Q`. The lemmas
rewrite it along the structure of the action. -/
def Succeeds (x : Act S ε α) (s : S) (Q : α → S → Prop) : Prop :=
  ∃ a s', x s = (.ok a, s') ∧ Q a s'

variable {s : S} {Q : α → S → Prop}

theorem succeeds_of_eq {x : Act S ε α} {a : α} {s' : S} (hx : x s = (.ok a, s')) :
    x.Succeeds s Q ↔ Q a s' := by
  constructor
  · rintro ⟨_, _, h, hQ⟩
    cases hx.symm.trans h
    exact hQ
  · exact fun hQ => ⟨a, s', hx, hQ⟩

theorem succeeds_self {x : Act S ε α} {a : α} {s' : S} (hx : x s = (.ok a, s')) :
    x.Succeeds s (fun b t => b = a ∧ t = s') :=
  ⟨a, s', hx, rfl, rfl⟩

@[simp] theorem succeeds_pure {a : α} : (pure a : Act S ε α).Succeeds s Q ↔ Q a s :=
  succeeds_of_eq rfl

@[simp] theorem succeeds_bind {x : Act S ε β} {f : β → Act S ε α} :
    (x >>= f).Succeeds s Q ↔ x.Succeeds s (fun b s' => (f b).Succeeds s' Q) := by
  constructor
  · rintro ⟨a, s', h, hQ⟩
    obtain ⟨b, s₁, hx, hf⟩ := bind_eq_ok.mp h
    exact ⟨b, s₁, hx, a, s', hf, hQ⟩
  · rintro ⟨b, s₁, hx, a, s', hf, hQ⟩
    exact ⟨a, s', bind_eq_ok.mpr ⟨b, s₁, hx, hf⟩, hQ⟩

@[simp] theorem succeeds_get {Q : S → S → Prop} : (get : Act S ε S).Succeeds s Q ↔ Q s s :=
  succeeds_of_eq rfl

@[simp] theorem succeeds_modify {f : S → S} {Q : Unit → S → Prop} :
    (modify f : Act S ε Unit).Succeeds s Q ↔ Q () (f s) :=
  succeeds_of_eq rfl

@[simp] theorem succeeds_orPanic {o : Option α} :
    (orPanic o : Act S ε α).Succeeds s Q ↔ ∃ a, o = some a ∧ Q a s := by
  constructor
  · rintro ⟨a, s', h, hQ⟩
    cases o with
    | none => cases h
    | some b => cases h; exact ⟨_, rfl, hQ⟩
  · rintro ⟨a, rfl, hQ⟩
    exact ⟨a, s, rfl, hQ⟩

end Succeeds

/-! ## Panics -/

section Safe

/-- **The action does not panic**, and what it returns and leaves, if it
returns, is a `Q`. -/
def Safe (x : Act S ε α) (s : S) (Q : α → S → Prop) : Prop :=
  match x s with
  | (.ok a, s') => Q a s'
  | (.err _, _) => True
  | (.panic, _) => False

variable {s : S} {Q Q' : α → S → Prop}

theorem Safe.mono (h : x.Safe s Q) (hQ : ∀ a s', Q a s' → Q' a s') : x.Safe s Q' := by
  unfold Safe at *
  generalize x s = y at h ⊢
  rcases y with ⟨a | e | _, s'⟩
  · exact hQ a s' h
  · trivial
  · exact h

theorem Safe.bind {Q : β → S → Prop}
    (h : x.Safe s (fun a s' => (f a).Safe s' Q)) : (x >>= f).Safe s Q := by
  unfold Safe at h
  rcases hx : x s with ⟨a | e | _, s'⟩ <;> rw [hx] at h
  · have hf : (f a).Safe s' Q := h
    unfold Safe at hf ⊢
    rwa [bind_ok f hx]
  · rw [Safe, bind_err f hx]
    trivial
  · exact h.elim

theorem Safe.mapErr (f : ε → ε') (h : x.Safe s Q) : (x.mapErr f).Safe s Q := by
  unfold Safe Act.mapErr at *
  generalize x s = y at h ⊢
  rcases y with ⟨a | e | _, s'⟩ <;> exact h

theorem Safe.ne_panic (h : x.Safe s Q) : (x s).1 ≠ .panic := by
  unfold Safe at h
  rcases hx : x s with ⟨a | e | _, s'⟩ <;> rw [hx] at h
  · nofun
  · nofun
  · exact h.elim

theorem safe_ofExcept (f : S → Except ε α × S) (s : S) : (ofExcept f).Safe s (fun _ _ => True) := by
  unfold Safe ofExcept
  rcases f s with ⟨e | a, s'⟩ <;> trivial

end Safe

/-! ## Postconditions -/

/-- From a state in `P` the action ends as `Q` says. -/
def Triple (P : S → Prop) (x : Act S ε α) (Q : Outcome ε α → S → Prop) : Prop :=
  ∀ s, P s → Q (x s).1 (x s).2

/-- An action that keeps a property of the state, however it ends. -/
abbrev Keeps (P : S → Prop) (x : Act S ε α) : Prop := Triple P x (fun _ => P)

section Keeps

variable {P : S → Prop}

/-- Sequencing, where the property is enough if what comes first does not return. -/
theorem Keeps.bind_triple {Q : Outcome ε β → S → Prop} (hx : Keeps P x)
    (hf : ∀ a, Triple P (f a) Q) (hstop : ∀ o s, (∀ b, o ≠ .ok b) → P s → Q o s) :
    Triple P (x >>= f) Q := by
  intro s hs
  have h := hx s hs
  rcases hxs : x s with ⟨o, s'⟩
  rw [hxs] at h
  cases o with
  | ok a => rw [bind_ok f hxs]; exact hf a s' h
  | err e => rw [bind_err f hxs]; exact hstop _ s' (nofun) h
  | panic => rw [bind_panic f hxs]; exact hstop _ s' (nofun) h

theorem Keeps.bind (hx : Keeps P x) (hf : ∀ a, Keeps P (f a)) :
    Keeps P (x >>= f) :=
  hx.bind_triple hf fun _ _ _ h => h

/-- An action that keeps a property of the state if it does not return. -/
abbrev KeepsFailing (P : S → Prop) (x : Act S ε α) : Prop :=
  Triple P x (fun o s => (∀ a, o ≠ .ok a) → P s)

/-- A sequence that does not return stops in its first part or in its second. -/
theorem Keeps.bind_failing (hx : Keeps P x)
    (hf : ∀ a, KeepsFailing P (f a)) : KeepsFailing P (x >>= f) :=
  hx.bind_triple hf fun _ _ _ h _ => h

end Keeps

/-! ## Simulation -/

/-- **One action simulates another**: from related states they end alike, in
related states. -/
def Simulates (R : S → T → Prop) (x : Act S ε α) (y : Act T ε α) : Prop :=
  ∀ s t, R s t → (x s).1 = (y t).1 ∧ R (x s).2 (y t).2

namespace Simulates

variable {R : S → T → Prop} {y : Act T ε α} {g : α → Act T ε β}

theorem pure (a : α) : Simulates R (pure a : Act S ε α) (pure a) := fun _ _ h => ⟨rfl, h⟩

theorem orPanic (o : Option α) : Simulates R (orPanic o : Act S ε α) (orPanic o) := by
  cases o with
  | none | some a => exact fun _ _ h => ⟨rfl, h⟩

/-- The common end of two actions from related states. -/
theorem ends (hx : Simulates R x y) {s : S} {t : T} (hst : R s t) :
    ∃ o s' t', x s = (o, s') ∧ y t = (o, t') ∧ R s' t' :=
  ⟨(x s).1, (x s).2, (y t).2, rfl, by rw [(hx s t hst).1], (hx s t hst).2⟩

/-- Sequencing, where what comes first is known to return a `Q`. -/
theorem bind_of {Q : α → Prop} (hx : Simulates R x y) (hQ : ∀ s a s', x s = (.ok a, s') → Q a)
    (hf : ∀ a, Q a → Simulates R (f a) (g a)) : Simulates R (x >>= f) (y >>= g) := by
  intro s t hst
  obtain ⟨o, s', t', hxs, hyt, h2⟩ := hx.ends hst
  cases o with
  | ok a => rw [bind_ok f hxs, bind_ok g hyt]; exact hf a (hQ s a s' hxs) s' t' h2
  | err e => rw [bind_err f hxs, bind_err g hyt]; exact ⟨rfl, h2⟩
  | panic => rw [bind_panic f hxs, bind_panic g hyt]; exact ⟨rfl, h2⟩

theorem bind (hx : Simulates R x y) (hf : ∀ a, Simulates R (f a) (g a)) :
    Simulates R (x >>= f) (y >>= g) :=
  hx.bind_of (Q := fun _ => True) (fun _ _ _ _ => trivial) (fun a _ => hf a)

theorem ofExcept {f : S → Except ε α × S} {g : T → Except ε α × T}
    (h : ∀ s t, R s t → (f s).1 = (g t).1 ∧ R (f s).2 (g t).2) :
    Simulates R (Act.ofExcept f) (Act.ofExcept g) := by
  intro s t hst
  obtain ⟨h1, h2⟩ := h s t hst
  rw [ofExcept_snd, ofExcept_snd]
  refine ⟨?_, h2⟩
  unfold Act.ofExcept
  generalize f s = x at h1 ⊢
  generalize g t = y at h1 ⊢
  obtain ⟨r, s'⟩ := x
  obtain ⟨r', t'⟩ := y
  obtain rfl : r = r' := h1
  cases r <;> rfl

theorem attempt (hx : Simulates R x y) :
    Simulates R (Act.attempt x : Act S ε' (Except ε α)) (Act.attempt y) := by
  intro s t hst
  obtain ⟨o, s', t', hxs, hyt, h2⟩ := hx.ends hst
  unfold Act.attempt
  rw [hxs, hyt]
  cases o <;> exact ⟨rfl, h2⟩

theorem mapErr (f : ε → ε') (hx : Simulates R x y) :
    Simulates R (Act.mapErr f x) (Act.mapErr f y) := by
  intro s t hst
  obtain ⟨o, s', t', hxs, hyt, h2⟩ := hx.ends hst
  unfold Act.mapErr
  rw [hxs, hyt]
  cases o <;> exact ⟨rfl, h2⟩

end Simulates

end Act

/-- **A program** over the commands `C`, each with its type of responses. -/
inductive Prog (C : Type) (R : C → Type) (ε α : Type)
  | ret (a : α)
  | fail (e : ε)
  | panic
  | call (c : C) (k : R c → Prog C R ε α)

namespace Prog

variable {C : Type} {R : C → Type} {S T ε ε' α β : Type} {p : Prog C R ε α}
  {f : α → Prog C R ε β}

/-- Sequential composition. -/
def bind : Prog C R ε α → (α → Prog C R ε β) → Prog C R ε β
  | ret a, f => f a
  | fail e, _ => fail e
  | panic, _ => panic
  | call c k, f => call c (fun r => (k r).bind f)

instance : Monad (Prog C R ε) where
  pure := ret
  bind := bind

/-- The program of one command. -/
def send (c : C) : Prog C R ε (R c) := call c ret

/-- A response that may be an error. -/
def ofExcept : Except ε α → Prog C R ε α
  | .ok a => ret a
  | .error e => fail e

/-- A partial value: its absence is a panic. -/
def orPanic : Option α → Prog C R ε α
  | some a => ret a
  | none => panic

/-- The program with its errors converted. -/
def mapErr (f : ε → ε') : Prog C R ε α → Prog C R ε' α
  | ret a => ret a
  | fail e => fail (f e)
  | panic => panic
  | call c k => call c (fun r => (k r).mapErr f)

/-- The end of a program as a value: errors are caught, panics are not. -/
def attempt : Prog C R ε α → Prog C R ε' (Except ε α)
  | ret a => ret (.ok a)
  | fail e => ret (.error e)
  | panic => panic
  | call c k => call c (fun r => (k r).attempt)

/-- A run: every command is answered by the handler. -/
def run (exec : (c : C) → S → R c × S) : Prog C R ε α → Act S ε α
  | ret a, s => (.ok a, s)
  | fail e, s => (.err e, s)
  | panic, s => (.panic, s)
  | call c k, s => (k (exec c s).1).run exec (exec c s).2

/-- A run against commands that are actions themselves: an error or a panic of
one ends the run. -/
def interp (h : (c : C) → Act S ε (R c)) : Prog C R ε α → Act S ε α
  | ret a => pure a
  | fail e => fun s => (.err e, s)
  | panic => fun s => (.panic, s)
  | call c k => h c >>= fun r => (k r).interp h

variable (exec : (c : C) → S → R c × S) {Rel : S → T → Prop} {exec' : (c : C) → T → R c × T}
  {Q' : β → Prop}

theorem run_bind (p : Prog C R ε α) (f : α → Prog C R ε β) (s : S) :
    (p >>= f).run exec s = (p.run exec >>= fun a => (f a).run exec) s := by
  show (p.bind f).run exec s = _
  induction p generalizing s with
  | ret a | fail e | panic => rfl
  | call c k ih => exact ih _ _

/-! ## The contract rule -/

variable {exec : (c : C) → S → R c × S} {Q : α → Prop}

section Contract

variable (Pre : C → Prop) (Post : (c : C) → R c → Prop)

/-- **A program keeps to a contract**: every command it issues meets `Pre`,
provided the responses before it met `Post`, and what it returns meets `Q`. -/
def Respects (Q : α → Prop) : Prog C R ε α → Prop
  | ret a => Q a
  | fail _ => True
  | panic => True
  | call c k => Pre c ∧ ∀ r, Post c r → (k r).Respects Q

variable {Pre Post}

theorem Respects.bind (hp : p.Respects Pre Post Q) (hf : ∀ a, Q a → (f a).Respects Pre Post Q') :
    (p >>= f).Respects Pre Post Q' := by
  show (p.bind f).Respects Pre Post Q'
  induction p with
  | ret a => exact hf a hp
  | fail e | panic => trivial
  | call c k ih => exact ⟨hp.1, fun r hr => ih r (hp.2 r hr)⟩

theorem Respects.mapErr (f : ε → ε') (hp : p.Respects Pre Post Q) :
    (p.mapErr f).Respects Pre Post Q := by
  induction p with
  | ret a => exact hp
  | fail e | panic => trivial
  | call c k ih => exact ⟨hp.1, fun r hr => ih r (hp.2 r hr)⟩

theorem Respects.attempt (hp : p.Respects Pre Post Q) :
    (p.attempt : Prog C R ε' (Except ε α)).Respects Pre Post (fun _ => True) := by
  induction p with
  | ret a | fail e | panic => trivial
  | call c k ih => exact ⟨hp.1, fun r hr => ih r (hp.2 r hr)⟩

theorem Respects.orPanic (o : Option α) :
    (Prog.orPanic o : Prog C R ε α).Respects Pre Post (fun _ => True) := by
  cases o <;> trivial

/-- Two handlers that answer alike under a contract run every program that
respects it alike. -/
theorem Respects.simulates
    (h : ∀ c s t, Rel s t → Pre c → (exec c s).1 = (exec' c t).1 ∧ Post c (exec c s).1 ∧
      Rel (exec c s).2 (exec' c t).2) (hp : p.Respects Pre Post Q) :
    Act.Simulates Rel (p.run exec) (p.run exec') := by
  induction p with
  | ret a | fail e | panic => exact fun s t hst => ⟨rfl, hst⟩
  | call c k ih =>
    intro s t hst
    obtain ⟨h1, hpost, h2⟩ := h c s t hst hp.1
    show ((k (exec c s).1).run exec _).1 = ((k (exec' c t).1).run exec' _).1 ∧
      Rel ((k (exec c s).1).run exec _).2 ((k (exec' c t).1).run exec' _).2
    rw [← h1]
    exact ih _ (hp.2 _ hpost) _ _ h2

/-- A handler that keeps an invariant under a contract keeps it along the run
of a program that respects the contract. -/
theorem Respects.run {Inv : S → Prop}
    (h : ∀ c s, Inv s → Pre c → Post c (exec c s).1 ∧ Inv (exec c s).2)
    (hp : p.Respects Pre Post Q) : Act.Keeps Inv (p.run exec) := by
  -- a run beside itself
  have hsim : Act.Simulates (fun s t => s = t ∧ Inv s) (p.run exec) (p.run exec) := by
    refine hp.simulates ?_
    rintro c s t ⟨rfl, hs⟩ hc
    exact ⟨rfl, (h c s hs hc).1, rfl, (h c s hs hc).2⟩
  exact fun s hs => (hsim s s ⟨rfl, hs⟩).2.2

/-- What a program returns, if all responses meet the postcondition. -/
theorem Respects.result (h : ∀ c s, Post c (exec c s).1) (hp : p.Respects Pre Post Q) {s s' : S}
    {a : α} (hrun : p.run exec s = (.ok a, s')) : Q a := by
  induction p generalizing s with
  | ret b => cases hrun; exact hp
  | fail e | panic => cases hrun
  | call c k ih => exact ih _ (hp.2 _ (h c s)) hrun

end Contract

/-! ## What a program can return -/

/-- Every value the program can return, whatever the responses, is a `Q`. -/
abbrev Returns (Q : α → Prop) (p : Prog C R ε α) : Prop :=
  p.Respects (fun _ => True) (fun _ _ => True) Q

theorem returns_of_forall {Q : α → Prop} (hQ : ∀ a, Q a) (p : Prog C R ε α) : p.Returns Q := by
  induction p with
  | ret a => exact hQ a
  | fail e | panic => trivial
  | call c k ih => exact ⟨trivial, fun r _ => ih r⟩

/-- Handlers that answer alike run every program alike. -/
theorem run_simulates {exec : (c : C) → S → R c × S}
    (h : ∀ c s t, Rel s t → (exec c s).1 = (exec' c t).1 ∧ Rel (exec c s).2 (exec' c t).2)
    (p : Prog C R ε α) : Act.Simulates Rel (p.run exec) (p.run exec') :=
  Respects.simulates (fun c s t hst _ => ⟨(h c s t hst).1, trivial, (h c s t hst).2⟩)
    (returns_of_forall (Q := fun _ => True) (fun _ => trivial) p)

theorem interp_simulates {h : (c : C) → Act S ε (R c)} {h' : (c : C) → Act T ε (R c)}
    (hh : ∀ c, Act.Simulates Rel (h c) (h' c)) (p : Prog C R ε α) :
    Act.Simulates Rel (p.interp h) (p.interp h') := by
  induction p with
  | ret a => exact .pure a
  | fail e | panic => exact fun s t hst => ⟨rfl, hst⟩
  | call c k ih => exact (hh c).bind (fun r => ih r)

theorem Returns.interp {h : (c : C) → Act S ε (R c)} {Q : α → Prop}
    (hp : p.Returns Q) {s s' : S} {a : α} (hrun : p.interp h s = (.ok a, s')) : Q a := by
  induction p generalizing s with
  | ret b => cases hrun; exact hp
  | fail e | panic => cases hrun
  | call c k ih =>
    obtain ⟨r, s₁, -, hrun⟩ := Act.bind_eq_ok.mp hrun
    exact ih r (hp.2 r trivial) hrun

/-! ## Programs that do not panic -/

/-- **The program does not panic**, whatever the responses, and what it returns
is a `Q`. -/
def Calm (Q : α → Prop) : Prog C R ε α → Prop
  | ret a => Q a
  | fail _ => True
  | panic => False
  | call _ k => ∀ r, (k r).Calm Q

section Calm

theorem Calm.bind (hp : p.Calm Q) (hf : ∀ a, Q a → (f a).Calm Q') : (p >>= f).Calm Q' := by
  show (p.bind f).Calm Q'
  induction p with
  | ret a => exact hf a hp
  | fail e => trivial
  | panic => exact hp
  | call c k ih => exact fun r => ih r (hp r)

theorem Calm.mapErr (f : ε → ε') (hp : p.Calm Q) : (p.mapErr f).Calm Q := by
  induction p with
  | ret a | panic => exact hp
  | fail e => trivial
  | call c k ih => exact fun r => ih r (hp r)

theorem Calm.run {exec : (c : C) → S → R c × S} (hp : p.Calm Q) (s : S) :
    (p.run exec).Safe s (fun a _ => Q a) := by
  induction p generalizing s with
  | ret a | panic => exact hp
  | fail e => trivial
  | call c k ih => exact ih _ (hp _) _

/-- A sequence does not panic if its second part does not, from where the first
ends. -/
theorem safe_run_bind {exec : (c : C) → S → R c × S} {Q : β → S → Prop} {s : S}
    (h : (p.run exec).Safe s (fun a s' => ((f a).run exec).Safe s' Q)) :
    ((p >>= f).run exec).Safe s Q := by
  rw [Act.Safe, run_bind]
  exact Act.Safe.bind h

theorem Calm.interp {h : (c : C) → Act S ε (R c)} (hh : ∀ c s, (h c).Safe s (fun _ _ => True))
    (hp : p.Calm Q) (s : S) : (p.interp h).Safe s (fun a _ => Q a) := by
  induction p generalizing s with
  | ret a | panic => exact hp
  | fail e => trivial
  | call c k ih => exact .bind ((hh c s).mono fun r s' _ => ih r (hp r) s')

end Calm

/-! ## Programs that take effect as a whole -/

section Effects

/-- **The program returns**, and what it returns and leaves is a `Q`. -/
def Ensures (exec : (c : C) → S → R c × S) (p : Prog C R ε α) (s : S) (Q : α → S → Prop) : Prop :=
  (p.run exec).Succeeds s Q

theorem Ensures.pure {s : S} {Q : α → S → Prop} {a : α} (h : Q a s) :
    (pure a : Prog C R ε α).Ensures exec s Q :=
  ⟨a, s, rfl, h⟩

theorem Ensures.bind {s : S} {Q : β → S → Prop}
    (h : p.Ensures exec s (fun a s' => (f a).Ensures exec s' Q)) :
    (p >>= f).Ensures exec s Q := by
  obtain ⟨a, s₁, hp, b, s₂, hf, hQ⟩ := h
  exact ⟨b, s₂, by rw [run_bind, Act.bind_ok _ hp, hf], hQ⟩

/-- **The program takes effect as a whole or not at all.** If the condition
holds it returns, with a `Q`. If not, it does not return and the state is as
before; within the bound it does not panic either. -/
structure Decides (exec : (c : C) → S → R c × S) (p : Prog C R ε α) (s : S) (bound cond : Prop)
    (Q : α → S → Prop) : Prop where
  returns : cond → p.Ensures exec s Q
  refuses : ¬ cond → (p.run exec s).2 = s ∧ (∀ a, (p.run exec s).1 ≠ .ok a) ∧
    (bound → (p.run exec s).1 ≠ .panic)

section Decides

variable {s : S} {Q : α → S → Prop} {Q' : β → S → Prop} {bound cond cond' : Prop}

theorem Ensures.decides (h : p.Ensures exec s Q) : p.Decides exec s bound True Q :=
  ⟨fun _ => h, fun hfalse => absurd trivial hfalse⟩

theorem Decides.fail (e : ε) : (fail e : Prog C R ε α).Decides exec s bound False Q :=
  ⟨nofun, fun _ => ⟨rfl, nofun, fun _ => nofun⟩⟩

theorem Decides.panic (h : ¬ bound) : (panic : Prog C R ε α).Decides exec s bound False Q :=
  ⟨nofun, fun _ => ⟨rfl, nofun, fun hbound => absurd hbound h⟩⟩

theorem Decides.congr (hcond : cond ↔ cond') (h : p.Decides exec s bound cond Q) :
    p.Decides exec s bound cond' Q :=
  ⟨fun hc => h.returns (hcond.mpr hc), fun hc => h.refuses fun hc' => hc (hcond.mp hc')⟩

/-- It returns, or nothing has happened. -/
theorem Decides.cases (h : p.Decides exec s bound cond Q) :
    p.Ensures exec s Q ∨ ((p.run exec s).2 = s ∧ ∀ a, (p.run exec s).1 ≠ .ok a) := by
  by_cases hcond : cond
  · exact .inl (h.returns hcond)
  · exact .inr ⟨(h.refuses hcond).1, (h.refuses hcond).2.1⟩

theorem Decides.of_ok (h : p.Decides exec s bound cond Q) {a : α} {s' : S}
    (hrun : p.run exec s = (.ok a, s')) : cond ∧ Q a s' := by
  by_cases hcond : cond
  · obtain ⟨b, s₁, hb, hQ⟩ := h.returns hcond
    rw [hrun] at hb
    cases hb
    exact ⟨hcond, hQ⟩
  · exact absurd (congrArg Prod.fst hrun) ((h.refuses hcond).2.1 a)

theorem run_bind_of_not_ok (f : α → Prog C R ε β) (hne : ∀ a, (p.run exec s).1 ≠ .ok a) :
    ((p >>= f).run exec s).2 = (p.run exec s).2 ∧ (∀ b, ((p >>= f).run exec s).1 ≠ .ok b) ∧
      (((p >>= f).run exec s).1 = .panic → (p.run exec s).1 = .panic) := by
  rw [run_bind]
  rcases hp : p.run exec s with ⟨o, s₁⟩
  rw [hp] at hne
  cases o with
  | ok a => exact absurd rfl (hne a)
  | err e =>
    rw [Act.bind_err _ hp]
    exact ⟨rfl, nofun, nofun⟩
  | panic =>
    rw [Act.bind_panic _ hp]
    exact ⟨rfl, nofun, fun _ => rfl⟩

/-- A check, before what takes effect as a whole. -/
theorem Decides.check {P : α → Prop} (hp : p.Decides exec s bound cond (fun a s' => s' = s ∧ P a))
    (hf : ∀ a, P a → (f a).Decides exec s bound cond' Q') :
    (p >>= f).Decides exec s bound (cond ∧ cond') Q' := by
  by_cases hcond : cond
  · obtain ⟨a, s₁, hrun, rfl, ha⟩ := hp.returns hcond
    have heq : (p >>= f).run exec s₁ = (f a).run exec s₁ := by rw [run_bind, Act.bind_ok _ hrun]
    refine ⟨fun h => ?_, fun h => ?_⟩
    · obtain ⟨b, s₂, hb, hQ⟩ := (hf a ha).returns h.2
      exact ⟨b, s₂, heq.trans hb, hQ⟩
    · rw [heq]
      exact (hf a ha).refuses fun hc => h ⟨hcond, hc⟩
  · obtain ⟨hs, hne, hpanic⟩ := hp.refuses hcond
    obtain ⟨hs', hne', hpanic'⟩ := run_bind_of_not_ok f hne
    exact ⟨fun h => absurd h.1 hcond, fun _ => ⟨hs'.trans hs, hne', fun hb h => hpanic hb (hpanic' h)⟩⟩

theorem Decides.read {a : α} (hp : p.run exec s = (.ok a, s))
    (hf : (f a).Decides exec s bound cond Q') : (p >>= f).Decides exec s bound cond Q' :=
  .congr (iff_of_eq (true_and cond)) <| .check (P := fun b => b = a)
    (Ensures.decides ⟨a, s, hp, rfl, rfl⟩) (by rintro _ rfl; exact hf)

/-- An effect, before what is sure to return. -/
theorem Decides.bind (hp : p.Decides exec s bound cond (fun a s' => (f a).Ensures exec s' Q')) :
    (p >>= f).Decides exec s bound cond Q' := by
  refine ⟨fun h => .bind (hp.returns h), fun h => ?_⟩
  obtain ⟨hs, hne, hpanic⟩ := hp.refuses h
  obtain ⟨hs', hne', hpanic'⟩ := run_bind_of_not_ok f hne
  exact ⟨hs'.trans hs, hne', fun hb h => hpanic hb (hpanic' h)⟩

theorem Decides.mono {Q₂ : α → S → Prop} (hQ : ∀ a s', Q a s' → Q₂ a s')
    (h : p.Decides exec s bound cond Q) : p.Decides exec s bound cond Q₂ := by
  refine ⟨fun hc => ?_, h.refuses⟩
  obtain ⟨a, s', hp, ha⟩ := h.returns hc
  exact ⟨a, s', hp, hQ a s' ha⟩

theorem run_mapErr (f : ε → ε') (p : Prog C R ε α) (s : S) :
    (p.mapErr f).run exec s = Act.mapErr f (p.run exec) s := by
  induction p generalizing s with
  | ret a | fail e | panic => rfl
  | call c k ih => exact ih _ _

theorem Decides.mapErr {f : ε → ε'} (h : p.Decides exec s bound cond Q) :
    (p.mapErr f).Decides exec s bound cond Q := by
  refine ⟨fun hc => ?_, fun hc => ?_⟩
  · obtain ⟨a, s', hp, hQ⟩ := h.returns hc
    exact ⟨a, s', by rw [run_mapErr, Act.mapErr, hp], hQ⟩
  · obtain ⟨hs, hne, hpanic⟩ := h.refuses hc
    rw [run_mapErr, Act.mapErr]
    rcases hp : p.run exec s with ⟨o, s'⟩
    rw [hp] at hs hne hpanic
    cases o with
    | ok a => exact absurd rfl (hne a)
    | err e => exact ⟨hs, nofun, fun _ => nofun⟩
    | panic => exact ⟨hs, nofun, fun hb => absurd rfl (hpanic hb)⟩

end Decides

end Effects

end Prog
