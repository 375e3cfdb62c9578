import Mathlib

/-!
# Worklists

Two loops over a graph that is given by the successors of every node, where a
node may be absent (`next a = none`). `mark` remembers what it has seen and
collects the nodes that it can get to; with enough fuel what it returns is closed
under successors. `walk` remembers nothing and collects the absent nodes that it
comes across, each as often as there are ways to it; it comes to its end if the ways
do.
-/

namespace Worklist

open List

variable {α : Type*} {next : α → Option (List α)}

/-- From a node that is there to one of its successors. -/
def Edge (next : α → Option (List α)) (a b : α) : Prop := ∃ succs, next a = some succs ∧ b ∈ succs

/-! ## Walking without a memory -/

/-- The absent nodes below a queue; nothing if the fuel is used up. -/
def walk (next : α → Option (List α)) : ℕ → List α → List α → Option (List α)
  | 0, _, _ => none
  | _ + 1, [], missing => some missing
  | fuel + 1, a :: queue, missing =>
    match next a with
    | some succs => walk next fuel (queue ++ succs) missing
    | none => walk next fuel queue (missing ++ [a])

/-- The nodes one step from those of a list. -/
def steps (next : α → Option (List α)) (l : List α) : List α := l.flatMap fun a => (next a).getD []

/-- The ends of the ways of so many steps from the nodes of a list. -/
def ends (next : α → Option (List α)) (d : ℕ) (l : List α) : List α := (steps next)^[d] l

/-- **The absent ends** of the ways of fewer steps, each as often as there are ways. -/
def absentEnds (next : α → Option (List α)) : ℕ → List α → List α
  | 0, _ => []
  | d + 1, l => l.filter (fun a => (next a).isNone) ++ absentEnds next d (steps next l)

/-- A round of the walk takes a queue off and puts what is one step away on. -/
theorem walk_round (next : α → Option (List α)) (l rest missing : List α) (fuel : ℕ) :
    walk next (l.length + fuel) (l ++ rest) missing = walk next fuel (rest ++ steps next l)
      (missing ++ l.filter fun a => (next a).isNone) := by
  induction l generalizing rest missing with
  | nil => simp [steps]
  | cons a l ih =>
    rw [length_cons, Nat.add_right_comm, cons_append, walk]
    cases hnext : next a <;> simp [ih, steps, hnext]

/-- A walk that returns has more fuel than there is in its queue. -/
theorem length_lt_of_walk {fuel : ℕ} {queue missing result : List α}
    (h : walk next fuel queue missing = some result) : queue.length < fuel := by
  induction fuel generalizing queue missing with
  | zero => cases h
  | succ fuel ih =>
    cases queue with
    | nil => exact Nat.succ_pos _
    | cons a queue =>
      unfold walk at h
      split at h
      · exact Nat.succ_lt_succ (lt_of_le_of_lt (by simp) (ih h))
      · exact Nat.succ_lt_succ (ih h)

/-- What the walk returns: it comes to its end if the ways do, with the absent
ends of all of them. -/
theorem exists_walk_iff {l missing result : List α} :
    (∃ fuel, walk next fuel l missing = some result) ↔
      ∃ d, ends next d l = [] ∧ result = missing ++ absentEnds next d l := by
  have hround := fun l => walk_round next l []
  simp only [append_nil, nil_append] at hround
  constructor
  · rintro ⟨fuel, h⟩
    induction fuel using Nat.strong_induction_on generalizing l missing with
    | h fuel ih =>
      obtain ⟨k, rfl⟩ := Nat.exists_eq_add_of_lt (length_lt_of_walk h)
      cases l with
      | nil => exact ⟨0, rfl, by simpa [walk, absentEnds] using h.symm⟩
      | cons a l =>
        rw [add_assoc, hround] at h
        obtain ⟨d, hd, hresult⟩ := ih (k + 1) (by simp) h
        exact ⟨d + 1, hd, by rw [hresult, append_assoc]; rfl⟩
  · rintro ⟨d, hd, rfl⟩
    induction d generalizing l missing with
    | zero => exact ⟨1, by rw [show l = [] from hd]; simp [walk, absentEnds]⟩
    | succ d ih =>
      obtain ⟨fuel, h⟩ := ih hd
      exact ⟨l.length + fuel, by rw [hround, h, append_assoc]; rfl⟩

/-- The absent ends are what is absent, where there is a way to it. -/
theorem mem_absentEnds {l : List α} {d : ℕ} (hd : ends next d l = []) {b : α} :
    b ∈ absentEnds next d l ↔
      next b = none ∧ ∃ a ∈ l, Relation.ReflTransGen (Edge next) a b := by
  have hstep : ∀ {l : List α} {c}, c ∈ steps next l ↔ ∃ a ∈ l, Edge next a c := by
    intro l c
    simp only [steps, mem_flatMap, Edge]
    refine exists_congr fun a => and_congr_right fun _ => ?_
    cases next a <;> simp
  induction d generalizing l with
  | zero =>
    obtain rfl : l = [] := hd
    simp [absentEnds]
  | succ d ih =>
    simp only [absentEnds, mem_append, mem_filter, Option.isNone_iff_eq_none, ih hd]
    constructor
    · rintro (⟨hb, habsent⟩ | ⟨habsent, c, hc, hreach⟩)
      · exact ⟨habsent, b, hb, .refl⟩
      · obtain ⟨a, ha, hedge⟩ := hstep.mp hc
        exact ⟨habsent, a, ha, hreach.head hedge⟩
    · rintro ⟨habsent, a, ha, hreach⟩
      obtain rfl | ⟨c, hedge, hreach⟩ := hreach.cases_head
      · exact .inl ⟨ha, habsent⟩
      · exact .inr ⟨habsent, c, hstep.mpr ⟨a, ha, hedge⟩, hreach⟩

/-! ## Marking -/

variable [DecidableEq α]

/-- The nodes that can be got to from a stack, with those seen before. -/
def mark (next : α → Option (List α)) : ℕ → List α → List α → List α
  | 0, _, seen => seen
  | _ + 1, [], seen => seen
  | fuel + 1, a :: stack, seen =>
    if a ∈ seen then mark next fuel stack seen
    else
      match next a with
      | none => mark next fuel stack seen
      | some succs => mark next fuel (succs.reverse ++ stack) (a :: seen)

/-- **What marking is for**: everything seen or on the stack is marked if it is
there, and so are the successors of what is marked. -/
structure Marks (next : α → Option (List α)) (stack seen marked : List α) : Prop where
  seen : seen ⊆ marked
  stack : ∀ a ∈ stack, (next a).isSome = true → a ∈ marked
  closed : ∀ a ∈ marked, ∀ b, Edge next a b → (next b).isSome = true → b ∈ marked

/-- How many of the keys have not been seen. -/
def unseen (keys seen : List α) : ℕ := (keys.toFinset \ seen.toFinset).card

theorem unseen_le (keys seen : List α) : unseen keys seen ≤ keys.length :=
  (Finset.card_le_card Finset.sdiff_subset).trans keys.toFinset_card_le

/-- A node more that has been seen is a node less to come. -/
theorem unseen_cons_lt {keys seen : List α} {a : α} (hkey : a ∈ keys) (hseen : a ∉ seen) :
    unseen keys (a :: seen) < unseen keys seen := by
  unfold unseen
  rw [toFinset_cons, Finset.sdiff_insert]
  refine Finset.card_erase_lt_of_mem (Finset.mem_sdiff.mpr ⟨?_, ?_⟩)
  · exact mem_toFinset.mpr hkey
  · exact fun h => hseen (mem_toFinset.mp h)

/-- Marking is complete. Every node that is there is one of the keys and has
at most `d` successors; then so much fuel is enough. -/
theorem mark_marks {keys : List α} {d : ℕ} (hkeys : ∀ a, (next a).isSome = true → a ∈ keys)
    (hd : ∀ a succs, next a = some succs → succs.length ≤ d) {fuel : ℕ} {stack seen : List α}
    (hfuel : stack.length + d * unseen keys seen < fuel)
    (hseen : ∀ a ∈ seen, ∀ b, Edge next a b → (next b).isSome = true → b ∈ seen ∨ b ∈ stack) :
    Marks next stack seen (mark next fuel stack seen) := by
  induction fuel generalizing stack seen with
  | zero => exact absurd hfuel (Nat.not_lt_zero _)
  | succ fuel ih =>
    cases stack with
    | nil =>
      refine ⟨Subset.refl _, nofun, fun a ha b hedge hb => ?_⟩
      exact (hseen a ha b hedge hb).resolve_right not_mem_nil
    | cons a stack =>
      rw [length_cons] at hfuel
      unfold mark
      split_ifs with ha
      · -- the node has been seen
        have hrest : Marks next stack seen (mark next fuel stack seen) :=
          ih (by omega) fun c hc b hedge hb => by
            obtain hb' | hb' := hseen c hc b hedge hb
            · exact .inl hb'
            · obtain rfl | hb' := mem_cons.mp hb'
              · exact .inl ha
              · exact .inr hb'
        exact ⟨hrest.seen, forall_mem_cons.mpr ⟨fun _ => hrest.seen ha, hrest.stack⟩,
          hrest.closed⟩
      · cases hnext : next a with
        | none =>
          have habsent : ¬ (next a).isSome = true := by rw [hnext]; exact nofun
          have hrest : Marks next stack seen (mark next fuel stack seen) :=
            ih (by omega) fun c hc b hedge hb => (hseen c hc b hedge hb).imp_right fun hb' =>
              (mem_cons.mp hb').resolve_left fun heq => habsent (by rw [← heq]; exact hb)
          exact ⟨hrest.seen, forall_mem_cons.mpr ⟨fun h => absurd h habsent, hrest.stack⟩,
            hrest.closed⟩
        | some succs =>
          have hlt := unseen_cons_lt (hkeys a (by rw [hnext]; rfl)) ha
          have hlength := hd a succs hnext
          have hmul : d * unseen keys (a :: seen) + d ≤ d * unseen keys seen := by
            rw [← Nat.mul_succ]
            exact Nat.mul_le_mul_left d hlt
          have hrest : Marks next (succs.reverse ++ stack) (a :: seen)
              (mark next fuel (succs.reverse ++ stack) (a :: seen)) :=
            ih (by rw [length_append, length_reverse]; omega) fun c hc b hedge hb => by
              obtain rfl | hc := mem_cons.mp hc
              · obtain ⟨succs', hnext', hb'⟩ := hedge
                obtain rfl : succs = succs' := Option.some.inj (hnext.symm.trans hnext')
                exact .inr (mem_append_left _ (mem_reverse.mpr hb'))
              · obtain hb' | hb' := hseen c hc b hedge hb
                · exact .inl (mem_cons_of_mem _ hb')
                · obtain rfl | hb' := mem_cons.mp hb'
                  · exact .inl mem_cons_self
                  · exact .inr (mem_append_right _ hb')
          refine ⟨fun c hc => hrest.seen (mem_cons_of_mem _ hc), ?_, hrest.closed⟩
          exact forall_mem_cons.mpr ⟨fun _ => hrest.seen mem_cons_self,
            fun c hc => hrest.stack c (mem_append_right _ hc)⟩

end Worklist
