import QfcCore.Ps.Service

/-!
# The barrier

At the barrier the buffered ranges are dealt with one after the other, and each
changes the store. Since no two registered ranges have a key in common, every
parameter is changed by the difference for its own range, once, and what is in no
range stays (`Shifts`). The loop gets that far if the rule has a result for every
range with enough updates (`aggregateRanges_ok`), and only then
(`aggregate_of_aggregateRanges`).

The registered ranges have no key in common because they are sorted and neighbours
do not overlap (`before_of_sorted`). This needs that every range ends after it
begins, which `new` does not check.
-/

namespace Qfc.Ps

open List

variable {V H : Type} {A : Arithmetic V}

namespace ShardService

/-- Two ranges without a key in common. -/
def Apart (r r' : ParamRange) : Prop := ∀ key, r.contains key = true → r'.contains key = false

instance : Std.Symm Apart where
  symm r r' h key hkey := by
    cases hr : r.contains key with
    | false => rfl
    | true => rw [h key hr] at hkey; cases hkey

variable (rule : AggregationRule V) (buffer : UpdateBuffer V) (range : ParamRange)

/-- The difference for a range: nothing if there are too few updates. -/
def difference : Option (List V) :=
  if (buffer.updatesFor range).length < rule.minUpdates then none
  else (rule.aggregate (buffer.updatesFor range) range).toOption

/-- A parameter with its part of a difference for a range. -/
def shifted (A : Arithmetic V) (difference : Option (List V)) (range : ParamRange) (key : ℕ)
    (value : V) : V :=
  (difference.bind (fun delta => delta[key - range.start]?)).elim value (A.add value)

/-- **Every range is changed by its own difference**, and nothing else is. -/
structure Shifts (A : Arithmetic V) (rule : AggregationRule V) (buffer : UpdateBuffer V)
    (ranges : List ParamRange) (store store' : ShardStore V) : Prop where
  owned : store'.ownedRange = store.ownedRange
  inside : ∀ range ∈ ranges, ∀ key, range.contains key = true →
    store'.param A key = shifted A (difference rule buffer range) range key (store.param A key)
  outside : ∀ key, (∀ range ∈ ranges, range.contains key = false) →
    store'.param A key = store.param A key

/-- A range can be dealt with: if it has enough updates, they come to a value for
every key. -/
def Computes : Prop :=
  ¬ (buffer.updatesFor range).length < rule.minUpdates →
    ∃ delta, rule.aggregate (buffer.updatesFor range) range = .ok delta ∧
      delta.length = range.len

variable {rule : AggregationRule V} {buffer : UpdateBuffer V}

theorem Shifts.cons {range : ParamRange} {rest : List ParamRange}
    {store store₁ store₂ : ShardStore V} (howned : store₁.ownedRange = store.ownedRange)
    (hparam : ∀ key, store₁.param A key = if range.contains key then
      shifted A (difference rule buffer range) range key (store.param A key)
      else store.param A key) (hapart : ∀ r ∈ rest, Apart range r)
    (h : Shifts A rule buffer rest store₁ store₂) :
    Shifts A rule buffer (range :: rest) store store₂ where
  owned := h.owned.trans howned
  inside r hr key hkey := by
    obtain rfl | hr := mem_cons.mp hr
    · rw [h.outside key fun r' hr' => hapart r' hr' key hkey, hparam, if_pos hkey]
    · have hnot := Std.Symm.symm _ _ (hapart r hr) key hkey
      rw [h.inside r hr key hkey, hparam, if_neg (Bool.eq_false_iff.mp hnot)]
  outside key hkey := by
    have hnot := hkey range mem_cons_self
    rw [h.outside key fun r hr => hkey r (mem_cons_of_mem _ hr), hparam,
      if_neg (Bool.eq_false_iff.mp hnot)]

variable {ranges : List ParamRange}

/-- **The loop over the ranges**, if all of them can be dealt with. -/
theorem aggregateRanges_ok {store : ShardStore V}
    (hcomputes : ∀ range ∈ ranges, Computes rule buffer range)
    (howned : ∀ range ∈ ranges, store.ownedRange.covers range = true)
    (hapart : ranges.Pairwise Apart) :
    ∃ store', aggregateRanges A rule buffer ranges store = (.ok (), store') ∧
      Shifts A rule buffer ranges store store' := by
  induction ranges generalizing store with
  | nil => exact ⟨store, rfl, rfl, nofun, fun _ _ => rfl⟩
  | cons range rest ih =>
    obtain ⟨hrest, hpairs⟩ := pairwise_cons.mp hapart
    have hcomputes' : ∀ r ∈ rest, Computes rule buffer r :=
      fun r hr => hcomputes r (mem_cons_of_mem _ hr)
    unfold aggregateRanges
    dsimp only
    by_cases hthin : (buffer.updatesFor range).length < rule.minUpdates
    · rw [if_pos hthin]
      obtain ⟨store', hrun, hshifts⟩ := ih hcomputes'
        (fun r hr => howned r (mem_cons_of_mem _ hr)) hpairs
      refine ⟨store', hrun, hshifts.cons rfl (fun key => ?_) hrest⟩
      rw [difference, if_pos hthin]
      exact (ite_self _).symm
    · obtain ⟨delta, hdelta, hlength⟩ := hcomputes range mem_cons_self hthin
      rw [if_neg hthin, hdelta]
      obtain ⟨store₁, happly, howned₁, hparam⟩ := ShardStore.param_modifyRange (A := A)
        (f := A.add) (howned range mem_cons_self) hlength
      have howned' : ∀ r ∈ rest, store₁.ownedRange.covers r = true := by
        rw [howned₁]
        exact fun r hr => howned r (mem_cons_of_mem _ hr)
      obtain ⟨store', hrun, hshifts⟩ := ih hcomputes' howned' hpairs
      have happly : store.applyDelta A range delta = (.ok (), store₁) := happly
      dsimp only
      rw [happly]
      refine ⟨store', hrun, hshifts.cons howned₁ (fun key => ?_) hrest⟩
      rw [hparam, difference, if_neg hthin, hdelta]
      rfl

/-- A loop that comes to its end has dealt with all ranges. -/
theorem aggregate_of_aggregateRanges {store store' : ShardStore V}
    (hrun : aggregateRanges A rule buffer ranges store = (.ok (), store')) (range : ParamRange)
    (hrange : range ∈ ranges) (henough : ¬ (buffer.updatesFor range).length < rule.minUpdates) :
    ∃ delta, rule.aggregate (buffer.updatesFor range) range = .ok delta := by
  induction ranges generalizing store with
  | nil => cases hrange
  | cons first rest ih =>
    unfold aggregateRanges at hrun
    dsimp only at hrun
    obtain rfl | hrange := mem_cons.mp hrange
    · rw [if_neg henough] at hrun
      split at hrun
      · cases hrun
      next delta hdelta => exact ⟨delta, hdelta⟩
    · split at hrun
      · exact ih hrun hrange
      · split at hrun
        · cases hrun
        · split at hrun
          · cases hrun
          · exact ih hrun hrange
/-! ## Registered ranges -/

/-- Ranges in order of which neighbours do not overlap: each ends before the next
ones begin. -/
theorem before_of_sorted {l : List ParamRange} (hsorted : l.Pairwise ParamRange.Le)
    (hpairs : ∀ pair ∈ l.zip l.tail, pair.1.overlaps pair.2 = false)
    (hrange : ∀ r ∈ l, r.start < r.stop) :
    l.Pairwise (fun r r' => r.stop ≤ r'.start) := by
  induction l with
  | nil => exact .nil
  | cons r rest ih =>
    obtain ⟨hle, hsorted⟩ := pairwise_cons.mp hsorted
    cases rest with
    | nil => exact pairwise_singleton _ _
    | cons next rest =>
      have hbefore := ih hsorted (fun pair hpair => hpairs pair (mem_cons_of_mem _ hpair))
        (fun r' hr' => hrange r' (mem_cons_of_mem _ hr'))
      have hr := hrange r mem_cons_self
      have hnext := hrange next (mem_cons_of_mem _ mem_cons_self)
      have hneighbours : r.stop ≤ next.start := by
        have hoverlaps : r.overlaps next = false := hpairs (r, next) mem_cons_self
        have hle : ParamRange.Le r next := hle next mem_cons_self
        simp only [ParamRange.overlaps, Bool.and_eq_false_iff, decide_eq_false_iff_not] at hoverlaps
        unfold ParamRange.Le at hle
        omega
      refine pairwise_cons.mpr ⟨fun r' hr' => ?_, hbefore⟩
      obtain rfl | hr' := mem_cons.mp hr'
      · exact hneighbours
      · have := (pairwise_cons.mp hbefore).1 r' hr'
        omega

theorem apart_of_before {r r' : ParamRange} (h : r.stop ≤ r'.start) : Apart r r' := by
  intro key hkey
  simp only [ParamRange.contains, Bool.and_eq_true, decide_eq_true_eq] at hkey
  simp only [ParamRange.contains, Bool.and_eq_false_iff, decide_eq_false_iff_not]
  omega

theorem mem_sortedRanges {r : ParamRange} (h : r ∈ sortedRanges ranges) : r ∈ ranges :=
  (mem_insertionSort _).mp ((destutter_sublist _ _).mem h)

end ShardService

end Qfc.Ps
