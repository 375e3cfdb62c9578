import QfcCore.Ps.Types

/-!
# Aggregation

`qfc-ps/src/aggregate.rs`. During an epoch the updates are buffered, one entry for
a worker and a range: what a worker pushes for a range a second time is added to
its entry. At the end of the epoch a rule reduces the entries of a range to one
list of differences.

The rule in use is the trimmed mean. It sorts the values of every key, drops some
on both sides and takes the mean of the rest. The number dropped is a rounded
fraction of the number of workers, so that there can be nothing left, and that is
not monotone: five workers can be enough where six are not.
-/

namespace Qfc.Ps

/-- How updates become one. -/
structure AggregationRule (V : Type) where
  aggregate : List (ParamUpdate V) → ParamRange → Except PsError (List V)
  minUpdates : ℕ

/-! ## The trimmed mean -/

namespace TrimmedMean

variable {V : Type} (A : Arithmetic V) (beta : Beta) (updates : List (ParamUpdate V))

/-- A fraction in range. -/
def new : Except PsError Beta :=
  if beta.inRange then .ok beta
  else .error (.aggregation ("trim beta " ++ beta.display ++ " outside [0, 0.5)"))

/-- `check_inputs`: the number of keys. -/
def checkInputs (range : ParamRange) : Except PsError ℕ :=
  if updates = [] then .error (.aggregation ("no updates to aggregate for " ++ range.display))
  else check updates
where
  check : List (ParamUpdate V) → Except PsError ℕ
    | [] => .ok range.len
    | u :: rest =>
      if u.range ≠ range then
        .error (.aggregation ("update range " ++ u.range.display ++ " != aggregation range "
          ++ range.display))
      else if u.values.length ≠ range.len then
        .error (.aggregation ("value count " ++ toString u.values.length ++ " != range length "
          ++ toString range.len ++ " for " ++ range.display))
      else check rest

/-- What is left of so many values. -/
def kept (n : ℕ) : ℕ := n - 2 * beta.trim n

/-- The values of a key, sorted. -/
def column (j : ℕ) : List V :=
  (updates.map (fun u => u.values.getD j A.zero)).insertionSort (fun v w => A.totalLe v w = true)

/-- The mean of what is left, coordinate by coordinate. -/
def aggregate (range : ParamRange) : Except PsError (List V) := do
  let dim ← checkInputs updates range
  let n := updates.length
  if kept beta n = 0 then
    .error (.aggregation ("trimmed mean over n = " ++ toString n ++ " updates with beta = "
      ++ beta.display ++ " trims " ++ toString (beta.trim n)
      ++ " per side and leaves nothing; caller must assign enough workers per range (ADR-0003)"))
  else
    return (List.range dim).map fun j =>
      A.mean (((column A updates j).take (n - beta.trim n)).drop (beta.trim n)) (kept beta n)

/-- `TrimmedMean::min_updates`: the first number of which something is left. -/
def minUpdates : ℕ :=
  ((List.range' 1 (2 ^ 64 - 1)).find? (fun n => 1 ≤ kept beta n)).getD 0

/-- The trimmed mean. -/
def rule : AggregationRule V := ⟨aggregate A beta, minUpdates beta⟩

variable {A}

/-- The updates are for the range. -/
def Fits (updates : List (ParamUpdate V)) (range : ParamRange) : Prop :=
  ∀ u ∈ updates, u.range = range ∧ u.values.length = range.len

variable {updates : List (ParamUpdate V)} {range : ParamRange}

theorem checkInputs_of_fits (hne : updates ≠ []) (hfits : Fits updates range) :
    checkInputs updates range = .ok range.len := by
  have hcheck (l : List (ParamUpdate V)) (hl : Fits l range) :
      checkInputs.check range l = .ok range.len := by
    induction l with
    | nil => rfl
    | cons u rest ih =>
      obtain ⟨hrange, hlength⟩ := hl u List.mem_cons_self
      rw [checkInputs.check, if_neg (not_not.mpr hrange), if_neg (not_not.mpr hlength)]
      exact ih fun v hv => hl v (List.mem_cons_of_mem _ hv)
  rw [checkInputs, if_neg hne]
  exact hcheck updates hfits

/-- The trimmed mean of updates for a range is one value for every key, as
long as something is left. -/
theorem aggregate_ok {beta : Beta} (hne : updates ≠ []) (hfits : Fits updates range)
    (hkept : 1 ≤ kept beta updates.length) :
    ∃ delta, aggregate A beta updates range = .ok delta ∧ delta.length = range.len := by
  unfold aggregate
  rw [checkInputs_of_fits hne hfits]
  show ∃ delta, (if kept beta updates.length = 0 then _ else _) = _ ∧ _
  rw [if_neg (by omega)]
  exact ⟨_, rfl, by rw [List.length_map, List.length_range]⟩

theorem aggregate_error {beta : Beta} (hkept : kept beta updates.length = 0) (delta : List V) :
    aggregate A beta updates range ≠ .ok delta := by
  unfold aggregate
  cases checkInputs updates range with
  | error e => exact nofun
  | ok dim =>
    show (if kept beta updates.length = 0 then _ else _) ≠ _
    rw [if_pos hkept]
    exact nofun

theorem minUpdates_pos {beta : Beta} (h : beta.inRange = true) : 1 ≤ minUpdates beta := by
  obtain ⟨n, hn, hlt, hkept⟩ := beta.viable h
  unfold minUpdates
  cases hfind : (List.range' 1 (2 ^ 64 - 1)).find? (fun n => 1 ≤ kept beta n) with
  | none =>
    have hnone := List.find?_eq_none.mp hfind n (by rw [List.mem_range'_1]; omega)
    exact absurd (decide_eq_true hkept) hnone
  | some m =>
    have hmem := List.mem_of_find?_eq_some hfind
    rw [List.mem_range'_1] at hmem
    exact hmem.1

end TrimmedMean

/-! ## The buffer -/

/-- Changes the first element of a list that meets a condition. -/
def modifyFirst {α : Type} (p : α → Bool) (f : α → α) : List α → List α
  | [] => []
  | a :: l => if p a then f a :: l else a :: modifyFirst p f l

namespace ParamUpdate

variable {V : Type} (A : Arithmetic V)

/-- The values are added to those of the entry, which may have more. -/
def addInto (entry values : List V) : List V :=
  List.zipWith A.add entry values ++ entry.drop values.length

/-- What becomes of the entry of a worker with a further update. -/
def accumulate (existing update : ParamUpdate V) : ParamUpdate V :=
  { existing with
    values := addInto A existing.values update.values
    clock := update.clock
    flopsEstimated := satAdd64 existing.flopsEstimated update.flopsEstimated }

end ParamUpdate

/-- **The buffer of an epoch.** -/
structure UpdateBuffer (V : Type) where
  maxWorkersPerRange : ℕ
  buffered : AList (fun _ : ParamRange => List (ParamUpdate V))

namespace UpdateBuffer

variable {V : Type} (A : Arithmetic V)

/-- An empty buffer. -/
def new (maxWorkersPerRange : ℕ) : UpdateBuffer V := ⟨maxWorkersPerRange, ∅⟩

variable (b : UpdateBuffer V) (range : ParamRange)

/-- The entries of a range. -/
def entries : List (ParamUpdate V) :=
  (b.buffered.lookup range).getD []

/-- `buffered.entry(range).or_default()`. -/
def orDefault : UpdateBuffer V :=
  if range ∈ b.buffered then b else { b with buffered := b.buffered.insert range [] }

/-- The buffer with other entries for a range. -/
def setEntries (l : List (ParamUpdate V)) : UpdateBuffer V :=
  { b with buffered := b.buffered.insert range l }

/-- `add`. An error comes after the range has got its place. -/
def add (update : ParamUpdate V) : Except PsError Unit × UpdateBuffer V :=
  match update.validate A with
  | .error e => (.error e, b)
  | .ok () =>
    let entry := b.entries update.range
    match entry.find? (fun u => u.worker = update.worker) with
    | some existing =>
      if update.clock ≤ existing.clock then
        (.error (.invalidUpdate ("duplicate or regressed clock " ++ toString update.clock ++ " from "
          ++ update.worker.display ++ " for " ++ update.range.display ++ " (last accumulated clock "
          ++ toString existing.clock ++ ")")), b.orDefault update.range)
      else
        (.ok (), b.setEntries update.range
          (modifyFirst (fun u => u.worker = update.worker) (fun u => u.accumulate A update) entry))
    | none =>
      if 0 < b.maxWorkersPerRange ∧ b.maxWorkersPerRange ≤ entry.length then
        (.error (.workerCapExceeded b.maxWorkersPerRange), b.orDefault update.range)
      else (.ok (), b.setEntries update.range (entry ++ [update]))

/-- `updates_for`: sorted by the worker. -/
def updatesFor : List (ParamUpdate V) :=
  (b.entries range).insertionSort (fun u v => u.worker.bytes.toList ≤ v.worker.bytes.toList)

/-- `ranges`, sorted. -/
def ranges : List ParamRange := b.buffered.keys.insertionSort ParamRange.Le

/-- Drops the updates. -/
def clear : UpdateBuffer V := { b with buffered := ∅ }

end UpdateBuffer

end Qfc.Ps
