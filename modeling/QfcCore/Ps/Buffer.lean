import QfcCore.Ps.Aggregate

/-!
# What is buffered

The entry of a worker for a range is the sum of what the worker pushed for it,
folded in the order of the pushes (`accumulated`, `elementwiseSum`). An update that
the buffer accepts goes into the entry of its worker, and no other entry changes
(`entryOf_add`); one that it does not accept changes nothing (`add_error`). A range
holds each worker once, and no more of them than the cap (`Capped`).
-/

namespace Qfc.Ps

open List

variable {V : Type} {A : Arithmetic V} {range : ParamRange} {worker : Address}

/-! ## Sums of updates -/

/-- The updates of a worker. -/
def byWorker (worker : Address) (history : List (ParamUpdate V)) : List (ParamUpdate V) :=
  history.filter (fun u => u.worker = worker)

/-- The updates of a worker for a range. -/
def pushesOn (range : ParamRange) (worker : Address) (history : List (ParamUpdate V)) :
    List (ParamUpdate V) :=
  history.filter (fun u => u.range = range ∧ u.worker = worker)

/-- The entry that updates come to. -/
def accumulated (A : Arithmetic V) (pushes : List (ParamUpdate V)) : Option (ParamUpdate V) :=
  pushes.foldl (fun entry u => some (entry.elim u (fun e => e.accumulate A u))) none

/-- **The element-wise sum** of lists of values, from the first on. -/
def elementwiseSum (A : Arithmetic V) : List (List V) → Option (List V)
  | [] => none
  | values :: rest => some (rest.foldl (zipWith A.add) values)

@[simp] theorem accumulated_concat (pushes : List (ParamUpdate V)) (u : ParamUpdate V) :
    accumulated A (pushes ++ [u])
      = some ((accumulated A pushes).elim u (fun e => e.accumulate A u)) := by
  rw [accumulated, foldl_append]
  rfl

theorem elementwiseSum_concat (l : List (List V)) (values : List V) :
    elementwiseSum A (l ++ [values])
      = some ((elementwiseSum A l).elim values (fun sum => zipWith A.add sum values)) := by
  cases l with
  | nil => rfl
  | cons first rest => simp [elementwiseSum]

/-- Updates for a range come to an entry for the range, whose values are their
sum. -/
theorem accumulated_values {pushes : List (ParamUpdate V)}
    (h : ∀ u ∈ pushes, u.range = range ∧ u.worker = worker ∧ u.values.length = range.len) :
    (accumulated A pushes).map (fun e => e.values) = elementwiseSum A (pushes.map (fun u => u.values)) ∧
      ∀ e, accumulated A pushes = some e →
        e.range = range ∧ e.worker = worker ∧ e.values.length = range.len := by
  induction pushes using reverseRecOn with
  | nil => exact ⟨rfl, nofun⟩
  | append_singleton pushes u ih =>
    obtain ⟨hsum, hentry⟩ := ih fun v hv => h v (mem_append_left _ hv)
    have hu := h u (mem_append_right _ mem_cons_self)
    rw [accumulated_concat, map_append, map_singleton, elementwiseSum_concat, ← hsum]
    cases hacc : accumulated A pushes with
    | none =>
      refine ⟨rfl, fun e he => ?_⟩
      cases he
      exact hu
    | some entry =>
      obtain ⟨hrange, hworker, hlength⟩ := hentry entry hacc
      have hvalues : ParamUpdate.addInto A entry.values u.values
          = zipWith A.add entry.values u.values := by
        rw [ParamUpdate.addInto, drop_of_length_le (by rw [hlength, hu.2.2]), append_nil]
      refine ⟨congrArg some hvalues, fun e he => ?_⟩
      cases he
      refine ⟨hrange, hworker, ?_⟩
      show (ParamUpdate.addInto A entry.values u.values).length = range.len
      rw [hvalues, length_zipWith, hlength, hu.2.2, Nat.min_self]

theorem pushesOn_concat (range : ParamRange) (worker : Address) (history : List (ParamUpdate V))
    (u : ParamUpdate V) :
    pushesOn range worker (history ++ [u])
      = if u.range = range ∧ u.worker = worker then pushesOn range worker history ++ [u]
        else pushesOn range worker history := by
  unfold pushesOn
  rw [filter_append]
  by_cases h : u.range = range ∧ u.worker = worker
  · simp [h]
  · rw [if_neg h, filter_cons_of_neg (by simpa using h), filter_nil, append_nil]

theorem byWorker_concat (worker : Address) (history : List (ParamUpdate V)) (u : ParamUpdate V) :
    byWorker worker (history ++ [u])
      = if u.worker = worker then byWorker worker history ++ [u] else byWorker worker history := by
  unfold byWorker
  rw [filter_append]
  by_cases h : u.worker = worker
  · simp [h]
  · rw [if_neg h, filter_cons_of_neg (by simpa using h), filter_nil, append_nil]

/-! ## The buffer -/

section ModifyFirst

variable {p : ParamUpdate V → Bool} {f : ParamUpdate V → ParamUpdate V} {l : List (ParamUpdate V)}

theorem map_worker_modifyFirst (hf : ∀ u, (f u).worker = u.worker) :
    (modifyFirst p f l).map (fun u => u.worker) = l.map (fun u => u.worker) := by
  induction l with
  | nil => rfl
  | cons u l ih =>
    unfold modifyFirst
    split
    · rw [map_cons, map_cons, hf]
    · rw [map_cons, map_cons, ih]

theorem find?_modifyFirst (hf : ∀ u, (f u).worker = u.worker) (other : Address) :
    (modifyFirst (fun u => u.worker = worker) f l).find? (fun u => u.worker = other)
      = if other = worker then (l.find? (fun u => u.worker = other)).map f
        else l.find? (fun u => u.worker = other) := by
  induction l with
  | nil => simp [modifyFirst]
  | cons u l ih =>
    unfold modifyFirst
    by_cases hu : u.worker = worker
    · rw [if_pos (decide_eq_true hu), find?_cons, find?_cons, hf]
      by_cases hother : u.worker = other
      · rw [decide_eq_true hother, if_pos (hother.symm.trans hu)]
        rfl
      · rw [decide_eq_false hother, if_neg (fun h => hother (hu.trans h.symm))]
    · rw [if_neg (by simpa using hu), find?_cons, find?_cons, ih]
      by_cases hother : u.worker = other
      · have hne : other ≠ worker := fun h => hu (hother.trans h)
        simp [hother, hne]
      · rw [decide_eq_false hother]

end ModifyFirst

namespace UpdateBuffer

variable {b b' : UpdateBuffer V} {u : ParamUpdate V}

theorem entries_setEntries (b : UpdateBuffer V) (range : ParamRange) (l : List (ParamUpdate V))
    (other : ParamRange) :
    (b.setEntries range l).entries other = if other = range then l else b.entries other := by
  unfold entries setEntries
  by_cases h : other = range
  · rw [if_pos h, h, AList.lookup_insert, Option.getD_some]
  · rw [if_neg h, AList.lookup_insert_ne h]

theorem orDefault_of_entries (h : b.entries range ≠ []) : b.orDefault range = b := by
  refine if_pos ?_
  rw [← AList.lookup_isSome]
  unfold entries at h
  cases hlookup : b.buffered.lookup range with
  | none => rw [hlookup] at h; exact absurd rfl h
  | some l => rfl

/-- **An update that is not added changes nothing**, as long as there is a cap. -/
theorem add_error (hcap : 0 < b.maxWorkersPerRange) {e : PsError}
    (hadd : b.add A u = (.error e, b')) : b' = b := by
  unfold add at hadd
  split at hadd
  · cases hadd
    rfl
  dsimp only at hadd
  split at hadd
  next existing hfind =>
    have hne : b.entries u.range ≠ [] := ne_nil_of_mem (mem_of_find?_eq_some hfind)
    split at hadd
    · cases hadd
      exact orDefault_of_entries hne
    · cases hadd
  · split at hadd
    next hfull =>
      cases hadd
      refine orDefault_of_entries fun hnil => ?_
      rw [hnil, length_nil] at hfull
      omega
    · cases hadd

/-- What an update adds: to the entry of its worker, or as a new entry. -/
theorem add_ok (hadd : b.add A u = (.ok (), b')) :
    ∃ l, b' = b.setEntries u.range l ∧
      ((∃ existing, (b.entries u.range).find? (fun v => v.worker = u.worker) = some existing ∧
        l = modifyFirst (fun v => v.worker = u.worker) (fun v => v.accumulate A u)
          (b.entries u.range)) ∨
      (b.entries u.range).find? (fun v => v.worker = u.worker) = none ∧
        (0 < b.maxWorkersPerRange → (b.entries u.range).length < b.maxWorkersPerRange) ∧
        l = b.entries u.range ++ [u]) := by
  unfold add at hadd
  split at hadd
  · cases hadd
  dsimp only at hadd
  split at hadd
  next existing hfind =>
    split at hadd
    · cases hadd
    · cases hadd
      exact ⟨_, rfl, .inl ⟨existing, hfind, rfl⟩⟩
  next hfind =>
    split at hadd
    · cases hadd
    next hroom =>
      cases hadd
      exact ⟨_, rfl, .inr ⟨hfind, fun hcap => by omega, rfl⟩⟩

/-- The entry of a worker for a range. -/
def entryOf (b : UpdateBuffer V) (range : ParamRange) (worker : Address) :
    Option (ParamUpdate V) :=
  (b.entries range).find? (fun v => v.worker = worker)

/-- The entry of the worker gets the update, and all others stay. -/
theorem entryOf_add (hadd : b.add A u = (.ok (), b')) (range : ParamRange) (worker : Address) :
    b'.entryOf range worker
      = if u.range = range ∧ u.worker = worker then
          some ((b.entryOf range worker).elim u (fun e => e.accumulate A u))
        else b.entryOf range worker := by
  obtain ⟨l, rfl, hl⟩ := add_ok hadd
  unfold entryOf
  rw [entries_setEntries]
  by_cases hrange : u.range = range
  · subst hrange
    rw [if_pos rfl]
    obtain ⟨existing, hfind, rfl⟩ | ⟨hfind, -, rfl⟩ := hl
    · rw [find?_modifyFirst (f := fun v => v.accumulate A u) (fun _ => rfl)]
      by_cases hworker : u.worker = worker
      · subst hworker
        rw [if_pos rfl, if_pos ⟨rfl, rfl⟩, hfind]
        rfl
      · rw [if_neg (Ne.symm hworker), if_neg (fun h => hworker h.2)]
    · rw [find?_append]
      by_cases hworker : u.worker = worker
      · subst hworker
        rw [if_pos ⟨rfl, rfl⟩, hfind]
        simp
      · rw [if_neg (fun h => hworker h.2)]
        simp [hworker]
  · rw [if_neg (Ne.symm hrange), if_neg (fun h => hrange h.1)]

/-- A buffer in which a range holds each worker once, and no more than the cap. -/
structure Capped (b : UpdateBuffer V) : Prop where
  cap : 0 < b.maxWorkersPerRange
  workers : ∀ range, ((b.entries range).map (fun u => u.worker)).Nodup
  length_le : ∀ range, (b.entries range).length ≤ b.maxWorkersPerRange
  keys : ∀ range ∈ b.buffered, b.entries range ≠ []

theorem capped_new {cap : ℕ} (hcap : 0 < cap) : (new cap : UpdateBuffer V).Capped where
  cap := hcap
  workers _ := nodup_nil
  length_le _ := Nat.zero_le _
  keys range h := absurd h (AList.notMem_empty range)

theorem Capped.add (hb : b.Capped) (hadd : b.add A u = (.ok (), b')) : b'.Capped := by
  obtain ⟨l, rfl, hl⟩ := add_ok hadd
  -- the entries of the range have their workers, and there is one
  obtain ⟨hworkers, hlength, hne⟩ : (l.map (fun v => v.worker)).Nodup ∧
      l.length ≤ b.maxWorkersPerRange ∧ l ≠ [] := by
    obtain ⟨existing, hfind, rfl⟩ | ⟨hfind, hroom, rfl⟩ := hl
    · have hmap := map_worker_modifyFirst (p := fun v => decide (v.worker = u.worker))
        (f := fun v => v.accumulate A u) (l := b.entries u.range) (fun _ => rfl)
      have hlength := congrArg length hmap
      rw [length_map, length_map] at hlength
      refine ⟨hmap ▸ hb.workers u.range, hlength ▸ hb.length_le u.range, ?_⟩
      rw [← length_pos_iff, hlength, length_pos_iff]
      exact ne_nil_of_mem (mem_of_find?_eq_some hfind)
    · refine ⟨?_, ?_, append_ne_nil_of_right_ne_nil _ (cons_ne_nil _ _)⟩
      · rw [map_append, map_singleton, ← concat_eq_append, nodup_concat]
        refine ⟨fun hmem => ?_, hb.workers u.range⟩
        obtain ⟨v, hv, hworker⟩ := mem_map.mp hmem
        exact find?_eq_none.mp hfind v hv (decide_eq_true hworker)
      · rw [length_append]
        exact hroom hb.cap
  refine ⟨hb.cap, fun range => ?_, fun range => ?_, fun range hmem => ?_⟩
  · rw [entries_setEntries]
    split
    · exact hworkers
    · exact hb.workers range
  · rw [entries_setEntries]
    split
    · exact hlength
    · exact hb.length_le range
  · rw [entries_setEntries]
    split
    · exact hne
    next hother => exact hb.keys range (((AList.mem_insert _).mp hmem).resolve_left hother)

end UpdateBuffer

end Qfc.Ps
