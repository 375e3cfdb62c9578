import QfcCore.Lib.Run
import QfcCore.Ps.Store

/-!
# The store is a flat array

What the rows of a shard are for: seen through its calls, the store is an array
of parameters indexed by the range that it owns, which begins with zeros and of
which a call changes or reads a slice (`FlatArray`). The array of a store has
the parameter of a key at that key (`flat`), and each call does to it what the
array's own call does (`flat_call`), for every way in which a range lies over
the rows. The hash of the parameters is that of the whole slice.
-/

namespace Qfc.Ps

open List Nat

/-- A range with a key in it, as `ParamRange::new` makes them. -/
abbrev KeyRange : Type := {range : ParamRange // range.start < range.stop}

/-- A call of the store. -/
inductive StoreCall (V : Type)
  | setRange (range : KeyRange) (values : List V)
  | applyDelta (range : KeyRange) (delta : List V)
  | getRange (range : KeyRange)

variable {V H : Type} (A : Arithmetic V)

/-! ## The array -/

/-- **A flat array**: the range of its indices, and the value at each of them. -/
structure FlatArray (V : Type) where
  indices : ParamRange
  value : ℕ → V

namespace FlatArray

/-- The array of zeros. -/
def zeros (indices : ParamRange) : FlatArray V := ⟨indices, fun _ => A.zero⟩

variable (a : FlatArray V)

/-- A slice is changed if it is one of the array and has a value for each index. -/
def update (range : ParamRange) (values : List V) (f : V → V → V) :
    Option (List V) × FlatArray V :=
  if a.indices.covers range ∧ values.length = range.len then
    (some [], ⟨a.indices, fun key =>
      if range.contains key then
        (values[key - range.start]?).elim (a.value key) (f (a.value key))
      else a.value key⟩)
  else (none, a)

/-- A call, and what it returns: nothing if it fails. -/
def call : StoreCall V → Option (List V) × FlatArray V
  | .setRange range values => a.update range values fun _ v => v
  | .applyDelta range delta => a.update range delta A.add
  | .getRange range =>
    (if a.indices.covers range then some ((range' range.1.start range.1.len).map a.value)
      else none, a)

theorem indices_call (c : StoreCall V) : (a.call A c).2.indices = a.indices := by
  unfold call update
  cases c <;> dsimp only
  all_goals split_ifs <;> rfl

end FlatArray

namespace ShardStore

/-- `open_temp`: no row is written. -/
def openTemp (ownedRange : ParamRange) : ShardStore V := ⟨∅, ownedRange⟩

variable (s : ShardStore V)

/-- A call of the store. An update returns no parameters. -/
def call : StoreCall V → Except PsError (List V) × ShardStore V
  | .setRange range values => (s.setRange A range values).map (Except.map fun _ => []) id
  | .applyDelta range delta => (s.applyDelta A range delta).map (Except.map fun _ => []) id
  | .getRange range => (s.getRange A range, s)

/-- The array that a store is. -/
def flat : FlatArray V := ⟨s.ownedRange, s.param A⟩

variable {A s} {range : ParamRange}

/-! ## Reads -/

theorem copyChunk_map (g : ℕ → V) (idx : ℕ) :
    s.copyChunk range ((range' range.start range.len).map g) idx
      = (range' range.start range.len).map fun key =>
          if key / CHUNK = idx then
            (s.rows.lookup idx).elim (g key) fun chunk => chunk ⟨key % CHUNK, mod_lt _ chunk_pos⟩
          else g key := by
  unfold copyChunk
  cases s.rows.lookup idx with
  | none => simp
  | some chunk =>
    refine ext_getElem (by simp) fun k hk hk' => ?_
    have hlen : k < range.stop - range.start := by simpa [ParamRange.len] using hk'
    simp only [getElem_mapIdx, List.getElem_map, getElem_range', one_mul]
    by_cases hrow : (range.start + k) / CHUNK = idx
    · have hslot : lo range idx - idx * CHUNK + (k - (lo range idx - range.start))
          = (range.start + k) % CHUNK := by
        unfold lo CHUNK at *
        omega
      rw [if_pos hrow, if_pos (by unfold lo hi CHUNK at *; omega), hslot,
        List.getElem?_ofFn, dif_pos (mod_lt _ chunk_pos)]
      rfl
    · rw [if_neg hrow, if_neg (by unfold lo hi CHUNK at *; omega)]

theorem foldl_copyChunk (g : ℕ → V) (l : List ℕ) :
    l.foldl (s.copyChunk range) ((range' range.start range.len).map g)
      = (range' range.start range.len).map fun key =>
          if key / CHUNK ∈ l then
            (s.rows.lookup (key / CHUNK)).elim (g key)
              fun chunk => chunk ⟨key % CHUNK, mod_lt _ chunk_pos⟩
          else g key := by
  induction l generalizing g with
  | nil => simp
  | cons idx l ih =>
    rw [foldl_cons, copyChunk_map, ih]
    refine map_congr_left fun key _ => ?_
    by_cases hrow : key / CHUNK = idx
    · subst hrow
      cases s.rows.lookup (key / CHUNK) <;> simp
    · simp [hrow]

/-- What is read is the slice of the array. -/
theorem getRange_eq (howned : s.ownedRange.covers range = true) :
    s.getRange A range = .ok ((range' range.start range.len).map (s.param A)) := by
  have hcheck : s.checkOwned range = .ok () := if_pos howned
  have hzeros : replicate range.len A.zero
      = (range' range.start range.len).map fun _ => A.zero := by simp
  unfold getRange
  rw [hcheck, hzeros, foldl_copyChunk]
  refine congrArg Except.ok (map_congr_left fun key hkey => ?_)
  have hmem : range.contains key = true := by
    rw [mem_range'_1] at hkey
    unfold ParamRange.len at hkey
    simp only [ParamRange.contains, Bool.and_eq_true, decide_eq_true_eq]
    omega
  rw [if_pos (mem_chunks hmem)]
  unfold param loadChunk
  cases s.rows.lookup (key / CHUNK) <;> rfl

/-! ## Calls -/

/-- A change fails outside of the owned range and with a wrong number of
values, and then changes nothing. -/
theorem modifyRange_fails {values : List V} {f : V → V → V}
    (h : ¬ (s.ownedRange.covers range = true ∧ values.length = range.len)) :
    ∃ e, s.modifyRange A range values f = (.error e, s) := by
  unfold modifyRange checkOwned
  by_cases howned : s.ownedRange.covers range = true
  · rw [if_pos howned]
    exact ⟨_, if_pos fun hlength => h ⟨howned, hlength⟩⟩
  · rw [if_neg howned]
    exact ⟨_, rfl⟩

/-- A change does to the array what it does to the store, or fails on both. -/
theorem flat_modifyRange (values : List V) (f : V → V → V) :
    (s.flat A).update range values f
        = (((s.modifyRange A range values f).1.map fun _ => []).toOption,
          (s.modifyRange A range values f).2.flat A) ∧
      (((s.modifyRange A range values f).1.map fun _ => ([] : List V)).toOption = none →
        (s.modifyRange A range values f).2 = s) := by
  unfold FlatArray.update
  by_cases h : (s.flat A).indices.covers range = true ∧ values.length = range.len
  · obtain ⟨s', hrun, howned, hparam⟩ := param_modifyRange (A := A) (f := f) h.1 h.2
    rw [if_pos h, hrun]
    refine ⟨Prod.ext rfl ?_, fun hnone => nomatch hnone⟩
    show FlatArray.mk _ _ = FlatArray.mk _ _
    rw [howned, funext hparam]
    rfl
  · obtain ⟨e, hrun⟩ := modifyRange_fails (A := A) (f := f) h
    rw [if_neg h, hrun]
    exact ⟨rfl, fun _ => rfl⟩

/-- **A call does to the array what it does to the store**, and one that fails
changes nothing. -/
theorem flat_call (c : StoreCall V) :
    (s.flat A).call A c = ((s.call A c).1.toOption, (s.call A c).2.flat A) ∧
      ((s.call A c).1.toOption = none → (s.call A c).2 = s) := by
  cases c with
  | setRange range values => exact flat_modifyRange values fun _ v => v
  | applyDelta range delta => exact flat_modifyRange delta A.add
  | getRange range =>
    refine ⟨Prod.ext ?_ rfl, fun _ => rfl⟩
    show (if s.ownedRange.covers range then _ else _) = (s.getRange A range).toOption
    by_cases howned : s.ownedRange.covers range = true
    · rw [if_pos howned, getRange_eq howned]
      rfl
    · have hcheck : s.checkOwned range = .error _ := if_neg howned
      unfold getRange
      rw [if_neg howned, hcheck]
      rfl

/-- The array of a store after calls is the array after them. -/
theorem flat_run (calls : List (StoreCall V)) :
    (Run.run (fun s c => (call A s c).2) s calls).flat A
      = Run.run (fun a c => (FlatArray.call A a c).2) (s.flat A) calls :=
  (foldl_hom (flat A) fun _ c => congrArg Prod.snd (flat_call c).1).symm

variable (A)

/-- **The store of a shard is a flat array.** After every sequence of calls on a
new store, the next call returns what the array returns, which began with zeros
and had the same calls; a call that fails, as those on ranges outside of the
owned range or with a wrong number of values do, changes nothing; and the hash
of the parameters is that of the bytes of the owned range as it is read. -/
theorem store_refines_array (blake3 : Bytes → H) (owned : KeyRange) (calls : List (StoreCall V))
    (c : StoreCall V) :
    let s := Run.run (fun s c => (call A s c).2) (openTemp owned.1) calls
    let a := Run.run (fun a c => (FlatArray.call A a c).2) (FlatArray.zeros A owned.1) calls
    (s.call A c).1.toOption = (a.call A c).1 ∧
      ((s.call A c).1.toOption = none → (s.call A c).2 = s) ∧
      (s.getRange A owned).map (fun l => blake3 (l.flatMap A.toLeBytes))
        = .ok (s.paramsHash A blake3) := by
  intro s a
  have hflat : s.flat A = a := flat_run calls
  have hindices : a.indices = owned.1 :=
    Run.invariant (P := fun a : FlatArray V => a.indices = owned.1) rfl
      (fun a c h => (FlatArray.indices_call A a c).trans h) calls
  have howned : s.ownedRange = owned.1 := (congrArg FlatArray.indices hflat).trans hindices
  obtain ⟨hcall, hfail⟩ := flat_call (A := A) (s := s) c
  rw [hflat] at hcall
  refine ⟨congrArg Prod.fst hcall.symm, hfail, ?_⟩
  have hcovers : s.ownedRange.covers owned = true := by
    simp [howned, ParamRange.covers]
  rw [getRange_eq hcovers, paramsHash, howned, stream_eq owned.2]
  rfl

end ShardStore

end Qfc.Ps
