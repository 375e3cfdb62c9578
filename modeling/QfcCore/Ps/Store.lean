import QfcCore.Ps.Types

/-!
# The store of a shard

`ShardStore` of `qfc-ps/src/kv.rs`. The parameters of the owned range are kept in
rows of a fixed width, and a row that was never written reads as zeros. A range
need not begin or end with a row: what is changed in a row is the part of it that
lies in the range.

Read key by key, the store is a function from keys to parameters (`param`). A
change of a range changes that function in the range and nowhere else
(`param_modifyRange`), and the bytes that are hashed are those of the function's
values in the owned range (`stream_eq`). The database itself does not fail here.
-/

namespace Qfc.Ps

open List Nat

/-- `CHUNK`: the number of parameters in a row. -/
def CHUNK : ℕ := 1024

/-- **The store of a shard.** -/
structure ShardStore (V : Type) where
  rows : AList (fun _ : ℕ => Fin CHUNK → V)
  ownedRange : ParamRange

namespace ShardStore

variable {V H : Type} (A : Arithmetic V) (s : ShardStore V) (range : ParamRange) (idx : ℕ)

/-- Only keys of the shard are served. -/
def checkOwned : Except PsError Unit :=
  if s.ownedRange.covers range then .ok ()
  else .error (.invalidRange ("range " ++ range.display ++ " outside owned range "
    ++ s.ownedRange.display))

/-- A row, or zeros. -/
def loadChunk : Fin CHUNK → V := (s.rows.lookup idx).getD (fun _ => A.zero)

/-- The first key of a range in a row. -/
def lo : ℕ := max range.start (idx * CHUNK)

/-- The end of a range in a row. That the end of a row saturates does not show:
no range ends after the last 64-bit number. -/
def hi : ℕ := min range.stop (idx * CHUNK + CHUNK)

/-- The rows of a range, `first..=last`. -/
def chunks : List ℕ :=
  range' (range.start / CHUNK) ((range.stop - 1) / CHUNK + 1 - range.start / CHUNK)

/-- A row, with what of it is in the range changed. -/
def modifyChunk (values : List V) (f : V → V → V) (idx : ℕ) : Fin CHUNK → V := fun j =>
  let slot := s.loadChunk A idx j
  if lo range idx - idx * CHUNK ≤ j ∧ j < hi range idx - idx * CHUNK then
    match values[lo range idx - range.start + (j - (lo range idx - idx * CHUNK))]? with
    | some v => f slot v
    | none => slot
  else slot

/-- `modify_range`: all rows are written at once. -/
def modifyRange (values : List V) (f : V → V → V) : Except PsError Unit × ShardStore V :=
  match s.checkOwned range with
  | .error e => (.error e, s)
  | .ok () =>
    if values.length ≠ range.len then
      (.error (.invalidUpdate ("value count " ++ toString values.length ++ " != range length "
        ++ toString range.len ++ " for " ++ range.display)), s)
    else
      (.ok (), { s with
        rows := (chunks range).foldl
          (fun rows idx => rows.insert idx (s.modifyChunk A range values f idx)) s.rows })

/-- Writes values. -/
def setRange (values : List V) : Except PsError Unit × ShardStore V :=
  s.modifyRange A range values fun _ v => v

/-- Adds values. -/
def applyDelta (delta : List V) : Except PsError Unit × ShardStore V :=
  s.modifyRange A range delta A.add

/-- `stream_owned`: the parameters of a range, row by row. -/
def stream : List V :=
  (chunks range).flatMap fun idx =>
    ((ofFn (s.loadChunk A idx)).take (hi range idx - idx * CHUNK)).drop
      (lo range idx - idx * CHUNK)

/-- `copy_from_slice` of what of a row is in the range. A row that was never
written leaves the zeros. -/
def copyChunk (out : List V) (idx : ℕ) : List V :=
  match s.rows.lookup idx with
  | some chunk => out.mapIdx fun k slot =>
      if lo range idx - range.start ≤ k ∧ k < hi range idx - range.start then
        (ofFn chunk)[lo range idx - idx * CHUNK + (k - (lo range idx - range.start))]?.getD slot
      else slot
  | none => out

/-- Reads values. -/
def getRange : Except PsError (List V) := do
  s.checkOwned range
  return (chunks range).foldl (s.copyChunk range) (replicate range.len A.zero)

/-- The hash of all parameters. -/
def paramsHash (blake3 : Bytes → H) : H :=
  blake3 ((s.stream A s.ownedRange).flatMap A.toLeBytes)

/-! ## The parameters -/

theorem chunk_pos : 0 < CHUNK := by decide

/-- **The parameter of a key.** -/
def param (key : ℕ) : V := s.loadChunk A (key / CHUNK) ⟨key % CHUNK, mod_lt _ chunk_pos⟩

variable {A s}

theorem lookup_foldl_insert {rows : AList (fun _ : ℕ => Fin CHUNK → V)} {l : List ℕ}
    {g : ℕ → Fin CHUNK → V} (idx : ℕ) :
    (l.foldl (fun rows idx => rows.insert idx (g idx)) rows).lookup idx
      = if idx ∈ l then some (g idx) else rows.lookup idx := by
  induction l generalizing rows with
  | nil => rfl
  | cons head l ih =>
    rw [foldl_cons, ih]
    by_cases hmem : idx ∈ l
    · rw [if_pos hmem, if_pos (mem_cons_of_mem _ hmem)]
    · rw [if_neg hmem]
      by_cases heq : idx = head
      · rw [heq, AList.lookup_insert, if_pos mem_cons_self]
      · rw [AList.lookup_insert_ne heq, if_neg]
        simp [heq, hmem]

variable {range : ParamRange} {f : V → V → V} {values : List V}

theorem mem_chunks {key : ℕ} (h : range.contains key = true) : key / CHUNK ∈ chunks range := by
  obtain ⟨hstart, hstop⟩ : range.start ≤ key ∧ key < range.stop := by
    simpa [ParamRange.contains] using h
  have hfirst : range.start / CHUNK ≤ key / CHUNK := Nat.div_le_div_right hstart
  have hlast : key / CHUNK ≤ (range.stop - 1) / CHUNK := Nat.div_le_div_right (by omega)
  rw [chunks, mem_range'_1]
  omega

theorem modifyChunk_param (key : ℕ) :
    s.modifyChunk A range values f (key / CHUNK) ⟨key % CHUNK, mod_lt _ chunk_pos⟩
      = if range.contains key then
          (values[key - range.start]?).elim (s.param A key) (f (s.param A key))
        else s.param A key := by
  have hkey := div_add_mod' key CHUNK
  have hmod := mod_lt key chunk_pos
  unfold modifyChunk
  dsimp only
  by_cases hin : range.contains key = true
  · obtain ⟨hstart, hstop⟩ : range.start ≤ key ∧ key < range.stop := by
      simpa [ParamRange.contains] using hin
    have hindex : lo range (key / CHUNK) - range.start
        + (key % CHUNK - (lo range (key / CHUNK) - key / CHUNK * CHUNK)) = key - range.start := by
      unfold lo
      omega
    rw [if_pos hin, if_pos (by unfold lo hi; omega), hindex]
    cases values[key - range.start]? <;> rfl
  · have hout : ¬ (range.start ≤ key ∧ key < range.stop) := by
      simpa [ParamRange.contains] using hin
    rw [if_neg hin, if_neg (by unfold lo hi; omega)]
    rfl

/-- **A change of a range changes the parameters in it**, each by its value, and
no others. -/
theorem param_modifyRange (howned : s.ownedRange.covers range = true)
    (hlength : values.length = range.len) :
    ∃ s', s.modifyRange A range values f = (.ok (), s') ∧ s'.ownedRange = s.ownedRange ∧
      ∀ key, s'.param A key = if range.contains key then
          (values[key - range.start]?).elim (s.param A key) (f (s.param A key))
        else s.param A key := by
  have hcheck : s.checkOwned range = .ok () := if_pos howned
  unfold modifyRange
  rw [hcheck]
  dsimp only
  rw [if_neg (not_not.mpr hlength)]
  refine ⟨_, rfl, rfl, fun key => ?_⟩
  unfold param loadChunk
  dsimp only
  rw [lookup_foldl_insert]
  by_cases hin : range.contains key = true
  · rw [if_pos (mem_chunks hin)]
    exact modifyChunk_param key
  · rw [if_neg hin]
    split
    · have hsame : s.modifyChunk A range values f (key / CHUNK) ⟨key % CHUNK, _⟩ = s.param A key :=
        (modifyChunk_param key).trans (if_neg hin)
      exact hsame
    · rfl

/-! ## Streams -/

/-- The keys of a range are those of its rows, one row after the other. -/
theorem keys_of_chunks (n : ℕ) :
    (range' (range.start / CHUNK) n).flatMap
        (fun idx => range' (lo range idx) (hi range idx - lo range idx))
      = range' range.start
          (min range.stop ((range.start / CHUNK + n) * CHUNK) - range.start) := by
  have hmod := mod_lt range.start chunk_pos
  have hstart := div_add_mod' range.start CHUNK
  generalize range.start / CHUNK = first at *
  induction n with
  | zero =>
    have hnone : min range.stop ((first + 0) * CHUNK) - range.start = 0 := by
      rw [add_zero]
      omega
    rw [hnone]
    rfl
  | succ n ih =>
    rw [range'_1_concat, flatMap_append, ih, flatMap_singleton]
    set before := min range.stop ((first + n) * CHUNK) - range.start with hbefore
    set size := hi range (first + n) - lo range (first + n) with hsize
    have hmul : (first + (n + 1)) * CHUNK = (first + n) * CHUNK + CHUNK := by ring
    have htotal : min range.stop ((first + (n + 1)) * CHUNK) - range.start = before + size := by
      have hle : first * CHUNK ≤ (first + n) * CHUNK := mul_le_mul_right _ (le_add_right _ _)
      rw [hmul, hbefore, hsize]
      unfold lo hi
      omega
    rw [htotal]
    by_cases hzero : size = 0
    · rw [hzero, range'_zero, append_nil, add_zero]
    · -- the first row begins before the range, the others in it
      have hlo : lo range (first + n) = range.start + before := by
        rw [hsize] at hzero
        rw [hbefore]
        unfold lo hi at *
        cases n with
        | zero =>
          rw [add_zero] at *
          omega
        | succ n =>
          have hle : (first + 1) * CHUNK ≤ (first + (n + 1)) * CHUNK :=
            mul_le_mul_right _ (by omega)
          rw [add_mul, one_mul] at hle
          omega
      rw [hlo, range'_append_1]

theorem slice_eq (idx : ℕ) :
    ((ofFn (s.loadChunk A idx)).take (hi range idx - idx * CHUNK)).drop
        (lo range idx - idx * CHUNK)
      = (range' (lo range idx) (hi range idx - lo range idx)).map (s.param A) := by
  refine ext_getElem ?_ fun j hj hj' => ?_
  · simp only [length_drop, length_take, length_ofFn, length_map, length_range']
    unfold lo hi
    omega
  · have hbound : j < hi range idx - lo range idx := by
      rwa [length_map, length_range'] at hj'
    have hkey : lo range idx + j = (lo range idx - idx * CHUNK + j) + idx * CHUNK := by
      unfold lo
      omega
    have hlt : lo range idx - idx * CHUNK + j < CHUNK := by
      unfold lo hi at *
      omega
    rw [List.getElem_drop, List.getElem_take, List.getElem_ofFn, List.getElem_map,
      getElem_range', one_mul]
    have hdiv : (lo range idx + j) / CHUNK = idx := by
      rw [hkey, add_mul_div_right _ _ chunk_pos, div_eq_of_lt hlt, zero_add]
    have hmod : (lo range idx + j) % CHUNK = lo range idx - idx * CHUNK + j := by
      rw [hkey, add_mul_mod_self_right, mod_eq_of_lt hlt]
    unfold param
    simp [hdiv, hmod]

/-- The stream of a range is the list of its parameters. -/
theorem stream_eq (hrange : range.start < range.stop) :
    s.stream A range = (range' range.start range.len).map (s.param A) := by
  have hlast : range.stop - 1 < ((range.stop - 1) / CHUNK + 1) * CHUNK := by
    have hmod := mod_lt (range.stop - 1) chunk_pos
    have hstop := div_add_mod' (range.stop - 1) CHUNK
    rw [add_mul, one_mul]
    omega
  have hdiv : range.start / CHUNK ≤ (range.stop - 1) / CHUNK := Nat.div_le_div_right (by omega)
  unfold stream
  simp only [slice_eq]
  rw [← map_flatMap, chunks, keys_of_chunks]
  congr 2
  rw [show range.start / CHUNK + ((range.stop - 1) / CHUNK + 1 - range.start / CHUNK)
    = (range.stop - 1) / CHUNK + 1 by omega]
  unfold ParamRange.len
  omega

end ShardStore

end Qfc.Ps
