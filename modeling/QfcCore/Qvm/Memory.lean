import QfcCore.Qvm.Value

/-!
# Stack, frames, memory and storage

The parts of the machine's state that hold values, after
`qfc-qvm/src/memory.rs`. A method that fails changes nothing, so a method
returns the new part or an error; where it takes a slice of the memory, it may
also panic. Of a call frame the fields are kept that the
interpreter reads; the heap and the transient storage are never used by it.
-/

namespace Qfc.Qvm

/-- `MemoryError`, as far as the interpreter raises it. -/
inductive MemoryError
  | stackOverflow (maxDepth : ℕ)
  | stackUnderflow
  | outOfMemory (requested available : ℕ)
  | invalidAccess (offset : ℕ)
  | localOutOfBounds (index max : ℕ)
deriving DecidableEq

/-- The deepest stack. -/
def MAX_STACK_DEPTH : ℕ := 1024

/-- One megabyte. -/
def MAX_MEMORY_SIZE : ℕ := 1024 * 1024

/-- The most local variables. -/
def MAX_LOCALS : ℕ := 256

/-- `saturating_add` of 64-bit numbers. -/
def satAdd64 (a b : ℕ) : ℕ := min (a + b) (2 ^ 64 - 1)

/-! ## The stack -/

/-- **The operand stack**, the top first, never deeper than its maximum. -/
structure Stack where
  values : List Value
  maxDepth : ℕ
  depth_le : values.length ≤ maxDepth

namespace Stack

/-- An empty stack. -/
def new : Stack := ⟨[], MAX_STACK_DEPTH, Nat.zero_le _⟩

variable (s : Stack)

/-- Pushes if there is room. -/
def push (value : Value) : Except MemoryError Stack :=
  if h : s.values.length < s.maxDepth then .ok ⟨value :: s.values, s.maxDepth, h⟩
  else .error (.stackOverflow s.maxDepth)

/-- The stack without its top. -/
def tail : Stack :=
  ⟨s.values.tail, s.maxDepth, (List.length_tail ▸ Nat.sub_le _ _).trans s.depth_le⟩

/-- The top value. -/
def peek : Except MemoryError Value :=
  match s.values.head? with
  | some value => .ok value
  | none => .error .stackUnderflow

/-- The top value, taken. -/
def pop : Except MemoryError (Value × Stack) :=
  match s.values.head? with
  | some value => .ok (value, s.tail)
  | none => .error .stackUnderflow

/-- Pushes the top value again. -/
def dup : Except MemoryError Stack := do
  let value ← s.peek
  s.push value

/-- Swaps the two top values. -/
def swap : Except MemoryError Stack :=
  match s with
  | ⟨a :: b :: values, maxDepth, h⟩ => .ok ⟨b :: a :: values, maxDepth, h⟩
  | _ => .error .stackUnderflow

end Stack

/-! ## Call frames -/

/-- A call frame: where it is in the code, and its local variables. -/
structure CallFrame where
  pc : ℕ
  locals : List Value

namespace CallFrame

/-- A frame without locals. -/
def new : CallFrame := ⟨0, []⟩

/-- Reads a local. -/
def getLocal (f : CallFrame) (index : ℕ) : Except MemoryError Value :=
  match f.locals[index]? with
  | some value => .ok value
  | none => .error (.localOutOfBounds index f.locals.length)

theorem getLocal_eq_ok {f : CallFrame} {index : ℕ} {value : Value} :
    f.getLocal index = .ok value ↔ f.locals[index]? = some value := by
  unfold getLocal
  cases f.locals[index]? <;> simp

/-- `set_local`: missing locals before it become units. -/
def setLocal (f : CallFrame) (index : ℕ) (value : Value) : Except MemoryError CallFrame :=
  if MAX_LOCALS ≤ index then .error (.localOutOfBounds index MAX_LOCALS)
  else
    let extended := f.locals ++ List.replicate (index + 1 - f.locals.length) .unit
    .ok { f with locals := extended.set index value }

end CallFrame

/-! ## Linear memory -/

/-- **The linear memory.** An end of its range is a 64-bit number. -/
structure Memory where
  data : Bytes
  maxSize : ℕ
  maxSize_lt : maxSize < 2 ^ 64 - 1

namespace Memory

/-- Empty memory. -/
def new : Memory := ⟨[], MAX_MEMORY_SIZE, by decide⟩

variable (m : Memory) (offset : ℕ)

/-- `expand`: room for `size` bytes from `offset` on. -/
def expand (offset size : ℕ) : Except MemoryError Memory :=
  let required := satAdd64 offset size
  if m.maxSize < required then .error (.outOfMemory required m.maxSize)
  else .ok { m with data := m.data ++ List.replicate (required - m.data.length) 0 }

/-- `data[start..stop]`; a range that is not in the bytes is a panic. -/
def slice (data : Bytes) (start stop : ℕ) : Option Bytes :=
  if start ≤ stop ∧ stop ≤ data.length then some ((data.drop start).take (stop - start)) else none

/-- `read`; a panic is `none`. -/
def read (offset size : ℕ) : Except MemoryError (Option Bytes) :=
  let stop := satAdd64 offset size
  if m.data.length < stop then .error (.invalidAccess offset)
  else .ok (slice m.data offset stop)

/-- `data[offset..offset + bytes.len()].copy_from_slice(bytes)`; a panic is
`none`. -/
def copyFromSlice (bytes : Bytes) : Option Memory := do
  let stop := offset + bytes.length
  guard (stop < 2 ^ 64)
  let old ← slice m.data offset stop
  guard (old.length = bytes.length)
  return { m with data := m.data.take offset ++ bytes ++ m.data.drop stop }

/-- `write`; a panic is `none`. -/
def write (bytes : Bytes) : Except MemoryError (Option Memory) := do
  return (← m.expand offset bytes.length).copyFromSlice offset bytes

/-- The 32 bytes of a number, in big endian. -/
def toBigEndian (n : U256) : Bytes :=
  (List.range 32).reverse.map (fun i => UInt8.ofNat (n.val / 256 ^ i % 256))

/-- `read_u256`. -/
def readU256 : Except MemoryError (Option U256) := do
  return (← m.read offset 32).map .fromBeBytes

/-- `write_u256`. -/
def writeU256 (value : U256) : Except MemoryError (Option Memory) :=
  m.write offset (toBigEndian value)

/-! ### No panics -/

variable {m m' : Memory} {offset size : ℕ} {bytes : Bytes}

theorem slice_isSome {data : Bytes} {start stop : ℕ} (h : start ≤ stop) (h' : stop ≤ data.length) :
    slice data start stop = some ((data.drop start).take (stop - start)) :=
  if_pos ⟨h, h'⟩

/-- The range of a read is in the memory after the check. -/
theorem read_ne_panic (size : ℕ) (hoffset : offset < 2 ^ 64) : m.read offset size ≠ .ok none := by
  have hstop : offset ≤ satAdd64 offset size := le_min (Nat.le_add_right _ _) (by omega)
  unfold read
  dsimp only
  split
  · nofun
  next hin =>
    rw [slice_isSome hstop (not_lt.mp hin)]
    nofun

theorem readU256_ne_panic (hoffset : offset < 2 ^ 64) : m.readU256 offset ≠ .ok none := by
  have hread : m.read offset 32 ≠ .ok none := read_ne_panic 32 hoffset
  unfold readU256
  generalize m.read offset 32 = r at *
  rcases r with e | _ | bytes
  · nofun
  · exact absurd rfl hread
  · nofun

/-- `expand` has made room, and the end of the range is a 64-bit number. -/
theorem expand_ok (h : m.expand offset size = .ok m') :
    offset + size < 2 ^ 64 ∧ offset + size ≤ m'.data.length := by
  have hmax := m.maxSize_lt
  unfold expand satAdd64 at h
  dsimp only at h
  split at h
  · cases h
  · cases h
    simp only [List.length_append, List.length_replicate]
    omega

theorem copyFromSlice_isSome (h64 : offset + bytes.length < 2 ^ 64)
    (hin : offset + bytes.length ≤ m.data.length) : m.copyFromSlice offset bytes ≠ none := by
  simp [copyFromSlice, guard, slice_isSome (Nat.le_add_right _ _) hin]
  omega

theorem write_ne_panic : m.write offset bytes ≠ .ok none := by
  unfold write
  cases hexpand : m.expand offset bytes.length with
  | error e => nofun
  | ok m' =>
    obtain ⟨h64, hin⟩ := expand_ok hexpand
    exact fun h => copyFromSlice_isSome h64 hin (Except.ok.inj h)

end Memory

/-! ## Storage -/

/-- **The storage of a contract**: the slots, and the values that slots had
when they were first written. -/
structure Storage where
  slots : AList (fun _ : H256 => H256)
  original : AList (fun _ : H256 => H256)

namespace Storage

/-- Empty storage. -/
def new : Storage := ⟨∅, ∅⟩

variable (s : Storage)

/-- A slot, or zero. -/
def load (key : H256) : H256 := (s.slots.lookup key).getD .zero

/-- Writes a slot, and keeps what it held first. -/
def store (key value : H256) : Storage where
  slots := s.slots.insert key value
  original := if key ∈ s.original then s.original else s.original.insert key (s.load key)

/-- What a slot held first. -/
def originalValue (key : H256) : H256 :=
  (s.original.lookup key).getD (s.load key)

/-- `get_modified`: all slots, in the order of the map. -/
def getModified : List (H256 × H256) :=
  s.slots.entries.map (fun entry => (entry.1, entry.2))

end Storage

end Qfc.Qvm
