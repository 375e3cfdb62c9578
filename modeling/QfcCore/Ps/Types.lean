import QfcCore.Types.Primitives

/-!
# Types of the parameter server

`qfc-ps/src/types.rs`, and the errors and the configuration of `lib.rs`. A shard
owns a range of parameters; workers push updates for ranges of it.

Parameters are 32-bit floating-point numbers. What the code does with them is
kept abstract (`Arithmetic`): addition is some binary operation. The trim
fraction is a 64-bit one, and is known by the number of values that it drops
(`Beta`).
-/

namespace Qfc

/-- The two hexadecimal digits of a byte. -/
def hexByte (b : UInt8) : String :=
  String.ofList [Nat.digitChar (b.toNat / 16), Nat.digitChar (b.toNat % 16)]

/-- How an address is printed. -/
def Address.display (a : Address) : String :=
  "0x" ++ String.join (a.bytes.toList.map hexByte)

namespace Ps

/-- The eight bytes of a 64-bit number, in big endian. -/
def toBeBytes (n : ℕ) : Bytes := (List.range 8).reverse.map (fun i => UInt8.ofNat (n / 256 ^ i % 256))

theorem toBeBytes_injective {m n : ℕ} (hm : m < 2 ^ 64) (hn : n < 2 ^ 64)
    (h : toBeBytes m = toBeBytes n) : m = n := by
  have hdigit : ∀ i < 8, m / 256 ^ i % 256 = n / 256 ^ i % 256 := by
    intro i hi
    have hbyte := List.map_inj_left.mp h i (by simpa using hi)
    simpa using congrArg UInt8.toNat hbyte
  have h0 := hdigit 0 (by decide)
  have h1 := hdigit 1 (by decide)
  have h2 := hdigit 2 (by decide)
  have h3 := hdigit 3 (by decide)
  have h4 := hdigit 4 (by decide)
  have h5 := hdigit 5 (by decide)
  have h6 := hdigit 6 (by decide)
  have h7 := hdigit 7 (by decide)
  omega

@[simp] theorem toBeBytes_length (n : ℕ) : (toBeBytes n).length = 8 := rfl

/-- `saturating_add` of 64-bit numbers. -/
def satAdd64 (a b : ℕ) : ℕ := min (a + b) (2 ^ 64 - 1)

/-! ## Numbers -/

/-- **What the code does with parameters** (`f32`). -/
structure Arithmetic (V : Type) where
  zero : V
  add : V → V → V
  isFinite : V → Bool
  /-- `total_cmp` is not `Greater`. -/
  totalLe : V → V → Bool
  /-- The sum in `f64`, over a count, rounded. -/
  mean : List V → ℕ → V
  toLeBytes : V → Bytes

/-- **A trim fraction** (`f64`): how it is printed, whether it is in `[0, 0.5)`,
and `(beta * n as f64).ceil() as usize` for every `n`. A fraction in that
interval leaves something of a large enough `n`. -/
structure Beta where
  display : String
  inRange : Bool
  trim : ℕ → ℕ
  viable : inRange = true → ∃ n, 1 ≤ n ∧ n < 2 ^ 64 ∧ 1 ≤ n - 2 * trim n

/-! ## Errors -/

/-- Why a request is refused. -/
inductive PsError
  | invalidRange (message : String)
  | invalidUpdate (message : String)
  | staleUpdate (workerClock floor bound : ℕ)
  | epochClosed (epoch : ℕ)
  | epochMismatch (expected got : ℕ)
  | workerCapExceeded (cap : ℕ)
  | aggregation (message : String)
  | config (message : String)
deriving DecidableEq

/-! ## Ranges -/

/-- A range of keys, without its end. -/
structure ParamRange where
  start : ℕ
  stop : ℕ
deriving DecidableEq

namespace ParamRange

/-- How many keys. -/
def len (r : ParamRange) : ℕ := r.stop - r.start

/-- Without a key. -/
def isEmpty (r : ParamRange) : Bool := r.stop ≤ r.start

/-- Whether a key is in it. -/
def contains (r : ParamRange) (key : ℕ) : Bool := r.start ≤ key && key < r.stop

/-- Whether another range is inside. -/
def covers (r other : ParamRange) : Bool := r.start ≤ other.start && other.stop ≤ r.stop

/-- Whether a key is shared. -/
def overlaps (r other : ParamRange) : Bool := r.start < other.stop && other.start < r.stop

/-- How a range is printed. -/
def display (r : ParamRange) : String := "[" ++ toString r.start ++ ", " ++ toString r.stop ++ ")"

/-- The derived order: by the start, then by the end. -/
def Le (r other : ParamRange) : Prop :=
  r.start < other.start ∨ r.start = other.start ∧ r.stop ≤ other.stop

instance : DecidableRel Le := fun _ _ => instDecidableOr

instance : Std.Total Le where
  total r other := by
    unfold Le
    omega

instance : IsTrans ParamRange Le where
  trans r s t h h' := by
    unfold Le at *
    omega

end ParamRange

/-! ## Updates and records -/

/-- An update that a worker pushes for a range. -/
structure ParamUpdate (V : Type) where
  worker : Address
  epoch : ℕ
  clock : ℕ
  range : ParamRange
  values : List V
  flopsEstimated : ℕ

/-- The record of an accepted update. -/
structure AcceptanceRecord (H : Type) where
  worker : Address
  epoch : ℕ
  clock : ℕ
  range : ParamRange
  updateHash : H
  flopsEstimated : ℕ
deriving DecidableEq

namespace ParamUpdate

variable {V H : Type}

/-- The checks of an update. -/
def validate (A : Arithmetic V) (u : ParamUpdate V) : Except PsError Unit :=
  if u.range.isEmpty then .error (.invalidRange ("empty range " ++ u.range.display))
  else if u.values.length ≠ u.range.len then
    .error (.invalidUpdate ("value count " ++ toString u.values.length ++ " != range length "
      ++ toString u.range.len ++ " for " ++ u.range.display))
  else if !u.values.all A.isFinite then .error (.invalidUpdate "non-finite value in update")
  else .ok ()

/-- The hash of an update. -/
def updateHash (A : Arithmetic V) (blake3 : Bytes → H) (u : ParamUpdate V) : H :=
  blake3 (u.worker.bytes.toList ++ toBeBytes u.epoch ++ toBeBytes u.clock
    ++ toBeBytes u.range.start ++ toBeBytes u.range.stop ++ u.values.flatMap A.toLeBytes
    ++ toBeBytes u.flopsEstimated)

/-- A valid update has one value for every key of a range with a key. -/
theorem validate_eq_ok {A : Arithmetic V} {u : ParamUpdate V} {x : Unit}
    (h : u.validate A = .ok x) : u.range.start < u.range.stop ∧ u.values.length = u.range.len := by
  unfold validate at h
  split at h
  · cases h
  next hempty =>
    split at h
    · cases h
    next hlength =>
      refine ⟨?_, not_not.mp hlength⟩
      unfold ParamRange.isEmpty at hempty
      exact not_le.mp fun hle => hempty (decide_eq_true hle)

end ParamUpdate

/-- The record of an accepted update. -/
def AcceptanceRecord.forUpdate {V H : Type} (A : Arithmetic V) (blake3 : Bytes → H)
    (u : ParamUpdate V) : AcceptanceRecord H where
  worker := u.worker
  epoch := u.epoch
  clock := u.clock
  range := u.range
  updateHash := u.updateHash A blake3
  flopsEstimated := u.flopsEstimated

end Ps

end Qfc
