import Mathlib

/-!
# Primitive types

The scalar types of `qfc-types/src/primitives.rs`. Byte arrays of a fixed
length are core vectors, so an address of nineteen bytes cannot be written.
A `U256` carries its bound: the arithmetic the code does on it is the one of
the `primitive-types` crate, whose operators *panic* on overflow in every
build profile, and whose `saturating_*` and `checked_*` variants are separate
functions. Both readings are kept, the panicking one as an `Option` whose
`none` is the panic.

A `u64` is Lean's `UInt64`: the workspace sets no `overflow-checks` in its
release profile, so the operators wrap.
-/

namespace Qfc

/-- A byte string of any length (`Vec<u8>`). -/
abbrev Bytes := List UInt8

/-- A 20-byte account address. -/
structure Address where
  bytes : Vector UInt8 20
deriving DecidableEq

/-- A 32-byte public key. -/
structure PublicKey where
  bytes : Vector UInt8 32
deriving DecidableEq

/-- A 64-byte signature. -/
structure Signature where
  bytes : Vector UInt8 64
deriving DecidableEq

namespace Address

/-- The zero address. -/
def zero : Address := ⟨Vector.replicate 20 0⟩

/-- An address is its twenty bytes, read as a function. -/
theorem bytes_get_injective :
    Function.Injective (fun (a : Address) (i : Fin 20) => a.bytes.get i) := by
  rintro ⟨u⟩ ⟨v⟩ h
  refine congrArg Address.mk (Vector.ext (fun i hi => ?_))
  exact congrFun h ⟨i, hi⟩

instance : Finite Address := Finite.of_injective _ bytes_get_injective

noncomputable instance : Fintype Address := Fintype.ofFinite Address

end Address

/-- `TREASURY_ADDRESS_BYTES`. -/
def TREASURY_ADDRESS : Address :=
  ⟨#v[0x51, 0x46, 0, 0, 0, 0, 0, 0, 0, 0, 0, 0, 0, 0, 0, 0, 0, 0, 0, 1]⟩

/-- The zero key. -/
def PublicKey.zero : PublicKey := ⟨Vector.replicate 32 0⟩

/-- The zero signature. -/
def Signature.zero : Signature := ⟨Vector.replicate 64 0⟩

/-- The number of 256-bit values. -/
def u256Size : ℕ := 2 ^ 256

theorem u256Size_pos : 0 < u256Size := by norm_num [u256Size]

/-- **A 256-bit unsigned integer**, with its bound. -/
structure U256 where
  val : ℕ
  /-- The value fits 256 bits. -/
  isLt : val < u256Size
deriving DecidableEq

namespace U256

@[ext] theorem ext {a b : U256} (h : a.val = b.val) : a = b := by
  cases a; cases b; cases h; rfl

/-- The number zero. -/
def zero : U256 := ⟨0, u256Size_pos⟩

@[simp] theorem zero_val : zero.val = 0 := rfl

/-- A 64-bit number. -/
def fromU64 (x : UInt64) : U256 :=
  ⟨x.toNat, lt_trans x.toNat_lt (by norm_num [u256Size])⟩

/-- Whether it is zero. -/
def isZero (a : U256) : Bool := a.val == 0

@[simp] theorem isZero_iff (a : U256) : a.isZero = true ↔ a.val = 0 := by
  simp [isZero]

/-- `from_be_bytes` of 32 bytes. -/
def fromBeBytes (bytes : Bytes) : U256 :=
  ⟨bytes.foldl (fun n b => n * 256 + b.toNat) 0 % u256Size, Nat.mod_lt _ u256Size_pos⟩

variable (n : ℕ) (a b : U256)

/-- The value `n` when it fits; `none`, the overflow panic, when it does not. -/
def ofNat? : Option U256 := if h : n < u256Size then some ⟨n, h⟩ else none

theorem ofNat?_eq_some {n : ℕ} {r : U256} : ofNat? n = some r ↔ n = r.val := by
  unfold ofNat?
  constructor
  · intro h
    split at h
    · cases h; rfl
    · cases h
  · rintro rfl
    rw [dif_pos r.isLt]

/-- The operator `+`: `none` is the overflow panic. -/
def add? : Option U256 := ofNat? (a.val + b.val)

/-- The operator `-`: `none` is the underflow panic. -/
def sub? : Option U256 :=
  if b.val ≤ a.val then some ⟨a.val - b.val, lt_of_le_of_lt (Nat.sub_le _ _) a.isLt⟩ else none

/-- The operator `*`: `none` is the overflow panic. -/
def mul? : Option U256 := ofNat? (a.val * b.val)

/-- The operator `/` by a positive constant. -/
def divConst (a : U256) (n : ℕ) : U256 :=
  ⟨a.val / n, lt_of_le_of_lt (Nat.div_le_self _ _) a.isLt⟩

/-- `saturating_add`. -/
def satAdd : U256 :=
  ⟨min (a.val + b.val) (u256Size - 1),
    lt_of_le_of_lt (min_le_right _ _) (Nat.sub_lt u256Size_pos Nat.one_pos)⟩

/-- The value of a number, or the largest value if it does not fit. -/
def saturated : U256 :=
  ⟨min n (u256Size - 1),
    lt_of_le_of_lt (min_le_right _ _) (Nat.sub_lt u256Size_pos Nat.one_pos)⟩

/-- Adding to a saturated number is adding and saturating once. -/
theorem saturated_satAdd (b : U256) : (saturated n).satAdd b = saturated (n + b.val) := by
  refine U256.ext ?_
  show min (min n (u256Size - 1) + b.val) (u256Size - 1) = min (n + b.val) (u256Size - 1)
  omega

/-- A saturating sum over a list saturates the sum. -/
theorem foldl_saturated {α : Type} (step : U256 → α → U256) (w : α → ℕ)
    (hstep : ∀ n a, step (saturated n) a = saturated (n + w a)) (l : List α) (n : ℕ) :
    l.foldl step (saturated n) = saturated (n + (l.map w).sum) := by
  induction l generalizing n with
  | nil => rfl
  | cons a l ih =>
    rw [List.foldl_cons, hstep, ih, List.map_cons, List.sum_cons, Nat.add_assoc]

/-- Where the sum fits, `saturating_add` is addition. -/
theorem satAdd_val_of_lt {a b : U256} (h : a.val + b.val < u256Size) :
    (a.satAdd b).val = a.val + b.val :=
  min_eq_left (Nat.le_sub_one_of_lt h)

/-- `saturating_sub`. -/
def satSub : U256 := ⟨a.val - b.val, lt_of_le_of_lt (Nat.sub_le _ _) a.isLt⟩

/-- `low_u64`: the low 64 bits. -/
def lowU64 (a : U256) : UInt64 := UInt64.ofNat a.val

end U256

end Qfc
