import QfcCore.Types.Primitives

/-!
# Values of the QVM

The values on the stack and in the locals of the QuantumScript virtual machine
(`qfc-qvm/src/value.rs`), and the 256-bit operations its instructions use. The
operations of the machine wrap; only the conversions to machine words panic.
-/

namespace Qfc

/-! ## Arithmetic modulo `2 ^ 256` -/

namespace U256

/-- The number modulo `2 ^ 256`. -/
def wrap (n : ℕ) : U256 := ⟨n % u256Size, Nat.mod_lt _ u256Size_pos⟩

/-- The number one. -/
def one : U256 := wrap 1

/-- `overflowing_add`, without the flag. -/
def overflowingAdd (a b : U256) : U256 := wrap (a.val + b.val)

/-- `overflowing_sub`, without the flag. -/
def overflowingSub (a b : U256) : U256 := wrap (u256Size + a.val - b.val)

/-- `overflowing_mul`, without the flag. -/
def overflowingMul (a b : U256) : U256 := wrap (a.val * b.val)

/-- `pow_u256`, the loop: square and multiply. -/
def powLoop (result base exp : U256) : U256 :=
  if h : exp.val = 0 then result
  else
    powLoop (if exp.val % 2 = 1 then result.overflowingMul base else result)
      (base.overflowingMul base) ⟨exp.val / 2, (Nat.div_le_self _ _).trans_lt exp.isLt⟩
termination_by exp.val
decreasing_by exact Nat.div_lt_self (Nat.pos_of_ne_zero h) one_lt_two

/-- Powers, wrapping. -/
def powU256 (base exp : U256) : U256 :=
  if exp.isZero then one
  else if base.isZero then zero
  else powLoop one base exp

/-- `as_usize`: a panic if it does not fit. -/
def asUsize (a : U256) : Option ℕ := if a.val < 2 ^ 64 then some a.val else none

end U256

namespace Qvm

/-- **32 bytes**, kept as the number they spell in big endian. -/
structure H256 where
  word : U256
deriving DecidableEq

namespace H256

/-- The zero word. -/
def zero : H256 := ⟨U256.zero⟩

/-- Whether it is zero. -/
def isZero (h : H256) : Bool := h.word.isZero

end H256

/-- `ValueRef`: where a value is. -/
inductive ValueRef
  | localVar (index : ℕ)
  | storage (slot : H256)
  | memory (offset : ℕ)
  | field (base : ValueRef) (name : String)
  | index (base : ValueRef) (i : ℕ)
deriving DecidableEq

/-- **A value.** -/
inductive Value
  | u256 (n : U256)
  | bool (b : Bool)
  | address (a : Address)
  | bytes32 (h : H256)
  | bytes (b : Bytes)
  | string (s : String)
  | tuple (values : List Value)
  | array (values : List Value)
  | struct (name : String) (fields : List (String × Value))
  | resource (name : String) (fields : List (String × Value)) (id : ℕ)
  | ref (r : ValueRef)
  | refMut (r : ValueRef)
  | unit
  | none

namespace Value

mutual

/-- `==` of values. -/
def beq : Value → Value → Bool
  | u256 a, u256 b => a = b
  | bool a, bool b => a = b
  | address a, address b => a = b
  | bytes32 a, bytes32 b => a = b
  | bytes a, bytes b => a = b
  | string a, string b => a = b
  | tuple as, tuple bs => beqList as bs
  | array as, array bs => beqList as bs
  | struct a as, struct b bs => a = b && beqFields as bs
  | resource a as i, resource b bs j => a = b && beqFields as bs && i = j
  | ref a, ref b => a = b
  | refMut a, refMut b => a = b
  | unit, unit => true
  | none, none => true
  | _, _ => false

/-- Equality of lists. -/
def beqList : List Value → List Value → Bool
  | [], [] => true
  | a :: as, b :: bs => beq a b && beqList as bs
  | _, _ => false

/-- Equality of fields. -/
def beqFields : List (String × Value) → List (String × Value) → Bool
  | [], [] => true
  | (m, a) :: as, (n, b) :: bs => m = n && beq a b && beqFields as bs
  | _, _ => false

end

/-- The number zero. -/
def zero : Value := u256 U256.zero

/-- A 64-bit number. -/
def fromU64 (n : ℕ) : Value := u256 (.wrap n)

/-- Whether it counts as true. -/
def isTruthy : Value → Bool
  | bool b => b
  | u256 n => !n.isZero
  | unit => false
  | none => false
  | bytes b => !b.isEmpty
  | string s => s ≠ ""
  | array values => !values.isEmpty
  | _ => true

/-- `type_name`, for errors. -/
def typeName : Value → String
  | u256 _ => "u256"
  | bool _ => "bool"
  | address _ => "address"
  | bytes32 _ => "bytes32"
  | bytes _ => "bytes"
  | string _ => "string"
  | tuple _ => "tuple"
  | array _ => "array"
  | struct _ _ => "struct"
  | resource _ _ _ => "resource"
  | ref _ => "ref"
  | refMut _ => "ref_mut"
  | unit => "()"
  | none => "none"

/-- A number, if it is one. -/
def asU256 : Value → Option U256
  | u256 n => some n
  | bool b => some (if b then U256.one else U256.zero)
  | _ => Option.none

/-- A condition, if it is one. -/
def asBool : Value → Option Bool
  | bool b => some b
  | u256 n => some !n.isZero
  | _ => Option.none

/-- The word a value can be as a storage key or a topic. -/
def asH256 : Value → Option H256
  | bytes32 h => some h
  | u256 n => some ⟨n⟩
  | _ => Option.none

end Value

end Qvm

end Qfc
