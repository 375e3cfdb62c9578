import QfcCore.Qvm.Value

/-!
# Low words

Native code keeps the lower 64 bits of a value. Sums, differences, products and the
bitwise operations of the machine act on low words; quotients, comparisons and shifts to
the right do so for numbers that fit in a word.
-/

namespace Qfc.Qvm

open BitVec Value

/-- The low word of a number. -/
def word (n : U256) : BitVec 64 := .ofNat 64 n.val

/-- **The low word of a value**: zero if it is not a number. -/
def Value.low : Value → BitVec 64
  | .u256 n => word n
  | .bool b => if b then 1 else 0
  | _ => 0

@[simp] theorem Value.low_u256 (n : U256) : (u256 n).low = word n := rfl

/-- A number that fits in a word. -/
def Value.small (v : Value) : Bool := v.asU256.any (fun n => n.val < 2 ^ 64)

/-- Zero or one. -/
def Value.isFlag (v : Value) : Bool := v.asU256.any (fun n => n.val ≤ 1)

variable {v : Value}

theorem Value.low_of_asU256 {n : U256} (h : v.asU256 = some n) : v.low = word n := by
  cases v with
  | u256 m =>
    cases h
    rfl
  | bool b =>
    cases h
    cases b <;> rfl
  | _ => cases h

theorem Value.small_iff : v.small = true ↔ ∃ n, v.asU256 = some n ∧ n.val < 2 ^ 64 := by
  unfold small
  cases v.asU256 <;> simp

theorem Value.lt_of_small {n : U256} (hn : v.asU256 = some n) (h : v.small = true) :
    n.val < 2 ^ 64 := by
  simpa [small, hn] using h

theorem Value.isFlag_iff : v.isFlag = true ↔ ∃ n, v.asU256 = some n ∧ n.val ≤ 1 := by
  unfold isFlag
  cases v.asU256 <;> simp

theorem word_wrap (n : ℕ) : word (.wrap n) = .ofNat 64 n := by
  apply eq_of_toNat_eq
  simp only [word, U256.wrap, toNat_ofNat, u256Size]
  omega

variable (a b : U256)

theorem word_overflowingAdd : word (a.overflowingAdd b) = word a + word b := by
  rw [U256.overflowingAdd, word_wrap, ofNat_add]
  rfl

theorem word_overflowingMul : word (a.overflowingMul b) = word a * word b := by
  rw [U256.overflowingMul, word_wrap, ofNat_mul]
  rfl

theorem word_overflowingSub : word (a.overflowingSub b) = word a - word b := by
  have hb := b.isLt
  rw [U256.overflowingSub, word_wrap]
  apply eq_of_toNat_eq
  simp only [word, toNat_ofNat, u256Size, toNat_sub] at hb ⊢
  omega

theorem word_neg (a : U256) : word (U256.zero.overflowingSub a) = -word a := by
  rw [word_overflowingSub]
  exact zero_sub _

theorem word_and : word (.wrap (a.val &&& b.val)) = word a &&& word b := by
  rw [word_wrap]
  apply eq_of_toNat_eq
  simp [word]

theorem word_or : word (.wrap (a.val ||| b.val)) = word a ||| word b := by
  rw [word_wrap]
  apply eq_of_toNat_eq
  simp [word]

theorem word_xor : word (.wrap (a.val ^^^ b.val)) = word a ^^^ word b := by
  rw [word_wrap]
  apply eq_of_toNat_eq
  simp [word]

theorem word_not (a : U256) : word (.wrap (u256Size - 1 - a.val)) = ~~~word a := by
  have ha := a.isLt
  rw [word_wrap]
  apply eq_of_toNat_eq
  simp only [word, toNat_ofNat, u256Size, toNat_not] at ha ⊢
  omega

theorem word_toNat {a : U256} (ha : a.val < 2 ^ 64) : (word a).toNat = a.val :=
  (toNat_ofNat ..).trans (Nat.mod_eq_of_lt ha)

theorem word_div {a b : U256} (ha : a.val < 2 ^ 64) (hb : b.val < 2 ^ 64) :
    word (.wrap (a.val / b.val)) = word a / word b := by
  rw [word_wrap]
  apply eq_of_toNat_eq
  rw [toNat_udiv, word_toNat ha, word_toNat hb, toNat_ofNat]
  exact Nat.mod_eq_of_lt ((Nat.div_le_self _ _).trans_lt ha)

theorem word_mod {a b : U256} (ha : a.val < 2 ^ 64) (hb : b.val < 2 ^ 64) :
    word (.wrap (a.val % b.val)) = word a % word b := by
  rw [word_wrap]
  apply eq_of_toNat_eq
  rw [toNat_umod, word_toNat ha, word_toNat hb, toNat_ofNat]
  exact Nat.mod_eq_of_lt ((Nat.mod_le _ _).trans_lt ha)

theorem word_shl {a : U256} {k : ℕ} : word (.wrap (a.val <<< k)) = word a <<< k := by
  rw [word_wrap]
  apply eq_of_toNat_eq
  rw [toNat_shiftLeft, toNat_ofNat, Nat.shiftLeft_eq, Nat.shiftLeft_eq, word,
    toNat_ofNat, Nat.mod_mul_mod]

theorem word_shr {a : U256} {k : ℕ} (ha : a.val < 2 ^ 64) :
    word (.wrap (a.val >>> k)) = word a >>> k := by
  rw [word_wrap]
  apply eq_of_toNat_eq
  rw [toNat_ushiftRight, word_toNat ha, toNat_ofNat]
  exact Nat.mod_eq_of_lt ((Nat.shiftRight_le _ _).trans_lt ha)

theorem word_eq_iff {a b : U256} (ha : a.val < 2 ^ 64) (hb : b.val < 2 ^ 64) :
    word a = word b ↔ a = b := by
  constructor
  · intro h
    have hval : a.val = b.val := by rw [← word_toNat ha, ← word_toNat hb, h]
    obtain ⟨a, _⟩ := a
    obtain ⟨b, _⟩ := b
    cases hval
    rfl
  · rintro rfl
    rfl

theorem word_eq_zero {a : U256} (ha : a.val < 2 ^ 64) : word a = 0 ↔ a.isZero = true := by
  refine (word_eq_iff (b := U256.zero) ha (by decide)).trans ?_
  obtain ⟨a, _⟩ := a
  simp [U256.isZero, U256.zero]

/-! ## Truth values -/

theorem Value.low_bool_eq_iff {p q : Bool} : (bool p).low = (bool q).low ↔ p = q := by
  cases p <;> cases q <;> simp [low]

/-- A number that fits in a word is true if its low word is not zero. -/
theorem Value.low_eq_zero_iff (h : v.small = true) : v.low = 0 ↔ v.isTruthy = false := by
  obtain ⟨n, hn, hlt⟩ := small_iff.mp h
  cases v with
  | u256 m =>
    cases hn
    exact (word_eq_zero hlt).trans (by simp [isTruthy])
  | bool b => cases b <;> simp [low, isTruthy]
  | _ => cases hn

theorem Value.decide_low_ne_zero (h : v.small = true) : decide (v.low ≠ 0) = v.isTruthy := by
  rw [Bool.eq_iff_iff, decide_eq_true_eq, ne_eq, low_eq_zero_iff h, Bool.not_eq_false]

theorem Value.isTruthy_of_asBool {p : Bool} (h : v.asBool = some p) : v.isTruthy = p := by
  cases v with
  | u256 m | bool b =>
    cases h
    rfl
  | _ => cases h

theorem Value.low_of_isFlag {p : Bool} (hflag : v.isFlag = true) (h : v.asBool = some p) :
    v.low = (bool p).low := by
  obtain ⟨n, hn, hle⟩ := isFlag_iff.mp hflag
  cases v with
  | u256 m =>
    cases hn
    cases h
    obtain ⟨k, hk⟩ := n
    obtain rfl | rfl : k = 0 ∨ k = 1 := by
      have hle : k ≤ 1 := hle
      omega
    · rfl
    · rfl
  | bool b =>
    cases h
    rfl
  | _ => cases hn

end Qfc.Qvm
