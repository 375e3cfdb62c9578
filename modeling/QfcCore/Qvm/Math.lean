import QfcCore.Qvm.Value

/-!
# The mathematics of the standard library

Functions of `qfc-qvm/src/stdlib/math.rs`. The operators of a 256-bit number
panic where the number does not fit, so a call has three outcomes: a value, an
error, and the panic. The square root is found by Newton's iteration, the
logarithm by a search for the highest bit, and the power by squaring, in the loop
the interpreter has.
-/

namespace Qfc

open Nat

variable {a : U256}

namespace U256

/-- The operator `/`: `none` is the panic on zero. -/
def div? (a b : U256) : Option U256 := if b.isZero then none else some (a.divConst b.val)

/-- The operator `<<`, which drops the high bits. -/
def shl (a : U256) (bits : ℕ) : U256 := wrap (a.val * 2 ^ bits)

/-- The operator `>>`. -/
def shr (a : U256) (bits : ℕ) : U256 := a.divConst (2 ^ bits)

theorem add?_eq {b : U256} (h : a.val + b.val < u256Size) :
    ∃ sum, a.add? b = some sum ∧ sum.val = a.val + b.val :=
  ⟨⟨_, h⟩, dif_pos h, rfl⟩

/-- `pow_u256`, the loop for at most `n` iterations: `none` if it needs more. -/
def powWithin (n : ℕ) (result base exp : U256) : Option U256 :=
  if exp.val = 0 then some result
  else match n with
    | 0 => none
    | n + 1 =>
      powWithin n (if exp.val % 2 = 1 then result.overflowingMul base else result)
        (base.overflowingMul base) (exp.divConst 2)

/-- An iteration keeps the product of the result and the power still to come. -/
theorem powLoop_step (result base exp : U256) :
    (if exp.val % 2 = 1 then result.overflowingMul base else result).val *
        (base.overflowingMul base).val ^ (exp.val / 2) ≡
      result.val * base.val ^ exp.val [MOD u256Size] := by
  have hpow : base.val ^ exp.val =
      base.val ^ (exp.val % 2) * (base.val * base.val) ^ (exp.val / 2) := by
    rw [← sq, ← pow_mul, ← pow_add, mod_add_div]
  rw [hpow, ← mul_assoc]
  refine ModEq.mul ?_ ((mod_modEq _ _).pow _)
  rcases mod_two_eq_zero_or_one exp.val with hbit | hbit
  · simp [hbit, ModEq.rfl]
  · rw [if_pos hbit, hbit, pow_one]
    exact mod_modEq _ _

/-- The loop multiplies by the power, in as many iterations as the exponent has bits. -/
theorem powLoop_eq (result base exp : U256) {n : ℕ} (h : exp.val < 2 ^ n) :
    powLoop result base exp = wrap (result.val * base.val ^ exp.val) ∧
      powWithin n result base exp = some (powLoop result base exp) := by
  -- one case for the end of the loop, and one for an iteration, which halves the exponent
  fun_induction powLoop result base exp generalizing n with
  | case1 result base exp hzero =>
    unfold powWithin
    refine ⟨U256.ext ?_, if_pos hzero⟩
    rw [hzero, pow_zero, mul_one]
    exact (mod_eq_of_lt result.isLt).symm
  | case2 result base exp hne ih =>
    cases n with
    | zero => omega
    | succ n =>
      obtain ⟨hloop, hwithin⟩ := ih (n := n) (Nat.div_lt_of_lt_mul (by rwa [← pow_succ']))
      exact ⟨hloop.trans (U256.ext (powLoop_step result base exp)), (if_neg hne).trans hwithin⟩

end U256

namespace Qvm.Std

/-- `ExecutionError`, as far as these functions raise it. -/
inductive StdError
  | typeError (expected found : String)
  | divisionByZero
  | overflow
  | internal (message : String)

/-- What a function of the library returns; `none` is a panic. -/
abbrev StdResult (α : Type) := ExceptT StdError Option α

/-- The number of arguments. -/
def checkArgs (args : List Value) (expected : ℕ) (func : String) : StdResult Unit :=
  if args.length ≠ expected then
    throw (.internal (func ++ "() expects " ++ toString expected ++ " arguments, got "
      ++ toString args.length))
  else return ()

/-- `get_u256` of the argument at an index. -/
def getU256 (args : List Value) (i : ℕ) : StdResult U256 := do
  let value ← (args[i]? : Option Value)
  match value.asU256 with
  | some a => return a
  | none => throw (.typeError "u256" value.typeName)

/-! ## The square root -/

/-- `sqrt`, the loop. -/
def sqrtLoop (a x y : U256) : Option U256 :=
  if _h : y.val < x.val then do
    let quotient ← a.div? y
    let sum ← y.add? quotient
    sqrtLoop a y (sum.shr 1)
  else some x
termination_by x.val

/-- `sqrt` of a positive number, by Newton's method. -/
def newtonRoot (a : U256) : Option U256 := do
  let sum ← a.add? .one
  sqrtLoop a a (sum.shr 1)

/-- The integer square root. -/
def sqrt (args : List Value) : StdResult Value := do
  checkArgs args 1 "sqrt"
  let a ← getU256 args 0
  if a.isZero then return .u256 .zero
  let x ← newtonRoot a
  return .u256 x

/-- One step of Newton's iteration stays above the root. -/
theorem sqrt_le_newton (a : ℕ) {y : ℕ} (hy : 0 < y) : Nat.sqrt a ≤ (y + a / y) / 2 := by
  have hroot := Nat.sqrt_le a
  generalize Nat.sqrt a = r at hroot ⊢
  rw [Nat.le_div_iff_mul_le two_pos]
  rcases le_total (r * 2) y with hle | hle
  · exact hle.trans (Nat.le_add_right _ _)
  · obtain ⟨z, hz⟩ := Nat.exists_eq_add_of_le hle
    -- two numbers whose sum is `2 * r` have a product of at most `r * r`
    have hprod : z * y ≤ a := by nlinarith [sq_nonneg ((z : ℤ) - y)]
    rw [hz]
    exact Nat.add_le_add_left ((Nat.le_div_iff_mul_le hy).mpr hprod) y

/-- The sum of an iteration does not exceed the one of the first. -/
theorem add_div_le {a y : ℕ} (hy : 0 < y) (hya : y ≤ a) : y + a / y ≤ a + 1 := by
  have hq : 0 < a / y := div_pos hya hy
  have hmul := mul_div_le a y
  nlinarith only [hy, hq, hmul]

/-- The loop finds the root from any guess above it. -/
theorem sqrtLoop_eq (ha : a.val + 1 < u256Size) (x y : U256) (hx : 0 < x.val) (hxa : x.val ≤ a.val)
    (hroot : Nat.sqrt a.val ≤ x.val) (hy : y.val = (x.val + a.val / x.val) / 2) :
    ∃ r, sqrtLoop a x y = some r ∧ r.val = Nat.sqrt a.val := by
  unfold sqrtLoop
  have hq : 0 < a.val / x.val := Nat.div_pos hxa hx
  split
  case isTrue hlt =>
    have hypos : 0 < y.val := by omega
    have hya : y.val ≤ a.val := hlt.le.trans hxa
    have hdiv : a.div? y = some (a.divConst y.val) := if_neg (by simp [hypos.ne'])
    obtain ⟨sum, hadd, hsum⟩ :=
      U256.add?_eq (a := y) (b := a.divConst y.val) ((add_div_le hypos hya).trans_lt ha)
    simp only [hdiv, hadd, Option.bind_eq_bind, Option.bind_some]
    exact sqrtLoop_eq ha y _ hypos hya (hy ▸ sqrt_le_newton a.val hx) (congrArg (· / 2) hsum)
  case isFalse hle =>
    -- a guess that does not improve is at most `a / x`
    have hself : x.val ≤ a.val / x.val := by omega
    have hle : x.val ≤ Nat.sqrt a.val := Nat.le_sqrt.mpr ((Nat.le_div_iff_mul_le hx).mp hself)
    exact ⟨x, rfl, hle.antisymm hroot⟩
termination_by x.val

/-- Below the largest number the root is found. -/
theorem newtonRoot_eq (ha : a.val + 1 < u256Size) (hpos : 0 < a.val) :
    ∃ r, newtonRoot a = some r ∧ r.val = Nat.sqrt a.val := by
  obtain ⟨sum, hadd, hsum⟩ := U256.add?_eq (a := a) (b := .one) ha
  have hy : (sum.shr 1).val = (a.val + a.val / a.val) / 2 := by
    rw [Nat.div_self hpos]
    exact congrArg (· / 2) hsum
  simp only [newtonRoot, hadd, Option.bind_eq_bind, Option.bind_some]
  exact sqrtLoop_eq ha a _ hpos le_rfl (sqrt_le_self _) hy

theorem sqrt_eq (ha : a.val + 1 < u256Size) :
    ∃ r : U256, sqrt [.u256 a] = some (.ok (.u256 r)) ∧ r.val = Nat.sqrt a.val := by
  rcases Nat.eq_zero_or_pos a.val with hzero | hpos
  · obtain rfl : a = U256.zero := U256.ext hzero
    exact ⟨_, rfl, Nat.sqrt_zero.symm⟩
  · obtain ⟨r, hr, hroot⟩ := newtonRoot_eq ha hpos
    refine ⟨r, ?_, hroot⟩
    show (if a.isZero then return .u256 .zero else do
      let x ← newtonRoot a
      return .u256 x : StdResult Value) = some (.ok (.u256 r))
    rw [if_neg (by simp [hpos.ne']), hr]
    rfl

/-! ## The logarithm -/

/-- `log2`, the tests for `2 ^ j` bits, down to two. -/
def log2Search : ℕ → U256 → U256 → Option (U256 × U256)
  | 0, n, result => some (n, result)
  | j + 1, n, result =>
    if (U256.one.shl (2 ^ (j + 1))).val ≤ n.val then do
      let result ← result.add? (.wrap (2 ^ (j + 1)))
      log2Search j (n.shr (2 ^ (j + 1))) result
    else log2Search j n result

/-- `log2` of a positive number: the position of the highest bit. -/
def highestBit (a : U256) : Option U256 := do
  let (n, result) ← log2Search 7 a .zero
  if 2 ≤ n.val then result.add? .one else some result

/-- The integer logarithm. -/
def log2 (args : List Value) : StdResult Value := do
  checkArgs args 1 "log2"
  let a ← getU256 args 0
  if a.isZero then throw (.internal "log2(0) is undefined")
  let result ← highestBit a
  return .u256 result

/-- The search leaves two bits, and counts those it shifted out. -/
theorem log2Search_eq {j : ℕ} (hj : j ≤ 7) (n result : U256) (hpos : 0 < n.val)
    (hlt : n.val < 2 ^ 2 ^ (j + 1)) (hfits : result.val + 2 ^ (j + 1) ≤ 256) :
    ∃ n' result', log2Search j n result = some (n', result') ∧ 0 < n'.val ∧ n'.val < 4 ∧
      result'.val ≤ 254 ∧ result'.val + log 2 n'.val = result.val + log 2 n.val := by
  induction j generalizing n result with
  | zero => exact ⟨n, result, rfl, hpos, hlt, by omega, rfl⟩
  | succ j ih =>
    unfold log2Search
    have hw : 2 ^ (j + 1) ≤ 128 := Nat.pow_le_pow_right two_pos hj
    rw [pow_succ 2 (j + 1)] at hlt hfits
    generalize 2 ^ (j + 1) = w at ih hw hlt hfits ⊢
    have hbit : (U256.one.shl w).val = 2 ^ w := by
      have hpow : 2 ^ w ≤ 2 ^ 128 := Nat.pow_le_pow_right two_pos hw
      show 1 % u256Size * 2 ^ w % u256Size = 2 ^ w
      norm_num [u256Size] at hpow ⊢
      omega
    rw [hbit]
    split
    case isTrue hle =>
      have hwrap : (U256.wrap w).val = w := mod_eq_of_lt (by norm_num [u256Size]; omega)
      obtain ⟨sum, hadd, hsum⟩ :=
        U256.add?_eq (a := result) (b := .wrap w) (by norm_num [hwrap, u256Size]; omega)
      simp only [hadd, Option.bind_eq_bind, Option.bind_some]
      have hlog : w ≤ log 2 n.val := (le_log_iff_pow_le one_lt_two hpos.ne').mpr hle
      have hshr : log 2 (n.shr w).val = log 2 n.val - w := log_div_base_pow 2 _ w
      obtain ⟨n', result', heq, hpos', hlt', hle', htotal⟩ :=
        ih (by omega) (n.shr w) sum (div_pos hle (pow_pos two_pos w))
          (Nat.div_lt_of_lt_mul (by rwa [← pow_add, ← mul_two])) (by omega)
      exact ⟨n', result', heq, hpos', hlt', hle', by omega⟩
    case isFalse hlt => exact ih (by omega) n result hpos (not_le.mp hlt) (by omega)

/-- The highest bit of a positive number is found. -/
theorem highestBit_eq (ha : 0 < a.val) : ∃ k, highestBit a = some k ∧ k.val = log 2 a.val := by
  obtain ⟨n, result, hsearch, hpos, hlt, hle, hsum⟩ :=
    log2Search_eq (le_refl 7) a .zero ha a.isLt (by decide)
  rw [U256.zero_val, zero_add] at hsum
  simp only [highestBit, hsearch, Option.bind_eq_bind, Option.bind_some]
  split
  case isTrue htwo =>
    obtain ⟨next, hadd, hnext⟩ :=
      U256.add?_eq (a := result) (b := .one) (by norm_num [u256Size, U256.one, U256.wrap]; omega)
    have hlog : log 2 n.val = 1 := (log_eq_iff (.inl one_ne_zero)).mpr ⟨htwo, hlt⟩
    exact ⟨next, hadd, by rw [hnext, ← hsum, hlog]; rfl⟩
  case isFalse hone =>
    have hlog : log 2 n.val = 0 := log_eq_zero_iff.mpr (.inl (not_le.mp hone))
    exact ⟨result, rfl, by rw [← hsum, hlog, add_zero]⟩

/-- **The largest number has no root here**: the sum of the first step does not
fit. Every other number has its root, and every positive one its logarithm. -/
theorem sqrt_log2_correct (a : U256) :
    ((∃ r : U256, sqrt [.u256 a] = some (.ok (.u256 r)) ∧
        ∀ n, n * n ≤ a.val ∧ a.val < (n + 1) * (n + 1) ↔ n = r.val) ↔ a.val ≠ u256Size - 1) ∧
      (0 < a.val → ∃ k : U256, log2 [.u256 a] = some (.ok (.u256 k)) ∧
        ∀ n, 2 ^ n ≤ a.val ∧ a.val < 2 ^ (n + 1) ↔ n = k.val) := by
  have hlt := a.isLt
  refine ⟨⟨?_, ?_⟩, ?_⟩
  · rintro ⟨r, hr, -⟩ hmax
    obtain rfl : a = ⟨u256Size - 1, by decide⟩ := U256.ext hmax
    exact nomatch hr
  · intro hne
    obtain ⟨r, hr, hroot⟩ := sqrt_eq (a := a) (by omega)
    exact ⟨r, hr, fun n => by rw [hroot, eq_sqrt]⟩
  · intro hpos
    obtain ⟨k, hk, hlog⟩ := highestBit_eq hpos
    refine ⟨k, ?_, fun n => ?_⟩
    · show (if a.isZero then throw _ else do
        let result ← highestBit a
        return .u256 result : StdResult Value) = some (.ok (.u256 k))
      rw [if_neg (by simp [hpos.ne']), hk]
      rfl
    · rw [hlog, eq_comm, log_eq_iff (.inr ⟨one_lt_two, hpos.ne'⟩)]

theorem sqrt_log2_correct_ten :
    ∃ r k : U256, sqrt [.u256 (.wrap 10)] = some (.ok (.u256 r)) ∧
      log2 [.u256 (.wrap 10)] = some (.ok (.u256 k)) := by
  obtain ⟨hsqrt, hlog2⟩ := sqrt_log2_correct (.wrap 10)
  obtain ⟨r, hr, -⟩ := hsqrt.mpr (by decide)
  obtain ⟨k, hk, -⟩ := hlog2 (by decide)
  exact ⟨r, k, hr, hk⟩

theorem sqrt_max_panics : sqrt [.u256 ⟨u256Size - 1, by decide⟩] = none := rfl

/-! ## The power -/

/-- `pow`, whose body is that of `pow_u256` written once more. -/
def pow (args : List Value) : StdResult Value := do
  checkArgs args 2 "pow"
  let base ← getU256 args 0
  let exp ← getU256 args 1
  if exp.isZero then return .u256 .one
  if base.isZero then return .u256 .zero
  return .u256 (.powLoop .one base exp)

/-- **Both functions return `base ^ exp` modulo `2 ^ 256`**, and their loop ends within 256
iterations. -/
theorem pow_correct (base exp : U256) :
    base.powU256 exp = .wrap (base.val ^ exp.val) ∧
      pow [.u256 base, .u256 exp] = some (.ok (.u256 (.wrap (base.val ^ exp.val)))) ∧
      U256.powWithin 256 .one base exp = some (.powLoop .one base exp) := by
  obtain ⟨hloop, hwithin⟩ := U256.powLoop_eq .one base exp exp.isLt
  have hpow : base.powU256 exp = .wrap (base.val ^ exp.val) := by
    unfold U256.powU256
    split_ifs with hexp hbase
    · rw [(U256.isZero_iff _).mp hexp, pow_zero]
      rfl
    · rw [(U256.isZero_iff _).mp hbase, zero_pow (by simpa using hexp)]
      rfl
    · rw [hloop]
      exact congrArg U256.wrap (one_mul _)
  refine ⟨hpow, ?_, hwithin⟩
  rw [← hpow]
  unfold U256.powU256
  show (if exp.isZero then _ else if base.isZero then _ else _ : StdResult Value) = _
  split_ifs <;> rfl

end Qvm.Std

end Qfc
