import QfcCore.Types.Primitives

/-!
# Reading numbers

The conversions of the standard library and of the `hex` crate by which the
front end turns the text of a literal into a number or into bytes.
-/

namespace Qfc.Qsc

/-- The value of a hexadecimal digit. -/
def hexDigit (c : Char) : Option ℕ :=
  if '0' ≤ c ∧ c ≤ '9' then some (c.toNat - '0'.toNat)
  else if 'a' ≤ c ∧ c ≤ 'f' then some (c.toNat - 'a'.toNat + 10)
  else if 'A' ≤ c ∧ c ≤ 'F' then some (c.toNat - 'A'.toNat + 10)
  else none

/-- `hex::decode`: two digits a byte. -/
def hexDecode : List Char → Option Bytes
  | [] => some []
  | [_] => none
  | hi :: lo :: rest => do
    let hi ← hexDigit hi
    let lo ← hexDigit lo
    let bytes ← hexDecode rest
    return UInt8.ofNat (hi * 16 + lo) :: bytes

/-- The number that digits of a radix up to ten spell. -/
def digitsValue (radix : ℕ) (digits : List Char) : Option ℕ :=
  digits.foldlM (fun n c =>
    if '0' ≤ c ∧ c ≤ '9' ∧ c.toNat - '0'.toNat < radix then some (n * radix + (c.toNat - '0'.toNat))
    else none) 0

/-- `from_str_radix` of an unsigned type of so many bits: a plus sign may stand
before the digits. -/
def parseUnsigned (bits radix : ℕ) (text : List Char) : Option ℕ :=
  let digits := match text with
    | '+' :: rest => rest
    | _ => text
  if digits = [] then none
  else (digitsValue radix digits).bind (fun n => if n < 2 ^ bits then some n else none)

/-- The number as so many bytes, in big endian. -/
def beBytes (count n : ℕ) : Bytes :=
  (List.range count).reverse.map (fun i => UInt8.ofNat (n / 256 ^ i % 256))

/-- Bytes with zeros before them, 32 in all. -/
def padLeft (bytes : Bytes) : Bytes := List.replicate (32 - bytes.length) 0 ++ bytes

/-- The bytes of a text. -/
def textBytes (text : String) : Bytes := text.toUTF8.toList

end Qfc.Qsc
