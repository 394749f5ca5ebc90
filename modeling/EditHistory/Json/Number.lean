/-
What a written number stands for, and how a float is written.

Digits alone are an integer if they fit into sixty-four bits, signed or unsigned;
everything else is a float.  A float is read in two steps, each rounded: the leading
digits that fit into sixty-four bits are one float, the power of ten another, and
the two are multiplied or divided.  For numbers of up to nineteen digits with a
small exponent the second step is the only one that rounds.
-/
import EditHistory.Binary64
import EditHistory.Json.Basic
import EditHistory.Json.Token
import EditHistory.Offset

namespace EditHistory.Json

namespace Numeral

/-- Takes digits to the end of a number as long as a word holds it; answers the number and the
digits not taken. -/
def absorb (significand : Nat) : List Char → Nat × List Char
  | [] => (significand, [])
  | c :: cs =>
    let longer := 10 * significand + (c.toNat - '0'.toNat)
    if Offset.Fits longer then absorb longer cs else (significand, c :: cs)

/-- The leading digits that fit, and the power of ten that belongs to them. -/
def scientific (n : Numeral) : Nat × Int :=
  let (significand, beyond) := absorb 0 n.whole
  let (significand, dropped) := absorb significand n.fraction
  let written : Int := match n.exponent with
    | none => 0
    | some (negative, digits) =>
      let value : Int := Nat.ofDigitChars 10 digits 0
      if negative then -value else value
  (significand, beyond.length - (n.fraction.length - dropped.length) + written)

/-- Divides by a power of ten, by `10 ^ 308` at a time while there is more to divide by. -/
def divPow10? (x : Magnitude) (power : Nat) : Option Magnitude :=
  if x.mantissa = 0 then some x
  else if power ≤ 308 then (Magnitude.tenTo? power).bind x.div?
  else (Magnitude.tenTo? 308).bind fun p => (x.div? p).bind (divPow10? · (power - 308))
termination_by power

/-- The magnitude of a significand times a power of ten, unless it is out of range. -/
def scale? (significand : Nat) (exponent : Int) : Option Magnitude := do
  let x ← Magnitude.ofNat? significand
  if exponent < 0 then divPow10? x exponent.natAbs
  else if x.mantissa = 0 then some x
  else if exponent ≤ 308 then x.mul? (← Magnitude.tenTo? exponent.toNat)
  else none

/-- The value as a float. -/
def float? (n : Numeral) : Option Json :=
  let (significand, exponent) := n.scientific
  (scale? significand exponent).map fun x => .float (x.bits n.negative)

/-- The value as an integer: digits alone, not `-0`, within sixty-four bits. -/
def int? (n : Numeral) : Option Int :=
  if n.fraction = [] ∧ n.exponent = none then
    let value := Nat.ofDigitChars 10 n.whole 0
    if n.negative then if 0 < value ∧ Offset.FitsSigned (-value) then some (-value) else none
    else if Offset.Fits value then some value else none
  else none

/-- The value of a written number; none if it is too large for a float. -/
def toJson? (n : Numeral) : Option Json :=
  match n.int? with
  | some i => some (.int i)
  | none => n.float?

end Numeral

/-- The text of a float with the given digits and exponent.

Numbers from `1e-5` to below `1e16` are written out, with at least one digit after the point;
others have one digit before it and an exponent. -/
def floatText (digits : List Char) (exponent : Int) : List Char :=
  let count := digits.length
  let point : Int := count + exponent
  if 0 ≤ exponent ∧ point ≤ 16 then
    digits ++ List.replicate exponent.toNat '0' ++ ['.', '0']
  else if 0 < point ∧ point ≤ 16 then
    digits.take point.toNat ++ '.' :: digits.drop point.toNat
  else if -5 < point ∧ point ≤ 0 then
    '0' :: '.' :: (List.replicate (-point).toNat '0' ++ digits)
  else
    let tail := if count = 1 then [] else '.' :: digits.drop 1
    let power := point - 1
    digits.take 1 ++ tail ++ 'e' :: (if power < 0 then ['-'] else []) ++
      Nat.toDigits 10 power.natAbs

/-- The text of a float. -/
def writeFloat (bits : UInt64) : List Char :=
  let (negative, x) := Magnitude.ofBits bits
  let text :=
    if x.mantissa = 0 then ['0', '.', '0']
    else
      let (digits, exponent) := x.shortest
      floatText (Nat.toDigits 10 digits) exponent
  if negative then '-' :: text else text

/-- The text of an integer. -/
def writeInt (value : Int) : List Char :=
  if value < 0 then '-' :: Nat.toDigits 10 value.natAbs else Nat.toDigits 10 value.natAbs

end EditHistory.Json
