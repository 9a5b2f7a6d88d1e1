import Clausal.Json.Double

/-!
# Numbers in JSON

What the spelling of a number says: which natural number it is, if it is written as one, and
whether it is read as a finite double.
-/

namespace Clausal.Json

/-- The number that a decimal digit stands for. -/
def digitValue (c : Char) : Nat := c.toNat - 0x30

/-- The number that a sequence of decimal digits stands for. -/
def digitsValue (cs : List Char) : Nat :=
  cs.foldl (fun n c => 10 * n + digitValue c) 0

/-- The natural number spelled by digits alone, without sign, point or exponent. -/
def natural? (literal : String) : Option Nat :=
  if literal.toList.all Char.isDigit then some (digitsValue literal.toList) else none

/-- The last number of 64 bits. -/
def wordMax : Nat := 0xFFFFFFFFFFFFFFFF

/-- The digits of a number as far as 64 bits hold them: the number is about `significand` times ten
to the power `exponent`, up to its sign. -/
structure Magnitude where
  significand : Nat
  exponent : Int

namespace Magnitude

/-- The significand with one more digit, if 64 bits hold it. -/
def push? (m : Magnitude) (c : Char) : Option Nat :=
  let n := 10 * m.significand + digitValue c
  if n ≤ wordMax then some n else none

/-- Takes in digits before the point. The first one that is too many and those after it count as
zeros. -/
def takeWhole (m : Magnitude) : List Char → Magnitude
  | [] => m
  | c :: cs =>
    match m.push? c with
    | some n => takeWhole ⟨n, m.exponent⟩ cs
    | none => ⟨m.significand, m.exponent + (cs.length + 1)⟩

/-- Takes in digits after the point, up to the first one that is too many. -/
def takeFraction (m : Magnitude) : List Char → Magnitude
  | [] => m
  | c :: cs =>
    match m.push? c with
    | some n => takeFraction ⟨n, m.exponent - 1⟩ cs
    | none => m

/-- Multiplies by a power of ten. -/
def scale (m : Magnitude) (exponent : Int) : Magnitude := ⟨m.significand, m.exponent + exponent⟩

/-- The largest power of ten that a double holds. -/
def maxExponent : Int := 308

/-- Whether the magnitude is a finite double. The significand and the power of ten are each rounded
to a double, and so is their product. -/
def isFinite (m : Magnitude) : Bool :=
  if m.significand = 0 || m.exponent < 0 then true
  else if m.exponent > maxExponent then false
  else
    Double.holds (Double.round m.significand * Double.round (Nat.pow 10 m.exponent.toNat))

end Magnitude

/-- The exponent that follows the mark `e`. -/
def exponentValue : List Char → Int
  | '-' :: cs => -(digitsValue cs : Int)
  | '+' :: cs => digitsValue cs
  | cs => digitsValue cs

/-- The magnitude of a spelled number. -/
def magnitude (literal : String) : Magnitude :=
  let mantissa := literal.toList.takeWhile fun c => c != 'e' && c != 'E'
  let whole := (mantissa.takeWhile (· != '.')).filter Char.isDigit
  let fraction := (mantissa.dropWhile (· != '.')).filter Char.isDigit
  let mark := literal.toList.dropWhile fun c => c != 'e' && c != 'E'
  (((⟨0, 0⟩ : Magnitude).takeWhole whole).takeFraction fraction).scale (exponentValue (mark.drop 1))

/-- Numbers that are read as finite doubles. -/
def isFinite (literal : String) : Bool := (magnitude literal).isFinite

end Clausal.Json
