/-!
# Doubles

Natural numbers rounded to those that a double holds, the numbers with 53 significant bits below
two to the power 1024.
-/

namespace Clausal.Json.Double

/-- The multiple of `s` nearest to `n`; in the middle between two, the even one. -/
def nearestMultiple (s n : Nat) : Nat :=
  match compare (2 * (n % s)) s with
  | .lt => n / s * s
  | .gt => (n / s + 1) * s
  | .eq => (n / s + n / s % 2) * s

/-- The distance of neighbours among the numbers with 53 significant bits, around `n`. -/
def spacing (n : Nat) : Nat := Nat.pow 2 (n.log2 - 52)

/-- The nearest number with 53 significant bits. -/
def round (n : Nat) : Nat := nearestMultiple (spacing n) n

/-- The least power of two above all doubles. -/
def bound : Nat := Nat.pow 2 1024

/-- Holds of the numbers that round to a finite double. -/
def holds (n : Nat) : Bool := round n < bound

end Clausal.Json.Double
