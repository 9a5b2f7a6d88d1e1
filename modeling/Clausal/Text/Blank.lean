/-!
# Blank characters

The characters that separate words. A symbol name holds none of them.
-/

namespace Clausal.Text

/-- The first and last code points of the runs with the Unicode property `White_Space`. -/
def blankRuns : List (Nat × Nat) :=
  [(0x09, 0x0D), (0x20, 0x20), (0x85, 0x85), (0xA0, 0xA0), (0x1680, 0x1680), (0x2000, 0x200A),
    (0x2028, 0x2029), (0x202F, 0x202F), (0x205F, 0x205F), (0x3000, 0x3000)]

/-- Holds of the characters with the Unicode property `White_Space`. -/
def isBlank (c : Char) : Bool :=
  blankRuns.any fun run => run.1 ≤ c.toNat && c.toNat ≤ run.2

/-- A word is not empty and holds no blank. -/
def isWord (s : String) : Bool :=
  !s.isEmpty && s.toList.all fun c => !isBlank c

end Clausal.Text
