/-!
# Tokens of JSON

A JSON text is a sequence of tokens with blanks between them; this module spells tokens and scans
texts. A string that names half of a surrogate pair by an escape is a token without content, since
no text holds such a half.
-/

namespace Clausal.Json

/-- A token of JSON; a number keeps its spelling. -/
inductive Token where
  | openArray
  | closeArray
  | openObject
  | closeObject
  | comma
  | colon
  | null
  | bool (b : Bool)
  | number (literal : String)
  | string (content : Option String)
deriving DecidableEq

/-- The digit of a number below sixteen. -/
def hexDigit (n : Nat) : Char := if n < 10 then Char.ofNat (0x30 + n) else Char.ofNat (0x57 + n)

/-- The number that a hexadecimal digit stands for. -/
def hexValue? (c : Char) : Option Nat :=
  if '0' ≤ c ∧ c ≤ '9' then some (c.toNat - 0x30)
  else if 'a' ≤ c ∧ c ≤ 'f' then some (c.toNat - 0x57)
  else if 'A' ≤ c ∧ c ≤ 'F' then some (c.toNat - 0x37)
  else none

/-- The number that four hexadecimal digits stand for. -/
def hexValue4? (a b c d : Char) : Option Nat := do
  return 0x1000 * (← hexValue? a) + 0x100 * (← hexValue? b) + 0x10 * (← hexValue? c) +
    (← hexValue? d)

/-- The letter after the backslash for the characters that have one. -/
def shortEscape? (c : Char) : Option Char :=
  if c = '"' then some '"'
  else if c = '\\' then some '\\'
  else if c = '\x08' then some 'b'
  else if c = '\x0c' then some 'f'
  else if c = '\n' then some 'n'
  else if c = '\r' then some 'r'
  else if c = '\t' then some 't'
  else none

/-- The code point that a letter after the backslash stands for. -/
def escaped? (c : Char) : Option Nat :=
  if c = '"' then some 0x22
  else if c = '\\' then some 0x5C
  else if c = '/' then some 0x2F
  else if c = 'b' then some 0x08
  else if c = 'f' then some 0x0C
  else if c = 'n' then some 0x0A
  else if c = 'r' then some 0x0D
  else if c = 't' then some 0x09
  else none

/-- The spelling of a character in a string: control characters, the quote and the backslash are
escaped, and nothing else is. -/
def spellChar (c : Char) : List Char :=
  match shortEscape? c with
  | some letter => ['\\', letter]
  | none =>
    if c.toNat < 0x20 then
      ['\\', 'u', '0', '0', hexDigit (c.toNat / 16), hexDigit (c.toNat % 16)]
    else [c]

/-- The spelling of a string, quotes included; half a surrogate pair stands for no content. -/
def spellString : Option String → List Char
  | some s => '"' :: s.toList.flatMap spellChar ++ ['"']
  | none => ['"', '\\', 'u', 'd', '8', '0', '0', '"']

/-- The spelling of a token. -/
def Token.spell : Token → List Char
  | openArray => ['[']
  | closeArray => [']']
  | openObject => ['{']
  | closeObject => ['}']
  | comma => [',']
  | colon => [':']
  | null => ['n', 'u', 'l', 'l']
  | bool true => ['t', 'r', 'u', 'e']
  | bool false => ['f', 'a', 'l', 's', 'e']
  | number literal => literal.toList
  | string content => spellString content

/-- The first halves of surrogate pairs. -/
def isHighSurrogate (n : Nat) : Bool := 0xD800 ≤ n && n < 0xDC00

/-- The second halves of surrogate pairs. -/
def isLowSurrogate (n : Nat) : Bool := 0xDC00 ≤ n && n < 0xE000

/-- The text of code points that follow `done`, `none` when a surrogate has no partner. -/
def textOf? (done : List Char) : List Nat → Option String
  | [] => some (String.ofList done.reverse)
  | n :: rest =>
    if isHighSurrogate n then
      match rest with
      | m :: rest =>
        if isLowSurrogate m then
          textOf? (Char.ofNat (0x10000 + 0x400 * (n - 0xD800) + (m - 0xDC00)) :: done) rest
        else none
      | [] => none
    else if isLowSurrogate n then none
    else textOf? (Char.ofNat n :: done) rest

/-- The code points up to the closing quote, after those in `done`, and what follows the quote. -/
def scanString (done : List Nat) : List Char → Option (List Nat × List Char)
  | [] => none
  | c :: cs =>
    if c = '"' then some (done.reverse, cs)
    else if c = '\\' then
      match cs with
      | 'u' :: x :: y :: z :: w :: rest =>
        match hexValue4? x y z w with
        | some n => scanString (n :: done) rest
        | none => none
      | letter :: rest =>
        match escaped? letter with
        | some n => scanString (n :: done) rest
        | none => none
      | [] => none
    else if c.toNat < 0x20 then none
    else scanString (c.toNat :: done) cs

/-- The digits at the start, of which there is at least one, and what follows. -/
def scanDigits (cs : List Char) : Option (List Char × List Char) :=
  match cs.span Char.isDigit with
  | ([], _) => none
  | found => some found

/-- The digits before the point: a single zero, or digits that do not start with one. -/
def scanWhole : List Char → Option (List Char × List Char)
  | '0' :: cs => some (['0'], cs)
  | cs => scanDigits cs

/-- The point and the digits after it, if there is a point. -/
def scanFraction : List Char → Option (List Char × List Char)
  | '.' :: cs => do
    let (digits, cs) ← scanDigits cs
    return ('.' :: digits, cs)
  | cs => some ([], cs)

/-- The sign of an exponent, if there is one. -/
def scanSign : List Char → List Char × List Char
  | '+' :: cs => (['+'], cs)
  | '-' :: cs => (['-'], cs)
  | cs => ([], cs)

/-- The exponent with its mark, if there is one. -/
def scanExponent : List Char → Option (List Char × List Char)
  | c :: cs =>
    if c = 'e' ∨ c = 'E' then do
      let (sign, cs) := scanSign cs
      let (digits, cs) ← scanDigits cs
      return (c :: sign ++ digits, cs)
    else some ([], c :: cs)
  | [] => some ([], [])

/-- The spelling of the number at the start, and what follows. -/
def scanNumber (cs : List Char) : Option (List Char × List Char) := do
  let (sign, cs) := match cs with
    | '-' :: cs => (['-'], cs)
    | cs => ([], cs)
  let (whole, cs) ← scanWhole cs
  let (fraction, cs) ← scanFraction cs
  let (exponent, cs) ← scanExponent cs
  return (sign ++ whole ++ fraction ++ exponent, cs)

/-- The token at the start, and what follows. -/
def scanToken : List Char → Option (Token × List Char)
  | '[' :: cs => some (.openArray, cs)
  | ']' :: cs => some (.closeArray, cs)
  | '{' :: cs => some (.openObject, cs)
  | '}' :: cs => some (.closeObject, cs)
  | ',' :: cs => some (.comma, cs)
  | ':' :: cs => some (.colon, cs)
  | 'n' :: 'u' :: 'l' :: 'l' :: cs => some (.null, cs)
  | 't' :: 'r' :: 'u' :: 'e' :: cs => some (.bool true, cs)
  | 'f' :: 'a' :: 'l' :: 's' :: 'e' :: cs => some (.bool false, cs)
  | '"' :: cs => (scanString [] cs).map fun (points, rest) => (.string (textOf? [] points), rest)
  | cs => (scanNumber cs).map fun (literal, rest) => (.number (String.ofList literal), rest)

/-- The blanks that may stand between tokens. -/
def isGap (c : Char) : Bool := c = ' ' || c = '\t' || c = '\n' || c = '\r'

/-- The tokens of a text, after those in `done`; each takes at least one of `bound` characters. -/
def scanTokens (done : List Token) : Nat → List Char → Option (List Token)
  | _, [] => some done.reverse
  | 0, _ => none
  | bound + 1, c :: cs =>
    if isGap c then scanTokens done bound cs
    else
      match scanToken (c :: cs) with
      | some (token, rest) => scanTokens (token :: done) bound rest
      | none => none

/-- The tokens of a text, `none` when it is not made of tokens. -/
def scan (cs : List Char) : Option (List Token) := scanTokens [] cs.length cs

end Clausal.Json
