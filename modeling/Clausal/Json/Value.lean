import Clausal.Json.Token

/-!
# JSON values

A value is written as the sequence of its tokens without blanks, and read by walking over the
tokens once. Objects keep the order of their members and all of them, also those with one key.
-/

namespace Clausal.Json

/-- A JSON value; strings and keys without content are those of `Token.string`. -/
inductive Value where
  | null
  | bool (b : Bool)
  | number (literal : String)
  | string (content : Option String)
  | array (items : List Value)
  | object (members : List (Option String × Value))

namespace Value

/-- A string with content. -/
def text (s : String) : Value := string (some s)

/-- A natural number in decimal digits. -/
def nat (n : Nat) : Value := number n.repr

/-- An object whose keys have content. -/
def record (members : List (String × Value)) : Value :=
  object (members.map fun (key, v) => (some key, v))

mutual

/-- The tokens of a value. -/
def tokens : Value → List Token
  | null => [.null]
  | bool b => [.bool b]
  | number literal => [.number literal]
  | string content => [.string content]
  | array items => .openArray :: itemTokens items ++ [.closeArray]
  | object members => .openObject :: memberTokens members ++ [.closeObject]

/-- The tokens of values with commas between them. -/
def itemTokens : List Value → List Token
  | [] => []
  | [v] => v.tokens
  | v :: vs => v.tokens ++ .comma :: itemTokens vs

/-- The tokens of members with commas between them. -/
def memberTokens : List (Option String × Value) → List Token
  | [] => []
  | [(key, v)] => .string key :: .colon :: v.tokens
  | (key, v) :: rest => .string key :: .colon :: v.tokens ++ .comma :: memberTokens rest

end

/-- The shortest text of a value. -/
def write (v : Value) : String := String.ofList (v.tokens.flatMap Token.spell)

end Value

/-- A container that is being read: what came before the value that is awaited. -/
inductive Frame where
  | items (done : List Value)
  | members (done : List (Option String × Value)) (key : Option String)

/-- Where the reading stands, inside the containers of the list. -/
inductive Position where
  | value (outer : List Frame)
  | arrayStart (outer : List Frame)
  | objectStart (outer : List Frame)
  | memberStart (done : List (Option String × Value)) (outer : List Frame)
  | colon (done : List (Option String × Value)) (key : Option String) (outer : List Frame)
  | after (v : Value) (outer : List Frame)

namespace Position

/-- Reads the first token of a value. -/
def enter (outer : List Frame) : Token → Option Position
  | .openArray => some (arrayStart outer)
  | .openObject => some (objectStart outer)
  | .null => some (after .null outer)
  | .bool b => some (after (.bool b) outer)
  | .number literal => some (after (.number literal) outer)
  | .string content => some (after (.string content) outer)
  | _ => none

/-- Reads one token, `none` where it may not stand. -/
def step : Position → Token → Option Position
  | value outer, token => enter outer token
  | arrayStart outer, .closeArray => some (after (.array []) outer)
  | arrayStart outer, token => enter (.items [] :: outer) token
  | objectStart outer, .closeObject => some (after (.object []) outer)
  | objectStart outer, .string content => some (colon [] content outer)
  | memberStart done outer, .string content => some (colon done content outer)
  | colon done key outer, .colon => some (value (.members done key :: outer))
  | after v (.items done :: outer), .comma => some (value (.items (v :: done) :: outer))
  | after v (.items done :: outer), .closeArray =>
    some (after (.array (v :: done).reverse) outer)
  | after v (.members done key :: outer), .comma => some (memberStart ((key, v) :: done) outer)
  | after v (.members done key :: outer), .closeObject =>
    some (after (.object ((key, v) :: done).reverse) outer)
  | _, _ => none

/-- Reads tokens one after the other. -/
def run : Position → List Token → Option Position
  | p, [] => some p
  | p, token :: rest =>
    match p.step token with
    | some p => run p rest
    | none => none

end Position

namespace Value

/-- The value that the tokens spell. -/
def ofTokens? (ts : List Token) : Option Value :=
  match Position.run (.value []) ts with
  | some (.after v []) => some v
  | _ => none

/-- The value of a JSON text. -/
def read? (text : String) : Option Value := scan text.toList >>= ofTokens?

end Value

end Clausal.Json
