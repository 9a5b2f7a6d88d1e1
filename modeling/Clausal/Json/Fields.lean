import Clausal.Json.Numeral
import Clausal.Json.Value

/-!
# Records in JSON

Reading the fields of a record, which is written as an object by name or as an array in order, and
the limits on values that are taken in whole.
-/

namespace Clausal.Json.Value

/-- The text of a string that has content. -/
def text? : Value → Option String
  | string content => content
  | _ => none

/-- The truth value. -/
def bool? : Value → Option Bool
  | bool b => some b
  | _ => none

/-- The natural number of at most 64 bits that is spelled by digits alone. -/
def count? : Value → Option Nat
  | number literal => (natural? literal).filter (· ≤ wordMax)
  | _ => none

/-- The items of an array. -/
def items? : Value → Option (List Value)
  | array items => some items
  | _ => none

/-- The value under a key, if the key occurs; `none` when it occurs twice. -/
def member? (members : List (Option String × Value)) (key : String) : Option (Option Value) :=
  match members.filter (·.1 == some key) with
  | [] => some none
  | [(_, v)] => some (some v)
  | _ => none

/-- The fields of a record by name: all keys have content, and other keys are left out. -/
def namedFields? (names : List String) (members : List (Option String × Value)) :
    Option (List (Option Value)) :=
  if members.all (·.1.isSome) then names.mapM (member? members) else none

/-- The fields of a record; as an array it has them all. -/
def fields? (names : List String) : Value → Option (List (Option Value))
  | object members => namedFields? names members
  | array items => if items.length = names.length then some (items.map some) else none
  | _ => none

/-- The fields of a record; as an array it may lack the last ones. -/
def leadingFields? (names : List String) : Value → Option (List (Option Value))
  | object members => namedFields? names members
  | array items =>
    if items.length ≤ names.length then
      some (items.map some ++ List.replicate (names.length - items.length) none)
    else none
  | _ => none

mutual

/-- How deep arrays and objects are nested. -/
def depth : Value → Nat
  | array items => itemsDepth items + 1
  | object members => membersDepth members + 1
  | _ => 0

/-- The greatest depth among values. -/
def itemsDepth : List Value → Nat
  | [] => 0
  | v :: vs => max v.depth (itemsDepth vs)

/-- The greatest depth among the values of members. -/
def membersDepth : List (Option String × Value) → Nat
  | [] => 0
  | (_, v) :: rest => max v.depth (membersDepth rest)

end

mutual

/-- Every string and key has content, and every number is read as a finite double. -/
def isSound : Value → Bool
  | number literal => isFinite literal
  | string content => content.isSome
  | array items => itemsSound items
  | object members => membersSound members
  | _ => true

/-- All values are sound. -/
def itemsSound : List Value → Bool
  | [] => true
  | v :: vs => v.isSound && itemsSound vs

/-- All keys have content and all values are sound. -/
def membersSound : List (Option String × Value) → Bool
  | [] => true
  | (key, v) :: rest => key.isSome && v.isSound && membersSound rest

end

/-- The depth up to which values are taken in. -/
def maxDepth : Nat := 127

/-- A value that can be taken in whole inside `outer` containers. -/
def isAcceptable (outer : Nat) (v : Value) : Bool := v.isSound && outer + v.depth ≤ maxDepth

end Clausal.Json.Value
