import Clausal.Config
import Clausal.Error
import Clausal.Json.Fields
import Clausal.Text.Blank

/-!
# Configurations as text

A configuration is a JSON record whose fields may be left out. The prefix of minted names has to be
a word.
-/

namespace Clausal.Config

open Json (Value)

/-- The names of the fields. -/
def fieldNames : List String := ["domain_expansion_limit", "skolem_functions", "skolem_prefix"]

/-- The JSON of a configuration. -/
def toJson (cfg : Config) : Value :=
  .record [("domain_expansion_limit", .nat cfg.expansionLimit),
    ("skolem_functions", .bool cfg.skolemFunctions), ("skolem_prefix", .text cfg.skolemPrefix)]

/-- Reads a field, or takes the default when the field is left out. -/
def fieldOr {α : Type} (fallback : α) (read : Value → Option α) : Option Value → Option α
  | none => some fallback
  | some v => read v

/-- Reads the fields of a configuration. -/
def ofJson? (v : Value) : Option Config := do
  match ← v.leadingFields? fieldNames with
  | [limit, functions, skolemPrefix] =>
    let fallback : Config := {}
    return {
      expansionLimit := ← fieldOr fallback.expansionLimit Value.count? limit
      skolemFunctions := ← fieldOr fallback.skolemFunctions Value.bool? functions
      skolemPrefix := ← fieldOr fallback.skolemPrefix Value.text? skolemPrefix }
  | _ => none

/-- Refuses a prefix that is not a word. -/
def validate (cfg : Config) : Except Error Config :=
  if Clausal.Text.isWord cfg.skolemPrefix then .ok cfg
  else .error (.config (.invalidPrefix cfg.skolemPrefix))

/-- Reads the text of a configuration. -/
def read (text : String) : Except Error Config :=
  match Value.read? text >>= ofJson? with
  | some cfg => validate cfg
  | none => .error (.config .malformed)

end Clausal.Config
