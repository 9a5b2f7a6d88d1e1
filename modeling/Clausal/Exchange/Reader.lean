import Clausal.Exchange.Record
import Clausal.Json.Fields

/-!
# Clauses read from JSON

A record is an object, in which unknown keys are passed over, or an array of all its fields in
order. A term is marked by its kind, under the key `type` or in front of its fields; the arguments
of a Skolem term may give the kind by number. Terms are taken in whole, with the limits that
`Value.isAcceptable` sets.
-/

namespace Clausal.Exchange

open Json (Value)

/-- The kinds of terms. -/
inductive TermKind where
  | var
  | const
  | skolem

/-- The kind of that name. -/
def TermKind.ofName? (name : String) : Option TermKind :=
  if name = "Variable" then some var
  else if name = "Constant" then some const
  else if name = "Skolem" then some skolem
  else none

/-- The kind of that number. -/
def TermKind.ofNumber? (n : Nat) : Option TermKind := [var, const, skolem][n]?

/-- Reads a kind, given by number only to the arguments of a Skolem term. -/
def TermKind.read? (isArgument : Bool) (v : Value) : Option TermKind :=
  match v.text? with
  | some name => ofName? name
  | none => if isArgument then v.count? >>= ofNumber? else none

/-- The kind of a term and the value that holds its fields. -/
def tagged? : Value → Option (Value × Value)
  | .object members => do
    let kind ← (← Value.member? members "type")
    return (kind, .object members)
  | .array (kind :: fields) => some (kind, .array fields)
  | _ => none

/-- Reads the domain of a variable; absent or null, the variable is open. -/
def domain? : Option Value → Option (Option (List String))
  | none | some .null => some none
  | some v => do return some (← (← v.items?).mapM Value.text?)

/-- Reads a term whose Skolem terms are nested less than `bound` deep. -/
def TermRecord.readTerm? (isArgument : Bool) : Nat → Value → Option TermRecord
  | 0, _ => none
  | bound + 1, v => do
    let (kind, body) ← tagged? v
    match ← TermKind.read? isArgument kind with
    | .var =>
      match ← body.fields? ["name", "domain"] with
      | [some name, domain] => return .var (← name.text?) (← domain? domain)
      | _ => none
    | .const =>
      match ← body.fields? ["name"] with
      | [some name] => return .const (← name.text?)
      | _ => none
    | .skolem =>
      match ← body.fields? ["name", "args"] with
      | [some name, some args] =>
        return .skolem (← name.text?) (← (← args.items?).mapM (readTerm? true bound))
      | _ => none

/-- Reads a term that stands inside `outer` containers. -/
def TermRecord.ofJson? (outer : Nat) (v : Value) : Option TermRecord :=
  if v.isAcceptable outer then readTerm? false (v.depth + 1) v else none

/-- Reads an atom of a list of clauses, whose terms stand inside six containers. -/
def AtomRecord.ofJson? (v : Value) : Option AtomRecord := do
  match ← v.fields? ["predicate", "args"] with
  | [some predicate, some args] =>
    return ⟨← predicate.text?, ← (← args.items?).mapM (TermRecord.ofJson? 6)⟩
  | _ => none

/-- Reads a literal. -/
def LiteralRecord.ofJson? (v : Value) : Option LiteralRecord := do
  match ← v.fields? ["polarity", "atom"] with
  | [some polarity, some atom] => return ⟨← polarity.bool?, ← AtomRecord.ofJson? atom⟩
  | _ => none

/-- Reads a clause. -/
def ClauseRecord.ofJson? (v : Value) : Option ClauseRecord := do
  match ← v.fields? ["literals"] with
  | [some literals] => return ⟨← (← literals.items?).mapM LiteralRecord.ofJson?⟩
  | _ => none

/-- Reads a list of clauses. -/
def recordsOfJson? (v : Value) : Option (List ClauseRecord) := do
  (← v.items?).mapM ClauseRecord.ofJson?

/-- Reads the text of a list of clauses. -/
def readRecords? (text : String) : Option (List ClauseRecord) := do
  recordsOfJson? (← Value.read? text)

/-- Reads the text of a single term. -/
def readTermRecord? (text : String) : Option TermRecord := do
  TermRecord.ofJson? 0 (← Value.read? text)

end Clausal.Exchange
