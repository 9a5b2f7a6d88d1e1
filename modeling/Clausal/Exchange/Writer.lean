import Clausal.Exchange.Record
import Clausal.Json.Value

/-!
# Clauses written as JSON

Records become objects with their fields in a fixed order. A term begins with its kind, and an open
variable has no domain field.
-/

namespace Clausal.Exchange

open Json (Value)

namespace TermRecord

mutual

/-- The JSON of a term. -/
def toJson : TermRecord → Value
  | var name none => .record [("type", .text "Variable"), ("name", .text name)]
  | var name (some domain) =>
    .record [("type", .text "Variable"), ("name", .text name),
      ("domain", .array (domain.map .text))]
  | const name => .record [("type", .text "Constant"), ("name", .text name)]
  | skolem name args =>
    .record [("type", .text "Skolem"), ("name", .text name), ("args", .array (toJsonAll args))]

/-- The JSON of several terms. -/
def toJsonAll : List TermRecord → List Value
  | [] => []
  | t :: ts => t.toJson :: toJsonAll ts

end

end TermRecord

/-- The JSON of an atom. -/
def AtomRecord.toJson (a : AtomRecord) : Value :=
  .record [("predicate", .text a.predicate), ("args", .array (a.args.map TermRecord.toJson))]

/-- The JSON of a literal. -/
def LiteralRecord.toJson (l : LiteralRecord) : Value :=
  .record [("polarity", .bool l.polarity), ("atom", l.atom.toJson)]

/-- The JSON of a clause. -/
def ClauseRecord.toJson (c : ClauseRecord) : Value :=
  .record [("literals", .array (c.literals.map LiteralRecord.toJson))]

/-- The JSON of a list of clause records. -/
def recordsToJson (cs : List ClauseRecord) : Value := .array (cs.map ClauseRecord.toJson)

/-- The JSON of a list of clauses. -/
def clausesToJson (cs : List Clause) : Value := recordsToJson (cs.map ClauseRecord.ofClause)

end Clausal.Exchange
