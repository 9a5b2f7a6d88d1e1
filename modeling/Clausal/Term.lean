/-!
# Terms

Constants, variables and Skolem terms. A symbol is known by its name: `Term.same` compares what
two terms denote and ignores what a variable remembers of its domain and of its first name.
-/

namespace Clausal

/-- A constant symbol. -/
structure Constant where
  name : String
deriving DecidableEq

/-- A variable, ranging over `domain` when it is closed-world and over everything otherwise.
`origin` is the name it was defined with, kept by renamed copies. -/
structure Variable where
  name : String
  domain : Option (List Constant) := none
  origin : Option String := none
deriving DecidableEq

/-- A term: a Skolem term applies a function symbol to arguments. -/
inductive Term where
  | const (c : Constant)
  | var (v : Variable)
  | skolem (name : String) (args : List Term)

namespace Variable

/-- A closed-world variable has a domain. -/
def isClosedWorld (v : Variable) : Bool := v.domain.isSome

/-- The name given by whoever defined the variable. -/
def sourceName (v : Variable) : String := v.origin.getD v.name

/-- A copy under another name, with the same domain and source name. -/
def renamed (v : Variable) (name : String) : Variable :=
  { v with name, origin := some v.sourceName }

/-- Variables are identified by name. -/
def same (v w : Variable) : Bool := v.name == w.name

/-- Holds when one of `vs` is `v`. -/
def isAmong (v : Variable) (vs : List Variable) : Bool := vs.any v.same

/-- The variables in order of first occurrence, each once. -/
def distinct : List Variable → List Variable
  | [] => []
  | v :: vs => v :: (distinct vs).filter fun w => !v.same w

end Variable

namespace Term

mutual

/-- The variables of a term from left to right, with repetitions. -/
def vars : Term → List Variable
  | const _ => []
  | var v => [v]
  | skolem _ args => varsAll args

/-- The variables of several terms, from left to right. -/
def varsAll : List Term → List Variable
  | [] => []
  | t :: ts => t.vars ++ varsAll ts

end

/-- A ground term holds no variable. -/
def isGround (t : Term) : Bool := t.vars.isEmpty

mutual

/-- Puts the term `σ v` in place of each variable `v`. -/
def bind (σ : Variable → Term) : Term → Term
  | const c => const c
  | var v => σ v
  | skolem name args => skolem name (bindAll σ args)

/-- Puts the term `σ v` in place of each variable `v` of several terms. -/
def bindAll (σ : Variable → Term) : List Term → List Term
  | [] => []
  | t :: ts => t.bind σ :: bindAll σ ts

end

/-- Puts `s` in place of the variable `x`. -/
def subst (x : Variable) (s : Term) : Term → Term :=
  bind fun v => if v.same x then s else var v

mutual

/-- The text of a term: `f(A, x)` for a Skolem term, the name alone for other symbols. -/
def render : Term → String
  | const c => c.name
  | var v => v.name
  | skolem name args => name ++ "(" ++ ", ".intercalate (renderAll args) ++ ")"

/-- The texts of several terms. -/
def renderAll : List Term → List String
  | [] => []
  | t :: ts => t.render :: renderAll ts

end

mutual

/-- Terms are the same when they are of one kind, have one name and the same arguments. -/
def same : Term → Term → Bool
  | const c, const d => c == d
  | var v, var w => v.same w
  | skolem f ts, skolem g us => f == g && sameAll ts us
  | _, _ => false

/-- Holds of lists of one length whose terms are the same one by one. -/
def sameAll : List Term → List Term → Bool
  | [], [] => true
  | t :: ts, u :: us => t.same u && sameAll ts us
  | _, _ => false

end

variable {σ : Variable → Term} {ts : List Term}

@[simp] theorem vars_all_eq : varsAll ts = ts.flatMap vars := by
  induction ts with
  | nil => rfl
  | cons t ts ih => simp [varsAll, ih]

@[simp] theorem bind_all_eq : bindAll σ ts = ts.map (bind σ) := by
  induction ts with
  | nil => rfl
  | cons t ts ih => simp [bindAll, ih]

@[simp] theorem render_all_eq : renderAll ts = ts.map render := by
  induction ts with
  | nil => rfl
  | cons t ts ih => simp [renderAll, ih]

end Term

/-- Constants are ordered by name, character by character. -/
def Constant.le (c d : Constant) : Bool := decide (c.name ≤ d.name)

end Clausal
