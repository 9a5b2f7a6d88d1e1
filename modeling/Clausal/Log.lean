import Clausal.Formula.Render

/-!
# The log

What an operation notes while it works. A note stays when the operation fails later.
-/

namespace Clausal

/-- How important a note is. -/
inductive Level where
  | warn
  | debug
  | trace
deriving DecidableEq

/-- The forms a formula passes through on its way to conjunctive normal form. -/
inductive Milestone where
  | input
  | eliminated
  | nnf
  | standardized
  | skolemized
  | cnf
deriving DecidableEq

/-- The things that are noted. -/
inductive Event where
  | definedConstant (c : Constant)
  | definedVariable (v : Variable)
  | definedPredicate (p : Predicate)
  | renamedVariable (old new : Variable)
  | mintedConstant (c : Constant)
  | mintedFunction (name : String) (arity : Nat)
  | asserted (index : Nat) (f : Formula)
  | refusedExpansion (vs : List Variable) (required limit : Nat)
  | reached (milestone : Milestone) (f : Formula)

/-- The label of a milestone. -/
def Milestone.label : Milestone → String
  | input => "cnf input"
  | eliminated => "eliminated"
  | nnf => "nnf"
  | standardized => "standardized"
  | skolemized => "skolemized"
  | cnf => "cnf"

namespace Event

/-- A refusal is a warning, changes of a registry help to debug, formulas on the way are traces. -/
def level : Event → Level
  | refusedExpansion .. => .warn
  | reached .. => .trace
  | _ => .debug

/-- The line of the log. -/
def message : Event → String
  | definedConstant c => "defined constant " ++ c.name
  | definedVariable v =>
    "defined variable " ++ v.name ++
      (if v.isClosedWorld then " (closed world)" else " (open world)")
  | definedPredicate p => "defined predicate " ++ p.render
  | renamedVariable old new => "renamed bound variable " ++ old.name ++ " to " ++ new.name
  | mintedConstant c => "minted skolem constant " ++ c.name
  | mintedFunction name arity => "minted skolem function " ++ name ++ "/" ++ arity.repr
  | asserted index f => "asserted axiom #" ++ index.repr ++ ": " ++ f.render
  | refusedExpansion vs required limit =>
    "refusing to expand ∃ " ++ ",".intercalate (vs.map (·.name)) ++ " into " ++ required.repr ++
      " instances (limit " ++ limit.repr ++ ")"
  | reached milestone f => milestone.label ++ ": " ++ f.render

end Event

/-- A value and what was noted while it was computed. -/
structure Logged (α : Type) where
  value : α
  log : List Event

namespace Logged

variable {α β : Type}

instance : Monad Logged where
  pure a := ⟨a, []⟩
  bind x f :=
    let y := f x.value
    ⟨y.value, x.log ++ y.log⟩

@[simp] theorem value_pure (a : α) : (pure a : Logged α).value = a := rfl

@[simp] theorem log_pure (a : α) : (pure a : Logged α).log = [] := rfl

@[simp] theorem value_bind (x : Logged α) (f : α → Logged β) :
    (x >>= f).value = (f x.value).value := rfl

@[simp] theorem log_bind (x : Logged α) (f : α → Logged β) :
    (x >>= f).log = x.log ++ (f x.value).log := rfl

@[simp] theorem value_map (h : α → β) (x : Logged α) : (h <$> x).value = h x.value := rfl

theorem ext {x y : Logged α} (hvalue : x.value = y.value) (hlog : x.log = y.log) : x = y := by
  cases x; cases y; cases hvalue; cases hlog; rfl

instance : LawfulMonad Logged := LawfulMonad.mk' Logged
  (fun _ => ext rfl (List.append_nil _))
  (fun _ _ => ext rfl (List.nil_append _))
  (fun _ _ _ => ext rfl (List.append_assoc ..))

end Logged

/-- Notes one event. -/
def note (e : Event) : Logged Unit := ⟨(), [e]⟩

end Clausal
