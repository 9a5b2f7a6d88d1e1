import Clausal.Registry.Action

/-!
# Fresh names

A fresh name is a base followed by a number: the least one, counted from the registry's counter,
that no term symbol bears with this base. As each name in use excludes one number at most, the
search ends after one number more than there are names.
-/

namespace Clausal

/-- The first of the numbers from `k` on with `free`, after `bound` numbers the next one. -/
def firstFree (free : Nat → Bool) (k : Nat) : Nat → Nat
  | 0 => k
  | bound + 1 => if free k then k else firstFree free (k + 1) bound

namespace Registry

/-- No term symbol bears the base with this number. -/
def isFree (r : Registry) (base : String) (k : Nat) : Bool :=
  !r.termNames.contains (base ++ k.repr)

/-- The number that makes the base a fresh name. -/
def freshNumber (r : Registry) (base : String) : Nat :=
  firstFree (r.isFree base) r.counter r.termNames.length

end Registry

/-- A fresh name on the base; its number and the smaller ones are not tried again. -/
def freshName (base : String) : Action String := do
  let r ← get
  let k := r.freshNumber base
  set { r with counter := k + 1 }
  return base ++ k.repr

/-- A copy of the variable under a fresh name, stored in the registry. -/
def freshVariable (template : Variable) : Action Variable := do
  let name ← freshName (template.name ++ "_")
  let v := template.renamed name
  note (.renamedVariable template v)
  modify (·.addVariable v)
  return v

/-- A Skolem constant with a fresh name. -/
def mintConstant (base : String) : Action Constant := do
  let name ← freshName base
  let c := Constant.mk name
  note (.mintedConstant c)
  modify (·.addConstant c)
  return c

/-- A fresh Skolem function, applied to the terms. -/
def mintFunction (base : String) (args : List Term) : Action Term := do
  let name ← freshName base
  note (.mintedFunction name args.length)
  modify (·.addSkolemSymbol ⟨name, args.length⟩)
  return .skolem name args

end Clausal
