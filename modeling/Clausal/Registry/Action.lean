import Clausal.Log
import Clausal.Registry

/-!
# Actions on a registry

An action changes a registry and notes events; an attempt can fail as well. A failed attempt
leaves the registry as far as it came, unless it runs under `atomically`.
-/

namespace Clausal

/-- A computation over a registry that always ends well. -/
abbrev Action := StateT Registry Logged

/-- A computation over a registry that can fail. -/
abbrev Attempt := ExceptT Error Action

namespace Attempt

variable {α β : Type}

/-- Runs an attempt: its outcome with the registry afterwards, and what it noted. -/
def start (x : Attempt α) (r : Registry) : Logged (Except Error α × Registry) :=
  StateT.run (ExceptT.run x) r

/-- The outcome of an attempt. -/
def outcome (x : Attempt α) (r : Registry) : Except Error α := (x.start r).value.1

/-- The registry that an attempt leaves. -/
def after (x : Attempt α) (r : Registry) : Registry := (x.start r).value.2

/-- Gives the registry back as it was when the attempt fails. -/
def atomically (x : Attempt α) : Attempt α :=
  ExceptT.mk (StateT.mk fun r => do
    let (result, r') ← x.start r
    match result with
    | .ok a => pure (.ok a, r')
    | .error e => pure (.error e, r))

/-- Takes over the outcome of a computation that needs no registry. -/
def ofExcept (x : Except Error α) : Attempt α := ExceptT.mk (pure x)

variable {r : Registry}

@[simp] theorem outcome_pure (a : α) : (pure a : Attempt α).outcome r = .ok a := rfl

@[simp] theorem after_pure (a : α) : (pure a : Attempt α).after r = r := rfl

@[simp] theorem outcome_throw (e : Error) : (throw e : Attempt α).outcome r = .error e := rfl

@[simp] theorem after_throw (e : Error) : (throw e : Attempt α).after r = r := rfl

@[simp] theorem outcome_get : (get : Attempt Registry).outcome r = .ok r := rfl

@[simp] theorem after_get : (get : Attempt Registry).after r = r := rfl

@[simp] theorem outcome_set (r' : Registry) : (set r' : Attempt PUnit).outcome r = .ok ⟨⟩ := rfl

@[simp] theorem after_set (r' : Registry) : (set r' : Attempt PUnit).after r = r' := rfl

@[simp] theorem outcome_note (e : Event) : (liftM (note e) : Attempt Unit).outcome r = .ok () := rfl

@[simp] theorem after_note (e : Event) : (liftM (note e) : Attempt Unit).after r = r := rfl

/-- An action succeeds with its value. -/
@[simp] theorem outcome_action (x : Action α) :
    (liftM x : Attempt α).outcome r = .ok (x.run r).value.1 := rfl

@[simp] theorem after_action (x : Action α) :
    (liftM x : Attempt α).after r = (x.run r).value.2 := rfl

@[simp] theorem outcome_of_except (x : Except Error α) : (ofExcept x).outcome r = x := rfl

@[simp] theorem after_of_except (x : Except Error α) : (ofExcept x).after r = r := rfl

theorem start_bind (x : Attempt α) (f : α → Attempt β) :
    (x >>= f).start r = x.start r >>= fun p =>
      match p with
      | (.ok a, r') => (f a).start r'
      | (.error e, r') => pure (.error e, r') := by
  simp only [start, ExceptT.run_bind, StateT.run_bind]
  congr 1
  funext p
  rcases p with ⟨_ | _, _⟩ <;> rfl

/-- The second attempt starts where the first one ended. -/
@[simp] theorem outcome_bind (x : Attempt α) (f : α → Attempt β) :
    (x >>= f).outcome r = (x.outcome r >>= fun a => (f a).outcome (x.after r)) := by
  simp only [outcome, after, start_bind, Logged.value_bind]
  rcases (x.start r).value with ⟨_ | _, _⟩ <;> rfl

/-- After a failure nothing more happens. -/
theorem after_bind (x : Attempt α) (f : α → Attempt β) :
    (x >>= f).after r =
      match x.outcome r with
      | .ok a => (f a).after (x.after r)
      | .error _ => x.after r := by
  simp only [outcome, after, start_bind, Logged.value_bind]
  rcases (x.start r).value with ⟨_ | _, _⟩ <;> rfl

/-- An attempt followed by another succeeds when both do. -/
theorem outcome_bind_eq_ok {x : Attempt α} {f : α → Attempt β} {b : β} :
    (x >>= f).outcome r = .ok b ↔
      ∃ a, x.outcome r = .ok a ∧ (f a).outcome (x.after r) = .ok b := by
  rw [outcome_bind]
  cases x.outcome r <;> simp [bind, Except.bind]

/-- An attempt followed by another fails when one of them does. -/
theorem outcome_bind_eq_error {x : Attempt α} {f : α → Attempt β} {e : Error} :
    (x >>= f).outcome r = .error e ↔
      x.outcome r = .error e ∨ ∃ a, x.outcome r = .ok a ∧ (f a).outcome (x.after r) = .error e := by
  rw [outcome_bind]
  cases x.outcome r <;> simp [bind, Except.bind]

@[simp] theorem outcome_atomically (x : Attempt α) : (atomically x).outcome r = x.outcome r := by
  simp only [outcome, atomically, start, ExceptT.run_mk, StateT.run_mk, Logged.value_bind]
  rcases (StateT.run (ExceptT.run x) r).value with ⟨_ | _, _⟩ <;> rfl

/-- A failed attempt under `atomically` leaves the registry as it was. -/
theorem after_atomically (x : Attempt α) :
    (atomically x).after r =
      match x.outcome r with
      | .ok _ => x.after r
      | .error _ => r := by
  simp only [outcome, after, atomically, start, ExceptT.run_mk, StateT.run_mk, Logged.value_bind]
  rcases (StateT.run (ExceptT.run x) r).value with ⟨_ | _, _⟩ <;> rfl

end Attempt

end Clausal
