import Mathlib.Data.List.Forall2
import Clausal.Registry.Action

/-!
# Successful and failed attempts

`x.Yields r a r'` says that the attempt `x` succeeds from the registry `r` with the value `a` and
leaves the registry `r'`. A sequence of steps is taken apart by `yields_bind`, a walk along a list
by `yields_map_m`, which relates the elements to the values one by one while the registry is handed
on (`Threads`). `x.Fails r e` says that it fails with the error `e`; `fails_bind` and
`exists_fails_of_map_m` tell which step does.
-/

namespace Clausal

/-- `Threads R xs r ys r'` says that the elements of `xs` become those of `ys` one by one, where
`R x r y r'` relates an element and the state before it to its value and the state after it. -/
inductive Threads {α β σ : Type} (R : α → σ → β → σ → Prop) :
    List α → σ → List β → σ → Prop where
  | nil (r : σ) : Threads R [] r [] r
  | cons {x : α} {xs : List α} {y : β} {ys : List β} {r mid r' : σ} :
      R x r y mid → Threads R xs mid ys r' → Threads R (x :: xs) r (y :: ys) r'

namespace Threads

variable {α β σ : Type} {R S : α → σ → β → σ → Prop} {xs : List α} {ys : List β} {r r' : σ}

/-- A relation between steps may be weakened at the elements of the list. -/
theorem mono (h : Threads R xs r ys r')
    (himp : ∀ x ∈ xs, ∀ r y r', R x r y r' → S x r y r') : Threads S xs r ys r' := by
  induction h with
  | nil => exact .nil _
  | cons hstep _ ih =>
      exact .cons (himp _ (List.mem_cons_self ..) _ _ _ hstep)
        (ih fun x hx => himp x (List.mem_cons_of_mem _ hx))

/-- What each step preserves, reflexively and transitively, the whole walk preserves. -/
theorem preserves {le : σ → σ → Prop} (hrefl : ∀ r, le r r)
    (htrans : ∀ {r mid r'}, le r mid → le mid r' → le r r')
    (h : Threads R xs r ys r') (hstep : ∀ x ∈ xs, ∀ r y r', R x r y r' → le r r') : le r r' := by
  induction h with
  | nil => exact hrefl _
  | cons hfirst _ ih =>
      exact htrans (hstep _ (List.mem_cons_self ..) _ _ _ hfirst)
        (ih fun x hx => hstep x (List.mem_cons_of_mem _ hx))

/-- Each value comes from an element. -/
theorem exists_of_mem (h : Threads R xs r ys r') {y : β} (hy : y ∈ ys) :
    ∃ x ∈ xs, ∃ r₁ r₂, R x r₁ y r₂ := by
  induction h with
  | nil => cases hy
  | cons hstep _ ih =>
      rcases List.mem_cons.1 hy with rfl | hy
      · exact ⟨_, List.mem_cons_self .., _, _, hstep⟩
      · obtain ⟨x, hx, hx'⟩ := ih hy
        exact ⟨x, List.mem_cons_of_mem _ hx, hx'⟩

/-- Each value comes from an element, by a step that the walk comes to and goes on from. -/
theorem exists_step_of_mem {le : σ → σ → Prop} (hrefl : ∀ r, le r r)
    (htrans : ∀ {r mid r'}, le r mid → le mid r' → le r r')
    (hstep : ∀ x r y r', R x r y r' → le r r') (h : Threads R xs r ys r') {y : β} (hy : y ∈ ys) :
    ∃ x ∈ xs, ∃ r₁ r₂, le r r₁ ∧ R x r₁ y r₂ ∧ le r₂ r' := by
  induction h with
  | nil => cases hy
  | @cons x _ _ _ r mid r' hfirst hrest ih =>
      have hlater : le mid r' := hrest.preserves hrefl htrans fun _ _ => hstep _
      rcases List.mem_cons.1 hy with rfl | hy
      · exact ⟨x, List.mem_cons_self .., r, mid, hrefl r, hfirst, hlater⟩
      · obtain ⟨x, hx, r₁, r₂, hbefore, hx', hafter⟩ := ih hy
        exact ⟨x, List.mem_cons_of_mem _ hx, r₁, r₂, htrans (hstep _ _ _ _ hfirst) hbefore, hx',
          hafter⟩

/-- What can be read off a value and off its element alike. -/
theorem map_eq {γ : Type} {k : α → γ} {m : β → γ} (h : Threads R xs r ys r')
    (hstep : ∀ x r y r', R x r y r' → m y = k x) : ys.map m = xs.map k := by
  induction h with
  | nil => rfl
  | cons hfirst _ ih => rw [List.map_cons, List.map_cons, ih, hstep _ _ _ _ hfirst]

/-- What each step says of its element and its value alone. -/
theorem forall₂ {T : α → β → Prop} (h : Threads R xs r ys r')
    (hstep : ∀ x r y r', R x r y r' → T x y) : List.Forall₂ T xs ys := by
  induction h with
  | nil => exact .nil
  | cons hfirst _ ih => exact .cons (hstep _ _ _ _ hfirst) ih

/-- There are as many values as elements. -/
theorem length_eq (h : Threads R xs r ys r') : ys.length = xs.length := by
  induction h with
  | nil => rfl
  | cons _ _ ih => simp [ih]

/-- Where a sequence runs one step after the other, a walk along a list runs one element after the
other. -/
theorem map_m_iff {m : Type → Type} [Monad m] [LawfulMonad m]
    {Runs : ∀ {γ : Type}, m γ → σ → γ → σ → Prop}
    (hpure : ∀ {γ : Type} {c c' : γ} {r r' : σ}, Runs (pure c) r c' r' ↔ c' = c ∧ r' = r)
    (hbind : ∀ {γ δ : Type} {x : m γ} {f : γ → m δ} {r r' : σ} {d : δ},
      Runs (x >>= f) r d r' ↔ ∃ c mid, Runs x r c mid ∧ Runs (f c) mid d r')
    {h : α → m β} {xs : List α} {ys : List β} {r r' : σ} :
    Runs (xs.mapM h) r ys r' ↔ Threads (fun x => Runs (h x)) xs r ys r' := by
  induction xs generalizing r ys with
  | nil =>
      simp only [List.mapM_nil, hpure]
      constructor
      · rintro ⟨rfl, rfl⟩
        exact .nil _
      · rintro ⟨⟩
        exact ⟨rfl, rfl⟩
  | cons x xs ih =>
      simp only [List.mapM_cons, hbind, hpure]
      constructor
      · rintro ⟨y, mid, hy, ys, _, hys, rfl, rfl⟩
        exact .cons hy (ih.1 hys)
      · rintro (_ | ⟨hy, hys⟩)
        exact ⟨_, _, hy, _, _, ih.2 hys, rfl, rfl⟩

end Threads

namespace Attempt

variable {α β : Type}

/-- The attempt succeeds from `r` with `a` and leaves `r'`. -/
def Yields (x : Attempt α) (r : Registry) (a : α) (r' : Registry) : Prop :=
  x.outcome r = .ok a ∧ x.after r = r'

variable {x : Attempt α} {f : α → Attempt β} {r r' : Registry} {a : α} {b : β}

theorem yields_of_outcome (h : x.outcome r = .ok a) : x.Yields r a (x.after r) := ⟨h, rfl⟩

@[simp] theorem yields_pure {a' : α} :
    (pure a : Attempt α).Yields r a' r' ↔ a' = a ∧ r' = r := by
  simp [Yields, eq_comm]

@[simp] theorem not_yields_throw {e : Error} : ¬ (throw e : Attempt α).Yields r a r' := by
  simp [Yields]

@[simp] theorem yields_get {r₁ : Registry} :
    (get : Attempt Registry).Yields r r₁ r' ↔ r₁ = r ∧ r' = r := by
  simp [Yields, eq_comm]

@[simp] theorem yields_note {e : Event} {u : Unit} :
    (liftM (note e) : Attempt Unit).Yields r u r' ↔ r' = r := by
  simp [Yields, eq_comm]

@[simp] theorem yields_of_except {y : Except Error α} :
    (ofExcept y).Yields r a r' ↔ y = .ok a ∧ r' = r := by
  simp [Yields, eq_comm]

@[simp] theorem yields_lift_except {y : Except Error α} :
    (liftM y : Attempt α).Yields r a r' ↔ y = .ok a ∧ r' = r := by
  have hlift : (liftM y : Attempt α) = ofExcept y := by cases y <;> rfl
  rw [hlift, yields_of_except]

@[simp] theorem yields_action {y : Action α} :
    (liftM y : Attempt α).Yields r a r' ↔ (y.run r).value = (a, r') := by
  simp [Yields, Prod.ext_iff]

/-- An attempt followed by another succeeds when both do, the second from where the first ends. -/
@[simp] theorem yields_bind :
    (x >>= f).Yields r b r' ↔ ∃ a mid, x.Yields r a mid ∧ (f a).Yields mid b r' := by
  simp only [Yields, outcome_bind_eq_ok, after_bind]
  constructor
  · rintro ⟨⟨a, hx, hf⟩, hafter⟩
    rw [hx] at hafter
    exact ⟨a, _, ⟨hx, rfl⟩, hf, hafter⟩
  · rintro ⟨a, _, ⟨hx, rfl⟩, hf, hafter⟩
    exact ⟨⟨a, hx, hf⟩, by rw [hx]; exact hafter⟩

@[simp] theorem yields_atomically : (atomically x).Yields r a r' ↔ x.Yields r a r' := by
  simp only [Yields, outcome_atomically, after_atomically]
  constructor <;> rintro ⟨hx, hafter⟩ <;> simpa [hx] using hafter

/-- Attempts made for the elements of a list succeed when each does where the one before ends. -/
theorem yields_map_m {h : α → Attempt β} {xs : List α} {ys : List β} :
    (xs.mapM h).Yields r ys r' ↔ Threads (fun x => (h x).Yields) xs r ys r' :=
  Threads.map_m_iff yields_pure yields_bind

/-! ## Failures -/

/-- The attempt fails from `r` with `e`. -/
def Fails (x : Attempt α) (r : Registry) (e : Error) : Prop := x.outcome r = .error e

variable {e : Error}

@[simp] theorem not_fails_pure : ¬ (pure a : Attempt α).Fails r e := by
  simp [Fails]

@[simp] theorem fails_throw {e' : Error} : (throw e' : Attempt α).Fails r e ↔ e = e' := by
  simp [Fails, eq_comm]

@[simp] theorem not_fails_note {event : Event} :
    ¬ (liftM (note event) : Attempt Unit).Fails r e := by
  simp [Fails]

@[simp] theorem not_fails_action {y : Action α} : ¬ (liftM y : Attempt α).Fails r e := by
  simp [Fails]

@[simp] theorem fails_of_except {y : Except Error α} : (ofExcept y).Fails r e ↔ y = .error e :=
  Iff.rfl

/-- An attempt followed by another fails when the first does, or when the second does from where
the first ends. -/
@[simp] theorem fails_bind :
    (x >>= f).Fails r e ↔ x.Fails r e ∨ ∃ a mid, x.Yields r a mid ∧ (f a).Fails mid e := by
  simp only [Fails, Yields, outcome_bind_eq_error, and_assoc, exists_and_left, exists_eq_left']

@[simp] theorem fails_atomically : (atomically x).Fails r e ↔ x.Fails r e := by
  rw [Fails, outcome_atomically, Fails]

/-- A walk along a list that fails does so at some element. -/
theorem exists_fails_of_map_m {h : α → Attempt β} {xs : List α} (hfails : (xs.mapM h).Fails r e) :
    ∃ x ∈ xs, ∃ r', (h x).Fails r' e := by
  induction xs generalizing r with
  | nil => exact absurd hfails not_fails_pure
  | cons x xs ih =>
      simp only [List.mapM_cons, fails_bind, not_fails_pure, and_false, exists_false,
        or_false] at hfails
      rcases hfails with hfirst | ⟨_, mid, _, hrest⟩
      · exact ⟨x, List.mem_cons_self .., r, hfirst⟩
      · obtain ⟨x, hx, r', hx'⟩ := ih hrest
        exact ⟨x, List.mem_cons_of_mem _ hx, r', hx'⟩

end Attempt

end Clausal
