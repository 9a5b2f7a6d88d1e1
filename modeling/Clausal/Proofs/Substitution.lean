import Clausal.Proofs.Truth

/-!
# Substitution

Substitution changes nothing in a formula where the variable is not free
(`Formula.subst_eq_self`). Where it is, the variables of the term become free in its place
(`Formula.mem_free_names_subst`), and the formula is as true as it was with the value of the term
for the variable (`holds_subst`), as long as no quantifier captures a variable of the term
(`Formula.Spares`).
-/

namespace Clausal

open Variable (names)

universe u

namespace Formula

/-- The variables of each quantifier, outer quantifiers first. -/
def blocks : Formula → List (List Variable)
  | atom _ => []
  | not f => f.blocks
  | binary _ f g => f.blocks ++ g.blocks
  | quant _ vs f => vs :: f.blocks

/-- No quantifier binds a variable of the term, unless it binds `x` itself. -/
def Spares (f : Formula) (x : Variable) (t : Term) : Prop :=
  ∀ vs ∈ f.blocks, x.name ∉ names vs → ∀ v ∈ t.vars, v.name ∉ names vs

instance (f : Formula) (x : Variable) (t : Term) : Decidable (f.Spares x t) :=
  inferInstanceAs
    (Decidable (∀ vs ∈ f.blocks, x.name ∉ names vs → ∀ v ∈ t.vars, v.name ∉ names vs))

variable {f g : Formula} {x : Variable} {t : Term} {c : Connective} {q : Quantifier}
  {vs : List Variable}

theorem spares_binary : (binary c f g).Spares x t ↔ f.Spares x t ∧ g.Spares x t :=
  List.forall_mem_append

theorem spares_quant : (quant q vs f).Spares x t ↔
    (x.name ∉ names vs → ∀ v ∈ t.vars, v.name ∉ names vs) ∧ f.Spares x t :=
  List.forall_mem_cons

/-- A variable that is not free is not replaced anywhere. -/
theorem subst_eq_self (h : x.name ∉ f.freeNames) : f.subst x t = f := by
  induction f with
  | atom a =>
      refine congrArg atom (Atom.map_bind_eq_self fun v hv => if_neg fun hsame => h ?_)
      rw [← Variable.same_iff.1 hsame]
      exact List.mem_map_of_mem hv
  | not f ih => exact congrArg not (ih h)
  | binary c f g ihf ihg =>
      rw [mem_free_names_binary, not_or] at h
      rw [subst, ihf h.1, ihg h.2]
  | quant q vs f ih =>
      rw [subst]
      split
      · rfl
      · next hnot =>
          rw [Variable.is_among_iff] at hnot
          rw [ih fun hfree => h (mem_free_names_quant.2 ⟨hfree, hnot⟩)]

/-! ## Free variables -/

theorem mem_names_vars_subst {a : Atom} {name : String} :
    name ∈ names (a.subst x t).vars ↔
      name ∈ names a.vars ∧ name ≠ x.name ∨ x.name ∈ names a.vars ∧ name ∈ names t.vars := by
  have hvars : (a.subst x t).vars = a.vars.flatMap fun v => if v.same x then t.vars else [v] := by
    refine Atom.vars_map_bind.trans (List.flatMap_congr fun v _ => ?_)
    split <;> rfl
  simp only [hvars, List.mem_map, List.mem_flatMap]
  constructor
  · rintro ⟨w, ⟨v, hv, hw⟩, rfl⟩
    split at hw
    · next hsame => exact .inr ⟨⟨v, hv, Variable.same_iff.1 hsame⟩, w, hw, rfl⟩
    · next hsame =>
        obtain rfl := List.mem_singleton.1 hw
        exact .inl ⟨⟨w, hv, rfl⟩, mt Variable.same_iff.2 hsame⟩
  · rintro (⟨⟨v, hv, rfl⟩, hne⟩ | ⟨⟨v, hv, hname⟩, w, hw, rfl⟩)
    · exact ⟨v, ⟨v, hv, by simp [Variable.same, hne]⟩, rfl⟩
    · exact ⟨w, ⟨v, hv, by simp [Variable.same, hname, hw]⟩, rfl⟩

/-- Where `x` is free, the variables of the term become free in its place. -/
theorem mem_free_names_subst (h : f.Spares x t) {name : String} :
    name ∈ (f.subst x t).freeNames ↔
      name ∈ f.freeNames ∧ name ≠ x.name ∨ x.name ∈ f.freeNames ∧ name ∈ names t.vars := by
  induction f with
  | atom a => exact mem_names_vars_subst
  | not f ih => exact ih h
  | binary c f g ihf ihg =>
      obtain ⟨hf, hg⟩ := spares_binary.1 h
      rw [subst, mem_free_names_binary, mem_free_names_binary, mem_free_names_binary, ihf hf,
        ihg hg]
      grind
  | quant q vs f ih =>
      obtain ⟨hvs, hf⟩ := spares_quant.1 h
      rw [subst, mem_free_names_quant, mem_free_names_quant, mem_free_names_quant]
      split
      · next hamong =>
          -- `x` is bound here, and whatever is free has another name
          rw [Variable.is_among_iff] at hamong
          have hne : name ∉ names vs → name ≠ x.name := fun hnot heq => hnot (heq ▸ hamong)
          grind
      · next hamong =>
          rw [Variable.is_among_iff] at hamong
          have hspared : name ∈ names t.vars → name ∉ names vs := by
            intro hname
            obtain ⟨v, hv, rfl⟩ := List.mem_map.1 hname
            exact hvs hamong v hv
          rw [ih hf]
          grind

end Formula

/-! ## Truth -/

section Truth

variable {U : Type u} {M : Interpretation U} {s : Assignment U} {f : Formula} {x : Variable}
  {t : Term}

/-- A variable that is not assigned keeps a value that it is given before. -/
theorem assign_all_update {vs : List Variable} {as : List U} {name : String} {a : U}
    (h : name ∉ names vs) :
    assignAll (Function.update s name a) vs as = Function.update (assignAll s vs as) name a := by
  induction vs generalizing s as with
  | nil => rfl
  | cons v vs ih =>
      obtain ⟨hne, hnot⟩ := not_or.1 (List.mem_cons.not.1 h)
      cases as with
      | nil => rfl
      | cons b as => rw [assignAll, assignAll, Function.update_comm hne, ih hnot]

/-- Substitution has the effect of giving the variable the value of the term. -/
theorem holds_subst (h : f.Spares x t) :
    M.Holds s (f.subst x t) ↔ M.Holds (Function.update s x.name (M.value s t)) f := by
  induction f generalizing s with
  | atom a => exact Interpretation.holds_atom_subst
  | not f ih => exact not_congr (ih h)
  | binary c f g ihf ihg =>
      obtain ⟨hf, hg⟩ := Formula.spares_binary.1 h
      cases c <;>
        simp only [Formula.subst, Interpretation.Holds, Connective.Combines, ihf hf, ihg hg]
  | quant q vs f ih =>
      obtain ⟨hvs, hf⟩ := Formula.spares_quant.1 h
      by_cases hx : x.name ∈ names vs
      · -- the quantifier binds `x` again, so that its value from outside does not matter
        have hnot : x.name ∉ (Formula.quant q vs f).freeNames :=
          fun hfree => (Formula.mem_free_names_quant.1 hfree).2 hx
        rw [Formula.subst_eq_self hnot]
        refine Interpretation.holds_congr_assignment fun name hname => ?_
        have hne : name ≠ x.name := fun heq => hnot (heq ▸ hname)
        rw [Function.update_of_ne hne]
      · rw [Formula.subst, if_neg (mt Variable.is_among_iff.1 hx)]
        simp only [Interpretation.Holds, Interpretation.holds_for_iff]
        refine Quantifier.ranges_congr (fun _ => Iff.rfl) fun as _ => ?_
        have hvalue : M.value (assignAll s vs as) t = M.value s t :=
          Interpretation.value_congr .refl fun v hv => assign_all_of_not_mem (hvs hx v hv)
        rw [ih hf, hvalue, assign_all_update hx]

end Truth

/-- What substitution does. If no quantifier captures a variable of the term, the formula becomes
as true as it was with the value of the term for the variable, and the variables of the term become
free where the variable was. If the variable is not free, nothing changes. -/
theorem subst_correct (f : Formula) (x : Variable) (t : Term) :
    (f.Spares x t →
      (∀ {U : Type u} (M : Interpretation U) (s : Assignment U),
        M.Holds s (f.subst x t) ↔ M.Holds (Function.update s x.name (M.value s t)) f) ∧
      ∀ name, name ∈ names (f.subst x t).freeVariables ↔
        if x.name ∈ names f.freeVariables then
          name ∈ names f.freeVariables ∧ name ≠ x.name ∨ name ∈ names t.vars
        else name ∈ names f.freeVariables) ∧
    (x.name ∉ names f.freeVariables → f.subst x t = f) := by
  have hfree (g : Formula) {name : String} : name ∈ names g.freeVariables ↔ name ∈ g.freeNames :=
    Variable.names_distinct
  simp only [hfree]
  refine ⟨fun hspares => ⟨fun M s => holds_subst hspares, fun name => ?_⟩, Formula.subst_eq_self⟩
  split
  · next hx => rw [Formula.mem_free_names_subst hspares, and_iff_right hx]
  · next hx => rw [Formula.subst_eq_self hx]

namespace Sample

/-- `x` is free beside a quantifier that binds it together with `y`, and below one that binds `z`
alone. -/
def halfBound : Formula :=
  let x : Term := .var { name := "x" }
  let y : Variable := { name := "y" }
  let z : Variable := { name := "z", domain := some [⟨"A"⟩] }
  .iff (.all [y, { name := "x" }] (.atom ⟨⟨"R", 2⟩, [x, .var y]⟩))
    (.ex [z] (.not (.atom ⟨⟨"R", 2⟩, [.skolem "g" [.var z, x], .var z]⟩)))

end Sample

open Sample in
/-- A term with the variable `y` takes the place of `x` below the second quantifier only. -/
theorem subst_correct_half_bound :
    let x : Variable := { name := "x" }
    let t : Term := .skolem "f" [.var { name := "y" }, .var x]
    halfBound.Spares x t ∧
      (∀ (M : Interpretation Nat) (s : Assignment Nat), M.Holds s (halfBound.subst x t) ↔
        M.Holds (Function.update s "x" (M.func "f" [s "y", s "x"])) halfBound) ∧
      (∀ name, name ∈ names (halfBound.subst x t).freeVariables ↔ name = "y" ∨ name = "x") ∧
      "z" ∉ names halfBound.freeVariables ∧ halfBound.subst { name := "z" } t = halfBound := by
  intro x t
  have hspares : halfBound.Spares x t := by decide
  have hbound : "z" ∉ names halfBound.freeVariables := by decide
  obtain ⟨hholds, hfree⟩ := (subst_correct halfBound x t).1 hspares
  refine ⟨hspares, fun M s => hholds M s, fun name => (hfree name).trans ?_, hbound,
    (subst_correct.{0} halfBound { name := "z" } t).2 hbound⟩
  have hnames : names halfBound.freeVariables = [x.name] := by decide
  have hvars : names t.vars = ["y", "x"] := by decide
  rw [hnames, hvars, if_pos (List.mem_singleton.2 rfl)]
  simp

end Clausal
