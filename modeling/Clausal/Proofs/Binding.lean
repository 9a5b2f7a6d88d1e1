import Mathlib.Data.List.Nodup
import Mathlib.Tactic.Tauto
import Clausal.Formula.Free
import Clausal.Formula.Shape

/-!
# Bound and free variables

The variables at the binder positions of a formula, its atoms and the variables at them, and the
names that are free. `Formula.IsApart` says that binders do not interfere: they bind pairwise
distinct names and none that is free. `nnf_induction` goes through the formulas in negation normal
form.
-/

namespace Clausal

namespace Variable

/-- The names of variables. -/
abbrev names (vs : List Variable) : List String := vs.map (·.name)

variable {v : Variable} {vs ws : List Variable}

@[simp] theorem same_iff {w : Variable} : v.same w = true ↔ v.name = w.name := by
  simp [same]

@[simp] theorem is_among_iff : v.isAmong vs = true ↔ v.name ∈ names vs := by
  simp only [isAmong, List.any_eq_true, same_iff, List.mem_map]
  exact ⟨fun ⟨w, hw, h⟩ => ⟨w, hw, h.symm⟩, fun ⟨w, hw, h⟩ => ⟨w, hw, h.symm⟩⟩

@[simp] theorem is_among_eq_false_iff : v.isAmong vs = false ↔ v.name ∉ names vs := by
  rw [← is_among_iff, Bool.not_eq_true]

theorem mem_names_append {name : String} :
    name ∈ names (vs ++ ws) ↔ name ∈ names vs ∨ name ∈ names ws := by
  simp

theorem mem_of_mem_distinct (h : v ∈ distinct vs) : v ∈ vs := by
  induction vs with
  | nil => cases h
  | cons w vs ih =>
      rcases List.mem_cons.1 h with rfl | h
      · exact List.mem_cons_self ..
      · exact List.mem_cons_of_mem _ (ih (List.mem_filter.1 h).1)

/-- Leaving out repetitions leaves out no name. -/
theorem names_distinct {name : String} : name ∈ names (distinct vs) ↔ name ∈ names vs := by
  constructor
  · intro h
    obtain ⟨v, hv, rfl⟩ := List.mem_map.1 h
    exact List.mem_map_of_mem (mem_of_mem_distinct hv)
  · intro h
    induction vs with
    | nil => exact h
    | cons w vs ih =>
        -- what `distinct` filters out of the rest bears the name of `w`
        by_cases heq : name = w.name
        · exact heq ▸ List.mem_cons_self ..
        · obtain ⟨v, hv, hname⟩ := List.mem_map.1 (ih (by simpa [heq] using h))
          refine List.mem_cons_of_mem _ (List.mem_map.2 ⟨v, List.mem_filter.2 ⟨hv, ?_⟩, hname⟩)
          have hne : w.name ≠ v.name := fun h => heq (hname ▸ h.symm)
          simp [same, hne]

/-- Of two lists the second one adds the names that the first one does not have. -/
theorem distinct_append :
    distinct (vs ++ ws) = distinct vs ++ (distinct ws).filter fun w => !w.isAmong vs := by
  induction vs with
  | nil => simp [distinct, isAmong]
  | cons v vs ih =>
      rw [List.cons_append, distinct, distinct, ih, List.filter_append, List.filter_filter,
        List.cons_append]
      congr 2
      refine List.filter_congr fun w _ => ?_
      simp only [isAmong, List.any_cons, Bool.not_or, same, BEq.comm (a := v.name)]

/-- Names may be left out before or after repetitions are. -/
theorem distinct_filter : distinct (vs.filter fun v => !v.isAmong ws) =
    (distinct vs).filter fun v => !v.isAmong ws := by
  induction vs with
  | nil => rfl
  | cons v vs ih =>
      rw [distinct, List.filter_cons, List.filter_cons]
      split
      · rw [distinct, ih, List.filter_filter, List.filter_filter]
        simp only [Bool.and_comm]
      · next hv =>
          have hname : v.name ∈ names ws := by simpa using hv
          rw [ih, List.filter_filter]
          refine List.filter_congr fun w _ => ?_
          by_cases hsame : v.name = w.name
          · simp [← hsame, hname]
          · simp [same, hsame]

/-- Variables of pairwise distinct names are equal when their names are. -/
theorem eq_of_name_eq (hnodup : (names vs).Nodup) {w : Variable} (hv : v ∈ vs) (hw : w ∈ vs)
    (hname : v.name = w.name) : v = w :=
  List.inj_on_of_nodup_map hnodup hv hw hname

end Variable

namespace Formula

open Variable (names)

/-- The variables at the binder positions, from left to right. -/
def binders : Formula → List Variable
  | atom _ => []
  | not f => f.binders
  | binary _ f g => f.binders ++ g.binders
  | quant _ vs f => vs ++ f.binders

/-- The variables at the atoms, free and bound, from left to right. -/
def occurrences : Formula → List Variable
  | atom a => a.vars
  | not f => f.occurrences
  | binary _ f g => f.occurrences ++ g.occurrences
  | quant _ _ f => f.occurrences

/-- The atoms of a formula from left to right. -/
def atoms : Formula → List Atom
  | atom a => [a]
  | not f => f.atoms
  | binary _ f g => f.atoms ++ g.atoms
  | quant _ _ f => f.atoms

/-- The names that occur free. -/
def freeNames (f : Formula) : List String := names f.freeOccurrences

/-- The quantifiers bind pairwise distinct names, none of them free. -/
structure IsApart (f : Formula) : Prop where
  nodup : (names f.binders).Nodup
  not_free : ∀ name ∈ names f.binders, name ∉ f.freeNames

/-- An existential quantifier stands somewhere. -/
def containsExistential : Formula → Bool
  | atom _ => false
  | not f => f.containsExistential
  | binary _ f g => f.containsExistential || g.containsExistential
  | quant .all _ f => f.containsExistential
  | quant .ex _ _ => true

/-- No quantifier ranges over an empty domain, as no variable is defined with one
(`define_variable_inhabited`). -/
def RangesInhabited (f : Formula) : Prop := ∀ v ∈ f.binders, v.domain ≠ some []

instance (f : Formula) : Decidable f.IsApart :=
  decidable_of_iff ((names f.binders).Nodup ∧ ∀ name ∈ names f.binders, name ∉ f.freeNames)
    ⟨fun h => ⟨h.1, h.2⟩, fun h => ⟨h.1, h.2⟩⟩

instance (f : Formula) : Decidable f.RangesInhabited :=
  inferInstanceAs (Decidable (∀ v ∈ f.binders, v.domain ≠ some []))

variable {f g : Formula} {a : Atom} {c : Connective} {q : Quantifier} {vs : List Variable}
  {name : String}

@[simp] theorem mem_free_names_atom : name ∈ (atom a).freeNames ↔ name ∈ names a.vars := Iff.rfl

@[simp] theorem mem_free_names_not : name ∈ (not f).freeNames ↔ name ∈ f.freeNames := Iff.rfl

@[simp] theorem mem_free_names_binary :
    name ∈ (binary c f g).freeNames ↔ name ∈ f.freeNames ∨ name ∈ g.freeNames := by
  simp [freeNames, freeOccurrences]

@[simp] theorem mem_free_names_quant :
    name ∈ (quant q vs f).freeNames ↔ name ∈ f.freeNames ∧ name ∉ names vs := by
  simp only [freeNames, freeOccurrences, names, List.mem_map, List.mem_filter,
    Bool.not_eq_true', Variable.is_among_eq_false_iff]
  constructor
  · rintro ⟨v, ⟨hv, hnot⟩, rfl⟩
    exact ⟨⟨v, hv, rfl⟩, by simpa using hnot⟩
  · rintro ⟨⟨v, hv, rfl⟩, hnot⟩
    exact ⟨v, ⟨hv, by simpa using hnot⟩, rfl⟩

/-- The free names are those of the free variables. -/
theorem mem_free_names_iff : name ∈ f.freeNames ↔ ∃ v ∈ f.freeVariables, v.name = name := by
  rw [freeNames, ← Variable.names_distinct, List.mem_map]
  rfl

theorem is_among_free_variables {v : Variable} :
    v.isAmong f.freeVariables = v.isAmong f.freeOccurrences := by
  rw [Bool.eq_iff_iff, Variable.is_among_iff, Variable.is_among_iff, freeVariables,
    Variable.names_distinct]

/-- Free are the variables of the first formula, then those that only the second one has. -/
theorem free_variables_binary : (binary c f g).freeVariables =
    f.freeVariables ++ g.freeVariables.filter fun v => !v.isAmong f.freeVariables := by
  simp only [is_among_free_variables]
  exact Variable.distinct_append

theorem free_variables_quant :
    (quant q vs f).freeVariables = f.freeVariables.filter fun v => !v.isAmong vs :=
  Variable.distinct_filter

/-- The second formula adds no free variable when its free names are free in the first one. -/
theorem free_variables_binary_of_subset (h : g.freeNames ⊆ f.freeNames) :
    (binary c f g).freeVariables = f.freeVariables := by
  have hnone : (g.freeVariables.filter fun v => !v.isAmong f.freeVariables) = [] := by
    refine List.filter_eq_nil_iff.2 fun v hv => ?_
    have hfree : v.name ∈ f.freeNames := h (mem_free_names_iff.2 ⟨v, hv, rfl⟩)
    rw [is_among_free_variables, Variable.is_among_iff.2 hfree]
    exact Bool.false_ne_true
  rw [free_variables_binary, hnone, List.append_nil]

/-- An occurrence is free or has a binder of its name. -/
theorem free_or_bound {v : Variable} (hv : v ∈ f.occurrences) :
    v.name ∈ f.freeNames ∨ v.name ∈ names f.binders := by
  induction f with
  | atom => exact .inl (List.mem_map_of_mem hv)
  | not _ ih => exact ih hv
  | binary _ f g ihf ihg =>
      rw [mem_free_names_binary, binders, Variable.mem_names_append]
      rcases List.mem_append.1 hv with hv | hv
      · have := ihf hv
        tauto
      · have := ihg hv
        tauto
  | quant _ vs f ih =>
      rw [mem_free_names_quant, binders, Variable.mem_names_append]
      have := ih hv
      tauto

/-- Without quantifiers every occurrence is free. -/
theorem free_occurrences_eq (h : f.containsQuantifier = false) :
    f.freeOccurrences = f.occurrences := by
  induction f with
  | atom => rfl
  | not _ ih => exact ih h
  | binary _ _ _ ihf ihg =>
      simp only [containsQuantifier, Bool.or_eq_false_iff] at h
      rw [freeOccurrences, occurrences, ihf h.1, ihg h.2]
  | quant => cases h

/-- Without quantifiers nothing is bound. -/
theorem binders_eq_nil (h : f.containsQuantifier = false) : f.binders = [] := by
  induction f with
  | atom => rfl
  | not _ ih => exact ih h
  | binary _ _ _ ihf ihg =>
      simp only [containsQuantifier, Bool.or_eq_false_iff] at h
      rw [binders, ihf h.1, ihg h.2, List.append_nil]
  | quant => cases h

namespace IsApart

theorem left (h : (binary c f g).IsApart) : f.IsApart where
  nodup := h.nodup.sublist ((List.sublist_append_left ..).map _)
  not_free := fun name hname hfree => h.not_free name
    (Variable.mem_names_append.2 (.inl hname)) (mem_free_names_binary.2 (.inl hfree))

theorem right (h : (binary c f g).IsApart) : g.IsApart where
  nodup := h.nodup.sublist ((List.sublist_append_right ..).map _)
  not_free := fun name hname hfree => h.not_free name
    (Variable.mem_names_append.2 (.inr hname)) (mem_free_names_binary.2 (.inr hfree))

theorem body (h : (quant q vs f).IsApart) : f.IsApart where
  nodup := h.nodup.sublist ((List.sublist_append_right ..).map _)
  not_free := by
    have hnodup := h.nodup
    rw [binders, names, List.map_append, List.nodup_append] at hnodup
    intro name hname hfree
    refine h.not_free name (Variable.mem_names_append.2 (.inr hname)) ?_
    exact mem_free_names_quant.2 ⟨hfree, fun hbound => hnodup.2.2 _ hbound _ hname rfl⟩

theorem not_bound_right (h : (binary c f g).IsApart) (hname : name ∈ names f.binders) :
    name ∉ names g.binders := by
  have hnodup := h.nodup
  rw [binders, names, List.map_append, List.nodup_append] at hnodup
  exact fun hbound => hnodup.2.2 _ hname _ hbound rfl

/-- What one side binds does not occur on the other side. -/
theorem not_occurs_right (h : (binary c f g).IsApart) (hname : name ∈ names f.binders) :
    name ∉ names g.occurrences := by
  intro hoccurs
  obtain ⟨v, hv, rfl⟩ := List.mem_map.1 hoccurs
  rcases free_or_bound hv with hfree | hbound
  · exact h.not_free _ (Variable.mem_names_append.2 (.inl hname))
      (mem_free_names_binary.2 (.inr hfree))
  · exact h.not_bound_right hname hbound

theorem not_occurs_left (h : (binary c f g).IsApart) (hname : name ∈ names g.binders) :
    name ∉ names f.occurrences := by
  intro hoccurs
  obtain ⟨v, hv, rfl⟩ := List.mem_map.1 hoccurs
  rcases free_or_bound hv with hfree | hbound
  · exact h.not_free _ (Variable.mem_names_append.2 (.inr hname))
      (mem_free_names_binary.2 (.inl hfree))
  · exact h.not_bound_right hbound hname

end IsApart

/-- Induction over negation normal forms. -/
theorem nnf_induction {P : Formula → Prop} (hatom : ∀ a, P (atom a))
    (hnot : ∀ a, P (not (atom a))) (hand : ∀ f g, P f → P g → P (and f g))
    (hor : ∀ f g, P f → P g → P (or f g)) (hquant : ∀ q vs f, P f → P (quant q vs f))
    {f : Formula} (h : f.isNnf = true) : P f := by
  induction f with
  | atom a => exact hatom a
  | not f =>
      cases f with
      | atom a => exact hnot a
      | not | binary | quant => cases h
  | binary c f g ihf ihg =>
      cases c with
      | and =>
          obtain ⟨hf, hg⟩ := Bool.and_eq_true_iff.1 h
          exact hand f g (ihf hf) (ihg hg)
      | or =>
          obtain ⟨hf, hg⟩ := Bool.and_eq_true_iff.1 h
          exact hor f g (ihf hf) (ihg hg)
      | implies | iff => cases h
  | quant q vs f ih => exact hquant q vs f (ih h)

end Formula

end Clausal
