import Clausal.Proofs.Apart
import Clausal.Proofs.Skolem.Truth

/-!
# Universal quantifiers dropped

Without its universal quantifiers a formula speaks of values of the variables they bound. When it
is true it holds of all of them (`holds_drop`), and when it holds of all of them it is true, as
long as no two quantifiers bind one name (`holds_of_drop`; both together `drop_universals_correct`).
Closed-world expansion can copy a universal quantifier and so bind a name twice:
`nodup_expanded_universals_iff` says when it does.
-/

namespace Clausal

open Variable (names)

universe u

namespace Formula

variable {f g : Formula} {name : String}

/-! ## What dropping keeps -/

theorem occurrences_drop : f.dropUniversals.occurrences = f.occurrences := by
  induction f with
  | atom => rfl
  | not _ ih => exact ih
  | binary _ _ _ ihf ihg => rw [dropUniversals, occurrences, occurrences, ihf, ihg]
  | quant q _ _ ih => cases q <;> exact ih

theorem symbols_drop_subset : f.dropUniversals.symbols ⊆ f.symbols := by
  induction f with
  | atom => exact List.Subset.refl _
  | not _ ih => exact ih
  | binary _ _ _ ihf ihg =>
      exact List.append_subset.2
        ⟨List.subset_append_of_subset_left _ ihf, List.subset_append_of_subset_right _ ihg⟩
  | quant q vs _ ih =>
      cases q with
      | all => exact List.subset_append_of_subset_right _ ih
      | ex =>
          exact List.append_subset.2
            ⟨List.subset_append_left .., List.subset_append_of_subset_right _ ih⟩

/-- Without existentials no quantifier is left. -/
theorem contains_quantifier_drop (h : f.containsExistential = false) :
    f.dropUniversals.containsQuantifier = false := by
  induction f with
  | atom => rfl
  | not _ ih => exact ih h
  | binary _ _ _ ihf ihg =>
      obtain ⟨hf, hg⟩ := Bool.or_eq_false_iff.1 h
      exact Bool.or_eq_false_iff.2 ⟨ihf hf, ihg hg⟩
  | quant q _ _ ih =>
      cases q with
      | all => exact ih h
      | ex => cases h

theorem is_nnf_drop (h : f.isNnf = true) : f.dropUniversals.isNnf = true := by
  refine nnf_induction (P := fun f => f.dropUniversals.isNnf = true) ?atom ?not ?and ?or ?quant h
  case atom | not => exact fun _ => rfl
  case and | or => exact fun _ _ hf hg => Bool.and_eq_true_iff.2 ⟨hf, hg⟩
  case quant => exact fun q _ _ hf => by cases q <;> exact hf

/-- Without existentials every occurrence becomes free. -/
theorem free_occurrences_drop (h : f.containsExistential = false) :
    f.dropUniversals.freeOccurrences = f.occurrences := by
  induction f with
  | atom => rfl
  | not _ ih => exact ih h
  | binary _ _ _ ihf ihg =>
      obtain ⟨hf, hg⟩ := Bool.or_eq_false_iff.1 h
      rw [dropUniversals, freeOccurrences, occurrences, ihf hf, ihg hg]
  | quant q _ _ ih =>
      cases q with
      | all => exact ih h
      | ex => cases h

theorem mem_free_names_drop (h : f.containsExistential = false) :
    name ∈ f.dropUniversals.freeNames ↔ name ∈ names f.occurrences := by
  rw [freeNames, free_occurrences_drop h]

end Formula

/-! ## Truth -/

namespace Interpretation

variable {U : Type u} {M : Interpretation U} {s t t₁ t₂ : Assignment U} {f g : Formula}
  {vs ws : List Variable} {c : Connective}

/-- There are values to choose, unless a domain is empty. -/
theorem exists_rebinds (hnodup : (names vs).Nodup) (hvs : ∀ v ∈ vs, v.domain ≠ some []) :
    ∃ t, M.Rebinds vs s t := by
  have hvalues : ∃ as, List.Forall₂ M.InRange vs as := by
    clear hnodup
    induction vs with
    | nil => exact ⟨[], .nil⟩
    | cons v vs ih =>
        obtain ⟨hv, hvs⟩ := List.forall_mem_cons.1 hvs
        obtain ⟨as, has⟩ := ih hvs
        have hvalue : ∃ a, M.InRange v a := by
          unfold InRange
          cases hdomain : v.domain with
          | none => exact ⟨s v.name, trivial⟩
          | some cs =>
              cases cs with
              | nil => exact absurd hdomain hv
              | cons c cs => exact ⟨_, c, List.mem_cons_self .., rfl⟩
        obtain ⟨a, ha⟩ := hvalue
        exact ⟨a :: as, .cons ha has⟩
  obtain ⟨as, has⟩ := hvalues
  exact ⟨_, rebinds_assign_all hnodup has⟩

/-- Values chosen one after the other for variables of distinct names are chosen together. -/
theorem Rebinds.trans (hnodup : (names (vs ++ ws)).Nodup) (h : M.Rebinds vs s t₁)
    (h' : M.Rebinds ws t₁ t₂) : M.Rebinds (vs ++ ws) s t₂ := by
  rw [names, List.map_append, List.nodup_append] at hnodup
  refine ⟨fun name hname => ?_, List.forall_mem_append.2 ⟨fun v hv => ?_, h'.2⟩⟩
  · rw [Variable.mem_names_append, not_or] at hname
    rw [h'.1 name hname.2, h.1 name hname.1]
  · have hmem := List.mem_map_of_mem (f := fun v : Variable => v.name) hv
    rw [h'.1 _ fun hmem' => hnodup.2.2 _ hmem _ hmem' rfl]
    exact h.2 v hv

/-- What is true of all values is true of values in range. -/
theorem holds_drop (hnnf : f.isNnf = true) (hex : f.containsExistential = false)
    (h : M.Holds s f) (hrange : ∀ v ∈ f.binders, M.InRange v (s v.name)) :
    M.Holds s f.dropUniversals := by
  revert hex h hrange
  refine Formula.nnf_induction (P := fun f => f.containsExistential = false → M.Holds s f →
    (∀ v ∈ f.binders, M.InRange v (s v.name)) → M.Holds s f.dropUniversals)
    ?hatom ?hnot ?hand ?hor ?hquant hnnf
  case hatom | hnot => exact fun _ _ h _ => h
  case hand =>
    intro f g ihf ihg hex h hrange
    obtain ⟨hexf, hexg⟩ := Bool.or_eq_false_iff.1 hex
    obtain ⟨hf, hg⟩ := List.forall_mem_append.1 hrange
    exact ⟨ihf hexf h.1 hf, ihg hexg h.2 hg⟩
  case hor =>
    intro f g ihf ihg hex h hrange
    obtain ⟨hexf, hexg⟩ := Bool.or_eq_false_iff.1 hex
    obtain ⟨hf, hg⟩ := List.forall_mem_append.1 hrange
    exact h.imp (ihf hexf · hf) (ihg hexg · hg)
  case hquant =>
    intro q vs f ih hex h hrange
    cases q with
    | all =>
        obtain ⟨hvs, hf⟩ := List.forall_mem_append.1 hrange
        exact ih hex (holds_of_holds_all h ⟨fun _ _ => rfl, hvs⟩) hf
    | ex => cases hex

/-- Values chosen for either side of a connective can be chosen for both at once, without a change
to what the sides say. -/
theorem exists_joint_rebinds (hapart : (Formula.binary c f g).IsApart)
    (hexf : f.containsExistential = false) (hexg : g.containsExistential = false)
    (h₁ : M.Rebinds f.binders s t₁) (h₂ : M.Rebinds g.binders s t₂) :
    ∃ t, M.Rebinds (f.binders ++ g.binders) s t ∧
      (M.Holds t f.dropUniversals ↔ M.Holds t₁ f.dropUniversals) ∧
      (M.Holds t g.dropUniversals ↔ M.Holds t₂ g.dropUniversals) := by
  let t : Assignment U := fun name => if name ∈ names f.binders then t₁ name else t₂ name
  have hleft {name} (hname : name ∈ names f.binders) : t name = t₁ name := if_pos hname
  have hright {name} (hname : name ∉ names f.binders) : t name = t₂ name := if_neg hname
  refine ⟨t, ⟨fun name hname => ?_, List.forall_mem_append.2 ⟨fun v hv => ?_, fun v hv => ?_⟩⟩,
    holds_congr_assignment fun name hname => ?_, holds_congr_assignment fun name hname => ?_⟩
  · rw [Variable.mem_names_append, not_or] at hname
    rw [hright hname.1, h₂.1 name hname.2]
  · rw [hleft (List.mem_map_of_mem hv)]
    exact h₁.2 v hv
  · rw [hright fun hname => hapart.not_bound_right hname (List.mem_map_of_mem hv)]
    exact h₂.2 v hv
  · rw [Formula.mem_free_names_drop hexf] at hname
    by_cases hbound : name ∈ names f.binders
    · exact hleft hbound
    · have hother := fun hbound => hapart.not_occurs_left hbound hname
      rw [hright hbound, h₁.1 name hbound, h₂.1 name hother]
  · rw [Formula.mem_free_names_drop hexg] at hname
    exact hright fun hbound => hapart.not_occurs_right hbound hname

/-- What holds of all values is true, as long as no two quantifiers bind one name. -/
theorem holds_of_drop (hnnf : f.isNnf = true) (hex : f.containsExistential = false)
    (hapart : f.IsApart) (hinhabited : f.RangesInhabited)
    (h : ∀ t, M.Rebinds f.binders s t → M.Holds t f.dropUniversals) : M.Holds s f := by
  revert s
  revert hex hapart hinhabited
  refine Formula.nnf_induction (P := fun f => f.containsExistential = false → f.IsApart →
    f.RangesInhabited → ∀ {s}, (∀ t, M.Rebinds f.binders s t → M.Holds t f.dropUniversals) →
    M.Holds s f) ?hatom ?hnot ?hand ?hor ?hquant hnnf
  case hatom | hnot => exact fun _ _ _ _ _ h => h _ ⟨fun _ _ => rfl, fun _ h => nomatch h⟩
  case hand =>
    intro f g ihf ihg hex hapart hinhabited s h
    obtain ⟨hexf, hexg⟩ := Bool.or_eq_false_iff.1 hex
    obtain ⟨hf, hg⟩ := List.forall_mem_append.1 hinhabited
    -- while one side is looked at, any values will do for the other
    obtain ⟨t₁, h₁⟩ := exists_rebinds (M := M) (s := s) hapart.left.nodup hf
    obtain ⟨t₂, h₂⟩ := exists_rebinds (M := M) (s := s) hapart.right.nodup hg
    constructor
    · refine ihf hexf hapart.left hf fun t ht => ?_
      obtain ⟨t', ht', hiff, -⟩ := exists_joint_rebinds hapart hexf hexg ht h₂
      exact hiff.1 (h t' ht').1
    · refine ihg hexg hapart.right hg fun t ht => ?_
      obtain ⟨t', ht', -, hiff⟩ := exists_joint_rebinds hapart hexf hexg h₁ ht
      exact hiff.1 (h t' ht').2
  case hor =>
    intro f g ihf ihg hex hapart hinhabited s h
    obtain ⟨hexf, hexg⟩ := Bool.or_eq_false_iff.1 hex
    obtain ⟨hf, hg⟩ := List.forall_mem_append.1 hinhabited
    by_contra hnot
    obtain ⟨hnotf, hnotg⟩ := not_or.1 hnot
    -- values that refute the sides one by one refute both of them together
    have hrefuted := mt (ihf hexf hapart.left hf (s := s)) hnotf
    have hrefuted' := mt (ihg hexg hapart.right hg (s := s)) hnotg
    push Not at hrefuted hrefuted'
    obtain ⟨t₁, h₁, hnot₁⟩ := hrefuted
    obtain ⟨t₂, h₂, hnot₂⟩ := hrefuted'
    obtain ⟨t, ht, hiff, hiff'⟩ := exists_joint_rebinds hapart hexf hexg h₁ h₂
    exact (h t ht).elim (fun h => hnot₁ (hiff.1 h)) fun h => hnot₂ (hiff'.1 h)
  case hquant =>
    intro q vs f ih hex hapart hinhabited s h
    cases q with
    | all =>
        have hnodup := hapart.nodup
        refine (holds_quant_iff ?_).2 fun t ht => ?_
        · exact hnodup.sublist ((List.sublist_append_left ..).map _)
        · exact ih hex hapart.body (List.forall_mem_append.1 hinhabited).2 fun t' ht' =>
            h t' (ht.trans hnodup ht')
    | ex => cases hex

/-- Only a closed-world variable has values that are out of range. -/
theorem in_range_of_closed_world {v : Variable} {a : U}
    (h : v.isClosedWorld = true → M.InRange v a) : M.InRange v a := by
  cases hdomain : v.domain with
  | none =>
      rw [InRange, hdomain]
      trivial
  | some cs =>
      refine h ?_
      rw [Variable.isClosedWorld, hdomain]
      rfl

end Interpretation

/-- Universal quantifiers may be dropped where no two of them bind one name: the formula is true
exactly when what is left of it is, whatever the values of the variables that were bound, those of
closed-world variables being taken from their domains. -/
theorem drop_universals_correct {U : Type u} {f : Formula} (hnnf : f.isNnf = true)
    (hex : f.containsExistential = false) (hapart : f.IsApart) (hinhabited : f.RangesInhabited)
    (M : Interpretation U) (s : Assignment U) :
    M.Holds s f ↔ ∀ t : Assignment U, (∀ v ∈ f.freeVariables, t v.name = s v.name) →
      (∀ v ∈ f.binders, v.isClosedWorld = true → M.InRange v (t v.name)) →
      M.Holds t f.dropUniversals := by
  constructor
  · intro h t hfree hrange
    have ht : M.Holds t f := by
      refine (Interpretation.holds_congr_assignment fun name hname => ?_).1 h
      obtain ⟨v, hv, rfl⟩ := Formula.mem_free_names_iff.1 hname
      exact (hfree v hv).symm
    exact Interpretation.holds_drop hnnf hex ht fun v hv =>
      Interpretation.in_range_of_closed_world (hrange v hv)
  · intro h
    refine Interpretation.holds_of_drop hnnf hex hapart hinhabited fun t ht => h t ?_ ?_
    · intro v hv
      refine ht.1 v.name fun hbound => hapart.not_free v.name hbound ?_
      exact Formula.mem_free_names_iff.2 ⟨v, hv, rfl⟩
    · exact fun v hv _ => ht.2 v hv

/-- One side speaks of all constants of the domain, the other one of everything. -/
def Sample.sides : Formula :=
  .or (.all [p] (holding "R" [.var p, .var y])) (.all [x] (.not (holding "R" [.var x, .var y])))

open Sample in
/-- Both quantifiers come to stand in front of the disjunction, where the domain of `p` still
counts. -/
theorem drop_universals_correct_sides :
    (sides.isNnf = true ∧ sides.containsExistential = false ∧ sides.IsApart ∧
      sides.RangesInhabited) ∧
    sides.dropUniversals =
      .or (holding "R" [.var p, .var y]) (.not (holding "R" [.var x, .var y])) ∧
    ∀ (M : Interpretation Nat) (s : Assignment Nat),
      M.Holds s sides ↔ ∀ t : Assignment Nat, (∀ v ∈ sides.freeVariables, t v.name = s v.name) →
        (∀ v ∈ sides.binders, v.isClosedWorld = true → M.InRange v (t v.name)) →
        M.Holds t sides.dropUniversals := by
  have hnnf : sides.isNnf = true := rfl
  have hex : sides.containsExistential = false := rfl
  have hapart : sides.IsApart := by decide
  have hinhabited : sides.RangesInhabited := by decide
  exact ⟨⟨hnnf, hex, hapart, hinhabited⟩, rfl, fun M s =>
    drop_universals_correct hnnf hex hapart hinhabited M s⟩

/-! ## Copies of universal quantifiers -/

namespace Formula

/-- Some universal quantifier binds a variable. -/
def bindsUniversally : Formula → Bool
  | atom _ => false
  | not f => f.bindsUniversally
  | binary _ f g => f.bindsUniversally || g.bindsUniversally
  | quant .all vs f => !vs.isEmpty || f.bindsUniversally
  | quant .ex _ f => f.bindsUniversally

/-- An existential with several choices of constants for its closed-world variables stands above a
universal quantifier that binds a variable. -/
def copiesUniversals : Formula → Bool
  | atom _ => false
  | not f => f.copiesUniversals
  | binary _ f g => f.copiesUniversals || g.copiesUniversals
  | quant .all _ f => f.copiesUniversals
  | quant .ex vs f =>
    f.copiesUniversals || decide (1 < (choices (closedWorld vs)).length) && f.bindsUniversally

variable {f g : Formula}

theorem expanded_universals_subset : f.expandedUniversals ⊆ f.binders := by
  induction f with
  | atom => exact List.Subset.refl _
  | not _ ih => exact ih
  | binary _ _ _ ihf ihg =>
      exact List.append_subset.2
        ⟨List.subset_append_of_subset_left _ ihf, List.subset_append_of_subset_right _ ihg⟩
  | quant q vs _ ih =>
      cases q with
      | all =>
          exact List.append_subset.2
            ⟨List.subset_append_left .., List.subset_append_of_subset_right _ ih⟩
      | ex =>
          exact flat_map_subset_iff.2 fun _ _ => List.subset_append_of_subset_right _ ih

theorem exists_copies_of (vs : List Variable) : ∃ choice rest, copiesOf vs = choice :: rest := by
  unfold copiesOf
  split <;> exact ⟨_, _, rfl⟩

theorem one_lt_copies_of {vs : List Variable} :
    1 < (copiesOf vs).length ↔ 1 < (choices (closedWorld vs)).length := by
  unfold copiesOf
  split <;> simp [*]

theorem expanded_universals_eq_nil : f.expandedUniversals = [] ↔ f.bindsUniversally = false := by
  induction f with
  | atom => simp [expandedUniversals, bindsUniversally]
  | not _ ih => exact ih
  | binary _ _ _ ihf ihg => simp [expandedUniversals, bindsUniversally, ihf, ihg]
  | quant q vs f ih =>
      cases q with
      | all => simp [expandedUniversals, bindsUniversally, ih]
      | ex =>
          obtain ⟨choice, rest, hcopies⟩ := exists_copies_of vs
          rw [expandedUniversals, bindsUniversally, hcopies, List.flatMap_eq_nil_iff, ← ih]
          exact ⟨fun h => h choice (List.mem_cons_self ..), fun h _ _ => h⟩

/-- Copies have distinct names when there is one of them at most or nothing is named. -/
theorem nodup_copies_iff {vs : List Variable} {names : List String} :
    ((copiesOf vs).flatMap fun _ => names).Nodup ↔
      names.Nodup ∧ (1 < (choices (closedWorld vs)).length → names = []) := by
  rw [← one_lt_copies_of]
  obtain ⟨choice, rest, hcopies⟩ := exists_copies_of vs
  rw [hcopies]
  cases rest with
  | nil => simp
  | cons choice' rest =>
      constructor
      · intro h
        -- the second copy repeats whatever the first one names
        obtain ⟨hnodup, -, hdisjoint⟩ := List.nodup_append.1 h
        refine ⟨hnodup, fun _ => List.eq_nil_iff_forall_not_mem.2 fun name hname => ?_⟩
        exact hdisjoint name hname name (List.mem_append_left _ hname) rfl
      · intro h
        rw [h.2 (by simp), List.flatMap_eq_nil_iff.2 fun _ _ => rfl]
        exact List.nodup_nil

/-- Parts of lists that share no name have distinct names when each part does. -/
theorem nodup_append_iff {vs vs' ws ws' : List Variable} (hvs : vs' ⊆ vs) (hws : ws' ⊆ ws)
    (h : (names (vs ++ ws)).Nodup) :
    (names (vs' ++ ws')).Nodup ↔ (names vs').Nodup ∧ (names ws').Nodup := by
  rw [names, List.map_append, List.nodup_append] at h ⊢
  refine ⟨fun h' => ⟨h'.1, h'.2.1⟩, fun h' => ⟨h'.1, h'.2, fun name hname name' hname' => ?_⟩⟩
  exact h.2.2 name (List.map_subset _ hvs hname) name' (List.map_subset _ hws hname')

/-- Universal quantifiers bind distinct names after Skolemization unless one of them is copied. -/
theorem nodup_expanded_universals_iff (h : (names f.binders).Nodup) :
    (names f.expandedUniversals).Nodup ↔ f.copiesUniversals = false := by
  induction f with
  | atom => simp [expandedUniversals, copiesUniversals]
  | not _ ih => exact ih h
  | binary _ f g ihf ihg =>
      have hf : (names f.binders).Nodup := h.sublist ((List.sublist_append_left ..).map _)
      have hg : (names g.binders).Nodup := h.sublist ((List.sublist_append_right ..).map _)
      rw [expandedUniversals, copiesUniversals, Bool.or_eq_false_iff, ← ihf hf, ← ihg hg]
      exact nodup_append_iff expanded_universals_subset expanded_universals_subset h
  | quant q vs f ih =>
      have hf : (names f.binders).Nodup := h.sublist ((List.sublist_append_right ..).map _)
      cases q with
      | all =>
          have hvs : (names vs).Nodup := h.sublist ((List.sublist_append_left ..).map _)
          rw [expandedUniversals, copiesUniversals, ← ih hf,
            nodup_append_iff (List.Subset.refl _) expanded_universals_subset h, and_iff_right hvs]
      | ex =>
          rw [expandedUniversals, copiesUniversals, names, List.map_flatMap, nodup_copies_iff,
            List.map_eq_nil_iff, expanded_universals_eq_nil, Bool.or_eq_false_iff, ← ih hf]
          refine and_congr_right fun _ => ?_
          cases f.bindsUniversally <;> simp

end Formula

/-! ## Renaming -/

namespace Renames

variable {scope : Scope} {f g : Formula}

theorem binds_universally (h : Renames scope f g) : g.bindsUniversally = f.bindsUniversally := by
  induction h with
  | atom => rfl
  | not _ ih => exact ih
  | binary _ _ ihf ihg => simp only [Formula.bindsUniversally, ihf, ihg]
  | @quant _ q vs ws _ _ hcopies _ _ _ ih =>
      have hempty : ws.isEmpty = vs.isEmpty := by cases hcopies <;> rfl
      cases q <;> simp only [Formula.bindsUniversally, ih, hempty]

/-- Copies leave as many choices as the variables they copy. -/
theorem length_choices {vs ws : List Variable} (h : List.Forall₂ Variable.Copies vs ws) :
    (choices (closedWorld ws)).length = (choices (closedWorld vs)).length := by
  induction h with
  | nil => rfl
  | @cons v w vs ws hcopy _ ih =>
      have hdomain := hcopy.1
      cases hv : v.domain with
      | none => simp_all [closedWorld]
      | some cs => simp_all [closedWorld, length_choices_cons]

theorem copies_universals (h : Renames scope f g) : g.copiesUniversals = f.copiesUniversals := by
  induction h with
  | atom => rfl
  | not _ ih => exact ih
  | binary _ _ ihf ihg => simp only [Formula.copiesUniversals, ihf, ihg]
  | @quant _ q _ _ _ _ hcopies _ _ h ih =>
      cases q <;>
        simp only [Formula.copiesUniversals, ih, h.binds_universally, length_choices hcopies]

end Renames

end Clausal
