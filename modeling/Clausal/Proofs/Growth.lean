import Mathlib.Data.List.Nodup
import Mathlib.Data.List.Perm.Subperm
import Std.Data.String.ToNat
import Clausal.Proofs.Attempt
import Clausal.Registry.Define
import Clausal.Registry.Fresh

/-!
# Growth of registries

What actions on a registry add. `Registry.Grows` says that symbols were added after the old ones,
under new names, each name once; it is reflexive and transitive. `fresh_number_is_free` says that
the search for a fresh name finds one, so every action that adds a symbol makes the registry grow.
-/

namespace Clausal

/-! ## The search for a fresh name -/

section FirstFree

variable {free : Nat → Bool} {k bound : Nat}

theorem le_first_free : k ≤ firstFree free k bound := by
  induction bound generalizing k with
  | zero => exact Nat.le_refl k
  | succ bound ih =>
      unfold firstFree
      split
      · exact Nat.le_refl k
      · exact Nat.le_trans (Nat.le_succ k) ih

/-- The numbers that the search passes over are not free. -/
theorem not_free_of_lt_first_free {j : Nat} (hk : k ≤ j) (hj : j < firstFree free k bound) :
    free j = false := by
  induction bound generalizing k with
  | zero =>
      unfold firstFree at hj
      omega
  | succ bound ih =>
      unfold firstFree at hj
      split at hj
      · omega
      · next hfree =>
          rcases Nat.lt_or_ge k j with h | h
          · exact ih h hj
          · rw [Nat.le_antisymm h hk]
            simpa using hfree

/-- The search ends at a free number or has tried as many numbers as it may. -/
theorem first_free_is_free_or_eq :
    free (firstFree free k bound) = true ∨ firstFree free k bound = k + bound := by
  induction bound generalizing k with
  | zero => exact .inr rfl
  | succ bound ih =>
      unfold firstFree
      split
      · next hfree => exact .inl hfree
      · rcases ih (k := k + 1) with h | h
        · exact .inl h
        · exact .inr (by omega)

end FirstFree

namespace Registry

/-- The constants that `r'` holds beyond those of `r`. -/
def addedConsts (r r' : Registry) : List Constant := r'.consts.drop r.consts.length

/-- The variables that `r'` holds beyond those of `r`. -/
def addedVars (r r' : Registry) : List Variable := r'.vars.drop r.vars.length

/-- The Skolem functions that `r'` holds beyond those of `r`. -/
def addedSkolems (r r' : Registry) : List SkolemSymbol :=
  r'.skolemSymbols.drop r.skolemSymbols.length

/-- The names of all symbols that `r'` holds beyond those of `r`. -/
def addedNames (r r' : Registry) : List String :=
  (r.addedConsts r').map (·.name) ++ (r.addedVars r').map (·.name) ++
    (r.addedSkolems r').map (·.name)

variable {r mid r' : Registry} {base : String}

@[simp] theorem added_consts_self : r.addedConsts r = [] := List.drop_length

@[simp] theorem added_vars_self : r.addedVars r = [] := List.drop_length

@[simp] theorem added_skolems_self : r.addedSkolems r = [] := List.drop_length

@[simp] theorem added_names_self : r.addedNames r = [] := by
  simp [addedNames]

/-- With as many tries as there are names, the search finds a name that is not in use. -/
theorem fresh_number_is_free : r.isFree base (r.freshNumber base) = true := by
  have hsearch : r.isFree base (r.freshNumber base) = true ∨
      r.freshNumber base = r.counter + r.termNames.length := first_free_is_free_or_eq
  rcases hsearch with hfree | hlast
  · exact hfree
  · by_contra hused
    -- every candidate up to the last one is in use, and that is one candidate too many
    let candidates :=
      (List.range (r.termNames.length + 1)).map fun i => base ++ (r.counter + i).repr
    have hsubset : candidates ⊆ r.termNames := by
      intro name hname
      obtain ⟨i, hi, rfl⟩ := List.mem_map.1 hname
      have hi := List.mem_range.1 hi
      have hnot : r.isFree base (r.counter + i) = false := by
        rcases Nat.lt_or_ge i r.termNames.length with h | h
        · have hlt : r.counter + i < r.freshNumber base := by omega
          exact not_free_of_lt_first_free (Nat.le_add_right ..) hlt
        · have hlast : r.counter + i = r.freshNumber base := by omega
          rw [hlast]
          simpa using hused
      simpa [isFree] using hnot
    have hnodup : candidates.Nodup := by
      refine List.Nodup.map (fun i j heq => ?_) List.nodup_range
      have := Nat.repr_injective ((String.append_right_inj base).1 heq)
      omega
    have hlength := (List.subperm_of_subset hnodup hsubset).length_le
    rw [List.length_map, List.length_range] at hlength
    omega

theorem fresh_name_not_mem (r : Registry) (base : String) :
    base ++ (r.freshNumber base).repr ∉ r.termNames := by
  have hfree : r.isFree base (r.freshNumber base) = true := fresh_number_is_free
  simpa [isFree] using hfree

/-! ## Growth -/

/-- Symbols were added after the old ones, under new names and each name once; predicates and
axioms are the same. -/
structure Grows (r r' : Registry) : Prop where
  consts : r.consts <+: r'.consts
  vars : r.vars <+: r'.vars
  skolems : r.skolemSymbols <+: r'.skolemSymbols
  preds : r'.preds = r.preds
  axioms : r'.axioms = r.axioms
  counter : r.counter ≤ r'.counter
  nodup : (r.addedNames r').Nodup
  fresh : ∀ name ∈ r.addedNames r', name ∉ r.termNames

namespace Grows

theorem consts_eq (h : Grows r r') : r'.consts = r.consts ++ r.addedConsts r' :=
  (List.prefix_iff_eq_append.1 h.consts).symm

theorem vars_eq (h : Grows r r') : r'.vars = r.vars ++ r.addedVars r' :=
  (List.prefix_iff_eq_append.1 h.vars).symm

theorem skolems_eq (h : Grows r r') : r'.skolemSymbols = r.skolemSymbols ++ r.addedSkolems r' :=
  (List.prefix_iff_eq_append.1 h.skolems).symm

/-- The names in use afterwards are the old ones and the added ones. -/
theorem mem_term_names (h : Grows r r') {name : String} :
    name ∈ r'.termNames ↔ name ∈ r.termNames ∨ name ∈ r.addedNames r' := by
  unfold termNames addedNames
  rw [h.consts_eq, h.vars_eq, h.skolems_eq]
  simp only [List.map_append, List.mem_append]
  tauto

theorem term_names_subset (h : Grows r r') : r.termNames ⊆ r'.termNames :=
  fun _ hname => h.mem_term_names.2 (.inl hname)

theorem added_subset (h : Grows r r') : r.addedNames r' ⊆ r'.termNames :=
  fun _ hname => h.mem_term_names.2 (.inr hname)

theorem added_consts_trans (h : Grows r mid) (h' : Grows mid r') :
    r.addedConsts r' = r.addedConsts mid ++ mid.addedConsts r' := by
  obtain ⟨old, hold⟩ := h.consts
  obtain ⟨new, hnew⟩ := h'.consts
  simp [addedConsts, ← hnew, ← hold]

theorem added_vars_trans (h : Grows r mid) (h' : Grows mid r') :
    r.addedVars r' = r.addedVars mid ++ mid.addedVars r' := by
  obtain ⟨old, hold⟩ := h.vars
  obtain ⟨new, hnew⟩ := h'.vars
  simp [addedVars, ← hnew, ← hold]

theorem added_skolems_trans (h : Grows r mid) (h' : Grows mid r') :
    r.addedSkolems r' = r.addedSkolems mid ++ mid.addedSkolems r' := by
  obtain ⟨old, hold⟩ := h.skolems
  obtain ⟨new, hnew⟩ := h'.skolems
  simp [addedSkolems, ← hnew, ← hold]

/-- What two actions add is what the first and then the second adds. -/
theorem added_names_perm (h : Grows r mid) (h' : Grows mid r') :
    (r.addedNames r').Perm (r.addedNames mid ++ mid.addedNames r') := by
  unfold addedNames
  rw [added_consts_trans h h', added_vars_trans h h', added_skolems_trans h h']
  simp only [List.map_append]
  -- both sides list the same names, one kind of symbol after the other or one action after the
  -- other, so only their counts can be compared
  rw [List.perm_iff_count]
  intro name
  simp only [List.count_append]
  omega

theorem refl (r : Registry) : Grows r r where
  consts := List.prefix_refl _
  vars := List.prefix_refl _
  skolems := List.prefix_refl _
  preds := rfl
  axioms := rfl
  counter := Nat.le_refl _
  nodup := by simp
  fresh := by simp

theorem trans (h : Grows r mid) (h' : Grows mid r') : Grows r r' where
  consts := h.consts.trans h'.consts
  vars := h.vars.trans h'.vars
  skolems := h.skolems.trans h'.skolems
  preds := h'.preds.trans h.preds
  axioms := h'.axioms.trans h.axioms
  counter := Nat.le_trans h.counter h'.counter
  nodup := by
    rw [(added_names_perm h h').nodup_iff, List.nodup_append]
    refine ⟨h.nodup, h'.nodup, ?_⟩
    rintro name hname _ hname' rfl
    exact h'.fresh name hname' (h.added_subset hname)
  fresh := by
    intro name hname
    rcases List.mem_append.1 ((added_names_perm h h').subset hname) with hname | hname
    · exact h.fresh name hname
    · exact fun hold => h'.fresh name hname (h.term_names_subset hold)

/-- The counter may move on. -/
theorem of_counter {k : Nat} (hk : r.counter ≤ k) : Grows r { r with counter := k } :=
  { refl r with counter := hk }

theorem of_constant {c : Constant} (hfresh : c.name ∉ r.termNames) : Grows r (r.addConstant c) where
  consts := List.prefix_append ..
  vars := List.prefix_refl _
  skolems := List.prefix_refl _
  preds := rfl
  axioms := rfl
  counter := Nat.le_refl _
  nodup := by simp [addedNames, addedConsts, addedVars, addedSkolems, addConstant]
  fresh := by simpa [addedNames, addedConsts, addedVars, addedSkolems, addConstant] using hfresh

theorem of_variable {v : Variable} (hfresh : v.name ∉ r.termNames) : Grows r (r.addVariable v) where
  consts := List.prefix_refl _
  vars := List.prefix_append ..
  skolems := List.prefix_refl _
  preds := rfl
  axioms := rfl
  counter := Nat.le_refl _
  nodup := by simp [addedNames, addedConsts, addedVars, addedSkolems, addVariable]
  fresh := by simpa [addedNames, addedConsts, addedVars, addedSkolems, addVariable] using hfresh

theorem of_skolem {s : SkolemSymbol} (hfresh : s.name ∉ r.termNames) :
    Grows r (r.addSkolemSymbol s) where
  consts := List.prefix_refl _
  vars := List.prefix_refl _
  skolems := List.prefix_append ..
  preds := rfl
  axioms := rfl
  counter := Nat.le_refl _
  nodup := by simp [addedNames, addedConsts, addedVars, addedSkolems, addSkolemSymbol]
  fresh := by simpa [addedNames, addedConsts, addedVars, addedSkolems, addSkolemSymbol] using hfresh

end Grows

/-- The registry grows by exactly these constants, variables and Skolem functions. -/
structure Adds (r r' : Registry) (cs : List Constant) (vs : List Variable)
    (ss : List SkolemSymbol) : Prop where
  grows : r.Grows r'
  consts : r.addedConsts r' = cs
  vars : r.addedVars r' = vs
  skolems : r.addedSkolems r' = ss

namespace Adds

variable {cs : List Constant} {vs : List Variable} {ss : List SkolemSymbol}

theorem consts_eq (h : r.Adds r' cs vs ss) : r'.consts = r.consts ++ cs := by
  rw [h.grows.consts_eq, h.consts]

theorem vars_eq (h : r.Adds r' cs vs ss) : r'.vars = r.vars ++ vs := by
  rw [h.grows.vars_eq, h.vars]

theorem skolems_eq (h : r.Adds r' cs vs ss) : r'.skolemSymbols = r.skolemSymbols ++ ss := by
  rw [h.grows.skolems_eq, h.skolems]

theorem fresh_var {v : Variable} (h : r.Adds r' [] [v] []) : v.name ∉ r.termNames :=
  h.grows.fresh v.name (by simp [addedNames, h.consts, h.vars])

end Adds

end Registry

/-! ## Actions that add a symbol -/

variable {r r' : Registry}

/-- A fresh variable is a copy of its template under another name and the only symbol added. -/
theorem fresh_variable_run {v w : Variable} (h : ((freshVariable v).run r).value = (w, r')) :
    ∃ name, w = v.renamed name ∧ r.Adds r' [] [w] [] := by
  cases h
  have hfresh := r.fresh_name_not_mem (v.name ++ "_")
  have hcounter : r.counter ≤ r.freshNumber (v.name ++ "_") + 1 :=
    Nat.le_succ_of_le le_first_free
  have hgrows := (Registry.Grows.of_counter hcounter).trans
    (Registry.Grows.of_variable (v := v.renamed _) hfresh)
  exact ⟨_, rfl, hgrows, List.drop_length, List.drop_left .., List.drop_length⟩

/-- A minted constant is the only symbol added. -/
theorem mint_constant_run {base : String} {c : Constant}
    (h : ((mintConstant base).run r).value = (c, r')) : r.Adds r' [c] [] [] := by
  cases h
  have hfresh := r.fresh_name_not_mem base
  have hcounter : r.counter ≤ r.freshNumber base + 1 := Nat.le_succ_of_le le_first_free
  have hgrows := (Registry.Grows.of_counter hcounter).trans
    (Registry.Grows.of_constant (c := ⟨_⟩) hfresh)
  exact ⟨hgrows, List.drop_left .., List.drop_length, List.drop_length⟩

/-- A minted Skolem function is the only symbol added, and applied to the given terms. -/
theorem mint_function_run {base : String} {args : List Term} {t : Term}
    (h : ((mintFunction base args).run r).value = (t, r')) :
    ∃ name, t = .skolem name args ∧ r.Adds r' [] [] [⟨name, args.length⟩] := by
  cases h
  have hfresh := r.fresh_name_not_mem base
  have hcounter : r.counter ≤ r.freshNumber base + 1 := Nat.le_succ_of_le le_first_free
  have hgrows := (Registry.Grows.of_counter hcounter).trans
    (Registry.Grows.of_skolem (s := ⟨_, args.length⟩) hfresh)
  exact ⟨_, rfl, hgrows, List.drop_length, List.drop_length, List.drop_left ..⟩

end Clausal
