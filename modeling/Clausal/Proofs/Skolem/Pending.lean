import Clausal.Normal.Skolem
import Clausal.Proofs.Truth

/-!
# Pending replacements

What replacements do to an atom, seen from the values of variables: `holds_atom_apply` says that
the replaced atom holds under `s` when the atom itself holds under `Pending.assign M s`, and
`assign_of_mem_keys` what a replaced variable gets there. The choices of constants from domains
are those that pick one constant for each variable (`mem_choices_iff`).
-/

namespace Clausal

open Variable (names)

universe u

variable {U : Type u} {M N : Interpretation U} {s t : Assignment U}

namespace Pending

/-- The names of the variables that are replaced. -/
abbrev keys (p : Pending) : List String := p.map (·.1.name)

/-- The terms put in place hold variables among `us` only. -/
def Over (us : List Variable) (p : Pending) : Prop := ∀ xb ∈ p, ∀ v ∈ xb.2.vars, v ∈ us

/-- The symbols of the terms put in place. -/
def symbols (p : Pending) : List Symbol := p.flatMap fun xb => xb.2.symbols

/-- `s` with the values that the replaced variables have: those of the terms put in place. -/
def assign (M : Interpretation U) (s : Assignment U) : Pending → Assignment U
  | [] => s
  | (x, b) :: p => Function.update (assign M s p) x.name (M.value (assign M s p) b)

/-- What is put in place of a variable: the first term for it, or itself when it is not replaced. -/
def replacement : Pending → Variable → Term
  | [], v => .var v
  | (x, b) :: p, v => if v.same x then b else replacement p v

variable {p q : Pending} {a : Atom} {us vs : List Variable} {name : String}

/-! ## Atoms -/

theorem replacement_of_not_mem {v : Variable} (h : v.name ∉ p.keys) : p.replacement v = .var v := by
  induction p with
  | nil => rfl
  | cons xb p ih =>
      simp only [List.map_cons, List.mem_cons, not_or] at h
      rw [replacement, if_neg (by simpa using h.1), ih h.2]

theorem exists_of_mem_keys {v : Variable} (h : v.name ∈ p.keys) :
    ∃ xb ∈ p, xb.1.name = v.name ∧ p.replacement v = xb.2 := by
  induction p with
  | nil => cases h
  | cons xb p ih =>
      by_cases heq : v.name = xb.1.name
      · exact ⟨xb, List.mem_cons_self .., heq.symm, if_pos (Variable.same_iff.2 heq)⟩
      · obtain ⟨yb, hmem, hname, hterm⟩ := ih (List.mem_of_ne_of_mem heq h)
        refine ⟨yb, List.mem_cons_of_mem _ hmem, hname, ?_⟩
        rw [replacement, if_neg (by simpa using heq), hterm]

/-- Where no term put in place holds a replaced variable, all replacements are made at once. -/
theorem apply_eq (hp : p.Over us) (hkeys : ∀ v ∈ us, v.name ∉ p.keys) :
    p.apply a = a.mapTerms (Term.bind p.replacement) := by
  induction p generalizing a with
  | nil => exact (Atom.map_bind_eq_self fun _ _ => rfl).symm
  | cons xb p ih =>
      obtain ⟨hb, hp⟩ := List.forall_mem_cons.1 hp
      simp only [List.map_cons, List.mem_cons, not_or] at hkeys
      have hfirst : (fun v => Term.bind (replacement p) (if v.same xb.1 then xb.2 else .var v)) =
          replacement (xb :: p) := by
        funext v
        rw [replacement]
        split
        · exact Term.bind_eq_self fun w hw => replacement_of_not_mem (hkeys w (hb w hw)).2
        · rfl
      rw [← hfirst, ← Atom.map_bind_map_bind]
      exact ih hp fun v hv => (hkeys v hv).2

/-- Replacements bring in no symbols but those of the terms put in place. -/
theorem symbols_apply_subset {S : List Symbol} (ha : a.symbols ⊆ S) (hp : p.symbols ⊆ S) :
    (p.apply a).symbols ⊆ S := by
  induction p generalizing a with
  | nil => exact ha
  | cons xb p ih =>
      obtain ⟨hb, hp⟩ := List.append_subset.1 hp
      refine ih (Atom.symbols_map_bind_subset ha fun v hv => ?_) hp
      split
      · exact hb
      · exact List.Subset.trans (Atom.symbols_subset_of_mem_vars hv) ha

/-- A variable of the replaced atom comes from the terms put in place or was not replaced. -/
theorem mem_vars_apply (hp : p.Over us) {v : Variable} (hv : v ∈ (p.apply a).vars) :
    v ∈ us ∨ v ∈ a.vars ∧ v.name ∉ p.keys := by
  induction p generalizing a with
  | nil => exact .inr ⟨hv, List.not_mem_nil⟩
  | cons xb p ih =>
      obtain ⟨hb, hp⟩ := List.forall_mem_cons.1 hp
      rcases ih hp hv with hv | ⟨hv, hnot⟩
      · exact .inl hv
      · obtain ⟨w, hw, hv⟩ := List.mem_flatMap.1 (Atom.vars_map_bind ▸ hv)
        by_cases hname : w.name = xb.1.name
        · rw [Variable.same_iff.2 hname, if_pos rfl] at hv
          exact .inl (hb v hv)
        · rw [if_neg (by simpa using hname)] at hv
          cases List.mem_singleton.1 hv
          exact .inr ⟨hw, by simp [hname, hnot]⟩

/-- The replaced atom is true when the atom is, with the values of the terms put in place. -/
theorem holds_atom_apply : M.HoldsAtom s (p.apply a) ↔ M.HoldsAtom (p.assign M s) a := by
  induction p generalizing a with
  | nil => rfl
  | cons xb p ih => exact ih.trans (Interpretation.holds_atom_subst (x := xb.1) (b := xb.2))

/-! ## Values of replaced variables -/

theorem assign_append : Pending.assign M s (p ++ q) = p.assign M (q.assign M s) := by
  induction p with
  | nil => rfl
  | cons xb p ih => rw [List.cons_append, assign, assign, ih]

theorem assign_of_not_mem (h : name ∉ p.keys) : p.assign M s name = s name := by
  induction p with
  | nil => rfl
  | cons xb p ih =>
      simp only [List.map_cons, List.mem_cons, not_or] at h
      rw [assign, Function.update_of_ne h.1, ih h.2]

/-- Replacements by terms over `us` depend on the values of `us` only. -/
theorem assign_congr (hp : p.Over us) (hus : ∀ v ∈ us, s v.name = t v.name)
    (hname : name ∉ p.keys → s name = t name) (hkeys : ∀ v ∈ us, v.name ∉ p.keys) :
    p.assign M s name = p.assign M t name := by
  induction p with
  | nil => exact hname List.not_mem_nil
  | cons xb p ih =>
      obtain ⟨hb, hp⟩ := List.forall_mem_cons.1 hp
      simp only [List.map_cons, List.mem_cons, not_or] at hname hkeys
      by_cases heq : name = xb.1.name
      · subst heq
        simp only [assign, Function.update_self]
        -- later replacements do not reach the term, as it holds none of their variables
        refine Interpretation.value_congr .refl fun v hv => ?_
        have hv := hb v hv
        rw [assign_of_not_mem (hkeys v hv).2, assign_of_not_mem (hkeys v hv).2]
        exact hus v hv
      · rw [assign, assign, Function.update_of_ne heq, Function.update_of_ne heq]
        exact ih hp (fun hnot => hname ⟨heq, hnot⟩) fun v hv => (hkeys v hv).2

/-- Replacements depend on the meaning of the terms put in place only. -/
theorem assign_agrees (hM : M.AgreesOn N p.symbols) : p.assign M s = p.assign N s := by
  induction p with
  | nil => rfl
  | cons xb p ih =>
      have hvalue := Interpretation.value_congr (s := Pending.assign N s p)
        (hM.mono (List.subset_append_left ..)) fun _ _ => rfl
      rw [assign, assign, ih (hM.mono (List.subset_append_right ..)), hvalue]

/-- A replaced variable gets the value of a term that was put in its place. -/
theorem assign_of_mem_keys (hp : p.Over us) (hkeys : ∀ v ∈ us, v.name ∉ p.keys)
    (h : name ∈ p.keys) :
    ∃ xb ∈ p, xb.1.name = name ∧ p.assign M s name = M.value s xb.2 := by
  induction p with
  | nil => cases h
  | cons xb p ih =>
      obtain ⟨hb, hp⟩ := List.forall_mem_cons.1 hp
      simp only [List.map_cons, List.mem_cons, not_or] at hkeys
      by_cases heq : name = xb.1.name
      · subst heq
        refine ⟨xb, List.mem_cons_self .., rfl, ?_⟩
        simp only [assign, Function.update_self]
        exact Interpretation.value_congr .refl fun v hv =>
          assign_of_not_mem (hkeys v (hb v hv)).2
      · obtain ⟨yb, hmem, hname, hvalue⟩ := ih hp (fun v hv => (hkeys v hv).2)
          (List.mem_of_ne_of_mem heq h)
        refine ⟨yb, List.mem_cons_of_mem _ hmem, hname, ?_⟩
        rw [assign, Function.update_of_ne heq, hvalue]

/-- Nothing is held back at a quantifier that binds none of the replaced variables. -/
theorem below_eq (h : ∀ v ∈ vs, v.name ∉ p.keys) : p.below vs = p := by
  refine List.filter_eq_self.2 fun xb hxb => ?_
  rw [Bool.not_eq_true', Variable.is_among_eq_false_iff]
  intro hmem
  obtain ⟨v, hv, hname⟩ := List.mem_map.1 hmem
  exact h v hv (hname ▸ List.mem_map_of_mem hxb)

theorem below_subset : p.below vs ⊆ p := List.filter_subset_self ..

/-- Held back are the replacements of the variables that the quantifier binds. -/
theorem mem_keys_below : name ∈ (p.below vs).keys ↔ name ∈ p.keys ∧ name ∉ names vs := by
  simp only [keys, below, List.mem_map, List.mem_filter, Bool.not_eq_true',
    Variable.is_among_eq_false_iff]
  constructor
  · rintro ⟨xb, ⟨hxb, hnot⟩, rfl⟩
    exact ⟨⟨xb, hxb, rfl⟩, by simpa using hnot⟩
  · rintro ⟨⟨xb, hxb, rfl⟩, hnot⟩
    exact ⟨xb, ⟨hxb, by simpa using hnot⟩, rfl⟩

end Pending

/-! ## Choices from domains -/

/-- The replacement puts a constant of its domain in place of the variable. -/
def Chooses (d : DomainOf) (xb : Variable × Term) : Prop :=
  xb.1 = d.1 ∧ ∃ c ∈ d.2, xb.2 = .const c

/-- A choice picks one constant for each variable in turn. -/
theorem mem_choices_iff {ds : List DomainOf} {choice : Pending} :
    choice ∈ choices ds ↔ List.Forall₂ Chooses ds choice := by
  induction ds generalizing choice with
  | nil => simp [choices]
  | cons d ds ih =>
      simp only [choices, List.mem_flatMap, List.mem_map, List.forall₂_cons_left_iff, ← ih]
      constructor
      · rintro ⟨c, hc, rest, hrest, rfl⟩
        exact ⟨_, rest, ⟨rfl, c, hc, rfl⟩, hrest, rfl⟩
      · rintro ⟨⟨x, b⟩, rest, ⟨rfl, c, hc, rfl⟩, hrest, rfl⟩
        exact ⟨c, hc, rest, hrest, rfl⟩

theorem length_choices_cons {d : DomainOf} {ds : List DomainOf} :
    (choices (d :: ds)).length = d.2.length * (choices ds).length := by
  simp [choices, List.length_flatMap]

/-- A choice replaces the variables of the domains in turn. -/
theorem map_fst_choice {ds : List DomainOf} {choice : Pending} (h : choice ∈ choices ds) :
    choice.map (·.1) = ds.map (·.1) := by
  replace h := mem_choices_iff.1 h
  induction h with
  | nil => rfl
  | cons hchooses _ ih => rw [List.map_cons, List.map_cons, ih, hchooses.1]

/-- The closed-world variables come with their own domains. -/
theorem mem_closed_world {vs : List Variable} {d : DomainOf} :
    d ∈ closedWorld vs ↔ d.1 ∈ vs ∧ d.1.domain = some d.2 := by
  rw [closedWorld, List.mem_filterMap]
  constructor
  · rintro ⟨v, hv, h⟩
    obtain ⟨cs, hcs, rfl⟩ := Option.map_eq_some_iff.1 h
    exact ⟨hv, hcs⟩
  · rintro ⟨hv, hdomain⟩
    exact ⟨d.1, hv, Option.map_eq_some_iff.2 ⟨d.2, hdomain, rfl⟩⟩

theorem mem_map_fst_closed_world {vs : List Variable} {v : Variable} :
    v ∈ (closedWorld vs).map (·.1) ↔ v ∈ vs ∧ v.isClosedWorld = true := by
  simp only [List.mem_map, mem_closed_world, Variable.isClosedWorld, Option.isSome_iff_exists]
  constructor
  · rintro ⟨d, ⟨hmem, hdomain⟩, rfl⟩
    exact ⟨hmem, d.2, hdomain⟩
  · rintro ⟨hmem, cs, hdomain⟩
    exact ⟨(v, cs), ⟨hmem, hdomain⟩, rfl⟩

theorem closed_world_inhabited {vs : List Variable} (h : ∀ v ∈ vs, v.domain ≠ some []) :
    ∀ d ∈ closedWorld vs, d.2 ≠ [] := by
  intro d hd hempty
  obtain ⟨hmem, hdomain⟩ := mem_closed_world.1 hd
  exact h d.1 hmem (hempty ▸ hdomain)

theorem in_domain_of_in_range {vs : List Variable} (h : ∀ v ∈ vs, M.InRange v (t v.name)) :
    ∀ d ∈ closedWorld vs, ∃ c ∈ d.2, M.const c.name = t d.1.name := by
  intro d hd
  obtain ⟨hmem, hdomain⟩ := mem_closed_world.1 hd
  have hrange := h d.1 hmem
  rwa [Interpretation.InRange, hdomain] at hrange

/-- Variables that take values in their domains take those that some choice of constants gives. -/
theorem exists_choice {ds : List DomainOf} (h : ∀ d ∈ ds, ∃ c ∈ d.2, M.const c.name = t d.1.name) :
    ∃ choice ∈ choices ds, ∀ xb ∈ choice, ∀ s, M.value s xb.2 = t xb.1.name := by
  induction ds with
  | nil => exact ⟨[], List.mem_singleton.2 rfl, fun _ h => absurd h List.not_mem_nil⟩
  | cons d ds ih =>
      rw [List.forall_mem_cons] at h
      obtain ⟨c, hc, hvalue⟩ := h.1
      obtain ⟨rest, hrest, hvalues⟩ := ih h.2
      refine ⟨(d.1, .const c) :: rest, mem_choices_iff.2 (.cons ⟨rfl, c, hc, rfl⟩ ?_), ?_⟩
      · exact mem_choices_iff.1 hrest
      · exact List.forall_mem_cons.2 ⟨fun _ => hvalue, hvalues⟩

/-- There is a choice unless a domain is empty. -/
theorem choices_ne_nil {ds : List DomainOf} (h : ∀ d ∈ ds, d.2 ≠ []) : choices ds ≠ [] := by
  induction ds with
  | nil => simp [choices]
  | cons d ds ih =>
      rw [List.forall_mem_cons] at h
      obtain ⟨c, cs, hcs⟩ := List.exists_cons_of_ne_nil h.1
      obtain ⟨p, ps, hps⟩ := List.exists_cons_of_ne_nil (ih h.2)
      simp [choices, hcs, hps]

end Clausal
