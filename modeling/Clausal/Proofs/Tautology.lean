import Clausal.Proofs.KnowledgeBase

/-!
# Tautologies

Two literals are complements when one is the same as the complement of the other. A clause that
holds complements is true in every structure (`holds_clause_of_complements`). Any other clause is
false in the structure of its terms, where terms are their own values and those atoms are true that
the clause negates (`not_holds_term_structure`). So tautologies are recognized exactly
(`is_tautology_iff`), but for those that are true because of a domain
(`singleton_domain_satisfied`).
-/

namespace Clausal

universe u

variable {U : Type u} {M : Interpretation U} {s : Assignment U}

/-! ## Complements -/

/-- Domains and first names do not matter to the truth of an atom. -/
theorem Interpretation.holds_atom_plain {a : Atom} : M.HoldsAtom s a.plain ↔ M.HoldsAtom s a :=
  holds_atom_bind fun _ _ => rfl

section Literals

variable {l m : Literal}

theorem Literal.same_iff :
    l.same m = true ↔ l.atom.plain = m.atom.plain ∧ l.polarity = m.polarity := by
  rw [same, Bool.and_eq_true_iff, beq_iff_eq, Atom.same_iff]

theorem Literal.same_complement_iff :
    l.same m.complement = true ↔ l.atom.plain = m.atom.plain ∧ l.polarity ≠ m.polarity := by
  rw [same_iff, complement, ← Bool.eq_not]

theorem Interpretation.holds_literal_of_same (h : l.same m = true) :
    M.HoldsLiteral s l ↔ M.HoldsLiteral s m := by
  obtain ⟨hatom, hpolarity⟩ := Literal.same_iff.1 h
  have hiff : M.HoldsAtom s l.atom ↔ M.HoldsAtom s m.atom := by
    rw [← holds_atom_plain, hatom, holds_atom_plain]
  rw [HoldsLiteral, HoldsLiteral, hpolarity, hiff]

theorem Interpretation.holds_complement :
    M.HoldsLiteral s l.complement ↔ ¬ M.HoldsLiteral s l := by
  rcases l with ⟨_ | _, a⟩ <;> simp [HoldsLiteral, Literal.complement]

end Literals

namespace Clause

variable {c : Clause} {l : Literal} {ls : List Literal}

theorem has_complement_iff :
    hasComplement l ls = true ↔ ∃ m ∈ ls, l.same m.complement = true := by
  simp only [hasComplement, List.any_eq_true, Bool.and_eq_true_iff, bne_iff_ne, Atom.same_iff,
    Literal.same_complement_iff]

/-- The search compares each literal with the later ones only, which is enough as complements are so
in both directions. -/
theorem has_complements_iff :
    hasComplements ls = true ↔ ∃ l ∈ ls, ∃ m ∈ ls, l.same m.complement = true := by
  have hsymm {l m : Literal} (h : l.same m.complement = true) : m.same l.complement = true := by
    rw [Literal.same_complement_iff] at h ⊢
    exact ⟨h.1.symm, h.2.symm⟩
  have hself (l : Literal) : ¬ l.same l.complement = true := fun h =>
    (Literal.same_complement_iff.1 h).2 rfl
  induction ls with
  | nil => simp [hasComplements]
  | cons l ls ih =>
      rw [hasComplements, Bool.or_eq_true_iff]
      refine (or_congr has_complement_iff ih).trans ⟨?_, ?_⟩
      · rintro (⟨m, hm, h⟩ | ⟨k, hk, m, hm, h⟩)
        · exact ⟨l, List.mem_cons_self .., m, List.mem_cons_of_mem _ hm, h⟩
        · exact ⟨k, List.mem_cons_of_mem _ hk, m, List.mem_cons_of_mem _ hm, h⟩
      · rintro ⟨k, hk, m, hm, h⟩
        rcases List.mem_cons.1 hk with rfl | hk'
        · rcases List.mem_cons.1 hm with rfl | hm'
          · exact absurd h (hself _)
          · exact .inl ⟨m, hm', h⟩
        · rcases List.mem_cons.1 hm with rfl | hm'
          · exact .inl ⟨k, hk', hsymm h⟩
          · exact .inr ⟨k, hk', m, hm', h⟩

/-- Of two complements one is true. -/
theorem holds_clause_of_complements (h : c.isTautology = true) : M.HoldsClause s c := by
  obtain ⟨l, hl, m, hm, hcomplement⟩ := has_complements_iff.1 h
  by_cases htrue : M.HoldsLiteral s m
  · exact ⟨m, hm, htrue⟩
  · refine ⟨l, hl, (Interpretation.holds_literal_of_same hcomplement).2 ?_⟩
    exact Interpretation.holds_complement.2 htrue

end Clause

/-! ## The structure of terms -/

/-- The structure whose values are the terms, where the given atoms are true. -/
def termStructure (IsTrue : Atom → Prop) : Interpretation (ULift.{u} Term) where
  const name := ⟨.const ⟨name⟩⟩
  func name args := ⟨.skolem name (args.map ULift.down)⟩
  pred p args := IsTrue ⟨p, args.map ULift.down⟩

/-- Each variable has itself as its value. -/
def ownVariables : Assignment (ULift.{u} Term) := fun name => ⟨.var { name }⟩

section TermStructure

variable {IsTrue : Atom → Prop}

theorem func_term_structure {name : String} {args : List (ULift.{u} Term)} :
    (termStructure IsTrue).func name args = ⟨.skolem name (args.map ULift.down)⟩ := rfl

theorem pred_term_structure {p : Predicate} {args : List (ULift.{u} Term)} :
    (termStructure IsTrue).pred p args = IsTrue ⟨p, args.map ULift.down⟩ := rfl

/-- Terms are their own values, but for domains and first names. -/
theorem value_term_structure {t : Term} :
    (termStructure.{u} IsTrue).value ownVariables t = ⟨t.plain⟩ := by
  induction t using Term.induction with
  | hconst | hvar => rfl
  | hskolem name args ih =>
      have hargs : args.map (ULift.down ∘ (termStructure.{u} IsTrue).value ownVariables) =
          args.map Term.plain :=
        List.map_congr_left fun t ht => congrArg ULift.down (ih t ht)
      rw [Term.plain_skolem, Interpretation.value, Interpretation.values_eq_map,
        func_term_structure, List.map_map, hargs]

theorem holds_atom_term_structure {a : Atom} :
    (termStructure.{u} IsTrue).HoldsAtom ownVariables a ↔ IsTrue a.plain := by
  have hargs : a.terms.map (ULift.down ∘ (termStructure.{u} IsTrue).value ownVariables) =
      a.terms.map Term.plain :=
    List.map_congr_left fun t _ => congrArg ULift.down value_term_structure
  rw [Interpretation.HoldsAtom, Interpretation.values_eq_map, pred_term_structure, List.map_map,
    hargs]
  rfl

end TermStructure

namespace Clause

variable {c : Clause}

/-- The clause holds the negation of the atom. -/
def Negates (c : Clause) (a : Atom) : Prop :=
  ∃ l ∈ c.literals, l.polarity = false ∧ l.atom.plain = a

/-- A clause without complements is false where just those atoms are true that it negates: a true
atom would be the complement of the literal that negates it. -/
theorem not_holds_term_structure (h : c.isTautology ≠ true) :
    ¬ (termStructure.{u} c.Negates).HoldsClause ownVariables c := by
  rintro ⟨l, hl, htrue⟩
  unfold Interpretation.HoldsLiteral at htrue
  rw [holds_atom_term_structure] at htrue
  split at htrue
  · next hpositive =>
      obtain ⟨m, hm, hnegative, hatom⟩ := htrue
      refine h (has_complements_iff.2 ⟨l, hl, m, hm, ?_⟩)
      refine Literal.same_complement_iff.2 ⟨hatom.symm, ?_⟩
      rw [hpositive, hnegative]
      decide
  · next hnegative => exact htrue ⟨l, hl, Bool.eq_false_iff.2 hnegative, rfl⟩

end Clause

/-! ## Main statement -/

/-- The tautologies are the clauses that are true in every structure under every assignment. Among
the clauses without closed-world variables they are those that every structure satisfies. -/
theorem is_tautology_iff (c : Clause) :
    (c.isTautology = true ↔
      ∀ {U : Type u} (M : Interpretation U) (s : Assignment U), M.HoldsClause s c) ∧
    ((∀ v ∈ c.vars, v.isClosedWorld = false) →
      (c.isTautology = true ↔ ∀ {U : Type u} (M : Interpretation U), M.Satisfies c)) := by
  have hvalid : c.isTautology = true ↔
      ∀ {U : Type u} (M : Interpretation U) (s : Assignment U), M.HoldsClause s c := by
    refine ⟨fun h _ M s => Clause.holds_clause_of_complements h, fun h => ?_⟩
    by_contra hnot
    exact Clause.not_holds_term_structure hnot (h _ _)
  refine ⟨hvalid, fun hopen => hvalid.trans ⟨fun h _ M s _ => h M s, fun h _ M s => h M s ?_⟩⟩
  -- an open variable ranges over everything
  intro v hv
  have hdomain : v.domain = none := by simpa [Variable.isClosedWorld] using hopen v hv
  rw [Interpretation.InRange, hdomain]
  trivial

namespace Sample

/-- `Q(x) ∨ P(f(x, g(A))) ∨ Q(x)`, where `x` may have been renamed. -/
def unrefuted (x : Variable) : List Literal :=
  let q : Literal := ⟨true, ⟨⟨"Q", 1⟩, [.var x]⟩⟩
  [q, ⟨true, ⟨⟨"P", 1⟩, [.skolem "f" [.var x, .skolem "g" [.const ⟨"A"⟩]]]⟩⟩, q]

/-- The negation of `P(f(x, g(c)))`. -/
def refuted (x : Variable) (c : String) : Literal :=
  ⟨false, ⟨⟨"P", 1⟩, [.skolem "f" [.var x, .skolem "g" [.const ⟨c⟩]]]⟩⟩

end Sample

open Sample in
/-- Complements deep inside of terms, with other first names of variables, and near complements. -/
theorem is_tautology_iff_nested :
    let x : Variable := { name := "x" }
    let y : Variable := { name := "x", origin := some "y" }
    let c : Clause := ⟨unrefuted x ++ [refuted y "A"]⟩
    let d : Clause := ⟨unrefuted x ++ [refuted y "B"]⟩
    ((∀ v ∈ c.vars, v.isClosedWorld = false) ∧ c.isTautology = true ∧
      ∀ {U : Type} (M : Interpretation U), M.Satisfies c) ∧
    (∀ v ∈ d.vars, v.isClosedWorld = false) ∧ d.isTautology = false ∧
      ¬ ∀ {U : Type} (M : Interpretation U), M.Satisfies d := by
  intro x y c d
  have hc : ∀ v ∈ c.vars, v.isClosedWorld = false := by decide
  have hd : ∀ v ∈ d.vars, v.isClosedWorld = false := by decide
  have htautology : c.isTautology = true := by decide
  have hnot : d.isTautology = false := by decide
  refine ⟨⟨hc, htautology, ((is_tautology_iff c).2 hc).1 htautology⟩, hd, hnot, fun h => ?_⟩
  rw [((is_tautology_iff d).2 hd).2 h] at hnot
  cases hnot

/-- Every structure satisfies a clause that is true because a variable has one value only, but it
holds no complements. -/
theorem singleton_domain_satisfied (p : Predicate) {v : Variable} {k : Constant}
    (hv : v.domain = some [k]) :
    let c : Clause := ⟨[⟨true, ⟨p, [.var v]⟩⟩, ⟨false, ⟨p, [.const k]⟩⟩]⟩
    c.isTautology = false ∧ ∀ {U : Type u} (M : Interpretation U), M.Satisfies c := by
  intro c
  refine ⟨?_, fun M s hrange => ?_⟩
  · have hterms : Term.same (.var v) (.const k) = false := rfl
    simp [c, Clause.isTautology, Clause.hasComplements, Clause.hasComplement, Atom.same,
      Term.sameAll, hterms]
  · obtain ⟨k', hk', hvalue⟩ : ∃ k' ∈ [k], M.const k'.name = s v.name := by
      have hin := hrange v (List.mem_cons_self ..)
      rwa [Interpretation.InRange, hv] at hin
    cases List.mem_singleton.1 hk'
    by_cases htrue : M.HoldsAtom s ⟨p, [.var v]⟩
    · exact ⟨_, List.mem_cons_self .., htrue⟩
    · refine ⟨_, List.mem_cons_of_mem _ (List.mem_singleton.2 rfl), fun h => htrue ?_⟩
      show M.pred p [s v.name]
      rw [← hvalue]
      exact h

end Clausal
