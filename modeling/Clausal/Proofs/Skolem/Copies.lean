import Mathlib.Algebra.BigOperators.Ring.List
import Mathlib.Data.List.Count
import Clausal.Proofs.Skolem.Objections

/-!
# The copies of an atom

An existential copies its body for each choice of constants, and a copy is copied again further in.
`Formula.origins` follows the atoms through this copying: it tells from which atom of the formula
each atom of the result comes. Each atom comes out once for each tuple over the domains above it
(`count_origins`), and where a walk succeeds this number is within the limit on expansions, which is
checked against the count that the walk carries along (`skolemize_copies`).
-/

namespace Clausal

/-! ## Atoms and their copies -/

/-- An atom and the variables that the existentials above it bind. -/
structure PlacedAtom where
  atom : Atom
  existentials : List Variable

namespace PlacedAtom

/-- The product of the domain sizes of the closed-world variables bound above. -/
def copies (a : PlacedAtom) : Nat := domainProduct a.existentials

/-- The atom with one more existential above it. -/
def under (vs : List Variable) (a : PlacedAtom) : PlacedAtom :=
  { a with existentials := vs ++ a.existentials }

end PlacedAtom

namespace Formula

/-- The atoms from left to right, with the existentials above them. -/
def placedAtoms : Formula → List PlacedAtom
  | atom a => [⟨a, []⟩]
  | not f => f.placedAtoms
  | binary _ f g => f.placedAtoms ++ g.placedAtoms
  | all _ f => f.placedAtoms
  | ex vs f => f.placedAtoms.map (PlacedAtom.under vs)

/-- The atoms that those of the Skolemized formula come from, from left to right. As atoms may be
alike they are told apart by their positions. -/
def origins : Formula → List Nat
  | atom _ => [0]
  | not f => f.origins
  | binary _ f g => f.origins ++ g.origins.map (f.placedAtoms.length + ·)
  | all _ f => f.origins
  | ex vs f => (copiesOf vs).flatMap fun _ => f.origins

/-- Placing the atoms neither drops nor moves one. -/
theorem map_atom_placed_atoms (f : Formula) : f.placedAtoms.map (·.atom) = f.atoms := by
  induction f with
  | atom => rfl
  | not _ ih => exact ih
  | binary _ _ _ ihf ihg => rw [placedAtoms, List.map_append, ihf, ihg, atoms]
  | quant q vs f ih =>
      cases q with
      | all => exact ih
      | ex =>
          rw [placedAtoms, List.map_map, atoms, ← ih]
          rfl

end Formula

variable {f g : Formula} {us vs : List Variable} {cfg : Config}

theorem domain_product_append :
    domainProduct (us ++ vs) = domainProduct us * domainProduct vs := by
  simp [domainProduct, closedWorld]

/-- Without closed-world variables there is one choice. -/
theorem domain_product_eq_one (h : vs.any Variable.isClosedWorld = false) :
    domainProduct vs = 1 := by
  rw [any_is_closed_world, Bool.not_eq_false', List.isEmpty_iff] at h
  rw [domainProduct, h]
  rfl

theorem PlacedAtom.copies_under (a : PlacedAtom) :
    (a.under vs).copies = domainProduct vs * a.copies :=
  domain_product_append

/-- Each atom has as many copies as there are tuples over the domains above it. -/
theorem count_origins (hf : f.RangesInhabited) (i : Nat) :
    f.origins.count i = (f.placedAtoms[i]?).elim 0 PlacedAtom.copies := by
  induction f generalizing i with
  | atom a =>
      cases i with
      | zero => rfl
      | succ i => rfl
  | not _ ih => exact ih hf i
  | binary _ f g ihf ihg =>
      obtain ⟨hf, hg⟩ := List.forall_mem_append.1 hf
      rw [Formula.origins, List.count_append, ihf hf, Formula.placedAtoms]
      -- the atoms of `g` have the positions after those of `f`
      rcases Nat.lt_or_ge i f.placedAtoms.length with hlt | hge
      · have hnone : (g.origins.map (f.placedAtoms.length + ·)).count i = 0 := by
          refine List.count_eq_zero.2 fun hmem => ?_
          obtain ⟨j, -, rfl⟩ := List.mem_map.1 hmem
          omega
        rw [hnone, Nat.add_zero, List.getElem?_append_left hlt]
      · obtain ⟨j, rfl⟩ := Nat.exists_eq_add_of_le hge
        rw [List.count_map_of_injective _ _ fun _ _ => Nat.add_left_cancel, ihg hg,
          List.getElem?_eq_none hge, List.getElem?_append_right hge, Nat.add_sub_cancel_left]
        exact Nat.zero_add _
  | quant q vs f ih =>
      obtain ⟨hvs, hbody⟩ := List.forall_mem_append.1 hf
      cases q with
      | all => exact ih hbody i
      | ex =>
          have hcount : (Formula.ex vs f).origins.count i =
              domainProduct vs * f.origins.count i := by
            simp [Formula.origins, List.count_flatMap, Function.comp_def, length_copies_of hvs]
          rw [hcount, ih hbody, Formula.placedAtoms, List.getElem?_map]
          cases f.placedAtoms[i]? with
          | none => rfl
          | some a => exact a.copies_under.symm

/-- All copies together are as many as the tuples of the atoms together. -/
theorem length_origins (hf : f.RangesInhabited) :
    f.origins.length = (f.placedAtoms.map PlacedAtom.copies).sum := by
  induction f with
  | atom => rfl
  | not _ ih => exact ih hf
  | binary _ f g ihf ihg =>
      obtain ⟨hf, hg⟩ := List.forall_mem_append.1 hf
      rw [Formula.origins, List.length_append, List.length_map, ihf hf, ihg hg,
        Formula.placedAtoms, List.map_append, List.sum_append]
  | quant q vs f ih =>
      obtain ⟨hvs, hbody⟩ := List.forall_mem_append.1 hf
      cases q with
      | all => exact ih hbody
      | ex =>
          have hlength : (Formula.ex vs f).origins.length =
              domainProduct vs * f.origins.length := by
            simp [Formula.origins, List.length_flatMap, length_copies_of hvs]
          rw [hlength, ih hbody, Formula.placedAtoms, List.map_map, ← List.sum_map_mul_left]
          simp only [Function.comp_def, PlacedAtom.copies_under]

/-! ## What a walk makes of an atom -/

/-- The atom `b` is an instance of the `i`th atom of the formula: terms take the place of variables
that the existentials above that atom bind, or of variables of `us` bound outside of the formula. -/
def Formula.HasInstance (us : List Variable) (f : Formula) (i : Nat) (b : Atom) : Prop :=
  ∃ a, f.placedAtoms[i]? = some a ∧
    ∃ q : Pending, b = q.apply a.atom ∧ q.map (·.1) ⊆ us ++ a.existentials

namespace Formula.HasInstance

variable {c : Connective} {i : Nat} {b : Atom}

theorem mono (h : f.HasInstance us i b) (hsub : us ⊆ vs) : f.HasInstance vs i b := by
  obtain ⟨a, ha, q, hb, hq⟩ := h
  refine ⟨a, ha, q, hb, List.Subset.trans hq (List.append_subset.2 ⟨?_, ?_⟩)⟩
  · exact List.Subset.trans hsub (List.subset_append_left ..)
  · exact List.subset_append_right ..

theorem left (h : f.HasInstance us i b) : (binary c f g).HasInstance us i b := by
  obtain ⟨a, ha, hb⟩ := h
  have hlt := (List.getElem?_eq_some_iff.1 ha).1
  exact ⟨a, (List.getElem?_append_left hlt).trans ha, hb⟩

theorem right (h : g.HasInstance us i b) :
    (binary c f g).HasInstance us (f.placedAtoms.length + i) b := by
  obtain ⟨a, ha, hb⟩ := h
  refine ⟨a, ?_, hb⟩
  rw [placedAtoms, List.getElem?_append_right (Nat.le_add_right ..), Nat.add_sub_cancel_left, ha]

/-- What is bound outside of a body may be bound by an existential above it. -/
theorem body (h : f.HasInstance (us ++ vs) i b) : (ex vs f).HasInstance us i b := by
  obtain ⟨a, ha, q, hb, hq⟩ := h
  refine ⟨a.under vs, ?_, q, hb, ?_⟩
  · rw [placedAtoms, List.getElem?_map, ha, Option.map_some]
  · rwa [List.append_assoc] at hq

end Formula.HasInstance

/-- What is replaced in a copy of a body is pending above or bound by the existential. -/
theorem map_fst_pending_copy_subset {p terms choice : Pending} {r r' : Registry}
    (hterms : MintsTerms us (vs.filter fun v => !v.isClosedWorld) r terms r')
    (hchoice : choice ∈ copiesOf vs) :
    (p.below vs ++ (terms ++ choice)).map (·.1) ⊆ p.map (·.1) ++ vs := by
  intro v hv
  rw [List.map_append, List.map_append, hterms.map_fst, List.mem_append, List.mem_append] at hv
  rcases hv with hv | hv | hv
  · exact List.mem_append_left _ (List.map_subset _ Pending.below_subset hv)
  · exact List.mem_append_right _ (List.mem_filter.1 hv).1
  · obtain ⟨xb, hxb, rfl⟩ := List.mem_map.1 hv
    exact List.mem_append_right _ (copy_chooses hchoice hxb).1

/-- A walk leaves an instance of an atom for each of its copies, in the order of `origins`. -/
theorem Skolemizes.instances {p : Pending} {r r' : Registry} (h : Skolemizes cfg us p f r g r') :
    List.Forall₂ (f.HasInstance (p.map (·.1))) f.origins g.atoms := by
  induction h using Skolemizes.induction with
  | @atom us p r a | @not us p r a =>
      exact .cons ⟨⟨a, []⟩, rfl, p, rfl, List.subset_append_left ..⟩ .nil
  | binary _ _ _ _ ihf ihg =>
      refine List.rel_append (ihf.imp fun i b hb => hb.left) ?_
      exact List.forall₂_map_left_iff.2 (ihg.imp fun i b hb => hb.right)
  | @all us p vs f f' r r' _ _ ih =>
      have houter : (p.below vs).map (·.1) ⊆ p.map (·.1) := List.map_subset _ Pending.below_subset
      exact ih.imp fun i b hb => Formula.HasInstance.mono hb houter
  | @ex us p vs f terms copies g r mid r' hterms hcopies hjoin =>
      -- the copies differ in what is pending, but each of them holds all atoms of the body
      have hcopies := hcopies.mono (S := fun _ _ g _ =>
        List.Forall₂ ((Formula.ex vs f).HasInstance (p.map (·.1))) f.origins g.atoms)
        fun choice hchoice _ _ _ ⟨_, ih⟩ => ih.imp fun i b hb =>
          (hb.mono (map_fst_pending_copy_subset hterms hchoice)).body
      rw [Formula.flat_map_of_disjunction (m := Formula.atoms) (fun _ _ => rfl) hjoin]
      exact List.rel_flatMap (hcopies.forall₂ fun _ _ _ _ h => h) fun _ _ h => h

/-! ## The limit -/

/-- An expansion that is not objected to is within the limit. The limit lies below the cap, at which
counts stop. -/
theorem le_limit_of_expansion_objection {n : Nat} (hcap : cfg.expansionLimit < copyCap)
    (hvs : vs.any Variable.isClosedWorld = true)
    (h : expansionObjection cfg (min n copyCap) vs = none) : n ≤ cfg.expansionLimit := by
  have hwithin : ¬ cfg.expansionLimit < min n copyCap := by
    intro hover
    rw [expansionObjection, hvs, Bool.true_and, decide_eq_true hover] at h
    cases h
  omega

/-- Where nothing is objected to, the copies that are made of an atom for closed-world variables are
within the limit. -/
theorem copies_le_limit {n : Nat} (hcap : cfg.expansionLimit < copyCap)
    (h : ∀ site ∈ f.sites us n, site.objection cfg = none) :
    ∀ a ∈ f.placedAtoms, a.existentials.any Variable.isClosedWorld = true →
      n * a.copies ≤ cfg.expansionLimit := by
  induction f generalizing us n with
  | atom =>
      intro a ha hclosed
      cases List.mem_singleton.1 ha
      cases hclosed
  | not f ih => exact ih (List.forall_mem_cons.1 h).2
  | binary c f g ihf ihg =>
      obtain ⟨hleft, hright⟩ := List.forall_mem_append.1 (List.forall_mem_cons.1 h).2
      exact List.forall_mem_append.2 ⟨ihf hleft, ihg hright⟩
  | quant q vs f ih =>
      cases q with
      | all => exact ih (List.forall_mem_cons.1 h).2
      | ex =>
          obtain ⟨hsite, hbody⟩ := List.forall_mem_cons.1 h
          refine List.forall_mem_map.2 fun a ha hclosed => ?_
          rw [PlacedAtom.copies_under, ← Nat.mul_assoc]
          cases hinner : a.existentials.any Variable.isClosedWorld with
          | true => exact ih hbody a ha hinner
          | false =>
              -- the closed-world variable is one of `vs`, and further in nothing is copied
              have hvs : vs.any Variable.isClosedWorld = true := by
                rwa [PlacedAtom.under, List.any_append, hinner, Bool.or_false] at hclosed
              have hexpansion : n * domainProduct vs ≤ cfg.expansionLimit :=
                le_limit_of_expansion_objection hcap hvs (Option.or_eq_none_iff.1 hsite).2
              rwa [PlacedAtom.copies, domain_product_eq_one hinner, Nat.mul_one]

/-- Each atom of a Skolemized formula is an instance of an atom of the formula, and each atom of the
formula has one for each tuple over the domains of the closed-world variables that the existentials
above it bind. Unless the limit on expansions is as large as the cap of the counts, it bounds the
number of instances of each atom below such a variable. -/
theorem skolemize_copies {r : Registry} (hf : f.RangesInhabited)
    (h : (f.skolemize cfg).outcome r = .ok g) :
    f.placedAtoms.map (·.atom) = f.atoms ∧
    List.Forall₂ (f.HasInstance []) f.origins g.atoms ∧
    (∀ i a, f.placedAtoms[i]? = some a → f.origins.count i = a.copies) ∧
    g.atoms.length = (f.placedAtoms.map PlacedAtom.copies).sum ∧
    (cfg.expansionLimit < copyCap → ∀ a ∈ f.placedAtoms,
      a.existentials.any Variable.isClosedWorld = true → a.copies ≤ cfg.expansionLimit) := by
  have hinstances := (skolemizes_of_outcome h).instances
  refine ⟨f.map_atom_placed_atoms, hinstances, fun i a ha => ?_, ?_, fun hcap => ?_⟩
  · rw [count_origins hf, ha, Option.elim_some]
  · rw [← hinstances.length_eq, length_origins hf]
  · have hdecided : (f.skolemWalk cfg [] 1 []).Decided (f.firstObjection cfg) :=
      skolem_walk_decided (n := 1) hf []
    have hnone : f.firstObjection cfg = none :=
      hdecided.eq_none (Attempt.yields_atomically.1 (Attempt.yields_of_outcome h))
    have hbound := copies_le_limit hcap (List.findSome?_eq_none_iff.1 hnone)
    simpa only [Nat.one_mul] using hbound

open Sample in
/-- The outer atom is copied for both constants, and the inner one for both pairs of constants. -/
theorem skolemize_copies_nested :
    nested.RangesInhabited ∧ nested.origins = [0, 1, 1, 0, 1, 1] ∧
    ∃ g, (nested.skolemize {}).outcome registry = .ok g ∧
      nested.placedAtoms.map (·.atom) = nested.atoms ∧
      List.Forall₂ (nested.HasInstance []) nested.origins g.atoms ∧
      (∀ i a, nested.placedAtoms[i]? = some a → nested.origins.count i = a.copies) ∧
      g.atoms.length = 6 ∧
      ∀ a ∈ nested.placedAtoms, a.existentials.any Variable.isClosedWorld = true →
        a.copies ≤ 4096 := by
  have hinhabited : nested.RangesInhabited := by decide
  have houtcome : (nested.skolemize {}).outcome registry = .ok _ := rfl
  obtain ⟨hatoms, hinstances, hcount, hlength, hlimit⟩ := skolemize_copies hinhabited houtcome
  exact ⟨hinhabited, rfl, _, houtcome, hatoms, hinstances, hcount, hlength, hlimit (by decide)⟩

end Clausal
