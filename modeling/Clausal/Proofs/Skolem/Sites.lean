import Mathlib.Algebra.Order.BigOperators.Ring.List
import Mathlib.Algebra.Order.Ring.Nat
import Clausal.Proofs.Skolem.Walk

/-!
# The nodes of a formula in the order of a walk

`Formula.sites` lists the nodes of a formula in preorder, each with the universal variables above it
and with the number of copies that closed-world expansion makes of it: the product of all domain
sizes further out. That is as many as there are choices of constants (`length_copies_of`), and what
a walk counts as long as the cap is not reached (`count_copies_closed_world`).
-/

namespace Clausal

/-! ## Numbers of copies -/

/-- The product of the domain sizes of the closed-world variables among `vs`. -/
def domainProduct (vs : List Variable) : Nat := ((closedWorld vs).map (·.2.length)).prod

theorem length_choices_eq {ds : List DomainOf} :
    (choices ds).length = (ds.map (·.2.length)).prod := by
  induction ds with
  | nil => rfl
  | cons d ds ih => rw [length_choices_cons, ih, List.map_cons, List.prod_cons]

/-- An existential has as many copies as its domains have tuples, unless one is empty. -/
theorem length_copies_of {vs : List Variable} (h : ∀ v ∈ vs, v.domain ≠ some []) :
    (copiesOf vs).length = domainProduct vs := by
  rw [copies_of_eq h, length_choices_eq, domainProduct]

/-- A count that stops at the cap is the product up to the cap. -/
theorem count_copies_eq {n : Nat} {ks : List Nat} (h : ∀ k ∈ ks, 0 < k) :
    countCopies (min n copyCap) ks = min (n * ks.prod) copyCap := by
  induction ks generalizing n with
  | nil => simp [countCopies]
  | cons k ks ih =>
      obtain ⟨hk, hks⟩ := List.forall_mem_cons.1 h
      have hpos : 0 < ks.prod := CanonicallyOrderedAdd.list_prod_pos.2 hks
      rw [countCopies, List.prod_cons, ← Nat.mul_assoc]
      split
      · next hwithin =>
          -- a count that has reached the cap stays there, as no factor is zero
          have hcap : copyCap ≤ copyCap * k := Nat.le_mul_of_pos_right _ hk
          have hsame : min n copyCap * k = min (n * k) copyCap := by
            rw [← Nat.mul_min_mul_right] at hwithin ⊢
            omega
          rw [hsame, ih hks]
      · next hover =>
          have hle : min n copyCap * k ≤ n * k := Nat.mul_le_mul_right _ (Nat.min_le_left ..)
          have hgrows : n * k ≤ n * k * ks.prod := Nat.le_mul_of_pos_right _ hpos
          omega

theorem count_copies_closed_world {vs : List Variable} {n : Nat}
    (h : ∀ v ∈ vs, v.domain ≠ some []) :
    countCopies (min n copyCap) ((closedWorld vs).map (·.2.length)) =
      min (n * domainProduct vs) copyCap :=
  count_copies_eq <| List.forall_mem_map.2 fun d hd =>
    List.length_pos_iff.2 (closed_world_inhabited h d hd)

/-! ## Sites -/

/-- A node of a formula, the universal variables bound above it, and the number of copies that are
made of it. -/
structure Site where
  node : Formula
  universals : List Variable
  copies : Nat

/-- The nodes of a formula that stands below `universals` and is copied `copies` times. -/
def Formula.sites (universals : List Variable) (copies : Nat) (f : Formula) : List Site :=
  ⟨f, universals, copies⟩ ::
    match f with
    | atom _ => []
    | not f => f.sites universals copies
    | binary _ f g => f.sites universals copies ++ g.sites universals copies
    | all vs f => f.sites (universals ++ vs) copies
    | ex vs f => f.sites universals (copies * domainProduct vs)

end Clausal
