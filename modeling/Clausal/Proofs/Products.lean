import Clausal.Proofs.Distribute

/-!
# Distribution as a product of clauses

What distribution computes, said without the trees it builds: a disjunction has the clauses of its
left side, each joined with every clause of its right side (`Formula.products`). However the
operands are grouped, these are the clauses of the result, in this order (`distribute_correct`).
A formula that is refused is refused for its first node, in preorder, that distribution has no rule
for (`Formula.firstMisplaced`).
-/

namespace Clausal

namespace Clause

/-- The literals of `c` and then those of `d`. -/
def join (c d : Clause) : Clause := ⟨c.literals ++ d.literals⟩

/-- Each clause of `cs` in turn joined with each of `ds` in turn. -/
def joinAll (cs ds : List Clause) : List Clause := cs.flatMap fun c => ds.map c.join

variable {c : Clause} {cs cs' ds ds' : List Clause}

theorem join_all_append_left : joinAll (cs ++ cs') ds = joinAll cs ds ++ joinAll cs' ds :=
  List.flatMap_append

theorem join_all_singleton_left : joinAll [c] ds = ds.map c.join := List.flatMap_singleton ..

end Clause

namespace Formula

variable {c : Connective} {f g : Formula} {ls : List Literal} {cs ds : List Clause}

/-- The clauses of a negation normal form without quantifiers: those of one side after the other
for a conjunction, those of both sides joined in pairs for a disjunction. Other shapes have none. -/
def products : Formula → List Clause
  | atom a => [⟨[⟨true, a⟩]⟩]
  | not (atom a) => [⟨[⟨false, a⟩]⟩]
  | and f g => f.products ++ g.products
  | or f g => Clause.joinAll f.products g.products
  | _ => []

/-! ## Clauses of the result -/

/-- A disjunction of literals goes into each clause of the other side. -/
theorem of_cnf_or_clauses (hf : Clause.literalsOf f = .ok ls) (hg : Clause.ofCnf g = .ok cs) :
    Clause.ofCnf (orClauses f g) = .ok (cs.map (Clause.join ⟨ls⟩)) := by
  fun_induction orClauses f g generalizing cs with
  | case1 g h ihg ihh =>
      rw [Clause.ofCnf, except_bind_eq_ok] at hg
      obtain ⟨cs₁, h₁, hg⟩ := hg
      obtain ⟨cs₂, h₂, hg⟩ := except_bind_eq_ok.1 hg
      cases hg
      rw [Clause.ofCnf, ihg h₁, ihh h₂, List.map_append]
      rfl
  | case2 g hne =>
      rw [Clause.ofCnf, except_bind_eq_ok] at hg
      · obtain ⟨ms, hms, hg⟩ := hg
        cases hg
        simp only [Clause.ofCnf, Clause.literalsOf, hf, hms]
        rfl
      · exact hne

/-- The clauses of the left side lead, and go over those of the right side. -/
theorem of_cnf_or_cnf (hf : Clause.ofCnf f = .ok cs) (hg : Clause.ofCnf g = .ok ds) :
    Clause.ofCnf (orCnf f g) = .ok (Clause.joinAll cs ds) := by
  fun_induction orCnf f g generalizing cs with
  | case1 f f' g ihf ihf' =>
      rw [Clause.ofCnf, except_bind_eq_ok] at hf
      obtain ⟨cs₁, h₁, hf⟩ := hf
      obtain ⟨cs₂, h₂, hf⟩ := except_bind_eq_ok.1 hf
      cases hf
      rw [Clause.ofCnf, ihf h₁ hg, ihf' h₂ hg, Clause.join_all_append_left]
      rfl
  | case2 f g hne =>
      rw [Clause.ofCnf, except_bind_eq_ok] at hf
      · obtain ⟨ls, hls, hf⟩ := hf
        cases hf
        rw [of_cnf_or_clauses hls hg, Clause.join_all_singleton_left]
      · exact hne

/-- The clauses of the result are the products, whatever its tree. -/
theorem of_cnf_distribute (h : f.distribute = .ok g) : Clause.ofCnf g = .ok f.products := by
  refine distribute_induction (P := fun f g => Clause.ofCnf g = .ok f.products)
    ?atom ?not ?and ?or h
  case atom | not => exact fun _ => rfl
  case and =>
    intro f f' g g' hf hg
    rw [Clause.ofCnf, hf, hg]
    rfl
  case or => exact fun hf hg => of_cnf_or_cnf hf hg

example (a b c d : Atom) :
    ((or (and (atom a) (not (atom b))) (and (atom c) (atom d))).distribute >>= Clause.ofCnf) = .ok
      [⟨[⟨true, a⟩, ⟨true, c⟩]⟩, ⟨[⟨true, a⟩, ⟨true, d⟩]⟩,
        ⟨[⟨false, b⟩, ⟨true, c⟩]⟩, ⟨[⟨false, b⟩, ⟨true, d⟩]⟩] := rfl

/-! ## Refusals -/

/-- The nodes of a formula in preorder. -/
def nodes (f : Formula) : List Formula :=
  f :: match f with
    | atom _ => []
    | not f => f.nodes
    | binary _ f g => f.nodes ++ g.nodes
    | quant _ _ f => f.nodes

/-- The shape at the top of a formula, when distribution has no rule for it. -/
def misplaced : Formula → Option Shape
  | not (atom _) => none
  | not _ => some .negatedCompound
  | implies _ _ => some .implication
  | iff _ _ => some .equivalence
  | quant .. => some .quantifier
  | _ => none

/-- The shape at the first node in preorder that distribution has no rule for. -/
def firstMisplaced (f : Formula) : Option Shape := f.nodes.findSome? misplaced

theorem first_misplaced_binary (hc : c = .and ∨ c = .or) :
    (binary c f g).firstMisplaced = f.firstMisplaced.or g.firstMisplaced := by
  have htop : (binary c f g).misplaced = none := by rcases hc with rfl | rfl <;> rfl
  rw [firstMisplaced, nodes, List.findSome?_cons, htop]
  exact List.findSome?_append

/-- The computation is refused for the shape that the option holds, and succeeds when it holds
none. -/
def Settled (x : Except Error Formula) : Option Shape → Prop
  | some shape => x = notDistributable shape
  | none => ∃ g, x = .ok g

/-- Of two computations the first refusal counts. -/
theorem Settled.both {x y : Except Error Formula} {h : Formula → Formula → Formula}
    {o o' : Option Shape} (hx : Settled x o) (hy : Settled y o') :
    Settled (do return h (← x) (← y)) (o.or o') := by
  cases o with
  | some shape =>
      cases hx
      rfl
  | none =>
      obtain ⟨f, rfl⟩ := hx
      cases o' with
      | some shape =>
          cases hy
          rfl
      | none =>
          obtain ⟨g, rfl⟩ := hy
          exact ⟨h f g, rfl⟩

theorem Settled.of_error {e : Error} {o : Option Shape} (h : Settled (.error e) o) :
    ∃ shape, o = some shape ∧ e = .unsupportedShape shape .distribution := by
  cases o with
  | some shape => exact ⟨shape, rfl, Except.error.inj h⟩
  | none =>
      obtain ⟨_, h⟩ := h
      cases h

/-- Distribution is refused at the first node that it has no rule for. -/
theorem distribute_settled : Settled f.distribute f.firstMisplaced := by
  induction f with
  | atom a => exact ⟨atom a, rfl⟩
  | not f _ =>
      cases f with
      | atom a => exact ⟨not (atom a), rfl⟩
      | not | binary | quant => rfl
  | binary c f g ihf ihg =>
      cases c with
      | and =>
          rw [first_misplaced_binary (.inl rfl)]
          exact ihf.both ihg
      | or =>
          rw [first_misplaced_binary (.inr rfl)]
          exact ihf.both ihg
      | implies | iff => rfl
  | quant => rfl

/-- What can be distributed is a negation normal form without quantifiers. -/
theorem is_nnf_of_distribute (h : f.distribute = .ok g) :
    f.isNnf = true ∧ f.containsQuantifier = false := by
  refine distribute_induction (P := fun f _ => f.isNnf = true ∧ f.containsQuantifier = false)
    ?atom ?not ?and ?or h
  case atom | not => exact fun _ => ⟨rfl, rfl⟩
  case and | or =>
    intro f _ g _ hf hg
    exact ⟨Bool.and_eq_true_iff.2 ⟨hf.1, hg.1⟩, Bool.or_eq_false_iff.2 ⟨hf.2, hg.2⟩⟩

end Formula

/-! ## Main statement -/

/-- Distribution succeeds on the negation normal forms without quantifiers, with a conjunctive
normal form whose clauses are the products, in order and with repetitions. Any other formula is
refused for the shape at its first node in preorder that distribution has no rule for. -/
theorem distribute_correct (f : Formula) :
    (f.distribute.isOk = true ↔ f.isNnf = true ∧ f.containsQuantifier = false) ∧
      match f.distribute with
      | .ok g => g.isCnf = true ∧ Clause.ofCnf g = .ok f.products
      | .error e => ∃ shape, f.firstMisplaced = some shape ∧
          e = .unsupportedShape shape .distribution := by
  constructor
  · constructor
    · intro h
      obtain ⟨g, hg⟩ := exists_ok_of_is_ok h
      exact Formula.is_nnf_of_distribute hg
    · rintro ⟨hnnf, hquant⟩
      obtain ⟨g, hg⟩ := Formula.exists_distribute hnnf hquant
      rw [hg]
      rfl
  · have hsettled := Formula.distribute_settled (f := f)
    cases hf : f.distribute with
    | ok g => exact ⟨Formula.is_cnf_distribute hf, Formula.of_cnf_distribute hf⟩
    | error e => exact Formula.Settled.of_error (hf ▸ hsettled)

end Clausal
