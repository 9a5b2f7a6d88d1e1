import Clausal.Proofs.Distribute

/-!
# Extraction of clauses

Clauses are taken out of the conjunctive normal forms and of no other formula, and hold the literals
of the formula from left to right (`is_cnf_of_cnf`, `flat_map_literals_of_cnf`). Conversely, clauses
joined to a formula are found again (`of_cnf_conjoin`), and a clause has the text of its disjunction
(`render_of_to_formula`). `extraction_correct` puts this together.
-/

namespace Clausal

universe u

/-- A walk along a list that can fail gives one value for each element in turn. -/
theorem map_m_eq_some_iff {α β : Type} {h : α → Option β} {xs : List α} {ys : List β} :
    xs.mapM h = some ys ↔ List.Forall₂ (fun x y => h x = some y) xs ys := by
  induction xs generalizing ys with
  | nil => simp [eq_comm]
  | cons x xs ih =>
      simp only [List.mapM_cons, List.forall₂_cons_left_iff, ← ih]
      cases h x <;> cases xs.mapM h <;> simp [eq_comm]

namespace Formula

/-- The literals from left to right. A negation turns over those below it. -/
def literals : Formula → List Literal
  | atom a => [⟨true, a⟩]
  | not f => f.literals.map Literal.complement
  | binary _ f g => f.literals ++ g.literals
  | quant _ _ f => f.literals

variable {c : Connective} {f g : Formula} {fs : List Formula}

/-- What can be read off both sides of a connective one after the other, can be read off a chain of
formulas in turn. -/
theorem foldl_reads {α : Type} {R : Formula → List α → Prop} {xs : List α} {xss : List (List α)}
    (hjoin : ∀ {f g xs ys}, R f xs → R g ys → R (binary c f g) (xs ++ ys)) (hf : R f xs)
    (hfs : List.Forall₂ R fs xss) : R (fs.foldl (binary c) f) (xs ++ xss.flatten) := by
  induction hfs generalizing f xs with
  | nil => rwa [List.flatten_nil, List.append_nil]
  | cons hg _ ih =>
      rw [List.flatten_cons, ← List.append_assoc]
      exact ih (hjoin hf hg)

/-- A chain of disjunctions is written without brackets when its parts after the first are. -/
theorem render_foldl_or (hf : (f.isBare || f.continues .or) = true)
    (hfs : ∀ g ∈ fs, g.isBare = true) :
    (fs.foldl or f).render = " ∨ ".intercalate (f.render :: fs.map render) := by
  induction fs generalizing f with
  | nil => rfl
  | cons g fs ih =>
      obtain ⟨hg, hfs⟩ := List.forall_mem_cons.1 hfs
      have hor : (or f g).render = f.render ++ " ∨ " ++ g.render := by
        simp only [render, hf, hg, bracket, if_true, String.append_assoc]
        rfl
      rw [List.foldl_cons, ih rfl hfs, hor]
      rfl

end Formula

namespace Clause

variable {f g : Formula} {c : Clause} {l : Literal} {ls : List Literal} {cs : List Clause}

/-! ## What is accepted -/

/-- Literals are taken out of disjunctions of literals only, and there is one at least. -/
theorem is_clause_of_literals_of (h : literalsOf f = .ok ls) : f.isClause = true ∧ ls ≠ [] := by
  refine literals_of_induction (P := fun f ls => f.isClause = true ∧ ls ≠ []) ?atom ?not ?or h
  case atom | not => exact fun a => ⟨rfl, List.cons_ne_nil _ _⟩
  case or =>
    intro f g ls ms hf hg
    exact ⟨Bool.and_eq_true_iff.2 ⟨hf.1, hg.1⟩, List.append_ne_nil_of_left_ne_nil hf.2 ms⟩

/-- A disjunction of literals is a conjunctive normal form of one clause. -/
theorem is_cnf_of_is_clause (h : f.isClause = true) : f.isCnf = true := by
  cases f with
  | atom | not => exact h
  | binary c f g =>
      cases c with
      | or => exact h
      | and | implies | iff => cases h
  | quant => cases h

/-- Clauses are taken out of conjunctive normal forms only. There is one at least, and none is
empty. -/
theorem is_cnf_of_cnf (h : ofCnf f = .ok cs) :
    f.isCnf = true ∧ cs ≠ [] ∧ ∀ c ∈ cs, c.isEmpty = false := by
  refine of_cnf_induction
    (P := fun f cs => f.isCnf = true ∧ cs ≠ [] ∧ ∀ c ∈ cs, c.isEmpty = false) ?clause ?and h
  case clause =>
    intro f ls hls
    obtain ⟨hclause, hne⟩ := is_clause_of_literals_of hls
    refine ⟨is_cnf_of_is_clause hclause, List.cons_ne_nil _ _, List.forall_mem_singleton.2 ?_⟩
    exact List.isEmpty_eq_false_iff.2 hne
  case and =>
    intro f g cs ds hf hg
    refine ⟨Bool.and_eq_true_iff.2 ⟨hf.1, hg.1⟩, List.append_ne_nil_of_left_ne_nil hf.2.1 ds, ?_⟩
    exact List.forall_mem_append.2 ⟨hf.2.2, hg.2.2⟩

/-- The literals of the clauses are those of the formula, in order. -/
theorem flat_map_literals_of_cnf (h : ofCnf f = .ok cs) : cs.flatMap (·.literals) = f.literals := by
  refine of_cnf_induction (P := fun f cs => cs.flatMap (·.literals) = f.literals) ?clause ?and h
  case clause =>
    intro f ls hls
    rw [List.flatMap_singleton]
    refine literals_of_induction (P := fun f ls => ls = f.literals) ?atom ?not ?or hls
    case atom | not => exact fun a => rfl
    case or => exact fun hf hg => congrArg₂ (· ++ ·) hf hg
  case and => exact fun hf hg => List.flatMap_append.trans (congrArg₂ (· ++ ·) hf hg)

/-! ## What is refused -/

/-- The computation fails for a shape at most. -/
def RefusesShapes {α : Type} (x : Except Error α) : Prop :=
  ∀ e, x = .error e → ∃ shape, e = .unsupportedShape shape .clauseExtraction

namespace RefusesShapes

variable {α β : Type} {x : Except Error α} {k : α → Except Error β}

theorem ok {a : α} : RefusesShapes (.ok a) := fun _ h => nomatch h

theorem refused {shape : Shape} : RefusesShapes (notExtractable (α := α) shape) :=
  fun _ h => ⟨shape, (Except.error.inj h).symm⟩

theorem bind (hx : RefusesShapes x) (hk : ∀ a, RefusesShapes (k a)) : RefusesShapes (x >>= k) := by
  cases x with
  | error e =>
      intro e' h
      cases h
      exact hx e rfl
  | ok a => exact hk a

end RefusesShapes

theorem literals_of_refuses_shapes (f : Formula) : RefusesShapes (literalsOf f) := by
  induction f with
  | atom => exact .ok
  | not f _ =>
      cases f with
      | atom => exact .ok
      | not | binary | quant => exact .refused
  | binary c f g ihf ihg =>
      cases c with
      | or => exact .bind ihf fun _ => .bind ihg fun _ => .ok
      | and | implies | iff => exact .refused
  | quant => exact .refused

/-- Extraction fails for a shape only. -/
theorem of_cnf_refuses_shapes (f : Formula) : RefusesShapes (ofCnf f) := by
  fun_induction ofCnf f with
  | case1 f g ihf ihg => exact .bind ihf fun _ => .bind ihg fun _ => .ok
  | case2 f => exact .bind (literals_of_refuses_shapes f) fun _ => .ok

/-! ## Clauses joined to a formula -/

/-- The conjunction of the clauses, `none` when there are none or one of them is empty. -/
def conjoin? (cs : List Clause) : Option Formula :=
  (cs.mapM toFormula?).bind Formula.conjunction

theorem literals_of_literal (l : Literal) : literalsOf l.toFormula = .ok [l] := by
  rcases l with ⟨_ | _, a⟩ <;> rfl

/-- A disjunction of literals has them as its one clause. -/
theorem of_cnf_of_literals_of (h : literalsOf f = .ok ls) : ofCnf f = .ok [⟨ls⟩] := by
  fun_cases ofCnf f with
  | case1 => cases h
  | case2 f => rw [h]; rfl

theorem exists_to_formula (h : c.isEmpty = false) : ∃ f, c.toFormula? = some f := by
  rcases c with ⟨_ | ⟨l, ls⟩⟩
  · cases h
  · exact ⟨_, rfl⟩

theorem exists_conjoin (hcs : cs ≠ []) (hne : ∀ c ∈ cs, c.isEmpty = false) :
    ∃ f, conjoin? cs = some f := by
  have hparts : ∃ fs, List.Forall₂ (fun (c : Clause) f => c.toFormula? = some f) cs fs := by
    clear hcs
    induction cs with
    | nil => exact ⟨[], .nil⟩
    | cons c cs ih =>
        obtain ⟨hc, hne⟩ := List.forall_mem_cons.1 hne
        obtain ⟨f, hf⟩ := exists_to_formula hc
        obtain ⟨fs, hfs⟩ := ih hne
        exact ⟨f :: fs, .cons hf hfs⟩
  obtain ⟨fs, hfs⟩ := hparts
  rw [conjoin?, map_m_eq_some_iff.2 hfs]
  cases hfs with
  | nil => exact absurd rfl hcs
  | cons => exact ⟨_, rfl⟩

/-- The literals of a clause are found again in its disjunction. -/
theorem literals_of_to_formula (h : c.toFormula? = some f) : literalsOf f = .ok c.literals := by
  rcases c with ⟨_ | ⟨l, ls⟩⟩
  · cases h
  · cases h
    have hls : List.Forall₂ (fun f ls => literalsOf f = .ok ls) (ls.map Literal.toFormula)
        (ls.map fun l => [l]) := by
      rw [List.forall₂_map_left_iff, List.forall₂_map_right_iff, List.forall₂_same]
      exact fun l _ => literals_of_literal l
    have hjoined := Formula.foldl_reads (R := fun f ls => literalsOf f = .ok ls) (c := .or)
      (fun hf hg => by rw [literalsOf, hf, hg]; rfl) (literals_of_literal l) hls
    rwa [← List.flatMap_def, List.flatMap_singleton'] at hjoined

/-- The clauses are found again in their conjunction. -/
theorem of_cnf_conjoin (h : conjoin? cs = some f) : ofCnf f = .ok cs := by
  obtain ⟨fs, hfs, hjoin⟩ := Option.bind_eq_some_iff.1 h
  rw [map_m_eq_some_iff] at hfs
  cases hfs with
  | nil => cases hjoin
  | @cons c f cs fs hc hcs =>
      cases hjoin
      have hclause {c : Clause} {f : Formula} (h : c.toFormula? = some f) : ofCnf f = .ok [c] :=
        of_cnf_of_literals_of (literals_of_to_formula h)
      have hall : List.Forall₂ (fun f cs => ofCnf f = .ok cs) fs (cs.map fun c => [c]) := by
        rw [List.forall₂_map_right_iff]
        exact (hcs.imp fun _ _ h => hclause h).flip
      have hjoined := Formula.foldl_reads (R := fun f cs => ofCnf f = .ok cs) (c := .and)
        (fun hf hg => by rw [ofCnf, hf, hg]; rfl) (hclause hc) hall
      rwa [← List.flatMap_def, List.flatMap_singleton'] at hjoined

/-- A clause that is not empty has the text of its disjunction. -/
theorem render_of_to_formula (h : c.toFormula? = some f) : c.render = f.render := by
  have hbare : ∀ l : Literal, l.toFormula.isBare = true := by rintro ⟨_ | _, a⟩ <;> rfl
  have hrender : ∀ l : Literal, l.toFormula.render = l.render := by
    rintro ⟨_ | _, a⟩
    · rfl
    · exact String.empty_append.symm
  rcases c with ⟨_ | ⟨l, ls⟩⟩
  · cases h
  · cases h
    have hshort : (l.toFormula.isBare || l.toFormula.continues .or) = true := by rw [hbare]; rfl
    rw [Formula.render_foldl_or hshort (List.forall_mem_map.2 fun l _ => hbare l), List.map_map,
      hrender]
    exact congrArg (fun ts => " ∨ ".intercalate (l.render :: ts))
      (List.map_congr_left fun l _ => (hrender l).symm)

end Clause

/-! ## Main statement -/

/-- Extraction succeeds on the conjunctive normal forms, with clauses of the same truth that hold
the literals of the formula from left to right, and is refused for a shape otherwise. Any clauses,
none of them empty, are found again in their conjunction, and have the texts of their
disjunctions. -/
theorem extraction_correct :
    (∀ f : Formula, ((Clause.ofCnf f).isOk = true ↔ f.isCnf = true) ∧
      match Clause.ofCnf f with
      | .ok cs => (cs ≠ [] ∧ ∀ c ∈ cs, c.isEmpty = false) ∧
          cs.flatMap (·.literals) = f.literals ∧
          ∀ {U : Type u} (M : Interpretation U) (s : Assignment U),
            M.Holds s f ↔ ∀ c ∈ cs, M.HoldsClause s c
      | .error e => ∃ shape, e = .unsupportedShape shape .clauseExtraction) ∧
    ∀ cs : List Clause, cs ≠ [] → (∀ c ∈ cs, c.isEmpty = false) →
      (∃ f, Clause.conjoin? cs = some f ∧ Clause.ofCnf f = .ok cs) ∧
      ∀ c ∈ cs, ∃ f, c.toFormula? = some f ∧ c.render = f.render := by
  refine ⟨fun f => ⟨⟨fun h => ?_, fun h => ?_⟩, ?_⟩, fun cs hcs hne => ⟨?_, fun c hc => ?_⟩⟩
  · obtain ⟨cs, hcs⟩ := exists_ok_of_is_ok h
    exact (Clause.is_cnf_of_cnf hcs).1
  · obtain ⟨cs, hcs⟩ := Clause.exists_of_cnf h
    rw [hcs]
    rfl
  · cases hf : Clause.ofCnf f with
    | ok cs =>
        exact ⟨(Clause.is_cnf_of_cnf hf).2, Clause.flat_map_literals_of_cnf hf,
          fun M s => (Clause.holds_of_cnf hf).symm⟩
    | error e => exact Clause.of_cnf_refuses_shapes f e hf
  · obtain ⟨f, hf⟩ := Clause.exists_conjoin hcs hne
    exact ⟨f, hf, Clause.of_cnf_conjoin hf⟩
  · obtain ⟨f, hf⟩ := Clause.exists_to_formula (hne c hc)
    exact ⟨f, hf, Clause.render_of_to_formula hf⟩

namespace Sample

/-- A clause that repeats a literal, and one clause twice. -/
def repeated : List Clause :=
  let p : Atom := ⟨⟨"P", 1⟩, [.var { name := "x" }]⟩
  let q : Atom := ⟨⟨"Q", 1⟩, [.skolem "sk0" [.var { name := "x" }]]⟩
  [⟨[⟨false, p⟩, ⟨true, q⟩, ⟨false, p⟩]⟩, ⟨[⟨true, p⟩]⟩, ⟨[⟨true, p⟩]⟩]

end Sample

open Sample in
theorem extraction_correct_repeated :
    repeated ≠ [] ∧ (∀ c ∈ repeated, c.isEmpty = false) ∧
      (∃ f, Clause.conjoin? repeated = some f ∧ Clause.ofCnf f = .ok repeated) ∧
      ∀ c ∈ repeated, ∃ f, c.toFormula? = some f ∧ c.render = f.render := by
  have hcs : repeated ≠ [] := List.cons_ne_nil _ _
  have hne : ∀ c ∈ repeated, c.isEmpty = false := by decide
  obtain ⟨-, hagain⟩ := extraction_correct.{0}
  exact ⟨hcs, hne, hagain repeated hcs hne⟩

end Clausal
