import Clausal.Proofs.Define
import Clausal.Proofs.Reading

/-!
# One text, one tree

The text of a formula leaves out the domains of variables and their first names. All else it
determines, as long as names are words without brackets, commas, colons and negation signs, and no
constant has the name of a variable (`render_eq_iff`). Names may be signs of connectives and of
quantifiers, a quantifier may bind nothing, and a Skolem function may have no arguments. Formulas
are reduced to what their texts show (`Formula.plain`), and read over the symbols that are left.
-/

namespace Clausal

open Variable (names)

/-! ## Trees -/

/-- Formulas are one tree when they are built alike and have the same symbols at each node. -/
def Formula.sameTree : Formula → Formula → Bool
  | atom a, atom b => a.same b
  | not f, not g => f.sameTree g
  | binary c f f', binary d g g' => c == d && f.sameTree g && f'.sameTree g'
  | quant q vs f, quant p ws g => q == p && names vs == names ws && f.sameTree g
  | _, _ => false

/-- The formula with its variables reduced to their names. -/
def Formula.plain : Formula → Formula
  | atom a => atom (a.mapTerms Term.plain)
  | not f => not f.plain
  | binary c f g => binary c f.plain g.plain
  | quant q vs f => quant q (vs.map Variable.plain) f.plain

theorem map_plain_eq_iff {vs ws : List Variable} :
    vs.map Variable.plain = ws.map Variable.plain ↔ names vs = names ws := by
  induction vs generalizing ws with
  | nil => cases ws <;> simp
  | cons v vs ih => cases ws <;> simp [ih, Variable.plain]

theorem Term.render_plain {t : Term} : t.plain.render = t.render := by
  induction t using Term.induction with
  | hconst | hvar => rfl
  | hskolem name args ih =>
      have hargs : args.map (render ∘ plain) = args.map render := List.map_congr_left ih
      rw [plain_skolem, render, render, render_all_eq, render_all_eq, List.map_map, hargs]

namespace Formula

variable {f g : Formula}

/-- Formulas are one tree when they are equal but for domains and first names. -/
theorem same_tree_iff : f.sameTree g = true ↔ f.plain = g.plain := by
  induction f generalizing g with
  | atom a =>
      cases g with
      | atom b =>
          rw [sameTree, Atom.same_iff, plain, plain, atom.injEq, Atom.plain, Atom.plain]
      | not | binary | quant => simp [sameTree, plain]
  | not f ih => cases g <;> simp [sameTree, plain, ih]
  | binary c f f' ih ih' => cases g <;> simp [sameTree, plain, ih, ih', and_assoc]
  | quant q vs f ih => cases g <;> simp [sameTree, plain, ih, map_plain_eq_iff, and_assoc]

/-- A text shows no domains and no first names. -/
theorem render_plain : f.plain.render = f.render := by
  have hbare (f : Formula) : f.plain.isBare = f.isBare := by cases f <;> rfl
  have hchain (c : Connective) (f : Formula) : f.plain.continues c = f.continues c := by
    cases f <;> rfl
  induction f with
  | atom a =>
      have hterms : a.terms.map (Term.render ∘ Term.plain) = a.terms.map Term.render :=
        List.map_congr_left fun _ _ => Term.render_plain
      simp only [plain, render, Atom.render, Atom.mapTerms, List.map_map, hterms]
  | not f ih => simp only [plain, render, hbare, ih]
  | binary c f g ihf ihg => simp only [plain, render, hbare, hchain, ihf, ihg]
  | quant q vs f ih => simp [plain, render, ih, Variable.plain, Function.comp_def]

end Formula

/-! ## Names -/

/-- The name is a word without the characters that structure a text. -/
def isPlainName (name : String) : Bool :=
  Text.isWord name && name.toList.all fun c => !isMark c && c != ':' && c != '¬'

/-- The constants, variables and Skolem functions that the text of a formula shows. -/
def Formula.shownSymbols (f : Formula) : List Symbol := f.plain.symbols

/-- All names that the text of a formula shows are plain, and the predicates have as many arguments
as they ask for. -/
structure Formula.IsSpelled (f : Formula) : Prop where
  symbols : ∀ σ ∈ f.shownSymbols, isPlainName σ.name = true
  predicates : ∀ a ∈ f.atoms, isPlainName a.predicate.name = true
  arities : ∀ a ∈ f.atoms, a.terms.length = a.predicate.arity

theorem is_plain_name_iff {name : String} : isPlainName name = true ↔
    Text.isWord name = true ∧ ∀ c ∈ name.toList, isMark c = false ∧ c ≠ ':' ∧ c ≠ '¬' := by
  simp [isPlainName, and_assoc]

theorem is_term_name_of_plain {name : String} (h : isPlainName name = true) : IsTermName name := by
  obtain ⟨hword, hplain⟩ := is_plain_name_iff.1 h
  exact ⟨Text.to_list_ne_nil_of_is_word hword, fun c hc => (hplain c hc).1⟩

theorem is_predicate_name_of_plain {name : String} (h : isPlainName name = true) :
    IsPredicateName name := by
  obtain ⟨hword, hplain⟩ := is_plain_name_iff.1 h
  refine ⟨Text.to_list_ne_nil_of_is_word hword, fun c hc => ⟨?_, ?_⟩, fun hhead => ?_⟩
  · rintro rfl
    cases (hplain '(' hc).1
  · rintro rfl
    exact Text.blank_not_mem_of_is_word hword hc
  · exact (hplain '¬' (List.mem_of_head? hhead)).2.2 rfl

/-- The symbols `S`, variables being known by their names alone, and all predicates with plain
names. -/
def Vocabulary.ofSymbols (S : List Symbol) : Vocabulary where
  IsConst c := .const c.name ∈ S
  IsVar v := v = v.plain ∧ .var v.name ∈ S
  IsFunction name _ := .skolem name ∈ S
  IsPredicate p := isPlainName p.name = true

section OfSymbols

variable {S : List Symbol}

theorem legible_of_symbols (hnames : ∀ σ ∈ S, isPlainName σ.name = true)
    (hapart : ∀ name, ¬ (.const name ∈ S ∧ .var name ∈ S)) :
    (Vocabulary.ofSymbols S).Legible where
  const_name c hc := is_term_name_of_plain (hnames _ hc)
  var_name := by
    rintro v ⟨-, hv⟩
    have hplain := hnames _ hv
    exact ⟨is_term_name_of_plain hplain,
      Text.blank_not_mem_of_is_word (is_plain_name_iff.1 hplain).1⟩
  function_name name _ hname := is_term_name_of_plain (hnames _ hname)
  predicate_name p hp := is_predicate_name_of_plain hp
  apart := by
    rintro c v hc ⟨-, hv⟩ hname
    exact hapart c.name ⟨hc, hname ▸ hv⟩
  eq_of_name_eq := by
    rintro v w ⟨hv, -⟩ ⟨hw, -⟩ hname
    rw [hv, hw, Variable.plain, Variable.plain, hname]

theorem Variable.plain_is_var {v : Variable} (h : v.plain.symbols ⊆ S) :
    (Vocabulary.ofSymbols S).IsVar v.plain :=
  ⟨rfl, h (List.mem_cons_self ..)⟩

theorem Term.plain_over {t : Term} (h : t.plain.symbols ⊆ S) :
    t.plain.Over (Vocabulary.ofSymbols S) := by
  induction t using Term.induction with
  | hconst c => exact h (List.mem_singleton.2 rfl)
  | hvar v => exact Variable.plain_is_var h
  | hskolem name args ih =>
      rw [plain_skolem, symbols, symbols_all_eq, List.cons_subset, flat_map_subset_iff,
        List.forall_mem_map] at h
      rw [plain_skolem, Over, all_over_iff, List.forall_mem_map]
      exact ⟨h.1, fun t ht => ih t ht (h.2 t ht)⟩

/-- A formula that is spelled is read over the symbols that its text shows. -/
theorem Formula.plain_over {f : Formula} (hf : f.IsSpelled) (h : f.shownSymbols ⊆ S) :
    f.plain.Over (Vocabulary.ofSymbols S) := by
  obtain ⟨-, hpredicates, harities⟩ := hf
  rw [shownSymbols] at h
  induction f with
  | atom a =>
      have hterms := flat_map_subset_iff.1 h
      refine ⟨hpredicates a (List.mem_singleton.2 rfl), ?_, fun t ht => ?_⟩
      · exact (List.length_map _).trans (harities a (List.mem_singleton.2 rfl))
      · obtain ⟨u, -, rfl⟩ := List.mem_map.1 ht
        exact Term.plain_over (hterms _ ht)
  | not f ih => exact ih h hpredicates harities
  | binary c f g ihf ihg =>
      obtain ⟨hleft, hright⟩ := List.forall_mem_append.1 hpredicates
      obtain ⟨hleft', hright'⟩ := List.forall_mem_append.1 harities
      obtain ⟨hf, hg⟩ := List.append_subset.1 h
      exact ⟨ihf hf hleft hleft', ihg hg hright hright'⟩
  | quant q vs f ih =>
      obtain ⟨hvs, hf⟩ := List.append_subset.1 h
      refine ⟨List.forall_mem_map.2 fun v hv => ?_, ih hf hpredicates harities⟩
      exact Variable.plain_is_var (flat_map_subset_iff.1 hvs _ (List.mem_map_of_mem hv))

end OfSymbols

/-! ## Main statement -/

/-- Formulas with plain names, among them none of both a constant and a variable, have one text
exactly when they are one tree. -/
theorem render_eq_iff {f g : Formula} (hf : f.IsSpelled) (hg : g.IsSpelled)
    (hapart : ∀ name, ¬ (.const name ∈ f.shownSymbols ++ g.shownSymbols ∧
      .var name ∈ f.shownSymbols ++ g.shownSymbols)) :
    f.render = g.render ↔ f.sameTree g = true := by
  have hlegible := legible_of_symbols (List.forall_mem_append.2 ⟨hf.symbols, hg.symbols⟩) hapart
  have hfover := Formula.plain_over hf (List.subset_append_left _ g.shownSymbols)
  have hgover := Formula.plain_over hg (List.subset_append_right f.shownSymbols _)
  rw [← Formula.render_plain (f := f), ← Formula.render_plain (f := g), Formula.same_tree_iff]
  exact ⟨Formula.render_injective hlegible hfover hgover, fun h => congrArg Formula.render h⟩

/-- Below a quantifier that binds nothing, predicates and a function that are named like signs. -/
def Sample.signs (v : Variable) : Formula :=
  .all [] (.and (.ex [v] (.atom ⟨⟨"∀", 1⟩, [.var v]⟩))
    (.atom ⟨⟨"∧", 2⟩, [.skolem "∨" [], .const ⟨"A"⟩]⟩))

open Sample in
/-- A variable has one text whatever its domain and its first name are. -/
theorem render_eq_iff_signs :
    let f := signs { name := "e" }
    let g := signs { name := "e", domain := some [⟨"A"⟩], origin := some "d" }
    f.IsSpelled ∧ g.IsSpelled ∧
      (∀ name, ¬ (.const name ∈ f.shownSymbols ++ g.shownSymbols ∧
        .var name ∈ f.shownSymbols ++ g.shownSymbols)) ∧
      f.sameTree g = true ∧ f.render = g.render := by
  intro f g
  have hf : f.IsSpelled := ⟨by decide +kernel, by decide +kernel, by decide +kernel⟩
  have hg : g.IsSpelled := ⟨by decide +kernel, by decide +kernel, by decide +kernel⟩
  have hsymbols : f.shownSymbols ++ g.shownSymbols =
      [.var "e", .var "e", .skolem "∨", .const "A", .var "e", .var "e", .skolem "∨", .const "A"] :=
    rfl
  have hapart : ∀ name, ¬ (.const name ∈ f.shownSymbols ++ g.shownSymbols ∧
      .var name ∈ f.shownSymbols ++ g.shownSymbols) := by
    rintro name ⟨hconst, hvar⟩
    simp only [hsymbols, List.mem_cons, reduceCtorEq, Symbol.const.injEq, Symbol.var.injEq,
      List.not_mem_nil, false_or, or_false, or_self] at hconst hvar
    exact absurd (hconst.symm.trans hvar) (by decide)
  have htree : f.sameTree g = true := by decide
  exact ⟨hf, hg, hapart, htree, (render_eq_iff hf hg hapart).2 htree⟩

end Clausal
