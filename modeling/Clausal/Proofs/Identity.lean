import Clausal.Proofs.Provenance
import Clausal.Proofs.Reading

/-!
# Equality by text

Formulas are equal when they have one text. Over a registry in use whose names can be read in texts
(`Registry.Readable`) such formulas are the same, so that equality may be used as identity
(`same_identifies`). Definitions do not see to that: they let a constant have the name of a
variable, and names hold brackets and commas. Then formulas are equal that have different free
variables and different normal forms.
-/

namespace Clausal

open Variable (names)

variable {r : Registry} {f g : Formula} {ops : List Operation}

namespace Registry

/-- The symbols of a registry. -/
def vocabulary (r : Registry) : Vocabulary where
  IsConst := (· ∈ r.consts)
  IsVar := (· ∈ r.vars)
  IsFunction name arity := ⟨name, arity⟩ ∈ r.skolemSymbols
  IsPredicate := (· ∈ r.preds)

/-- No constant has the name of a variable, and no name can be taken for more than itself where it
stands in a text. -/
structure Readable (r : Registry) : Prop where
  apart : ∀ c ∈ r.consts, ∀ v ∈ r.vars, c.name ≠ v.name
  terms : ∀ name ∈ r.termNames, ∀ c ∈ name.toList, isMark c = false
  preds : ∀ p ∈ r.preds, '(' ∉ p.name.toList ∧ p.name.toList.head? ≠ some '¬'

/-- What definitions check and what makes names readable suffices to read texts. -/
theorem Readable.legible (h : r.Readable) (hsound : r.Sound) : r.vocabulary.Legible := by
  have hterm {name : String} (hname : name ∈ r.termNames) : IsTermName name :=
    ⟨fun hnil => hsound.nonempty name hname (String.toList_eq_nil_iff.1 hnil), h.terms name hname⟩
  have hmem {name : String} : name ∈ r.termNames ↔ (name ∈ r.consts.map (·.name) ∨
      name ∈ names r.vars) ∨ name ∈ r.skolemSymbols.map (·.name) := by
    simp only [termNames, List.mem_append]
  constructor
  case const_name =>
    intro c hc
    exact hterm (hmem.2 (.inl (.inl (List.mem_map_of_mem hc))))
  case var_name =>
    intro v hv
    exact ⟨hterm (hmem.2 (.inl (.inr (List.mem_map_of_mem hv)))),
      Text.blank_not_mem_of_is_word (hsound.issued v hv).is_word⟩
  case function_name =>
    intro name arity hs
    exact hterm (hmem.2 (.inr (List.mem_map.2 ⟨_, hs, rfl⟩)))
  case predicate_name =>
    intro p hp
    obtain ⟨hword, -⟩ := hsound.applicable p hp
    obtain ⟨hbracket, hsign⟩ := h.preds p hp
    refine ⟨fun hnil => ?_, fun c hc => ⟨?_, ?_⟩, hsign⟩
    · exact (Text.is_word_iff.1 hword).1 (String.toList_eq_nil_iff.1 hnil)
    · exact fun heq => hbracket (heq ▸ hc)
    · exact fun heq => Text.blank_not_mem_of_is_word hword (heq ▸ hc)
  case apart => exact fun c v hc hv => h.apart c hc v hv
  case eq_of_name_eq => exact fun v w hv hw hname => Variable.eq_of_name_eq hsound.vars hv hw hname

end Registry

/-- Two conversions end alike: with one error, or with equal results. -/
def EndAlike : Except Error Formula → Except Error Formula → Prop
  | .ok c, .ok d => c.same d = true
  | .error e, .error e' => e = e'
  | _, _ => False

instance : DecidableRel EndAlike
  | .ok c, .ok d => inferInstanceAs (Decidable (c.same d = true))
  | .error e, .error e' => inferInstanceAs (Decidable (e = e'))
  | .ok _, .error _ | .error _, .ok _ => inferInstanceAs (Decidable False)

theorem EndAlike.refl (x : Except Error Formula) : EndAlike x x := by
  cases x with
  | ok c => exact beq_self_eq_true c.render
  | error e => rfl

/-- Over a registry in use with readable names, equal formulas are the same. So they have the same
free variables, and their conversions end alike. -/
theorem same_identifies (hops : ∀ op ∈ ops, op.Admissible) (hread : (run ops .empty).Readable)
    (hf : f.Over (run ops .empty).vocabulary) (hg : g.Over (run ops .empty).vocabulary)
    (h : f.same g = true) :
    f = g ∧ f.freeVariables = g.freeVariables ∧ ∀ cfg, EndAlike
      ((f.toCnf cfg).outcome (run ops .empty)) ((g.toCnf cfg).outcome (run ops .empty)) := by
  have hlegible := hread.legible (run_sound hops .empty)
  have hrender : f.render = g.render := beq_iff_eq.1 h
  obtain rfl := Formula.render_injective hlegible hf hg hrender
  exact ⟨rfl, rfl, fun _ => .refl _⟩

open Sample in
theorem same_identifies_twice :
    let r := run session .empty
    (∀ op ∈ session, op.Admissible) ∧ r.Readable ∧ twice.Over r.vocabulary ∧
      ∀ g, g.Over r.vocabulary → twice.same g = true → twice = g := by
  intro r
  have hops : ∀ op ∈ session, op.Admissible := session_admissible
  have hnames : r.termNames = ["A", "B", "e", "e_0"] := by decide +kernel
  have hread : r.Readable := ⟨by decide +kernel, by simp [hnames, isMark], by decide +kernel⟩
  have hvar : either ∈ r.vars := by decide +kernel
  have hpred : (⟨"P", 1⟩ : Predicate) ∈ r.preds := by decide +kernel
  have honce : (Formula.ex [either] (.atom ⟨⟨"P", 1⟩, [.var either]⟩)).Over r.vocabulary :=
    ⟨List.forall_mem_singleton.2 hvar, hpred, rfl, List.forall_mem_singleton.2 hvar⟩
  have htwice : twice.Over r.vocabulary := ⟨honce, honce⟩
  exact ⟨hops, hread, htwice, fun g hg h => (same_identifies hops hread htwice hg h).1⟩

namespace Sample

/-- A constant that becomes `X`, and a variable of that name. -/
def clash : List Operation :=
  [.defineConstant "x", .defineVariable "X" none, .definePredicate "P" 1]

/-- The variable. -/
def capitalX : Variable := { name := "X" }

/-- `P(X)` of the constant. -/
def ofConstant : Formula := .atom ⟨⟨"P", 1⟩, [.const ⟨"X"⟩]⟩

/-- `P(X)` of the variable. -/
def ofVariable : Formula := .atom ⟨⟨"P", 1⟩, [.var capitalX]⟩

end Sample

open Sample in
/-- A constant and a variable may have one name. Formulas about the one and the other are equal, but
only one of them has a free variable, and under a quantifier only one of them is changed by a
conversion. -/
theorem same_confuses_terms :
    let r := run clash .empty
    (∀ op ∈ clash, op.Admissible) ∧ ofConstant.Over r.vocabulary ∧ ofVariable.Over r.vocabulary ∧
      ofConstant.same ofVariable = true ∧
      ofConstant.freeVariables = [] ∧ ofVariable.freeVariables = [capitalX] ∧
      (Formula.ex [capitalX] ofConstant).same (.ex [capitalX] ofVariable) = true ∧
      ¬ EndAlike (((Formula.ex [capitalX] ofConstant).toCnf {}).outcome r)
        (((Formula.ex [capitalX] ofVariable).toCnf {}).outcome r) := by
  intro r
  have hconst : (⟨"X"⟩ : Constant) ∈ r.consts := by decide +kernel
  have hvar : capitalX ∈ r.vars := by decide +kernel
  have hpred : (⟨"P", 1⟩ : Predicate) ∈ r.preds := by decide +kernel
  exact ⟨by simp [clash, Operation.Admissible],
    ⟨hpred, rfl, List.forall_mem_singleton.2 hconst⟩,
    ⟨hpred, rfl, List.forall_mem_singleton.2 hvar⟩,
    by decide +kernel, rfl, rfl, by decide +kernel, by decide +kernel⟩

open Sample in
/-- Names that hold a comma or begin with a negation sign confuse formulas as well: with a variable
`x,y`, one quantifier may bind it or `x` and `y`; with a predicate `¬P`, an atom may be a
negation. -/
theorem same_confuses_signs :
    let r := run [.defineVariable "x" none, .defineVariable "y" none, .defineVariable "x,y" none,
      .definePredicate "P" 1, .definePredicate "¬P" 1] .empty
    let xy : Variable := { name := "x,y" }
    let px : Formula := .atom ⟨⟨"P", 1⟩, [.var x]⟩
    let notpx : Formula := .atom ⟨⟨"¬P", 1⟩, [.var x]⟩
    ((∀ v ∈ [x, y, xy], v ∈ r.vars) ∧ (Formula.all [x, y] px).same (.all [xy] px) = true ∧
      (Formula.all [x, y] px).freeVariables = [] ∧ (Formula.all [xy] px).freeVariables = [x]) ∧
    (Formula.not (.not px)).same (.not notpx) = true ∧
      ¬ EndAlike (((Formula.not (.not px)).toCnf {}).outcome r)
        (((Formula.not notpx).toCnf {}).outcome r) := by
  decide +kernel

end Clausal
