import Clausal.Proofs.Capital
import Clausal.Proofs.Operations

/-!
# Constants looked up by name

A defined constant is stored under the capital form of the name it was given, and is found by this
form from then on. The given name itself is tried first, and minted constants keep their names as
they are: one whose name is the given name hides the defined constant
(`minted_constant_hides_defined`). Nothing else does (`defined_constant_found_iff`).
-/

namespace Clausal

variable {r r' : Registry} {op : Operation} {ops before after : List Operation} {c : Constant}
  {name : String} {bases : List String}

/-! ## Where constants come from -/

/-- The name is one of the bases, continued by a number. -/
def IsNumbered (bases : List String) (name : String) : Prop :=
  ∃ base ∈ bases, ∃ k : Nat, name = base ++ k.repr

/-- The name is capitalized, as those of defined constants are, or numbered, as those of minted
ones are. -/
def Constant.ComesFrom (bases : List String) (c : Constant) : Prop :=
  Text.capitalize c.name = c.name ∨ IsNumbered bases c.name

/-- Every constant has such a name. -/
abbrev Registry.ConstantsFrom (bases : List String) : Registry → Prop :=
  ForEach (Constant.ComesFrom bases) fun _ => True

theorem maintains_origins (hbases : op.bases ⊆ bases) :
    op.Maintains (Registry.ConstantsFrom bases) := by
  refine maintains_each (fun name r c r' h => ?_) (fun base hbase k => ?_) fun _ _ _ _ => trivial
  · obtain ⟨-, hname, -, -⟩ := define_constant_yields h
    exact .inl (hname ▸ Text.capitalize_capitalize name)
  · exact .inr ⟨base, hbases hbase, k, rfl⟩

/-! ## Lookups -/

/-- A defined constant is stored, and stays where it is until the registry is cleared. -/
theorem defined_constant_stored (h : (defineConstant name).Yields r c r') (hclear : .clear ∉ ops) :
    (run ops r').storedConstant? c.name = some c := by
  obtain ⟨-, -, hunused, rfl⟩ := define_constant_yields h
  have hstored : (r.addConstant c).storedConstant? c.name = some c := by
    rw [Registry.storedConstant?, Registry.addConstant, List.find?_append,
      ← Registry.storedConstant?, hunused]
    simp
  exact (run_extends hclear _).consts.find?_eq_some hstored

/-- A constant stored under the capital form of a name is found by the name, unless the name is not
capitalized and another constant bears it. -/
theorem constant_named_iff (hstored : r.storedConstant? c.name = some c)
    (hname : Text.capitalize name = c.name) :
    r.constantNamed? name = some c ↔ name = c.name ∨ name ∉ r.consts.map (·.name) := by
  rw [Registry.constantNamed?, hname, hstored]
  cases hgiven : r.storedConstant? name with
  | none => simp [find_eq_none_iff_not_mem.1 hgiven]
  | some d =>
      have hd : d.name = name := by simpa using List.find?_some hgiven
      have hmem : name ∈ r.consts.map (·.name) :=
        hd ▸ List.mem_map_of_mem (List.mem_of_find?_eq_some hgiven)
      rw [show (some d <|> some c) = some d from rfl, Option.some.injEq,
        or_iff_left (not_not.2 hmem)]
      constructor
      · rintro rfl
        exact hd.symm
      · rintro rfl
        exact Option.some.inj (hgiven.symm.trans hstored)

/-- A defined constant is found by its capitalized name whatever is done later, short of clearing
the registry. By the name it was given it is found exactly when this name is capitalized or no
constant bears it; and only a constant minted on a base that some operation used can bear it. -/
theorem defined_constant_found_iff (h : (defineConstant name).Yields (run before .empty) c r)
    (hclear : .clear ∉ after) :
    (run after r).constantNamed? c.name = some c ∧
      ((run after r).constantNamed? name = some c ↔
        name = c.name ∨ name ∉ (run after r).consts.map (·.name)) ∧
      (name ∈ (run after r).consts.map (·.name) →
        name = c.name ∨ IsNumbered ((before ++ after).flatMap Operation.bases) name) := by
  have hstored := defined_constant_stored h hclear
  obtain ⟨-, hname, -, -⟩ := define_constant_yields h
  have hcapital : Text.capitalize c.name = c.name := hname ▸ Text.capitalize_capitalize name
  refine ⟨(constant_named_iff hstored hcapital).2 (.inl rfl),
    constant_named_iff hstored hname.symm, fun hmem => ?_⟩
  -- the whole run maintains where constants come from, the definition included
  let bases := (before ++ after).flatMap Operation.bases
  have hmaintains : ∀ op ∈ before ++ after, op.Maintains (Registry.ConstantsFrom bases) :=
    fun op hop => maintains_origins fun base hbase => List.mem_flatMap.2 ⟨op, hop, hbase⟩
  obtain ⟨hbefore, hafter⟩ := List.forall_mem_append.1 hmaintains
  have hdefines : (Operation.defineConstant name).Maintains (Registry.ConstantsFrom bases) :=
    maintains_origins (List.nil_subset _)
  have hdefined := hdefines.definedConst name rfl _ _ _ h (run_preserves hbefore .empty)
  obtain ⟨d, hd, rfl⟩ := List.mem_map.1 hmem
  have hcomes : d.ComesFrom bases := (run_preserves hafter hdefined).consts d hd
  exact hcomes.imp_left fun hsame => hsame.symm.trans hname.symm

namespace Sample

/-- Definitions for a formula about some `x`. -/
def signature : List Operation := [.defineVariable "x" none, .definePredicate "P" 1]

/-- Conversions that mint a constant and a function. -/
def conversions : List Operation :=
  [.toCnf {} (.ex [x] (holding "P" [.var x])),
    .toCnf {} (.all [y] (.ex [x] (holding "P" [.var x])))]

end Sample

open Sample in
theorem defined_constant_found_iff_anna :
    let r := (defineConstant "anna").after (run signature .empty)
    (defineConstant "anna").Yields (run signature .empty) ⟨"Anna"⟩ r ∧ .clear ∉ conversions ∧
      (run conversions r).termNames = ["Anna", "sk0", "x", "sk1"] ∧
      (run conversions r).constantNamed? "anna" = some ⟨"Anna"⟩ := by
  intro r
  have hdefined : (defineConstant "anna").Yields (run signature .empty) ⟨"Anna"⟩ r := ⟨rfl, rfl⟩
  have hclear : .clear ∉ conversions := by simp [conversions]
  have hunused : "anna" ∉ (run conversions r).consts.map (·.name) := by decide +kernel
  obtain ⟨-, hfound, -⟩ := defined_constant_found_iff hdefined hclear
  exact ⟨hdefined, hclear, by decide +kernel, hfound.2 (.inr hunused)⟩

open Sample in
/-- A constant minted later is found in place of the defined one, by the very name that the defined
one was given; one minted before is found from the beginning. -/
theorem minted_constant_hides_defined :
    let r := run signature .empty
    let later := run conversions r
    (defineConstant "sk0").outcome r = .ok ⟨"Sk0"⟩ ∧
      (run conversions ((defineConstant "sk0").after r)).constantNamed? "sk0" = some ⟨"sk0"⟩ ∧
      (defineConstant "sk0").outcome later = .ok ⟨"Sk0"⟩ ∧
      ((defineConstant "sk0").after later).constantNamed? "sk0" = some ⟨"sk0"⟩ := by
  refine ⟨rfl, ?_, rfl, ?_⟩ <;> decide +kernel

end Clausal
