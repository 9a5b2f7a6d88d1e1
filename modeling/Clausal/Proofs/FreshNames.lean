import Mathlib.Data.Finset.Card
import Mathlib.Order.Bounds.Defs
import Mathlib.Order.Interval.Finset.Nat
import Clausal.Proofs.Operations

/-!
# Fresh names

A fresh name is searched for by a loop that tries one number after the other. Nothing gets smaller
from one try to the next, but each number that is passed over stands for a name in use, another one
each time, and so the loop ends (`fresh_number_le`). It ends at the least number that makes a free
name (`searches_iff`). Names that are handed out one after the other differ, whatever their bases,
since each is in use before the next is searched for (`handed_out_nodup`).
-/

namespace Clausal

/-! ## The loop -/

/-- `Searches base n r name r'` says that the loop ends with `name` at the `n`-th try and leaves
`r'`. Each try puts the counter after the base and moves the counter on. -/
inductive Searches (base : String) : Nat → Registry → String → Registry → Prop where
  | found {r : Registry} : r.isFree base r.counter = true →
      Searches base 1 r (base ++ r.counter.repr) { r with counter := r.counter + 1 }
  | again {n : Nat} {r r' : Registry} {name : String} : r.isFree base r.counter = false →
      Searches base n { r with counter := r.counter + 1 } name r' →
      Searches base (n + 1) r name r'

variable {r r' : Registry} {base name : String} {n k : Nat}

/-- Where the first free number is ahead, the loop gets there. -/
theorem searches_of_first_free (hk : r.counter ≤ k) (hfree : r.isFree base k = true)
    (hleast : ∀ j, r.counter ≤ j → j < k → r.isFree base j = false) :
    Searches base (k - r.counter + 1) r (base ++ k.repr) { r with counter := k + 1 } := by
  -- the induction is on the numbers still to be passed over
  induction hn : k - r.counter generalizing r with
  | zero =>
      obtain rfl : r.counter = k := by omega
      exact .found hfree
  | succ n ih =>
      have hlt : r.counter < k := by omega
      refine .again (hleast _ (Nat.le_refl _) hlt) ?_
      exact ih hlt hfree (fun j hj => hleast j (Nat.le_of_succ_le hj)) (by simp only; omega)

/-- The loop ends in one way only. -/
theorem Searches.eq (h : Searches base n r name r') (hk : r.counter ≤ k)
    (hfree : r.isFree base k = true)
    (hleast : ∀ j, r.counter ≤ j → j < k → r.isFree base j = false) :
    n = k - r.counter + 1 ∧ name = base ++ k.repr ∧ r' = { r with counter := k + 1 } := by
  induction h with
  | @found r hfound =>
      rcases Nat.lt_or_eq_of_le hk with hlt | rfl
      · rw [hleast _ (Nat.le_refl _) hlt] at hfound
        cases hfound
      · exact ⟨by omega, rfl, rfl⟩
  | @again n r r' name hused _ ih =>
      have hne : r.counter ≠ k := by
        rintro rfl
        rw [hused] at hfree
        cases hfree
      have hlt : r.counter < k := Nat.lt_of_le_of_ne hk hne
      obtain ⟨hn, hname, hafter⟩ := ih hlt hfree fun j hj => hleast j (Nat.le_of_succ_le hj)
      refine ⟨?_, hname, hafter⟩
      simp only at hn
      omega

/-! ## The number it ends at -/

/-- The number that is chosen is the first free one from the counter on. -/
theorem fresh_number_is_least (r : Registry) (base : String) :
    IsLeast {k | r.counter ≤ k ∧ base ++ k.repr ∉ r.termNames} (r.freshNumber base) := by
  refine ⟨⟨le_first_free, r.fresh_name_not_mem base⟩, fun k ⟨hk, hnot⟩ => ?_⟩
  by_contra hlt
  have hused : r.isFree base k = false := not_free_of_lt_first_free hk (Nat.lt_of_not_le hlt)
  exact hnot (by simpa [Registry.isFree] using hused)

/-- The numbers passed over belong to different names in use, so they are no more than these. -/
theorem fresh_number_le (r : Registry) (base : String) :
    r.freshNumber base ≤ r.counter + r.termNames.toFinset.card := by
  have hused : Set.MapsTo (fun k : Nat => base ++ k.repr)
      (Finset.Ico r.counter (r.freshNumber base)) r.termNames.toFinset := by
    intro k hk
    obtain ⟨hge, hlt⟩ := Finset.mem_Ico.1 hk
    have hnot : r.isFree base k = false := not_free_of_lt_first_free hge hlt
    simpa [Registry.isFree] using hnot
  have hinj : Set.InjOn (fun k : Nat => base ++ k.repr)
      (Finset.Ico r.counter (r.freshNumber base)) :=
    fun _ _ _ _ heq => Nat.repr_injective ((String.append_right_inj base).1 heq)
  have hcard := Finset.card_le_card_of_injOn _ hused hinj
  rw [Nat.card_Ico] at hcard
  omega

/-- The loop ends, in one way, at the number that is chosen. -/
theorem searches_iff : Searches base n r name r' ↔
    n = r.freshNumber base - r.counter + 1 ∧ name = base ++ (r.freshNumber base).repr ∧
      r' = { r with counter := r.freshNumber base + 1 } := by
  have hk : r.counter ≤ r.freshNumber base := le_first_free
  have hleast : ∀ j, r.counter ≤ j → j < r.freshNumber base → r.isFree base j = false :=
    fun _ => not_free_of_lt_first_free
  constructor
  · exact fun h => h.eq hk Registry.fresh_number_is_free hleast
  · rintro ⟨rfl, rfl, rfl⟩
    exact searches_of_first_free hk Registry.fresh_number_is_free hleast

/-! ## Names handed out -/

/-- The names that an operation chooses for the symbols it adds. Definitions take the names they are
given, and an operation that fails adds nothing. -/
def Operation.handsOut (op : Operation) (r : Registry) : List String :=
  match op with
  | defineConstant _ | defineVariable .. | definePredicate .. | assert _ | clear => []
  | _ => r.addedNames (op.perform.after r)

/-- The names handed out in a run, in order. -/
def handedOut : List Operation → Registry → List String
  | [], _ => []
  | op :: ops, r => op.handsOut r ++ handedOut ops (op.perform.after r)

/-! ### One name -/

theorem Registry.Adds.added_names {cs : List Constant} {vs : List Variable}
    {ss : List SkolemSymbol} (h : r.Adds r' cs vs ss) :
    r.addedNames r' = cs.map (·.name) ++ vs.map (·.name) ++ ss.map (·.name) := by
  rw [addedNames, h.consts, h.vars, h.skolems]

/-- A fresh variable is stored under the name that the loop ends with, and so are minted symbols. -/
theorem fresh_variable_of_searches {v : Variable} (h : Searches (v.name ++ "_") n r name r') :
    ((freshVariable v).run r).value = (v.renamed name, r'.addVariable (v.renamed name)) ∧
      (Operation.freshVariable v).handsOut r = [name] := by
  obtain ⟨-, rfl, rfl⟩ := searches_iff.1 h
  obtain ⟨_, -, hadds⟩ := fresh_variable_run (v := v) (r := r) rfl
  exact ⟨rfl, hadds.added_names⟩

theorem mint_constant_of_searches (h : Searches base n r name r') :
    ((mintConstant base).run r).value = (⟨name⟩, r'.addConstant ⟨name⟩) ∧
      (Operation.mintConstant base).handsOut r = [name] := by
  obtain ⟨-, rfl, rfl⟩ := searches_iff.1 h
  have hrun : ((mintConstant base).run r).value = _ := rfl
  exact ⟨rfl, (mint_constant_run hrun).added_names⟩

theorem mint_function_of_searches (args : List Term) (h : Searches base n r name r') :
    ((mintFunction base args).run r).value =
        (.skolem name args, r'.addSkolemSymbol ⟨name, args.length⟩) ∧
      (Operation.mintFunction base args).handsOut r = [name] := by
  obtain ⟨-, rfl, rfl⟩ := searches_iff.1 h
  have hrun : ((mintFunction base args).run r).value = _ := rfl
  obtain ⟨_, hterm, hadds⟩ := mint_function_run hrun
  cases hterm
  exact ⟨rfl, hadds.added_names⟩

/-! ### All names of a run -/

variable {ops : List Operation}

namespace Registry

theorem Extends.term_names_subset (h : r.Extends r') : r.termNames ⊆ r'.termNames := by
  intro name hname
  simp only [termNames, List.mem_append] at hname ⊢
  exact hname.imp (.imp (fun hc => (h.consts.map _).subset hc) fun hv => (h.vars.map _).subset hv)
    fun hs => (h.skolems.map _).subset hs

/-- Names were handed out when the registry grew by them. -/
structure HandsOut (r r' : Registry) (names : List String) : Prop where
  nodup : names.Nodup
  fresh : ∀ name ∈ names, name ∉ r.termNames
  in_use : names ⊆ r'.termNames

theorem HandsOut.nil : r.HandsOut r' [] := ⟨.nil, nofun, List.nil_subset _⟩

theorem Grows.hands_out (h : r.Grows r') : r.HandsOut r' (r.addedNames r') :=
  ⟨h.nodup, h.fresh, h.added_subset⟩

end Registry

/-- What an operation hands out was not in use before, and is afterwards. -/
theorem hands_out (op : Operation) (r : Registry) :
    r.HandsOut (op.perform.after r) (op.handsOut r) := by
  cases op with
  | defineConstant | defineVariable | definePredicate | assert | clear => exact .nil
  | freshVariable v =>
      obtain ⟨_, -, hadds⟩ := fresh_variable_run (v := v) (r := r) rfl
      exact hadds.grows.hands_out
  | mintConstant base => exact (mint_constant_run (r := r) rfl).grows.hands_out
  | mintFunction base args =>
      have hrun : ((mintFunction base args).run r).value = _ := rfl
      obtain ⟨_, -, hadds⟩ := mint_function_run hrun
      exact hadds.grows.hands_out
  | standardizeApart f => exact (standardize_apart_grows (f := f) (r := r) rfl).hands_out
  | skolemize cfg f =>
      simp only [Operation.perform, Operation.handsOut, Attempt.after_forget]
      exact ((skolemize_atomic cfg f).grows_after r).hands_out
  | toCnf cfg f =>
      simp only [Operation.perform, Operation.handsOut, Attempt.after_forget]
      exact ((to_cnf_atomic cfg f).grows_after r).hands_out
  | toClauses cfg f =>
      simp only [Operation.perform, Operation.handsOut, Attempt.after_forget]
      exact ((to_clauses_atomic cfg f).grows_after r).hands_out
  | clausifyAxioms cfg =>
      simp only [Operation.perform, Operation.handsOut, Attempt.after_forget]
      exact ((clausify_axioms_atomic cfg).grows_after r).hands_out

/-- The names handed out in a run differ from each other and from those in use before. -/
theorem handed_out_nodup (hclear : .clear ∉ ops) (r : Registry) :
    (handedOut ops r).Nodup ∧ ∀ name ∈ handedOut ops r, name ∉ r.termNames := by
  induction ops generalizing r with
  | nil => exact ⟨.nil, nofun⟩
  | cons op ops ih =>
      obtain ⟨hop, hops⟩ := not_or.1 (List.mem_cons.not.1 hclear)
      have hfirst := hands_out op r
      obtain ⟨hnodup, hfresh⟩ := ih hops (op.perform.after r)
      have hold : r.termNames ⊆ (op.perform.after r).termNames :=
        (perform_extends (Ne.symm hop) r).term_names_subset
      refine ⟨List.nodup_append.2 ⟨hfirst.nodup, hnodup, ?_⟩, List.forall_mem_append.2
        ⟨hfirst.fresh, fun name hname hused => hfresh name hname (hold hused)⟩⟩
      rintro name hname _ hname' rfl
      exact hfresh name hname' (hfirst.in_use hname)

/-- The search for a fresh name ends with the base and the least number, from the counter on, that
makes a free name, after one try more than there are names in use at most. The symbol is stored
under this name, so that names handed out in a run differ until the registry is cleared. -/
theorem fresh_names_correct (r : Registry) :
    (∀ base, ∃ k, IsLeast {k | r.counter ≤ k ∧ base ++ k.repr ∉ r.termNames} k ∧
      k - r.counter + 1 ≤ r.termNames.toFinset.card + 1 ∧
      ∀ n name r', Searches base n r name r' ↔
        n = k - r.counter + 1 ∧ name = base ++ k.repr ∧ r' = { r with counter := k + 1 }) ∧
    (∀ (v : Variable) n name r', Searches (v.name ++ "_") n r name r' →
      ((freshVariable v).run r).value = (v.renamed name, r'.addVariable (v.renamed name)) ∧
        (Operation.freshVariable v).handsOut r = [name]) ∧
    (∀ base n name r', Searches base n r name r' →
      (((mintConstant base).run r).value = (⟨name⟩, r'.addConstant ⟨name⟩) ∧
        (Operation.mintConstant base).handsOut r = [name]) ∧
      ∀ args, ((mintFunction base args).run r).value =
          (.skolem name args, r'.addSkolemSymbol ⟨name, args.length⟩) ∧
        (Operation.mintFunction base args).handsOut r = [name]) ∧
    ∀ ops, .clear ∉ ops → (handedOut ops r).Nodup := by
  refine ⟨fun base => ⟨r.freshNumber base, fresh_number_is_least r base, ?_, ?_⟩, ?_, ?_, ?_⟩
  · have hle := fresh_number_le r base
    omega
  · exact fun _ _ _ => searches_iff
  · exact fun _ _ _ _ h => fresh_variable_of_searches h
  · exact fun _ _ _ _ h =>
      ⟨mint_constant_of_searches h, fun args => mint_function_of_searches args h⟩
  · exact fun _ hclear => (handed_out_nodup hclear r).1

namespace Sample

/-- A registry in which the first candidates are in use, one as a variable and one as a constant. -/
def crowded : Registry :=
  { consts := [⟨"X_2"⟩], vars := [{ name := "sk0" }, { name := "X" }] }

/-- Requests on bases some of which continue others by digits. -/
def requests : List Operation :=
  [.mintConstant "sk", .freshVariable { name := "X" }, .mintFunction "sk" [], .mintConstant "",
    .mintConstant "sk1", .mintFunction "X_" [.var { name := "X" }]]

end Sample

open Sample in
theorem fresh_names_correct_crowded :
    Searches "sk" 2 crowded "sk1" { crowded with counter := 2 } ∧
      ((mintConstant "sk").run crowded).value.1 = ⟨"sk1"⟩ ∧ .clear ∉ requests ∧
      handedOut requests crowded = ["sk1", "X_3", "sk4", "5", "sk16", "X_7"] ∧
      (handedOut requests crowded).Nodup := by
  have hsearch : Searches "sk" 2 crowded "sk1" { crowded with counter := 2 } :=
    .again (by decide) (.found (by decide))
  have hclear : .clear ∉ requests := by simp [requests]
  obtain ⟨-, -, hmint, hnodup⟩ := fresh_names_correct crowded
  have hconstant := (hmint _ _ _ _ hsearch).1.1
  exact ⟨hsearch, congrArg Prod.fst hconstant, hclear, by decide +kernel, hnodup _ hclear⟩

end Clausal
