import Clausal.Proofs.Lockstep.Apart
import Clausal.Proofs.Lockstep.Skolem
import Clausal.Proofs.Outcome

/-!
# Conversions do not depend on the registry

A conversion reads of its registry which names are in use, and nothing else. `to_cnf_lockstep` says
that conversions of one formula from two registries that hold its symbols are in lockstep: renaming,
minting and counting go the same way, and only the names of new symbols differ.
`to_cnf_independent` states this for single conversions, and for conversions of several formulas in
two orders, where one renaming does for all of them.
-/

namespace Clausal

open Registry (GrowAlike Carries)

/-- Copies of the same variables have the same source names. -/
theorem Variable.source_name_rename {ρ : String → String} {vs ws : List Variable}
    (h : List.Forall₂ Variable.Copies vs ws)
    (h' : List.Forall₂ Variable.Copies vs (ws.map (Variable.rename ρ))) :
    ∀ w ∈ ws, (w.rename ρ).sourceName = w.sourceName := by
  rw [List.forall₂_map_right_iff] at h'
  induction h with
  | nil => exact fun _ hw => absurd hw List.not_mem_nil
  | cons hcopy _ ih =>
      obtain ⟨hcopy', hrest⟩ := List.forall₂_cons.1 h'
      exact List.forall_mem_cons.2 ⟨hcopy'.2.trans hcopy.2.symm, ih hrest⟩

variable {w : Starts} {cfg : Config} {f g₁ g₂ : Formula} {r r₁ r₂ m₁ m₂ : Registry}

namespace Starts

/-- After standardizing apart, both runs go on with the same task. -/
theorem standardize_apart_same_walk (hreach : w.Reach r₁ r₂) (hf : f.symbols ⊆ w.symbols)
    (h₁ : (f.standardizeApart.run r₁).value = (g₁, m₁))
    (h₂ : (f.standardizeApart.run r₂).value = (g₂, m₂)) :
    GrowAlike r₁ r₂ m₁ m₂ ∧ w.SameWalk [] [] [] [] g₁ g₂ m₁ m₂ := by
  obtain ⟨halike, hmates⟩ := standardize_apart_lockstep hreach hf h₁ h₂
  have hknown : g₁.symbols ⊆ w.known m₁ :=
    standardize_apart_symbols h₁ (List.subset_append_of_subset_left _ hf)
      (added_subset_known hreach.left halike.left)
  refine ⟨halike, ?_⟩
  exact
    { within := .top hknown
      keys := fun _ h => absurd h List.not_mem_nil
      sources := by
        intro v hv ρ hρ
        have hcopies := standardize_apart_copies h₂
        rw [← hmates ρ hρ, Formula.binders_rename] at hcopies
        exact Variable.source_name_rename (standardize_apart_copies h₁) hcopies v hv
      universals := fun _ _ => rfl
      pending := fun _ _ => rfl
      formula := hmates }

/-- Noting the forms that the formulas have reached makes no difference. -/
theorem Lockstep.reach {α : Type} {ren : (String → String) → α → α} {m : Milestone}
    {k₁ k₂ : Unit → Attempt α} (hk : w.Lockstep ren (k₁ ()) (k₂ ()) r₁ r₂) :
    w.Lockstep ren (g₁.reach m >>= k₁) (g₂.reach m >>= k₂) r₁ r₂ :=
  .after (Attempt.yields_note.2 rfl) (Attempt.yields_note.2 rfl) (.refl r₁ r₂) hk

/-- Conversions of one formula are in lockstep. -/
theorem to_cnf_lockstep (cfg : Config) (hreach : w.Reach r₁ r₂) (hf : f.symbols ⊆ w.symbols) :
    w.Lockstep Formula.rename (f.toCnf cfg) (f.toCnf cfg) r₁ r₂ := by
  have hnnf : f.toNnf.symbols ⊆ w.symbols :=
    List.Subset.trans Formula.symbols_signed_nnf_subset hf
  obtain ⟨g₁, m₁, h₁⟩ : ∃ g m, (f.toNnf.standardizeApart.run r₁).value = (g, m) := ⟨_, _, rfl⟩
  obtain ⟨g₂, m₂, h₂⟩ : ∃ g m, (f.toNnf.standardizeApart.run r₂).value = (g, m) := ⟨_, _, rfl⟩
  obtain ⟨halike, hwalk⟩ := standardize_apart_same_walk hreach hnnf h₁ h₂
  have hnnf₁ : g₁.isNnf = true := (standardize_apart_is_nnf h₁).trans Formula.is_nnf_to_nnf
  refine Lockstep.atomically ?_
  -- the normal forms before this are the same in both runs, as they need no registry
  simp only [Formula.runConversion, Formula.to_nnf_eliminate_arrows]
  refine .reach (.reach (.reach ?_))
  refine .after (Attempt.yields_action.2 h₁) (Attempt.yields_action.2 h₂) halike ?_
  refine .reach ?_
  have hreach := hreach.trans halike
  refine (walks_alike hnnf₁ 1 hreach hwalk).atomically.bind ?_
  intro k₁ l₁ k₂ l₂ hskolem halike hmates
  have hreach := hreach.trans halike
  obtain ⟨hnnf, hex⟩ := Skolemizes.shape ⟨1, Attempt.yields_atomically.1 hskolem⟩
  obtain ⟨c, hc⟩ := exists_distribute_drop hnnf hex
  -- distribution has a rule for the first result, so it has one for the renamed one
  have hrenamed (ρ) (hρ : w.Matches ρ l₁ l₂) :
      k₂.dropUniversals.distribute = .ok (c.rename ρ) := by
    rw [← hmates ρ hρ, Formula.drop_rename]
    exact Formula.distribute_rename hc
  have hc₂ := hrenamed _ (matches_transfer hreach)
  refine .reach ?_
  refine .after (Attempt.yields_of_except.2 ⟨hc, rfl⟩) (Attempt.yields_of_except.2 ⟨hc₂, rfl⟩)
    (.refl l₁ l₂) ?_
  refine .reach ?_
  exact .pure fun ρ hρ => Except.ok.inj ((hrenamed ρ hρ).symm.trans hc₂)

end Starts

/-! ## One formula -/

/-- The symbols added to `r₁` stand for those added to `r₂` in the same place: with their names,
which are confused neither with one another nor with those of the symbols `S`, `c₁` becomes `c₂`. -/
structure SameButNames (S : List Symbol) (r₁ r₂ r₁' r₂' : Registry) (c₁ c₂ : Formula) : Prop where
  carries : Carries (r₁.transfer r₂ r₁' r₂') r₁ r₂ r₁' r₂'
  fixes : Fixes (r₁.transfer r₂ r₁' r₂') S
  separates : Separates (r₁.transfer r₂ r₁' r₂') (S ++ r₁.addedSymbols r₁')
  within : c₁.symbols ⊆ S ++ r₁.addedSymbols r₁'
  renames : c₁.rename (r₁.transfer r₂ r₁' r₂') = c₂

/-! ## Several formulas in turn -/

/-- The formulas with the registries they are converted with, when they are converted in turn. -/
def turns (cfg : Config) : List Formula → Registry → List (Formula × Registry)
  | [], _ => []
  | f :: fs, r => (f, r) :: turns cfg fs ((f.toCnf cfg).after r)

/-- The registry that the conversions leave. -/
def afterTurns (cfg : Config) : List Formula → Registry → Registry
  | [], r => r
  | f :: fs, r => afterTurns cfg fs ((f.toCnf cfg).after r)

/-- What becomes of the formulas. -/
def outcomes (cfg : Config) (ts : List (Formula × Registry)) :
    List (Formula × Except Error Formula) :=
  ts.map fun t => (t.1, (t.1.toCnf cfg).outcome t.2)

/-- The names that one of the conversions adds. -/
def turnNames (cfg : Config) (t : Formula × Registry) : List String :=
  t.2.addedNames ((t.1.toCnf cfg).after t.2)

theorem turns_grows (cfg : Config) (fs : List Formula) (r : Registry) :
    ∀ t ∈ turns cfg fs r, r.Grows t.2 := by
  induction fs generalizing r with
  | nil => exact fun _ h => absurd h List.not_mem_nil
  | cons f fs ih =>
      have hfirst := (to_cnf_atomic cfg f).grows_after r
      exact List.forall_mem_cons.2 ⟨.refl r, fun t ht => hfirst.trans (ih _ t ht)⟩

theorem map_fst_turns (cfg : Config) (fs : List Formula) (r : Registry) :
    (turns cfg fs r).map Prod.fst = fs := by
  induction fs generalizing r with
  | nil => rfl
  | cons f fs ih => rw [turns, List.map_cons, ih]

/-- The conversions add names one after the other. -/
theorem turn_names_perm (cfg : Config) (fs : List Formula) (r : Registry) :
    r.Grows (afterTurns cfg fs r) ∧
      ((turns cfg fs r).flatMap (turnNames cfg)).Perm (r.addedNames (afterTurns cfg fs r)) := by
  induction fs generalizing r with
  | nil => exact ⟨.refl r, by simp [turns, afterTurns]⟩
  | cons f fs ih =>
      have hfirst := (to_cnf_atomic cfg f).grows_after r
      obtain ⟨hrest, hperm⟩ := ih ((f.toCnf cfg).after r)
      refine ⟨hfirst.trans hrest, ?_⟩
      rw [turns, List.flatMap_cons]
      exact (hperm.append_left _).trans (Registry.Grows.added_names_perm hfirst hrest).symm

/-- The outcome with the new names of its symbols. -/
def renameOutcome (ρ : String → String) (o : Formula × Except Error Formula) :
    Formula × Except Error Formula :=
  (o.1, o.2.map (Formula.rename ρ))

/-- The two conversions are of one formula and add equally many names, and a renaming that keeps the
symbols `S` and takes the names of one to those of the other makes one outcome of the other. -/
structure AlikeTurns (cfg : Config) (S : List Symbol) (t t' : Formula × Registry) : Prop where
  formula : t.1 = t'.1
  length : (turnNames cfg t).length = (turnNames cfg t').length
  outcome : ∀ ρ, Fixes ρ S → (turnNames cfg t).map ρ = turnNames cfg t' →
    ((t.1.toCnf cfg).outcome t.2).map (Formula.rename ρ) = (t'.1.toCnf cfg).outcome t'.2

section Turns

variable {S : List Symbol} {ts ts' : List (Formula × Registry)} {fs gs : List Formula}
  {ρ : String → String}

theorem alike_turns (hf : f.symbols ⊆ S) (h₁ : S ⊆ r₁.symbols) (h₂ : S ⊆ r₂.symbols) :
    AlikeTurns cfg S (f, r₁) (f, r₂) := by
  let w : Starts := ⟨S, r₁, r₂, h₁, h₂⟩
  rcases w.to_cnf_lockstep cfg (.refl r₁ r₂) hf with
    ⟨e, hf₁, hf₂⟩ | ⟨c₁, _, c₂, _, ⟨hc₁, rfl⟩, ⟨hc₂, rfl⟩, halike, hmates⟩
  · -- a conversion that fails adds no names
    have hnone₁ : turnNames cfg (f, r₁) = [] := by
      rw [turnNames, (to_cnf_atomic cfg f).restores hf₁, Registry.added_names_self]
    have hnone₂ : turnNames cfg (f, r₂) = [] := by
      rw [turnNames, (to_cnf_atomic cfg f).restores hf₂, Registry.added_names_self]
    refine ⟨rfl, by rw [hnone₁, hnone₂], ?_⟩
    intro ρ _ _
    rw [hf₁, hf₂, Except.map]
  · refine ⟨rfl, halike.length_names, ?_⟩
    intro ρ hfixes hnames
    have hrenamed : c₁.rename ρ = c₂ := hmates ρ ⟨hfixes, halike.carries_of_map_names hnames⟩
    rw [hc₁, hc₂, Except.map, hrenamed]

theorem length_turn_names (h : List.Forall₂ (AlikeTurns cfg S) ts ts') :
    (ts.flatMap (turnNames cfg)).length = (ts'.flatMap (turnNames cfg)).length := by
  induction h with
  | nil => rfl
  | cons hturn _ ih =>
      rw [List.flatMap_cons, List.flatMap_cons, List.length_append, List.length_append, ih,
        hturn.length]

/-- One renaming for all conversions. -/
theorem outcomes_rename (h : List.Forall₂ (AlikeTurns cfg S) ts ts') (hfixes : Fixes ρ S)
    (hnames : (ts.flatMap (turnNames cfg)).map ρ = ts'.flatMap (turnNames cfg)) :
    (outcomes cfg ts).map (renameOutcome ρ) = outcomes cfg ts' := by
  induction h with
  | nil => rfl
  | cons hturn _ ih =>
      rw [List.flatMap_cons, List.flatMap_cons, List.map_append] at hnames
      obtain ⟨hfirst, hrest⟩ := List.append_inj hnames (by rw [List.length_map, hturn.length])
      exact congrArg₂ List.cons
        (Prod.ext hturn.formula (hturn.outcome ρ hfixes hfirst)) (ih hrest)

/-- The conversions of the formulas in another order can be put in the first one, and then those of
one formula stand in one place. -/
theorem exists_turns_in_order (cfg : Config) (hfs : ∀ f ∈ fs, f.Registered r)
    (hperm : fs.Perm gs) :
    ∃ ts : List (Formula × Registry), ts.Perm (turns cfg gs r) ∧
      List.Forall₂ (AlikeTurns cfg r.symbols) (turns cfg fs r) ts := by
  have hformulas : fs.Perm ((turns cfg gs r).map Prod.fst) := by rwa [map_fst_turns]
  have hcomp := congrFun (congrFun (List.eq_map_comp_perm Prod.fst) fs) (turns cfg gs r)
  obtain ⟨ts, hts, horder⟩ := hcomp.mpr hformulas
  refine ⟨ts, horder, ?_⟩
  have hsame : List.Forall₂ Eq ((turns cfg fs r).map Prod.fst) (ts.map Prod.fst) := by
    rw [map_fst_turns, ← hts]
    exact List.forall₂_refl fs
  have hsame := List.forall₂_map_left_iff.1 (List.forall₂_map_right_iff.1 hsame)
  have hfirst : ∀ t ∈ turns cfg fs r, t.1.Registered r ∧ r.Grows t.2 := by
    intro t ht
    have hf : t.1 ∈ (turns cfg fs r).map Prod.fst := List.mem_map_of_mem ht
    rw [map_fst_turns] at hf
    exact ⟨hfs t.1 hf, turns_grows cfg fs r t ht⟩
  have hsecond : ∀ t ∈ ts, r.Grows t.2 := fun t ht =>
    turns_grows cfg gs r t (horder.subset ht)
  have hboth := (List.forall₂_and_left _ _).2 ⟨hfirst, hsame⟩
  have hboth := ((List.forall₂_and_left _ _).2 ⟨hsecond, hboth.flip⟩).flip
  refine hboth.imp ?_
  rintro ⟨f, r₁⟩ ⟨_, r₂⟩ ⟨hgrows', ⟨hf, hgrows⟩, rfl⟩
  exact alike_turns hf hgrows.symbols_subset hgrows'.symbols_subset

/-- Formulas that are converted in another order become the same but for the names of new symbols,
which one renaming takes to one another. -/
theorem outcomes_perm (hfs : ∀ f ∈ fs, f.Registered r) (hperm : fs.Perm gs) :
    ∃ ρ, Fixes ρ r.symbols ∧ Separates ρ (afterTurns cfg fs r).symbols ∧
      ((outcomes cfg (turns cfg fs r)).map (renameOutcome ρ)).Perm
        (outcomes cfg (turns cfg gs r)) := by
  obtain ⟨ts, horder, halike⟩ := exists_turns_in_order cfg hfs hperm
  obtain ⟨hgrows, hnames⟩ := turn_names_perm cfg fs r
  obtain ⟨hgrows', hnames'⟩ := turn_names_perm cfg gs r
  -- a name is matched with the one in its place when both orders are read in the first one
  have hnames' := (horder.flatMap_right (turnNames cfg)).trans hnames'
  have hlength := length_turn_names halike
  have hmapped := map_match_up (hnames.nodup_iff.2 hgrows.nodup) hlength
  have hfixes : Fixes (matchUp _ _) r.symbols := fixes_match_up hlength fun σ hσ hadded =>
    hgrows.name_not_added hσ (hnames.subset hadded)
  refine ⟨matchUp _ _, hfixes, ?_, ?_⟩
  · refine hfixes.separates ((turns cfg fs r).flatMap (turnNames cfg)) ?_ ?_ ?_
    · rw [hmapped]
      exact hnames'.nodup_iff.2 hgrows'.nodup
    · intro σ hσ hadded
      rw [hmapped] at hadded
      exact hgrows'.name_not_added hσ (hnames'.subset hadded)
    · intro σ hσ
      refine (hgrows.mem_symbols.1 hσ).imp_right ?_
      intro hadded
      exact hnames.symm.subset (Registry.name_mem_of_mem_added_symbols hadded)
  · rw [outcomes_rename halike hfixes hmapped]
    exact horder.map _

end Turns

/-! ## Independence -/

namespace Sample

/-- Another registry with the symbols of `registry`, where `sk0` is in use and numbers start
at 7. -/
def otherRegistry : Registry := { registry with consts := [a, ⟨"sk0"⟩, b], counter := 7 }

end Sample

/-- Conversions from two registries that hold the symbols of the formula fail with one error, or
give normal forms that are the same but for the names of new symbols: the first one added stands for
the first one added, and so on for each kind. So formulas that are converted in another order become
the same but for these names, which one renaming takes to one another. -/
theorem to_cnf_independent (cfg : Config) :
    (∀ {f : Formula} {r₁ r₂ : Registry}, f.Registered r₁ → f.Registered r₂ →
      (∃ e, (f.toCnf cfg).outcome r₁ = .error e ∧ (f.toCnf cfg).outcome r₂ = .error e) ∨
      ∃ c₁ c₂, (f.toCnf cfg).outcome r₁ = .ok c₁ ∧ (f.toCnf cfg).outcome r₂ = .ok c₂ ∧
        SameButNames f.symbols r₁ r₂ ((f.toCnf cfg).after r₁) ((f.toCnf cfg).after r₂) c₁ c₂) ∧
    ∀ {fs gs : List Formula} {r : Registry}, (∀ f ∈ fs, f.Registered r) → fs.Perm gs →
      ∃ ρ, Fixes ρ r.symbols ∧ Separates ρ (afterTurns cfg fs r).symbols ∧
        ((outcomes cfg (turns cfg fs r)).map (renameOutcome ρ)).Perm
          (outcomes cfg (turns cfg gs r)) := by
  refine ⟨?_, outcomes_perm⟩
  intro f r₁ r₂ h₁ h₂
  let w : Starts := ⟨f.symbols, r₁, r₂, h₁, h₂⟩
  rcases w.to_cnf_lockstep cfg (.refl r₁ r₂) (List.Subset.refl _) with
    ⟨e, hf₁, hf₂⟩ | ⟨c₁, r₁', c₂, r₂', ⟨hc₁, rfl⟩, ⟨hc₂, rfl⟩, hreach, hmates⟩
  · exact .inl ⟨e, hf₁, hf₂⟩
  · have hmatch := Starts.matches_transfer (w := w) hreach
    obtain ⟨g, mid, k, hstages⟩ := to_cnf_stages (Attempt.yields_of_outcome hc₁)
    have hwithin : c₁.symbols ⊆ f.symbols ++ r₁.addedSymbols ((f.toCnf cfg).after r₁) :=
      hstages.symbols_subset (List.subset_append_left ..) (List.subset_append_right ..)
    exact .inr ⟨c₁, c₂, hc₁, hc₂, hmatch.carries, hmatch.fixes, hmatch.separates hreach, hwithin,
      hmates _ hmatch⟩

open Sample in
theorem to_cnf_independent_balanced :
    balanced.Registered registry ∧ balanced.Registered otherRegistry ∧
    registry.addedNames ((balanced.toCnf {}).after registry) ≠
      otherRegistry.addedNames ((balanced.toCnf {}).after otherRegistry) ∧
    (∃ c₁ c₂, (balanced.toCnf {}).outcome registry = .ok c₁ ∧
      (balanced.toCnf {}).outcome otherRegistry = .ok c₂ ∧
      SameButNames balanced.symbols registry otherRegistry ((balanced.toCnf {}).after registry)
        ((balanced.toCnf {}).after otherRegistry) c₁ c₂) ∧
    (∀ f ∈ [balanced, mixed], f.Registered registry) ∧ [balanced, mixed].Perm [mixed, balanced] ∧
    ∃ ρ, Fixes ρ registry.symbols ∧
      Separates ρ (afterTurns {} [balanced, mixed] registry).symbols ∧
      ((outcomes {} (turns {} [balanced, mixed] registry)).map (renameOutcome ρ)).Perm
        (outcomes {} (turns {} [mixed, balanced] registry)) := by
  have h₁ : balanced.Registered registry := by decide
  have h₂ : balanced.Registered otherRegistry := by decide
  have hboth : ∀ f ∈ [balanced, mixed], f.Registered registry := by decide
  have hperm : [balanced, mixed].Perm [mixed, balanced] := .swap ..
  have hok : ((balanced.toCnf {}).outcome registry).isOk = true := by decide +kernel
  obtain ⟨hone, hmany⟩ := to_cnf_independent {}
  refine ⟨h₁, h₂, by decide +kernel, ?_, hboth, hperm, hmany hboth hperm⟩
  rcases hone h₁ h₂ with ⟨e, he, -⟩ | hsame
  · rw [he] at hok
    cases hok
  · exact hsame

end Clausal
