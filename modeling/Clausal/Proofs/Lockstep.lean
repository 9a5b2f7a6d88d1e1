import Clausal.Proofs.Attempt
import Clausal.Proofs.Renaming

/-!
# Runs from two registries

An attempt made from two registries adds different names, since other names are in use. `Starts` are
two registries that hold some symbols in common. A renaming `Matches` what the runs have added so
far when it keeps the common symbols and takes the additions of one run to those of the other, one
by one; it then separates all these symbols (`Matches.separates`), and there always is one as long
as the additions are equally many (`Starts.matches_transfer`). `Lockstep` says of two attempts that
they fail alike, or succeed alike with values that every such renaming takes to one another.
-/

namespace Clausal

namespace Registry

/-- Both registries grow, and by equally many symbols of each kind. -/
structure GrowAlike (r₁ r₂ r₁' r₂' : Registry) : Prop where
  left : r₁.Grows r₁'
  right : r₂.Grows r₂'
  consts : (r₁.addedConsts r₁').length = (r₂.addedConsts r₂').length
  vars : (r₁.addedVars r₁').length = (r₂.addedVars r₂').length
  skolems : (r₁.addedSkolems r₁').length = (r₂.addedSkolems r₂').length

/-- The renaming takes what the one registry grows by to what the other grows by, in order. -/
structure Carries (ρ : String → String) (r₁ r₂ r₁' r₂' : Registry) : Prop where
  consts : (r₁.addedConsts r₁').map (fun c => ρ c.name) = (r₂.addedConsts r₂').map (·.name)
  vars : (r₁.addedVars r₁').map (fun v => ρ v.name) = (r₂.addedVars r₂').map (·.name)
  skolems : (r₁.addedSkolems r₁').map (fun s => ρ s.name) = (r₂.addedSkolems r₂').map (·.name)

/-- The renaming that takes each name added to `r₁` to the one in its place among those added to
`r₂`. -/
def transfer (r₁ r₂ r₁' r₂' : Registry) : String → String :=
  matchUp (r₁.addedNames r₁') (r₂.addedNames r₂')

variable {ρ : String → String} {r₁ r₂ m₁ m₂ r₁' r₂' : Registry}

theorem Adds.grow_alike {cs cs' : List Constant} {vs vs' : List Variable}
    {ss ss' : List SkolemSymbol} (h₁ : r₁.Adds r₁' cs vs ss) (h₂ : r₂.Adds r₂' cs' vs' ss')
    (hcs : cs.length = cs'.length) (hvs : vs.length = vs'.length)
    (hss : ss.length = ss'.length) : GrowAlike r₁ r₂ r₁' r₂' where
  left := h₁.grows
  right := h₂.grows
  consts := by rw [h₁.consts, h₂.consts, hcs]
  vars := by rw [h₁.vars, h₂.vars, hvs]
  skolems := by rw [h₁.skolems, h₂.skolems, hss]

namespace GrowAlike

theorem refl (r₁ r₂ : Registry) : GrowAlike r₁ r₂ r₁ r₂ where
  left := .refl r₁
  right := .refl r₂
  consts := by simp
  vars := by simp
  skolems := by simp

theorem trans (h : GrowAlike r₁ r₂ m₁ m₂) (h' : GrowAlike m₁ m₂ r₁' r₂') :
    GrowAlike r₁ r₂ r₁' r₂' where
  left := h.left.trans h'.left
  right := h.right.trans h'.right
  consts := by
    rw [h.left.added_consts_trans h'.left, h.right.added_consts_trans h'.right,
      List.length_append, List.length_append, h.consts, h'.consts]
  vars := by
    rw [h.left.added_vars_trans h'.left, h.right.added_vars_trans h'.right,
      List.length_append, List.length_append, h.vars, h'.vars]
  skolems := by
    rw [h.left.added_skolems_trans h'.left, h.right.added_skolems_trans h'.right,
      List.length_append, List.length_append, h.skolems, h'.skolems]

theorem length_names (h : GrowAlike r₁ r₂ r₁' r₂') :
    (r₁.addedNames r₁').length = (r₂.addedNames r₂').length := by
  simp [addedNames, h.consts, h.vars, h.skolems]

end GrowAlike

namespace Carries

theorem map_names (h : Carries ρ r₁ r₂ r₁' r₂') :
    (r₁.addedNames r₁').map ρ = r₂.addedNames r₂' := by
  simp only [addedNames, List.map_append, List.map_map, Function.comp_def, h.consts, h.vars,
    h.skolems]

/-- What a renaming carries over two steps it carries over each of them. -/
theorem split (h : GrowAlike r₁ r₂ m₁ m₂) (h' : GrowAlike m₁ m₂ r₁' r₂')
    (hρ : Carries ρ r₁ r₂ r₁' r₂') : Carries ρ r₁ r₂ m₁ m₂ ∧ Carries ρ m₁ m₂ r₁' r₂' := by
  obtain ⟨hconsts, hvars, hskolems⟩ := hρ
  rw [h.left.added_consts_trans h'.left, h.right.added_consts_trans h'.right, List.map_append,
    List.map_append] at hconsts
  rw [h.left.added_vars_trans h'.left, h.right.added_vars_trans h'.right, List.map_append,
    List.map_append] at hvars
  rw [h.left.added_skolems_trans h'.left, h.right.added_skolems_trans h'.right, List.map_append,
    List.map_append] at hskolems
  obtain ⟨hconsts, hconsts'⟩ := List.append_inj hconsts (by simp [h.consts])
  obtain ⟨hvars, hvars'⟩ := List.append_inj hvars (by simp [h.vars])
  obtain ⟨hskolems, hskolems'⟩ := List.append_inj hskolems (by simp [h.skolems])
  exact ⟨⟨hconsts, hvars, hskolems⟩, ⟨hconsts', hvars', hskolems'⟩⟩

end Carries

/-- The kinds of symbols stand one after the other, so a renaming carries each of them when it takes
all names to all names. -/
theorem GrowAlike.carries_of_map_names (h : GrowAlike r₁ r₂ r₁' r₂')
    (hnames : (r₁.addedNames r₁').map ρ = r₂.addedNames r₂') : Carries ρ r₁ r₂ r₁' r₂' := by
  simp only [addedNames, List.map_append, List.map_map] at hnames
  obtain ⟨hnames, hskolems⟩ := List.append_inj hnames (by simp [h.consts, h.vars])
  obtain ⟨hconsts, hvars⟩ := List.append_inj hnames (by simp [h.consts])
  exact ⟨hconsts, hvars, hskolems⟩

theorem GrowAlike.carries_transfer (h : GrowAlike r₁ r₂ r₁' r₂') :
    Carries (transfer r₁ r₂ r₁' r₂') r₁ r₂ r₁' r₂' :=
  h.carries_of_map_names (map_match_up h.left.nodup h.length_names)

end Registry

open Registry (GrowAlike Carries)

/-! ## Two starts -/

/-- Two registries that hold the given symbols. -/
structure Starts where
  symbols : List Symbol
  left : Registry
  right : Registry
  left_holds : symbols ⊆ left.symbols
  right_holds : symbols ⊆ right.symbols

namespace Starts

variable {w : Starts} {ρ : String → String} {r₁ r₂ m₁ m₂ r₁' r₂' : Registry}

/-- The runs have come to `r₁` and `r₂`. -/
abbrev Reach (w : Starts) (r₁ r₂ : Registry) : Prop := GrowAlike w.left w.right r₁ r₂

/-- The common symbols, and those that the first run has added. -/
def known (w : Starts) (r : Registry) : List Symbol := w.symbols ++ w.left.addedSymbols r

/-- The renaming keeps the common symbols and takes what the first run has added to what the second
run has. -/
structure Matches (w : Starts) (ρ : String → String) (r₁ r₂ : Registry) : Prop where
  fixes : Fixes ρ w.symbols
  carries : Carries ρ w.left w.right r₁ r₂

theorem known_mono (h : w.left.Grows r₁) (h' : r₁.Grows r₁') : w.known r₁ ⊆ w.known r₁' := by
  refine List.append_subset.2 ⟨List.subset_append_left .., ?_⟩
  exact List.subset_append_of_subset_right _ (Registry.Grows.added_symbols_left h h')

/-- What the first run adds next is known then. -/
theorem added_subset_known (h : w.left.Grows r₁) (h' : r₁.Grows r₁') :
    r₁.addedSymbols r₁' ⊆ w.known r₁' :=
  List.subset_append_of_subset_right _ (Registry.Grows.added_symbols_right h h')

namespace Matches

theorem split (h : w.Matches ρ r₁' r₂') (hreach : w.Reach r₁ r₂)
    (halike : GrowAlike r₁ r₂ r₁' r₂') : w.Matches ρ r₁ r₂ ∧ Carries ρ r₁ r₂ r₁' r₂' := by
  obtain ⟨hbefore, hsince⟩ := Carries.split hreach halike h.carries
  exact ⟨⟨h.fixes, hbefore⟩, hsince⟩

/-- A common symbol keeps its name and an added one takes a name that was not in use, so none is
confused with another. -/
theorem separates (h : w.Matches ρ r₁ r₂) (hreach : w.Reach r₁ r₂) :
    Separates ρ (w.known r₁) := by
  have hmapped : (w.left.addedNames r₁).map ρ = w.right.addedNames r₂ := h.carries.map_names
  refine h.fixes.separates (w.left.addedNames r₁) ?_ ?_ ?_
  · rw [hmapped]
    exact hreach.right.nodup
  · intro σ hσ
    rw [hmapped]
    exact hreach.right.name_not_added (w.right_holds hσ)
  · intro σ hσ
    exact (List.mem_append.1 hσ).imp_right Registry.name_mem_of_mem_added_symbols

end Matches

/-- What the runs have come to is matched. -/
theorem matches_transfer (hreach : w.Reach r₁ r₂) :
    w.Matches (Registry.transfer w.left w.right r₁ r₂) r₁ r₂ where
  fixes := fixes_match_up hreach.length_names fun _ hσ =>
    hreach.left.name_not_added (w.left_holds hσ)
  carries := hreach.carries_transfer

/-! ## Values and attempts -/

/-- Several variables with their new names. -/
abbrev renameVars (ρ : String → String) : List Variable → List Variable :=
  List.map (Variable.rename ρ)

section Values

variable {α β : Type} {ren : (String → String) → α → α} {ren' : (String → String) → β → β}
  {a₁ a₂ : α} {x₁ x₂ : Attempt α}

/-- Every renaming that matches the runs takes `a₁` to `a₂`. -/
def Mates (w : Starts) (ren : (String → String) → α → α) (a₁ a₂ : α) (r₁ r₂ : Registry) : Prop :=
  ∀ ρ, w.Matches ρ r₁ r₂ → ren ρ a₁ = a₂

/-- What is matched now is so later. -/
theorem Mates.later (h : w.Mates ren a₁ a₂ r₁ r₂) (hreach : w.Reach r₁ r₂)
    (halike : GrowAlike r₁ r₂ r₁' r₂') : w.Mates ren a₁ a₂ r₁' r₂' :=
  fun ρ hρ => h ρ (hρ.split hreach halike).1

/-- When lists match, so do their members. -/
theorem Mates.of_mem {xs : List α} {a : α}
    (h : w.Mates (fun ρ => List.map (ren ρ)) xs (xs.map (ren ρ)) r₁ r₂) (ha : a ∈ xs) :
    w.Mates ren a (ren ρ a) r₁ r₂ :=
  fun _ hρ => List.map_inj_left.1 (h _ hρ) a ha

/-- Both attempts fail with one error, or both succeed with values that match. -/
def Lockstep (w : Starts) (ren : (String → String) → α → α) (x₁ x₂ : Attempt α)
    (r₁ r₂ : Registry) : Prop :=
  (∃ e, x₁.Fails r₁ e ∧ x₂.Fails r₂ e) ∨
  ∃ a₁ r₁' a₂ r₂', x₁.Yields r₁ a₁ r₁' ∧ x₂.Yields r₂ a₂ r₂' ∧ GrowAlike r₁ r₂ r₁' r₂' ∧
    w.Mates ren a₁ a₂ r₁' r₂'

namespace Lockstep

theorem pure (h : w.Mates ren a₁ a₂ r₁ r₂) :
    w.Lockstep ren (Pure.pure a₁) (Pure.pure a₂) r₁ r₂ :=
  .inr ⟨a₁, r₁, a₂, r₂, Attempt.yields_pure.2 ⟨rfl, rfl⟩, Attempt.yields_pure.2 ⟨rfl, rfl⟩,
    .refl r₁ r₂, h⟩

theorem throw (e : Error) : w.Lockstep ren (MonadExcept.throw e) (MonadExcept.throw e) r₁ r₂ :=
  .inl ⟨e, rfl, rfl⟩

/-- Attempts that go on in lockstep from where successful ones end. -/
theorem after {k₁ k₂ : α → Attempt β} (h₁ : x₁.Yields r₁ a₁ m₁) (h₂ : x₂.Yields r₂ a₂ m₂)
    (halike : GrowAlike r₁ r₂ m₁ m₂) (hk : w.Lockstep ren' (k₁ a₁) (k₂ a₂) m₁ m₂) :
    w.Lockstep ren' (x₁ >>= k₁) (x₂ >>= k₂) r₁ r₂ := by
  rcases hk with ⟨e, hk₁, hk₂⟩ | ⟨b₁, r₁', b₂, r₂', hk₁, hk₂, halike', hmates⟩
  · exact .inl ⟨e, Attempt.fails_bind.2 (.inr ⟨a₁, m₁, h₁, hk₁⟩),
      Attempt.fails_bind.2 (.inr ⟨a₂, m₂, h₂, hk₂⟩)⟩
  · exact .inr ⟨b₁, r₁', b₂, r₂', Attempt.yields_bind.2 ⟨a₁, m₁, h₁, hk₁⟩,
      Attempt.yields_bind.2 ⟨a₂, m₂, h₂, hk₂⟩, halike.trans halike', hmates⟩

/-- Attempts that go on in lockstep from wherever the first ones end. -/
theorem bind {k₁ k₂ : α → Attempt β} (hx : w.Lockstep ren x₁ x₂ r₁ r₂)
    (hk : ∀ a₁ m₁ a₂ m₂, x₁.Yields r₁ a₁ m₁ → GrowAlike r₁ r₂ m₁ m₂ →
      w.Mates ren a₁ a₂ m₁ m₂ → w.Lockstep ren' (k₁ a₁) (k₂ a₂) m₁ m₂) :
    w.Lockstep ren' (x₁ >>= k₁) (x₂ >>= k₂) r₁ r₂ := by
  rcases hx with ⟨e, h₁, h₂⟩ | ⟨a₁, m₁, a₂, m₂, h₁, h₂, halike, hmates⟩
  · exact .inl ⟨e, Attempt.fails_bind.2 (.inl h₁), Attempt.fails_bind.2 (.inl h₂)⟩
  · exact .after h₁ h₂ halike (hk a₁ m₁ a₂ m₂ h₁ halike hmates)

theorem atomically (h : w.Lockstep ren x₁ x₂ r₁ r₂) :
    w.Lockstep ren (Attempt.atomically x₁) (Attempt.atomically x₂) r₁ r₂ := by
  simpa only [Lockstep, Attempt.fails_atomically, Attempt.yields_atomically] using h

/-- Walks along two lists, in lockstep at each place. -/
theorem map_m {γ : Type} {h₁ h₂ : γ → Attempt α} {xs₁ xs₂ : List γ} (hreach : w.Reach r₁ r₂)
    (hsteps : List.Forall₂ (fun x₁ x₂ => ∀ m₁ m₂, GrowAlike r₁ r₂ m₁ m₂ →
      w.Lockstep ren (h₁ x₁) (h₂ x₂) m₁ m₂) xs₁ xs₂) :
    w.Lockstep (fun ρ => List.map (ren ρ)) (xs₁.mapM h₁) (xs₂.mapM h₂) r₁ r₂ := by
  -- each step starts where the one before it ended, so the induction is over all later registries
  suffices h : ∀ m₁ m₂, GrowAlike r₁ r₂ m₁ m₂ →
      w.Lockstep (fun ρ => List.map (ren ρ)) (xs₁.mapM h₁) (xs₂.mapM h₂) m₁ m₂ from
    h r₁ r₂ (.refl r₁ r₂)
  induction hsteps with
  | nil => exact fun _ _ _ => .pure fun _ _ => rfl
  | cons hstep _ ih =>
      intro m₁ m₂ halike
      rw [List.mapM_cons, List.mapM_cons]
      refine (hstep m₁ m₂ halike).bind ?_
      intro a₁ n₁ a₂ n₂ _ hfirst hmates
      refine (ih n₁ n₂ (halike.trans hfirst)).bind ?_
      intro as₁ l₁ as₂ l₂ _ hrest hmates'
      refine .pure ?_
      intro ρ hρ
      have hhead : ren ρ a₁ = a₂ := hmates.later ((hreach.trans halike).trans hfirst) hrest ρ hρ
      have htail : as₁.map (ren ρ) = as₂ := hmates' ρ hρ
      show (a₁ :: as₁).map (ren ρ) = a₂ :: as₂
      rw [List.map_cons, hhead, htail]

end Lockstep

end Values

end Starts

end Clausal
