import Clausal.Proofs.Attempt
import Clausal.Proofs.Symbols
import Clausal.Semantics

/-!
# What the truth of a formula depends on

A quantifier chooses values for all its variables at once (`holds_for_iff`), and when their names
are distinct it chooses an assignment (`holds_quant_iff`). `holds_congr` says that truth depends
on the meaning of the formula's symbols and on the values of its free names only.
`Interpretation.Variant` relates structures that differ on added symbols.
-/

namespace Clausal

open Variable (names)

universe u

variable {U : Type u}

/-! ## Quantifiers -/

namespace Quantifier

variable {A : Type u} {range range' p p' : A → Prop} {q : Quantifier}

theorem ranges_congr (hrange : ∀ a, range a ↔ range' a)
    (hp : ∀ a, range a → (p a ↔ p' a)) : q.Ranges range p ↔ q.Ranges range' p' := by
  cases q with
  | all => exact forall_congr' fun a => by rw [← hrange]; exact forall_congr' (hp a)
  | ex => exact exists_congr fun a => by rw [← hrange]; exact and_congr_right (hp a)

/-- Negation exchanges the quantifiers. -/
theorem not_ranges : ¬ q.Ranges range p ↔ q.dual.Ranges range fun a => ¬ p a := by
  cases q <;> simp [Ranges, dual]

end Quantifier

/-- The assignment with the values `as` for the variables `vs`, later ones over earlier ones. -/
def assignAll (s : Assignment U) : List Variable → List U → Assignment U
  | v :: vs, a :: as => assignAll (Function.update s v.name a) vs as
  | _, _ => s

section AssignAll

variable {s t : Assignment U} {vs : List Variable} {as : List U} {name : String}

theorem assign_all_of_not_mem (h : name ∉ names vs) : assignAll s vs as name = s name := by
  induction vs generalizing s as with
  | nil => rfl
  | cons v vs ih =>
      simp only [List.map_cons, List.mem_cons, not_or] at h
      cases as with
      | nil => rfl
      | cons a as => rw [assignAll, ih h.2, Function.update_of_ne h.1]

/-- Values given to the same variables make assignments agree where they agreed before, and at
these variables. -/
theorem assign_all_congr (hlength : as.length = vs.length)
    (h : name ∉ names vs → s name = t name) :
    assignAll s vs as name = assignAll t vs as name := by
  induction vs generalizing s t as with
  | nil => exact h List.not_mem_nil
  | cons v vs ih =>
      cases as with
      | nil => cases hlength
      | cons a as =>
          refine ih (Nat.succ.inj hlength) fun hnot => ?_
          by_cases hname : name = v.name
          · simp [hname]
          · rw [Function.update_of_ne hname, Function.update_of_ne hname]
            exact h (by simp [hname, hnot])

/-- Giving the variables the values they have in `t` leads to `t` where it differs from `s` at
these variables only. -/
theorem assign_all_self (h : ∀ name, name ∉ names vs → t name = s name) :
    assignAll s vs (vs.map fun v => t v.name) = t := by
  induction vs generalizing s with
  | nil => exact funext fun name => (h name List.not_mem_nil).symm
  | cons v vs ih =>
      refine ih fun name hnot => ?_
      by_cases hname : name = v.name
      · simp [hname]
      · rw [Function.update_of_ne hname]
        exact h name (by simp [hname, hnot])

/-- Variables of distinct names have the values they were given. -/
theorem map_assign_all (hnodup : (names vs).Nodup) (hlength : as.length = vs.length) :
    vs.map (fun v => assignAll s vs as v.name) = as := by
  induction vs generalizing s as with
  | nil => exact (List.length_eq_zero_iff.1 hlength).symm
  | cons v vs ih =>
      cases as with
      | nil => cases hlength
      | cons a as =>
          obtain ⟨hnot, hnodup⟩ := List.nodup_cons.1 hnodup
          simp only [List.map_cons, assignAll]
          rw [ih hnodup (Nat.succ.inj hlength), assign_all_of_not_mem hnot,
            Function.update_self]

end AssignAll

namespace Interpretation

variable {M N : Interpretation U} {s t : Assignment U} {vs : List Variable} {q : Quantifier}

/-- A quantifier over several variables chooses their values together. -/
theorem holds_for_iff {p : Assignment U → Prop} :
    M.HoldsFor q p vs s ↔
      q.Ranges (fun as => List.Forall₂ M.InRange vs as) fun as => p (assignAll s vs as) := by
  induction vs generalizing s with
  | nil => cases q <;> simp [HoldsFor, Quantifier.Ranges, assignAll]
  | cons v vs ih =>
      cases q with
      | all =>
          simp only [HoldsFor, Quantifier.Ranges, List.forall₂_cons_left_iff, ih]
          constructor
          · rintro h _ ⟨a, as, ha, has, rfl⟩
            exact h a ha as has
          · exact fun h a ha as has => h _ ⟨a, as, ha, has, rfl⟩
      | ex =>
          simp only [HoldsFor, Quantifier.Ranges, List.forall₂_cons_left_iff, ih]
          constructor
          · rintro ⟨a, ha, as, has, h⟩
            exact ⟨_, ⟨a, as, ha, has, rfl⟩, h⟩
          · rintro ⟨_, ⟨a, as, ha, has, rfl⟩, h⟩
            exact ⟨a, ha, as, has, h⟩

/-- `t` is `s` with other values for the variables `vs`, each in its range. -/
def Rebinds (M : Interpretation U) (vs : List Variable) (s t : Assignment U) : Prop :=
  (∀ name, name ∉ names vs → t name = s name) ∧ ∀ v ∈ vs, M.InRange v (t v.name)

theorem Rebinds.forall₂ (h : M.Rebinds vs s t) :
    List.Forall₂ M.InRange vs (vs.map fun v => t v.name) := by
  rw [List.forall₂_map_right_iff, List.forall₂_same]
  exact h.2

theorem rebinds_assign_all {as : List U} (hnodup : (names vs).Nodup)
    (h : List.Forall₂ M.InRange vs as) : M.Rebinds vs s (assignAll s vs as) := by
  refine ⟨fun name hnot => assign_all_of_not_mem hnot, ?_⟩
  rw [← map_assign_all (s := s) hnodup h.length_eq.symm, List.forall₂_map_right_iff,
    List.forall₂_same] at h
  exact h

/-- What holds for all values holds under every rebinding. -/
theorem holds_of_holds_all {f : Formula} (h : M.Holds s (.all vs f)) (ht : M.Rebinds vs s t) :
    M.Holds t f := by
  have hvalues : M.Holds (assignAll s vs (vs.map fun v => t v.name)) f :=
    holds_for_iff.1 h _ ht.forall₂
  rwa [assign_all_self ht.1] at hvalues

/-- What holds under some rebinding holds for some values. -/
theorem holds_ex_of_holds {f : Formula} (ht : M.Rebinds vs s t) (h : M.Holds t f) :
    M.Holds s (.ex vs f) := by
  refine holds_for_iff.2 ⟨_, ht.forall₂, ?_⟩
  show M.Holds (assignAll s vs (vs.map fun v => t v.name)) f
  rwa [assign_all_self ht.1]

/-- A quantifier over variables of distinct names chooses a rebinding. -/
theorem holds_quant_iff {f : Formula} (hnodup : (names vs).Nodup) :
    M.Holds s (.quant q vs f) ↔ q.Ranges (M.Rebinds vs s) fun t => M.Holds t f := by
  cases q with
  | all =>
      refine ⟨fun h t ht => holds_of_holds_all h ht, fun h => holds_for_iff.2 fun as has => ?_⟩
      exact h _ (rebinds_assign_all hnodup has)
  | ex =>
      refine ⟨fun h => ?_, fun ⟨t, ht, h⟩ => holds_ex_of_holds ht h⟩
      obtain ⟨as, has, h⟩ := holds_for_iff.1 h
      exact ⟨_, rebinds_assign_all hnodup has, h⟩

/-! ## Substitution and agreement -/

/-- Putting terms in place of variables has the effect of giving the variables their values. -/
theorem value_bind {h : Variable → Term} {a : Term}
    (hvalue : ∀ v ∈ a.vars, M.value s (h v) = t v.name) : M.value s (a.bind h) = M.value t a := by
  induction a using Term.induction with
  | hconst => rfl
  | hvar v => exact hvalue v (List.mem_singleton.2 rfl)
  | hskolem name args ih =>
      simp only [Term.vars, Term.vars_all_eq, List.mem_flatMap] at hvalue
      simp only [Term.bind, Term.bind_all_eq, value, values_eq_map, List.map_map]
      congr 1
      exact List.map_congr_left fun a ha => ih a ha fun v hv => hvalue v ⟨a, ha, hv⟩

theorem holds_atom_bind {h : Variable → Term} {a : Atom}
    (hvalue : ∀ v ∈ a.vars, M.value s (h v) = t v.name) :
    M.HoldsAtom s (a.mapTerms (Term.bind h)) ↔ M.HoldsAtom t a := by
  simp only [Atom.vars, List.mem_flatMap] at hvalue
  have hvalues : a.terms.map (M.value s ∘ Term.bind h) = a.terms.map (M.value t) :=
    List.map_congr_left fun b hb => value_bind fun v hv => hvalue v ⟨b, hb, hv⟩
  simp [HoldsAtom, Atom.mapTerms, hvalues]

/-- Replacing a variable has the effect of giving it the value of the term. -/
theorem holds_atom_subst {x : Variable} {b : Term} {a : Atom} :
    M.HoldsAtom s (a.subst x b) ↔ M.HoldsAtom (Function.update s x.name (M.value s b)) a := by
  refine holds_atom_bind fun v _ => ?_
  by_cases hname : v.name = x.name
  · simp [Variable.same_iff.2 hname, hname]
  · simp [Variable.same, hname, value]

/-- The structures give the same meaning to all predicates and to the given symbols. -/
structure AgreesOn (M N : Interpretation U) (symbols : List Symbol) : Prop where
  pred : M.pred = N.pred
  const : ∀ name, .const name ∈ symbols → M.const name = N.const name
  func : ∀ name, .skolem name ∈ symbols → M.func name = N.func name

theorem AgreesOn.mono {S T : List Symbol} (h : M.AgreesOn N T) (hsubset : S ⊆ T) :
    M.AgreesOn N S :=
  ⟨h.pred, fun name hname => h.const name (hsubset hname),
    fun name hname => h.func name (hsubset hname)⟩

theorem AgreesOn.symm {S : List Symbol} (h : M.AgreesOn N S) : N.AgreesOn M S :=
  ⟨h.pred.symm, fun name hname => (h.const name hname).symm,
    fun name hname => (h.func name hname).symm⟩

theorem value_congr {a : Term} (hM : M.AgreesOn N a.symbols)
    (hs : ∀ v ∈ a.vars, s v.name = t v.name) : M.value s a = N.value t a := by
  induction a using Term.induction with
  | hconst c => exact hM.const c.name (List.mem_singleton.2 rfl)
  | hvar v => exact hs v (List.mem_singleton.2 rfl)
  | hskolem name args ih =>
      simp only [Term.vars, Term.vars_all_eq, List.mem_flatMap] at hs
      simp only [value, values_eq_map, hM.func name (List.mem_cons_self ..)]
      congr 1
      refine List.map_congr_left fun a ha => ih a ha (hM.mono ?_) fun v hv => hs v ⟨a, ha, hv⟩
      rw [Term.symbols, Term.symbols_all_eq]
      exact fun σ hσ => List.mem_cons_of_mem _ (List.mem_flatMap.2 ⟨a, ha, hσ⟩)

theorem holds_atom_congr {a : Atom} (hM : M.AgreesOn N a.symbols)
    (hs : ∀ name ∈ names a.vars, s name = t name) : M.HoldsAtom s a ↔ N.HoldsAtom t a := by
  have hvalues : a.terms.map (M.value s) = a.terms.map (N.value t) := by
    refine List.map_congr_left fun b hb => value_congr (hM.mono ?_) fun v hv => hs _ ?_
    · exact fun σ hσ => List.mem_flatMap.2 ⟨b, hb, hσ⟩
    · exact List.mem_map_of_mem (List.mem_flatMap.2 ⟨b, hb, hv⟩)
  simp [HoldsAtom, hvalues, hM.pred]

theorem in_range_congr {v : Variable} {a : U} (hM : M.AgreesOn N v.symbols) :
    M.InRange v a ↔ N.InRange v a := by
  unfold InRange
  cases hdomain : v.domain with
  | none => rfl
  | some cs =>
      refine exists_congr fun c => and_congr_right fun hc => ?_
      rw [hM.const c.name]
      refine List.mem_cons_of_mem _ (List.mem_map.2 ⟨c, ?_, rfl⟩)
      simpa [hdomain] using hc

theorem forall₂_in_range_congr {as : List U} (hM : ∀ v ∈ vs, M.AgreesOn N v.symbols) :
    List.Forall₂ M.InRange vs as ↔ List.Forall₂ N.InRange vs as := by
  induction vs generalizing as with
  | nil => simp
  | cons v vs ih =>
      simp only [List.forall₂_cons_left_iff]
      refine exists_congr fun a => exists_congr fun as' => and_congr
        (in_range_congr (hM v (List.mem_cons_self ..))) (and_congr_left fun _ => ?_)
      exact ih fun w hw => hM w (List.mem_cons_of_mem _ hw)

theorem Rebinds.agrees (h : M.Rebinds vs s t) (hM : ∀ v ∈ vs, M.AgreesOn N v.symbols) :
    N.Rebinds vs s t :=
  ⟨h.1, fun v hv => (in_range_congr (hM v hv)).1 (h.2 v hv)⟩

/-- Truth depends on the symbols of a formula and on the values of its free names only. -/
theorem holds_congr {f : Formula} (hM : M.AgreesOn N f.symbols)
    (hs : ∀ name ∈ f.freeNames, s name = t name) : M.Holds s f ↔ N.Holds t f := by
  induction f generalizing s t with
  | atom a => exact holds_atom_congr hM hs
  | not f ih => exact not_congr (ih hM hs)
  | binary c f g ihf ihg =>
      have hf := ihf (hM.mono (List.subset_append_left ..))
        fun name hname => hs name (Formula.mem_free_names_binary.2 (.inl hname))
      have hg := ihg (hM.mono (List.subset_append_right ..))
        fun name hname => hs name (Formula.mem_free_names_binary.2 (.inr hname))
      cases c <;> simp only [Holds, Connective.Combines, hf, hg]
  | quant q vs f ih =>
      simp only [Holds, holds_for_iff]
      refine Quantifier.ranges_congr (fun as => forall₂_in_range_congr fun v hv => hM.mono ?_)
        fun as has => ih (hM.mono (List.subset_append_right ..)) fun name hname => ?_
      · exact fun σ hσ => List.mem_append_left _ (List.mem_flatMap.2 ⟨v, hv, hσ⟩)
      · refine assign_all_congr has.length_eq.symm fun hnot => hs name ?_
        exact Formula.mem_free_names_quant.2 ⟨hname, hnot⟩

theorem AgreesOn.refl {S : List Symbol} : M.AgreesOn M S :=
  ⟨rfl, fun _ _ => rfl, fun _ _ => rfl⟩

/-- Truth depends on the values of the free names only. -/
theorem holds_congr_assignment {f : Formula} (hs : ∀ name ∈ f.freeNames, s name = t name) :
    M.Holds s f ↔ M.Holds t f :=
  holds_congr .refl hs

/-! ## Variants of a structure -/

/-- `N` is `M` but for the constants and Skolem functions that `r'` holds beyond those of `r`. -/
structure Variant (M N : Interpretation U) (r r' : Registry) : Prop where
  pred : N.pred = M.pred
  const : ∀ name, name ∉ (r.addedConsts r').map (·.name) → N.const name = M.const name
  func : ∀ name (args : List U), ⟨name, args.length⟩ ∉ r.addedSkolems r' →
    N.func name args = M.func name args

namespace Variant

variable {r mid r' : Registry} {L : Interpretation U}

theorem refl (M : Interpretation U) (r r' : Registry) : M.Variant M r r' :=
  ⟨rfl, fun _ _ => rfl, fun _ _ _ => rfl⟩

theorem trans (hgrows : r.Grows mid) (hgrows' : mid.Grows r') (h : L.Variant M r mid)
    (h' : M.Variant N mid r') : L.Variant N r r' where
  pred := h'.pred.trans h.pred
  const := by
    intro name hname
    rw [hgrows.added_consts_trans hgrows', List.map_append, List.mem_append, not_or] at hname
    rw [h'.const name hname.2, h.const name hname.1]
  func := by
    intro name args hname
    rw [hgrows.added_skolems_trans hgrows', List.mem_append, not_or] at hname
    rw [h'.func name args hname.2, h.func name args hname.1]

/-- A variant gives the old symbols their old meaning. -/
theorem agrees_on {S : List Symbol} (hgrows : r.Grows r') (h : M.Variant N r r')
    (hsymbols : S ⊆ r.symbols) : M.AgreesOn N S where
  pred := h.pred.symm
  const := by
    intro name hname
    have hold := Registry.name_mem_of_mem_symbols (hsymbols hname)
    refine (h.const name fun hadded => hgrows.fresh name ?_ hold).symm
    exact List.mem_append_left _ (List.mem_append_left _ hadded)
  func := by
    intro name hname
    have hold := Registry.name_mem_of_mem_symbols (hsymbols hname)
    refine funext fun args => (h.func name args fun hadded => hgrows.fresh name ?_ hold).symm
    exact List.mem_append_right _ (List.mem_map.2 ⟨_, hadded, rfl⟩)

end Variant

/-- Where each step has a variant that turns what holds of its element into something that holds of
its value, one variant does so for a whole walk. What the elements need (`H`) and what the values
are (`K`) must survive growth, and what holds (`B` and `A`) must survive variants. -/
theorem exists_variant_of_threads {α β : Type} {I : Type*} {R : α → Registry → β → Registry → Prop}
    {H : α → Registry → Prop} {K : β → Registry → Prop} {B : Interpretation U → α → I → Prop}
    {A : Interpretation U → β → I → Prop} {xs : List α} {ys : List β} {r r' : Registry}
    (hstep : ∀ {x r y r'}, R x r y r' → H x r → r.Grows r' ∧ K y r' ∧
      ∀ M : Interpretation U, ∃ N, M.Variant N r r' ∧ ∀ i, B M x i → A N y i)
    (hH : ∀ {x r r'}, r.Grows r' → H x r → H x r')
    (hB : ∀ {x r r' M N i}, r.Grows r' → H x r → M.Variant N r r' → B M x i → B N x i)
    (hA : ∀ {y r r' M N i}, r.Grows r' → K y r → M.Variant N r r' → A M y i → A N y i)
    (h : Threads R xs r ys r') (hxs : ∀ x ∈ xs, H x r) (M : Interpretation U) :
    r.Grows r' ∧ ∃ N, M.Variant N r r' ∧
      ∀ i, List.Forall₂ (fun x y => B M x i → A N y i) xs ys := by
  -- what holds in `M` still holds in the variant `L` that the walk has come to
  suffices hwalk : ∀ L : Interpretation U, (∀ x ∈ xs, ∀ i, B M x i → B L x i) → r.Grows r' ∧
      ∃ N, L.Variant N r r' ∧ ∀ i, List.Forall₂ (fun x y => B M x i → A N y i) xs ys from
    hwalk M fun _ _ _ hbefore => hbefore
  intro L hL
  induction h generalizing L with
  | nil r => exact ⟨.refl r, L, .refl L r r, fun _ => .nil⟩
  | cons hfirst _ ih =>
      obtain ⟨hx, hxs⟩ := List.forall_mem_cons.1 hxs
      obtain ⟨hLx, hLxs⟩ := List.forall_mem_cons.1 hL
      obtain ⟨hgrows, hy, hvariant⟩ := hstep hfirst hx
      obtain ⟨L', hL', hafter⟩ := hvariant L
      obtain ⟨hgrows', N, hN, hrest⟩ := ih (fun z hz => hH hgrows (hxs z hz)) L'
        fun z hz i hbefore => hB hgrows (hxs z hz) hL' (hLxs z hz i hbefore)
      refine ⟨hgrows.trans hgrows', N, hL'.trans hgrows hgrows' hN, fun i => .cons ?_ (hrest i)⟩
      exact fun hbefore => hA hgrows' hy hN (hafter i (hLx i hbefore))

end Interpretation

end Clausal
