import Clausal.Proofs.Arity
import Clausal.Proofs.Skolem.Sites

/-!
# What a walk mints

`Formula.openings` lists the open variables that existentials bind, each at its site. A walk mints
one symbol for each copy of each of them: a constant where no universal variable stands above, and a
function of those that do otherwise. What becomes of the atoms is put together from the terms minted
and the constants chosen (`Skolemizes.mints`).
-/

namespace Clausal

open Variable (names)

variable {cfg : Config} {us vs : List Variable} {n : Nat} {r mid r' : Registry}

/-! ## Open variables of existentials -/

/-- An open variable that an existential binds, and the place of the existential. -/
structure Opening where
  var : Variable
  site : Site

/-- The open variables that an existential binds at this place. -/
def Site.openings (s : Site) : List Opening :=
  match s.node with
  | .ex vs _ => (vs.filter fun v => !v.isClosedWorld).map fun v => ⟨v, s⟩
  | _ => []

/-- How many copies are made of all the variables together. -/
def totalCopies (os : List Opening) : Nat := (os.map (·.site.copies)).sum

theorem total_copies_append {os os' : List Opening} :
    totalCopies (os ++ os') = totalCopies os + totalCopies os' := by
  simp [totalCopies]

theorem total_copies_of_site {s : Site} :
    totalCopies (vs.map fun v => ⟨v, s⟩) = vs.length * s.copies := by
  simp [totalCopies, Function.comp_def]

namespace Formula

variable {f g : Formula} {s : Site} {o : Opening}

/-- The open variables of existentials, in a formula that stands below `universals` and is copied
`copies` times. -/
def openings (universals : List Variable) (copies : Nat) (f : Formula) : List Opening :=
  (f.sites universals copies).flatMap Site.openings

theorem openings_binary {c : Connective} :
    (binary c f g).openings us n = f.openings us n ++ g.openings us n :=
  List.flatMap_append

/-- An existential's variables have as many copies as itself, and those below as many more as there
are tuples of constants. -/
theorem total_copies_ex {k : Nat} (h : ∀ v ∈ vs, v.domain ≠ some [])
    (hcopies : k * (n * domainProduct vs) =
      (copiesOf vs).length * totalCopies (f.openings us (n * domainProduct vs))) :
    totalCopies ((ex vs f).openings us n) =
      (vs.filter fun v => !v.isClosedWorld).length * n + k * n := by
  have hsplit : (ex vs f).openings us n =
      Site.openings ⟨ex vs f, us, n⟩ ++ f.openings us (n * domainProduct vs) := rfl
  obtain ⟨choice, hchoice⟩ := exists_copy vs
  have hpos : 0 < domainProduct vs := length_copies_of h ▸ List.length_pos_of_mem hchoice
  have hbelow : totalCopies (f.openings us (n * domainProduct vs)) = k * n := by
    refine Nat.eq_of_mul_eq_mul_right hpos ?_
    rw [Nat.mul_assoc, hcopies, length_copies_of h, Nat.mul_comm]
  rw [hsplit, total_copies_append, hbelow]
  exact congrArg (· + k * n) total_copies_of_site

theorem site_of_mem_openings (h : o ∈ f.openings us n) : o.site ∈ f.sites us n := by
  obtain ⟨s, hs, ho⟩ := List.mem_flatMap.1 h
  unfold Site.openings at ho
  split at ho
  · obtain ⟨_, _, rfl⟩ := List.mem_map.1 ho
    exact hs
  · cases ho

/-- The universal variables above a node are those of the formula's place and then some that the
formula binds. -/
theorem universals_of_mem_sites (h : s ∈ f.sites us n) :
    ∃ vs, s.universals = us ++ vs ∧ List.Sublist vs f.binders ∧ vs ⊆ f.expandedUniversals := by
  -- above the node at the top there are none but those of the formula's place
  have top {f : Formula} {us : List Variable} :
      ∃ vs, us = us ++ vs ∧ List.Sublist vs f.binders ∧ vs ⊆ f.expandedUniversals :=
    ⟨[], (List.append_nil us).symm, List.nil_sublist _, List.nil_subset _⟩
  induction f generalizing us n with
  | atom => exact List.mem_singleton.1 h ▸ top
  | not f ih =>
      rcases List.mem_cons.1 h with rfl | h
      · exact top
      · exact ih h
  | binary _ f g ihf ihg =>
      rcases List.mem_cons.1 h with rfl | h
      · exact top
      · rcases List.mem_append.1 h with h | h
        · obtain ⟨vs, heq, hsub, hmem⟩ := ihf h
          exact ⟨vs, heq, hsub.trans (List.sublist_append_left ..),
            List.subset_append_of_subset_left _ hmem⟩
        · obtain ⟨vs, heq, hsub, hmem⟩ := ihg h
          exact ⟨vs, heq, hsub.trans (List.sublist_append_right ..),
            List.subset_append_of_subset_right _ hmem⟩
  | quant q ws f ih =>
      cases q with
      | all =>
          rcases List.mem_cons.1 h with rfl | h
          · exact top
          · obtain ⟨vs, heq, hsub, hmem⟩ := ih h
            refine ⟨ws ++ vs, heq.trans (List.append_assoc ..), hsub.append_left ws, ?_⟩
            exact List.append_subset.2 ⟨List.subset_append_left ..,
              List.subset_append_of_subset_right _ hmem⟩
      | ex =>
          rcases List.mem_cons.1 h with rfl | h
          · exact top
          · obtain ⟨vs, heq, hsub, hmem⟩ := ih h
            obtain ⟨choice, hchoice⟩ := exists_copy ws
            exact ⟨vs, heq, hsub.trans (List.sublist_append_right ..), fun v hv =>
              List.mem_flatMap.2 ⟨choice, hchoice, hmem hv⟩⟩

end Formula

/-! ## Minted symbols -/

/-- The name of a symbol that was minted for an open variable. -/
structure Minting extends Opening where
  name : String

namespace Minting

/-- The Skolem term that the variable gets. -/
def term (m : Minting) : Term :=
  if m.site.universals.isEmpty then .const ⟨m.name⟩
  else .skolem m.name (m.site.universals.map .var)

/-- The constant, where no universal variable stands above. -/
def constant? (m : Minting) : Option Constant :=
  if m.site.universals.isEmpty then some ⟨m.name⟩ else none

/-- The function of the universal variables, where there are some. -/
def function? (m : Minting) : Option SkolemSymbol :=
  if m.site.universals.isEmpty then none else some ⟨m.name, m.site.universals.length⟩

theorem vars_term {m : Minting} : m.term.vars = m.site.universals := by
  unfold term
  split
  · next hempty => rw [List.isEmpty_iff.1 hempty, Term.vars]
  · simp [Term.vars, List.flatMap_map]

/-- Each name is that of a constant or of a function. -/
theorem names_perm {ms : List Minting} : (ms.map (·.name)).Perm
    ((ms.filterMap constant?).map (·.name) ++ (ms.filterMap function?).map (·.name)) := by
  induction ms with
  | nil => exact .nil
  | cons m ms ih =>
      cases hempty : m.site.universals.isEmpty with
      | true => simpa [constant?, function?, hempty] using ih
      | false =>
          simp only [List.map_cons, List.filterMap_cons, constant?, function?, hempty]
          exact (ih.cons m.name).trans List.perm_middle.symm

end Minting

/-- The registry grows by the symbols `ms`, in this order, minted for variables among `os`. -/
structure Mints (os : List Opening) (r : Registry) (ms : List Minting) (r' : Registry) :
    Prop where
  grows : r.Grows r'
  consts : r.addedConsts r' = ms.filterMap Minting.constant?
  skolems : r.addedSkolems r' = ms.filterMap Minting.function?
  openings : ∀ m ∈ ms, m.toOpening ∈ os

namespace Mints

variable {os os' : List Opening} {ms ms' : List Minting} {m m' : Minting}

theorem refl (r : Registry) : Mints os r [] r :=
  ⟨.refl r, Registry.added_consts_self, Registry.added_skolems_self,
    fun _ h => absurd h List.not_mem_nil⟩

/-- One symbol is minted. -/
theorem single (h : r.Adds r' m.constant?.toList [] m.function?.toList) :
    Mints [m.toOpening] r [m] r' where
  grows := h.grows
  consts := h.consts.trans (by cases hconst : m.constant? <;> simp [hconst])
  skolems := h.skolems.trans (by cases hfunction : m.function? <;> simp [hfunction])
  openings := List.forall_mem_singleton.2 (List.mem_singleton.2 rfl)

theorem mono (h : Mints os r ms r') (hsubset : os ⊆ os') : Mints os' r ms r' :=
  { h with openings := fun m hm => hsubset (h.openings m hm) }

theorem append (h : Mints os r ms mid) (h' : Mints os' mid ms' r') :
    Mints (os ++ os') r (ms ++ ms') r' where
  grows := h.grows.trans h'.grows
  consts := by
    rw [Registry.Grows.added_consts_trans h.grows h'.grows, h.consts, h'.consts,
      List.filterMap_append]
  skolems := by
    rw [Registry.Grows.added_skolems_trans h.grows h'.grows, h.skolems, h'.skolems,
      List.filterMap_append]
  openings := List.forall_mem_append.2
    ⟨fun m hm => List.mem_append_left _ (h.openings m hm),
      fun m hm => List.mem_append_right _ (h'.openings m hm)⟩

/-- The names minted are those of the constants and functions added. -/
theorem names_perm (h : Mints os r ms r') : (ms.map (·.name)).Perm
    ((r.addedConsts r').map (·.name) ++ (r.addedSkolems r').map (·.name)) := by
  rw [h.consts, h.skolems]
  exact Minting.names_perm

/-- A function is recorded with the number of universal variables above. -/
theorem arity (h : Mints os r ms r') (hm : m ∈ ms) (hne : m.site.universals ≠ []) :
    r'.skolemArity? m.name = some m.site.universals.length := by
  have hfunction : m.function? = some ⟨m.name, m.site.universals.length⟩ :=
    if_neg (mt List.isEmpty_iff.1 hne)
  exact h.grows.records (h.skolems ▸ List.mem_filterMap.2 ⟨m, hm, hfunction⟩)

/-- Each name is minted once. -/
theorem nodup (h : Mints os r ms r') : (ms.map (·.name)).Nodup := by
  rw [h.names_perm.nodup_iff]
  exact h.grows.nodup.sublist ((List.sublist_append_left ..).append_right _)

theorem name_mem (h : Mints os r ms r') (hm : m ∈ ms) : m.name ∈ r.addedNames r' := by
  have hname := h.names_perm.subset (List.mem_map_of_mem (f := (·.name)) hm)
  exact ((List.sublist_append_left ..).append_right _).subset hname

theorem eq_of_name_eq (h : Mints os r ms r') (hm : m ∈ ms) (hm' : m' ∈ ms)
    (hname : m.name = m'.name) : m = m' :=
  List.inj_on_of_nodup_map h.nodup hm hm' hname

theorem length_eq (h : Mints os r ms r') :
    (r.addedConsts r').length + (r.addedSkolems r').length = ms.length := by
  have hlength := h.names_perm.length_eq
  simpa using hlength.symm

end Mints

/-- A Skolem term is that of a symbol minted for its variable. -/
theorem MintsTerm.mints {o : Opening} {t : Term} (h : MintsTerm o.site.universals r t r') :
    ∃ m : Minting, m.toOpening = o ∧ m.term = t ∧ Mints [o] r [m] r' := by
  cases h with
  | const c hus hadds =>
      let m : Minting := { o with name := c.name }
      have hempty : m.site.universals.isEmpty = true := List.isEmpty_iff.2 hus
      refine ⟨m, rfl, if_pos hempty, .single (m := m) ?_⟩
      rwa [Minting.constant?, Minting.function?, if_pos hempty, if_pos hempty]
  | func name hus hadds =>
      let m : Minting := { o with name := name }
      have hne : ¬ m.site.universals.isEmpty = true := mt List.isEmpty_iff.1 hus
      refine ⟨m, rfl, if_neg hne, .single (m := m) ?_⟩
      rwa [Minting.constant?, Minting.function?, if_neg hne, if_neg hne]

/-- The Skolem terms of a quantifier are those of symbols minted for its variables in turn. -/
theorem MintsTerms.mints {s : Site} {p : Pending} (h : MintsTerms s.universals vs r p r') :
    ∃ ms, Mints (vs.map fun v => ⟨v, s⟩) r ms r' ∧ ms.length = vs.length ∧
      p = ms.map fun m => (m.var, m.term) := by
  induction h with
  | nil r => exact ⟨[], .refl r, rfl, rfl⟩
  | @cons v vs xb p r mid r' hstep _ ih =>
      obtain ⟨m, hopening, hterm, hm⟩ := MintsTerm.mints (o := ⟨v, s⟩) hstep.2
      obtain ⟨ms, hms, hlength, rfl⟩ := ih
      have hvar : m.var = v := congrArg Opening.var hopening
      refine ⟨m :: ms, hm.append hms, congrArg (· + 1) hlength, ?_⟩
      rw [List.map_cons, hvar, hterm, ← hstep.1]

/-! ## Walks -/

/-- The term is put in place of one of the variables `vs`: it was minted for it, or it is a constant
of its domain. -/
inductive Instantiates (vs : List Variable) (ms : List Minting) : Variable → Term → Prop where
  | minted {m : Minting} : m ∈ ms → m.var ∈ vs → Instantiates vs ms m.var m.term
  | chosen {v : Variable} {cs : List Constant} {c : Constant} : v ∈ vs → v.domain = some cs →
      c ∈ cs → Instantiates vs ms v (.const c)

namespace Instantiates

variable {ws : List Variable} {ms ms' : List Minting} {v : Variable} {t : Term}

theorem mono (h : Instantiates vs ms v t) (hvs : vs ⊆ ws) (hms : ms ⊆ ms') :
    Instantiates ws ms' v t := by
  cases h with
  | minted hm hv => exact .minted (hms hm) (hvs hv)
  | chosen hv hdomain hc => exact .chosen (hvs hv) hdomain hc

theorem mem (h : Instantiates vs ms v t) : v ∈ vs := by
  cases h with
  | minted _ hv => exact hv
  | chosen hv => exact hv

/-- The variables of the term are universal ones. -/
theorem vars_subset (h : Instantiates vs ms v t) :
    t.vars ⊆ ms.flatMap fun m => m.site.universals := by
  cases h with
  | minted hm => exact fun w hw => List.mem_flatMap.2 ⟨_, hm, Minting.vars_term ▸ hw⟩
  | chosen => exact List.nil_subset _

end Instantiates

/-- The atoms of `g` are atoms of `f` after some of the pending replacements and of those that
existentials of `f` bring in. -/
def Fills (p : Pending) (f : Formula) (ms : List Minting) (g : Formula) : Prop :=
  ∀ a ∈ g.atoms, ∃ b ∈ f.atoms, ∃ q : Pending, a = q.apply b ∧
    ∀ xb ∈ q, xb ∈ p ∨ Instantiates f.existentials ms xb.1 xb.2

theorem Fills.mono {p p' : Pending} {f f' g : Formula} {ms ms' : List Minting}
    (h : Fills p f ms g) (hatoms : f.atoms ⊆ f'.atoms) (hvars : f.existentials ⊆ f'.existentials)
    (hms : ms ⊆ ms') (hp : ∀ xb ∈ p, xb ∈ p' ∨ Instantiates f'.existentials ms' xb.1 xb.2) :
    Fills p' f' ms' g := by
  intro a ha
  obtain ⟨b, hb, q, rfl, hq⟩ := h a ha
  refine ⟨b, hatoms hb, q, rfl, fun xb hxb => ?_⟩
  rcases hq xb hxb with hmem | hnew
  · exact hp xb hmem
  · exact .inr (hnew.mono hvars hms)

/-- What fills a copy of a body fills its existential, whose variables were replaced as well. -/
theorem Fills.copy {p choice : Pending} {f g : Formula} {s : Site} {own ms : List Minting}
    (h : Fills (p.below vs ++ ((own.map fun m => (m.var, m.term)) ++ choice)) f ms g)
    (hown : Mints ((vs.filter fun v => !v.isClosedWorld).map fun v => ⟨v, s⟩) r own mid)
    (hchoice : choice ∈ copiesOf vs) : Fills p (.ex vs f) (own ++ ms) g := by
  refine h.mono (List.Subset.refl _) (List.subset_append_right ..)
    (List.subset_append_right ..) fun xb hxb => ?_
  simp only [List.mem_append] at hxb
  rcases hxb with hxb | hxb | hxb
  · exact .inl (Pending.below_subset hxb)
  · obtain ⟨m, hm, rfl⟩ := List.mem_map.1 hxb
    obtain ⟨v, hv, heq⟩ := List.mem_map.1 (hown.openings m hm)
    have hvar : m.var ∈ vs := congrArg Opening.var heq ▸ List.mem_of_mem_filter hv
    exact .inr (.minted (List.mem_append_left _ hm) (List.mem_append_left _ hvar))
  · obtain ⟨hv, cs, hdomain, c, hc, hterm⟩ := copy_chooses hchoice hxb
    exact .inr (hterm ▸ .chosen (List.mem_append_left _ hv) hdomain hc)

/-- Copies of one formula mint one after the other, each for the same variables and as many. -/
theorem Threads.mints {α : Type} {os : List Opening} {P : List Minting → Formula → Prop} {k : Nat}
    {xs : List α} {gs : List Formula} (hmono : ∀ {ms ms' g}, ms ⊆ ms' → P ms g → P ms' g)
    (h : Threads (fun _ r g r' => ∃ ms, Mints os r ms r' ∧ ms.length * n = k ∧ P ms g)
      xs r gs r') :
    ∃ ms, Mints os r ms r' ∧ ms.length * n = xs.length * k ∧ ∀ g ∈ gs, P ms g := by
  induction h with
  | nil r => exact ⟨[], .refl r, by simp, fun _ h => absurd h List.not_mem_nil⟩
  | cons hstep _ ih =>
      obtain ⟨ms, hms, hcount, hg⟩ := hstep
      obtain ⟨ms', hms', hcount', hgs⟩ := ih
      have hsame : os ++ os ⊆ os :=
        List.append_subset.2 ⟨List.Subset.refl _, List.Subset.refl _⟩
      refine ⟨ms ++ ms', (hms.append hms').mono hsame, ?_,
        List.forall_mem_cons.2 ⟨?_, fun g hg' => ?_⟩⟩
      · rw [List.length_append, Nat.add_mul, hcount, hcount', List.length_cons, Nat.succ_mul,
          Nat.add_comm]
      · exact hmono (List.subset_append_left ..) hg
      · exact hmono (List.subset_append_right ..) (hgs g hg')

/-- A walk mints for each open variable of an existential as many symbols as there are copies of
it, here counted relative to the `n` copies made of the formula, and puts in place of existential
variables what it mints and chooses. -/
theorem Skolemizes.mints {p : Pending} {f g : Formula} (h : Skolemizes cfg us p f r g r')
    (hf : f.RangesInhabited) (n : Nat) :
    ∃ ms, Mints (f.openings us n) r ms r' ∧ ms.length * n = totalCopies (f.openings us n) ∧
      Fills p f ms g := by
  induction h using Skolemizes.induction generalizing n with
  | @atom us p r a | @not us p r a =>
      refine ⟨[], .refl r, Nat.zero_mul n, fun b hb => ?_⟩
      cases List.mem_singleton.1 hb
      exact ⟨a, List.mem_singleton.2 rfl, p, rfl, fun _ hxb => .inl hxb⟩
  | binary _ _ _ _ ihf ihg =>
      obtain ⟨hleft, hright⟩ := List.forall_mem_append.1 hf
      obtain ⟨ms, hms, hcount, hfill⟩ := ihf hleft n
      obtain ⟨ms', hms', hcount', hfill'⟩ := ihg hright n
      rw [Formula.openings_binary, total_copies_append]
      refine ⟨ms ++ ms', hms.append hms', ?_, List.forall_mem_append.2 ⟨?_, ?_⟩⟩
      · rw [List.length_append, Nat.add_mul, hcount, hcount']
      · exact hfill.mono (List.subset_append_left ..) (List.subset_append_left ..)
          (List.subset_append_left ..) fun _ => .inl
      · exact hfill'.mono (List.subset_append_right ..) (List.subset_append_right ..)
          (List.subset_append_right ..) fun _ => .inl
  | all _ _ ih =>
      obtain ⟨ms, hms, hcount, hfill⟩ := ih (List.forall_mem_append.1 hf).2 n
      exact ⟨ms, hms, hcount, hfill.mono (List.Subset.refl _) (List.Subset.refl _)
        (List.Subset.refl _) fun _ hxb => .inl (Pending.below_subset hxb)⟩
  | @ex us p vs f terms copies g r mid r' hterms hcopies hjoin _ =>
      obtain ⟨hvs, hbody⟩ := List.forall_mem_append.1 hf
      obtain ⟨own, hown, hlength, rfl⟩ := MintsTerms.mints (s := ⟨.ex vs f, us, n⟩) hterms
      -- symbols minted in other copies do no harm
      have hmono {ms ms' : List Minting} {g : Formula} (hsubset : ms ⊆ ms')
          (hfill : Fills p (.ex vs f) (own ++ ms) g) : Fills p (.ex vs f) (own ++ ms') g :=
        hfill.mono (List.Subset.refl _) (List.Subset.refl _)
          (List.append_subset.2 ⟨List.subset_append_left ..,
            List.subset_append_of_subset_right _ hsubset⟩) fun _ => .inl
      obtain ⟨ms, hms, hcount, hfills⟩ := Threads.mints (n := n * domainProduct vs)
        (P := fun ms g => Fills p (.ex vs f) (own ++ ms) g) hmono <|
        hcopies.mono fun choice hchoice r g r' ⟨_, ih⟩ =>
          have ⟨ms, hms, hcount, hfill⟩ := ih hbody (n * domainProduct vs)
          ⟨ms, hms, hcount, hfill.copy hown hchoice⟩
      refine ⟨own ++ ms, hown.append hms, ?_, fun a ha => ?_⟩
      · rw [List.length_append, Nat.add_mul, hlength, Formula.total_copies_ex hvs hcount]
      · rw [Formula.flat_map_of_disjunction (m := Formula.atoms) (fun _ _ => rfl) hjoin] at ha
        obtain ⟨g', hg', ha⟩ := List.mem_flatMap.1 ha
        exact hfills g' hg' a ha

end Clausal
