import Mathlib.Data.List.Basic
import Mathlib.Data.List.Induction
import Clausal.Proofs.Growth

/-!
# What users define

A definition adds its symbol when its name is a word that is not in use, and otherwise leaves the
registry alone. Users get variables in two ways: they define them, or they have copies made of such
variables (`Variable.Issued`). So the names of variables are words, and the domain of a variable
lists the constants that were given for it once each, in order of first occurrence
(`Variable.DefinedOver.domain_lists`).
-/

namespace Clausal

/-! ## Domains -/

/-- `ds` is not empty and lists the members of `cs` once each, in order of first occurrence. -/
structure ListsOnce (cs ds : List Constant) : Prop where
  nonempty : ds ≠ []
  nodup : ds.Nodup
  mem_iff : ∀ c, c ∈ ds ↔ c ∈ cs
  in_order : ds.Pairwise fun c d => cs.idxOf c < cs.idxOf d

theorem erase_dups_append_singleton {cs : List Constant} {c : Constant} :
    (cs ++ [c]).eraseDups = if c ∈ cs then cs.eraseDups else cs.eraseDups ++ [c] := by
  rw [List.eraseDups_append]
  split <;> simp [List.removeAll, List.eraseDups_cons, *]

/-- Without later occurrences the constants stand in order of their first ones. -/
theorem erase_dups_in_order (cs : List Constant) :
    cs.eraseDups.Pairwise fun c d => cs.idxOf c < cs.idxOf d := by
  induction cs using List.reverseRecOn with
  | nil => exact .nil
  | append_singleton cs c ih =>
      -- what was listed before stays at its index
      have hkept : ∀ d ∈ cs.eraseDups, (cs ++ [c]).idxOf d = cs.idxOf d := fun d hd =>
        List.idxOf_append_of_mem (List.mem_eraseDups.1 hd)
      have hold : cs.eraseDups.Pairwise fun d e => (cs ++ [c]).idxOf d < (cs ++ [c]).idxOf e :=
        ih.imp_of_mem fun hd he hlt => by rwa [hkept _ hd, hkept _ he]
      rw [erase_dups_append_singleton]
      split
      · exact hold
      · next hc =>
          refine List.pairwise_append.2 ⟨hold, List.pairwise_singleton .., fun d hd e he => ?_⟩
          rw [List.mem_singleton.1 he, hkept d hd, List.idxOf_append_of_notMem hc]
          exact Nat.lt_add_right _ (List.idxOf_lt_length_of_mem (List.mem_eraseDups.1 hd))

theorem lists_once_erase_dups {cs : List Constant} (h : cs ≠ []) : ListsOnce cs cs.eraseDups where
  nonempty := by
    obtain ⟨c, hc⟩ := List.exists_mem_of_ne_nil cs h
    exact List.ne_nil_of_mem (List.mem_eraseDups.2 hc)
  nodup := (erase_dups_in_order cs).imp fun hlt heq => by simp [heq] at hlt
  mem_iff := fun _ => List.mem_eraseDups
  in_order := erase_dups_in_order cs

variable {name : String} {given domain : Option (List Constant)} {r r' : Registry}

/-- A variable has a domain when it was given one, which it lists. -/
def DomainLists : Option (List Constant) → Option (List Constant) → Prop
  | none, domain => domain = none
  | some cs, domain => ∃ ds, domain = some ds ∧ ListsOnce cs ds

theorem check_domain_lists (h : checkDomain name given = .ok domain) :
    DomainLists given domain := by
  cases given with
  | none => exact (Except.ok.inj h).symm
  | some cs =>
      cases cs with
      | nil => cases h
      | cons c cs =>
          exact ⟨_, (Except.ok.inj h).symm, lists_once_erase_dups (List.cons_ne_nil c cs)⟩

theorem DomainLists.inhabited (h : DomainLists given domain) : domain ≠ some [] := by
  rintro rfl
  cases given with
  | none => cases h
  | some cs =>
      obtain ⟨ds, hds, hlists⟩ := h
      exact hlists.nonempty (Option.some.inj hds).symm

/-! ## Attempts that fail without a trace -/

namespace Attempt

variable {α β : Type}

/-- A failed attempt leaves the registry as it was. -/
def Restores (x : Attempt α) : Prop :=
  ∀ r e, x.outcome r = .error e → x.after r = r

namespace Restores

variable {x : Attempt α} {f : α → Attempt β}

theorem of_ok (h : ∀ r, ∃ a, x.outcome r = .ok a) : x.Restores := by
  intro r e herror
  obtain ⟨a, ha⟩ := h r
  rw [ha] at herror
  cases herror

/-- What changes nothing may come first. -/
theorem bind (hx : ∀ r, x.after r = r) (hf : ∀ a, (f a).Restores) : (x >>= f).Restores := by
  intro r e herror
  rw [after_bind]
  rcases outcome_bind_eq_error.1 herror with hfirst | ⟨a, hfirst, hsecond⟩
  · rw [hfirst]
    exact hx r
  · rw [hfirst]
    rw [hx r] at hsecond ⊢
    exact hf a r e hsecond

theorem throw {e : Error} : Restores (MonadExcept.throw e : Attempt α) := fun _ _ _ => rfl

end Restores

theorem after_lift_except {y : Except Error α} : (liftM y : Attempt α).after r = r := by
  cases y <;> rfl

theorem yields_set {new : Registry} {u : PUnit} :
    (set new : Attempt PUnit).Yields r u r' ↔ r' = new := by
  simp [Yields, eq_comm]

end Attempt

/-! ## Definitions -/

theorem check_name_ok {kind : SymbolKind} {u : Unit} :
    checkName kind name = .ok u ↔ Text.isWord name = true := by
  unfold checkName
  split <;> simp [*]

theorem check_unused_ok {α : Type} {kind : SymbolKind} {x : Option α} {u : Unit} :
    checkUnused kind name x.isSome = .ok u ↔ x = none := by
  cases x <;> simp [checkUnused]

/-- A constant is added under its capitalized name, which was not in use. -/
theorem define_constant_yields {c : Constant} (h : (defineConstant name).Yields r c r') :
    Text.isWord name = true ∧ c.name = Text.capitalize name ∧ r.storedConstant? c.name = none ∧
      r' = r.addConstant c := by
  simp only [defineConstant, Attempt.yields_bind, Attempt.yields_lift_except, Attempt.yields_get,
    Attempt.yields_note, Attempt.yields_set, Attempt.yields_pure, check_name_ok, check_unused_ok,
    exists_const, exists_eq_left, exists_and_left, exists_and_right, exists_eq] at h
  obtain ⟨_, ⟨hword, rfl⟩, _, ⟨rfl, -⟩, ⟨hunused, -⟩, rfl, rfl⟩ := h
  exact ⟨hword, rfl, hunused, rfl⟩

theorem define_constant_restores (name : String) : (defineConstant name).Restores :=
  .bind (fun _ => Attempt.after_lift_except) fun _ => .bind (fun _ => rfl) fun _ =>
    .bind (fun _ => Attempt.after_lift_except) fun _ => .of_ok fun _ => ⟨_, rfl⟩

/-- A variable is added under a word that was not in use, over the constants it was given. -/
theorem define_variable_yields {v : Variable} (h : (defineVariable name given).Yields r v r') :
    Text.isWord name = true ∧ v.name = name ∧ DomainLists given v.domain ∧
      r.variableNamed? v.name = none ∧ r' = r.addVariable v := by
  simp only [defineVariable, Attempt.yields_bind, Attempt.yields_lift_except, Attempt.yields_get,
    Attempt.yields_note, Attempt.yields_set, Attempt.yields_pure, check_name_ok, check_unused_ok,
    exists_const, exists_eq_left, exists_and_left, exists_and_right, exists_eq] at h
  obtain ⟨_, ⟨hword, rfl⟩, _, ⟨rfl, -⟩, ⟨hunused, -⟩, _, ⟨hdomain, -⟩, rfl, rfl⟩ := h
  exact ⟨hword, rfl, check_domain_lists hdomain, hunused, rfl⟩

theorem define_variable_restores (name : String) (given : Option (List Constant)) :
    (defineVariable name given).Restores :=
  .bind (fun _ => Attempt.after_lift_except) fun _ => .bind (fun _ => rfl) fun _ =>
    .bind (fun _ => Attempt.after_lift_except) fun _ =>
      .bind (fun _ => Attempt.after_lift_except) fun _ => .of_ok fun _ => ⟨_, rfl⟩

/-- A predicate of at least one argument is added under a word that was not in use. -/
theorem define_predicate_yields {arity : Nat} {p : Predicate}
    (h : (definePredicate name arity).Yields r p r') :
    Text.isWord name = true ∧ p = ⟨name, arity⟩ ∧ 1 ≤ arity ∧
      r.predicateNamed? p.name = none ∧ r' = r.addPredicate p := by
  cases arity with
  | zero =>
      simp only [definePredicate, if_true, Attempt.yields_bind, Attempt.not_yields_throw, false_and,
        exists_false, and_false] at h
  | succ n =>
      simp only [definePredicate, Nat.succ_ne_zero, if_false, Attempt.yields_bind,
        Attempt.yields_lift_except, Attempt.yields_get, Attempt.yields_note, Attempt.yields_set,
        Attempt.yields_pure, check_name_ok, check_unused_ok, exists_const, exists_eq_left,
        exists_and_left, exists_and_right, exists_eq] at h
      obtain ⟨_, ⟨hword, rfl⟩, _, ⟨rfl, -⟩, ⟨hunused, -⟩, rfl, rfl⟩ := h
      exact ⟨hword, rfl, Nat.succ_pos n, hunused, rfl⟩

theorem define_predicate_restores (name : String) (arity : Nat) :
    (definePredicate name arity).Restores := by
  refine .bind (fun _ => Attempt.after_lift_except) fun _ => .bind (fun _ => rfl) fun r =>
    .bind (fun _ => Attempt.after_lift_except) fun _ => ?_
  dsimp only
  split
  · exact .bind (fun _ => rfl) fun _ => .of_ok fun _ => ⟨_, rfl⟩
  · exact .of_ok fun _ => ⟨_, rfl⟩

/-- A formula becomes an axiom, a term does not. -/
theorem assert_yields {s : Statement} {u : Unit} (h : (assertStatement s).Yields r u r') :
    ∃ f, s = .formula f ∧ r' = r.addAxiom f := by
  cases s with
  | formula f =>
      simp only [assertStatement, Attempt.yields_bind, Attempt.yields_get, Attempt.yields_note,
        Attempt.yields_set, exists_const, exists_eq_left] at h
      obtain ⟨_, _, ⟨rfl, rfl⟩, rfl⟩ := h
      exact ⟨f, rfl, rfl⟩
  | term t => exact absurd h Attempt.not_yields_throw

theorem assert_restores (s : Statement) : (assertStatement s).Restores := by
  cases s with
  | formula f => exact .of_ok fun _ => ⟨_, rfl⟩
  | term t => exact .throw

/-! ## Names -/

namespace Text

theorem is_word_iff {s : String} :
    isWord s = true ↔ s ≠ "" ∧ ∀ c ∈ s.toList, isBlank c = false := by
  simp [isWord]

theorem to_list_ne_nil_of_is_word {s : String} (h : isWord s = true) : s.toList ≠ [] :=
  fun hnil => (is_word_iff.1 h).1 (String.toList_eq_nil_iff.1 hnil)

theorem blank_not_mem_of_is_word {s : String} (h : isWord s = true) : ' ' ∉ s.toList := by
  intro hmem
  have hblank := (is_word_iff.1 h).2 ' ' hmem
  exact absurd hblank (by decide)

/-- A word may be continued without blanks. -/
theorem is_word_append {s t : String} (hs : isWord s = true)
    (ht : ∀ c ∈ t.toList, isBlank c = false) : isWord (s ++ t) = true := by
  obtain ⟨hnonempty, hblank⟩ := is_word_iff.1 hs
  refine is_word_iff.2 ⟨by simp [hnonempty], fun c hc => ?_⟩
  rw [String.toList_append, List.mem_append] at hc
  exact hc.elim (hblank c) (ht c)

theorem not_blank_of_digit {c : Char} (h : c.isDigit = true) : isBlank c = false := by
  have hrange : 48 ≤ c.toNat ∧ c.toNat ≤ 57 := by
    simpa [Char.isDigit, UInt32.le_iff_toNat_le] using h
  simp [isBlank, blankRuns]
  omega

theorem not_blank_of_mem_repr {k : Nat} {c : Char} (h : c ∈ k.repr.toList) : isBlank c = false := by
  have hdigits : c ∈ Nat.toDigits 10 k := by simpa [Nat.repr] using h
  exact not_blank_of_digit (Nat.isDigit_of_mem_toDigits (by decide) (by decide) hdigits)

theorem upcase_ne_nil (c : Char) : upcase c ≠ [] := by
  have himages : ∀ letter ∈ longCapitals, letter.2 ≠ [] := by decide
  unfold upcase
  split
  · next hfind => simpa using himages _ (List.mem_of_find?_eq_some hfind)
  · split <;> exact List.cons_ne_nil _ _

theorem capitalize_ne_empty {s : String} (h : s ≠ "") : capitalize s ≠ "" := by
  unfold capitalize
  split
  · next hnil => exact absurd (String.toList_eq_nil_iff.1 hnil) h
  · next c cs _ =>
      rw [ne_eq, ← String.toList_eq_nil_iff, String.toList_ofList]
      exact List.append_ne_nil_of_left_ne_nil (upcase_ne_nil c) cs

end Text

/-! ## Variables in use -/

/-- The variable was defined over the given constants, or is a fresh copy of one that was. -/
inductive Variable.DefinedOver : Option (List Constant) → Variable → Prop where
  | defined {name : String} {given : Option (List Constant)} {r r' : Registry} {v : Variable} :
      (defineVariable name given).Yields r v r' → DefinedOver given v
  | copied {given : Option (List Constant)} {r r' : Registry} {v w : Variable} :
      DefinedOver given v → ((freshVariable v).run r).value = (w, r') → DefinedOver given w

namespace Variable

variable {v : Variable}

/-- The domain of a variable lists the constants it was defined over. -/
theorem DefinedOver.domain_lists (h : v.DefinedOver given) : DomainLists given v.domain := by
  induction h with
  | defined hdefined =>
      obtain ⟨-, -, hlists, -, -⟩ := define_variable_yields hdefined
      exact hlists
  | copied _ hcopied ih =>
      obtain ⟨_, rfl, -⟩ := fresh_variable_run hcopied
      exact ih

/-- Neither definitions nor copies bring blanks into a name. -/
theorem DefinedOver.is_word (h : v.DefinedOver given) : Text.isWord v.name = true := by
  induction h with
  | defined hdefined =>
      obtain ⟨hword, rfl, -, -, -⟩ := define_variable_yields hdefined
      exact hword
  | copied _ hcopied ih =>
      cases hcopied
      refine Text.is_word_append (Text.is_word_append ih fun c hc => ?_) fun c =>
        Text.not_blank_of_mem_repr
      rw [show c = '_' by simpa using hc]
      rfl

/-- Users get variables by defining them and by having copies made. -/
def Issued (v : Variable) : Prop := ∃ given, v.DefinedOver given

theorem Issued.copy (h : v.Issued) {w : Variable}
    (hcopied : ((freshVariable v).run r).value = (w, r')) : w.Issued :=
  have ⟨given, hdefined⟩ := h
  ⟨given, hdefined.copied hcopied⟩

/-- Users get no variable that ranges over nothing. -/
theorem Issued.inhabited (h : v.Issued) : v.domain ≠ some [] :=
  have ⟨_, hdefined⟩ := h
  hdefined.domain_lists.inhabited

theorem Issued.is_word (h : v.Issued) : Text.isWord v.name = true :=
  have ⟨_, hdefined⟩ := h
  hdefined.is_word

end Variable

end Clausal
