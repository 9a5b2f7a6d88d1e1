import Clausal.Exchange.Reader
import Clausal.Exchange.Writer
import Clausal.Proofs.Json
import Clausal.Proofs.Symbols

/-!
# The exchange of clauses

The text of clauses loses nothing. Records are read back from it as long as they are not nested too
deep (`read_records_write`). Clauses have one text only when they agree in all but the names that
variables were first defined with (`write_clauses_iff`), which equality of clauses ignores as well.
-/

namespace Clausal

/-- What maps to the same elements under one function does so under the other. -/
theorem map_eq_map_iff {α β γ : Type} {f : α → β} {g : α → γ} {xs ys : List α}
    (h : ∀ x ∈ xs, ∀ y ∈ ys, f x = f y ↔ g x = g y) :
    xs.map f = ys.map f ↔ xs.map g = ys.map g := by
  induction xs generalizing ys with
  | nil => cases ys <;> simp
  | cons x xs ih =>
      cases ys with
      | nil => simp
      | cons y ys =>
          simp only [List.map_cons, List.cons.injEq]
          refine and_congr (h x (List.mem_cons_self ..) y (List.mem_cons_self ..)) (ih ?_)
          exact fun x hx y hy => h x (List.mem_cons_of_mem _ hx) y (List.mem_cons_of_mem _ hy)

/-- Elements that are read back one by one are read back in a row. -/
theorem map_m_map {α β : Type} {f : α → β} {read : β → Option α} {xs : List α}
    (h : ∀ x ∈ xs, read (f x) = some x) : (xs.map f).mapM read = some xs := by
  induction xs with
  | nil => rfl
  | cons x xs ih =>
      obtain ⟨hx, hxs⟩ := List.forall_mem_cons.1 h
      rw [List.map_cons, List.mapM_cons, hx, ih hxs]
      rfl

namespace Exchange

open Json (Value)

/-! ## Terms -/

namespace TermRecord

/-- Induction over records of terms: a property that passes from the arguments to a Skolem term. -/
theorem induction {P : TermRecord → Prop} (hvar : ∀ name domain, P (var name domain))
    (hconst : ∀ name, P (const name))
    (hskolem : ∀ name args, (∀ t ∈ args, P t) → P (skolem name args)) : ∀ t, P t
  | var name domain => hvar name domain
  | const name => hconst name
  | skolem name args => hskolem name args fun t _ => induction hvar hconst hskolem t

@[simp] theorem to_json_all_eq {ts : List TermRecord} : toJsonAll ts = ts.map toJson := by
  induction ts with
  | nil => rfl
  | cons t ts ih => simp [toJsonAll, ih]

@[simp] theorem of_terms_eq {ts : List Term} : ofTerms ts = ts.map ofTerm := by
  induction ts with
  | nil => rfl
  | cons t ts ih => simp [ofTerms, ih]

theorem is_scannable_to_json (t : TermRecord) : t.toJson.IsScannable := by
  induction t using TermRecord.induction with
  | hvar name domain =>
      cases domain with
      | none => exact Value.is_scannable_record (by simp [Value.is_scannable_text])
      | some names =>
          have hnames : (Value.array (names.map .text)).IsScannable :=
            Value.is_scannable_array (List.forall_mem_map.2 fun _ _ => Value.is_scannable_text)
          exact Value.is_scannable_record (by simp [Value.is_scannable_text, hnames])
  | hconst name => exact Value.is_scannable_record (by simp [Value.is_scannable_text])
  | hskolem name args ih =>
      have hargs : (Value.array (args.map toJson)).IsScannable :=
        Value.is_scannable_array (List.forall_mem_map.2 ih)
      exact Value.is_scannable_record (by simp [Value.is_scannable_text, hargs])

theorem is_sound_to_json (t : TermRecord) : t.toJson.isSound = true := by
  induction t using TermRecord.induction with
  | hvar name domain =>
      cases domain with
      | none => rfl
      | some names =>
          simp [toJson, Value.record, Value.text, Value.isSound, Value.membersSound]
  | hconst name => rfl
  | hskolem name args ih =>
      simpa [toJson, Value.record, Value.text, Value.isSound, Value.membersSound] using ih

/-- A term is read back, where its Skolem terms may be nested deep enough. -/
theorem read_term_to_json {isArgument : Bool} {bound : Nat} {t : TermRecord}
    (h : t.toJson.depth < bound) : readTerm? isArgument bound t.toJson = some t := by
  induction t using TermRecord.induction generalizing isArgument bound with
  | hvar name domain =>
      obtain ⟨bound, rfl⟩ := Nat.exists_eq_add_one_of_ne_zero (Nat.ne_zero_of_lt h)
      cases domain with
      | none => rfl
      | some names =>
          have hdomain : domain? (some (.array (names.map .text))) = some (some names) := by
            have hnames : (names.map Value.text).mapM Value.text? = some names :=
              map_m_map fun _ _ => rfl
            simp [domain?, Value.items?, hnames]
          change (domain? _).bind (fun d => some (var name d)) = _
          rw [hdomain, Option.bind_some]
  | hconst name =>
      obtain ⟨bound, rfl⟩ := Nat.exists_eq_add_one_of_ne_zero (Nat.ne_zero_of_lt h)
      rfl
  | hskolem name args ih =>
      obtain ⟨bound, rfl⟩ := Nat.exists_eq_add_one_of_ne_zero (Nat.ne_zero_of_lt h)
      have hargs : (args.map toJson).mapM (readTerm? true bound) = some args := by
        refine map_m_map fun t ht => ih t ht ?_
        have hdepth : t.toJson.depth + 1 < (skolem name args).toJson.depth := by
          rw [toJson, to_json_all_eq]
          exact Value.depth_lt_of_mem_field_items "args" ht (by simp)
        omega
      change ((toJsonAll args).mapM (readTerm? true bound)).bind
        (fun ts => some (skolem name ts)) = _
      rw [to_json_all_eq, hargs, Option.bind_some]

/-- A term inside other containers is read back unless it is nested too deep. -/
theorem of_json_to_json {outer : Nat} {t : TermRecord}
    (h : outer + t.toJson.depth ≤ Value.maxDepth) : ofJson? outer t.toJson = some t := by
  have hacceptable : t.toJson.isAcceptable outer = true := by
    rw [Value.isAcceptable, t.is_sound_to_json, Bool.true_and, decide_eq_true h]
  rw [ofJson?, if_pos hacceptable, read_term_to_json (Nat.lt_succ_self _)]

theorem to_json_injective : Function.Injective toJson := by
  intro t u h
  have ht : readTerm? false (u.toJson.depth + 1) u.toJson = some t :=
    h ▸ read_term_to_json (Nat.lt_succ_self _)
  exact Option.some.inj (ht.symm.trans (read_term_to_json (Nat.lt_succ_self _)))

end TermRecord

/-! ## Clauses -/

namespace AtomRecord

theorem is_scannable_to_json (a : AtomRecord) : a.toJson.IsScannable := by
  have hargs : (Value.array (a.args.map TermRecord.toJson)).IsScannable :=
    Value.is_scannable_array (List.forall_mem_map.2 fun t _ => t.is_scannable_to_json)
  exact Value.is_scannable_record (by simp [Value.is_scannable_text, hargs])

/-- An atom inside four containers is read back unless it is nested too deep. -/
theorem of_json_to_json {a : AtomRecord} (h : 4 + a.toJson.depth ≤ Value.maxDepth) :
    ofJson? a.toJson = some a := by
  have hargs : (a.args.map TermRecord.toJson).mapM (TermRecord.ofJson? 6) = some a.args := by
    refine map_m_map fun t ht => TermRecord.of_json_to_json ?_
    have hdepth : t.toJson.depth + 1 < a.toJson.depth :=
      Value.depth_lt_of_mem_field_items "args" ht (by simp)
    omega
  change ((a.args.map TermRecord.toJson).mapM (TermRecord.ofJson? 6)).bind
    (fun ts => some (AtomRecord.mk a.predicate ts)) = some a
  rw [hargs, Option.bind_some]

theorem to_json_injective : Function.Injective toJson := by
  rintro ⟨p, ts⟩ ⟨q, us⟩ h
  simpa [toJson, Value.record, Value.text,
    (List.map_injective_iff.2 TermRecord.to_json_injective).eq_iff] using h

end AtomRecord

namespace LiteralRecord

theorem is_scannable_to_json (l : LiteralRecord) : l.toJson.IsScannable :=
  Value.is_scannable_record (by simp [Value.is_scannable_bool, l.atom.is_scannable_to_json])

/-- A literal inside three containers is read back unless it is nested too deep. -/
theorem of_json_to_json {l : LiteralRecord} (h : 3 + l.toJson.depth ≤ Value.maxDepth) :
    ofJson? l.toJson = some l := by
  have hatom : AtomRecord.ofJson? l.atom.toJson = some l.atom := by
    have hdepth : l.atom.toJson.depth < l.toJson.depth :=
      Value.depth_lt_of_mem_fields (List.mem_cons_of_mem _ (List.mem_singleton.2 rfl))
    exact AtomRecord.of_json_to_json (by omega)
  change (AtomRecord.ofJson? l.atom.toJson).bind
    (fun a => some (LiteralRecord.mk l.polarity a)) = some l
  rw [hatom, Option.bind_some]

theorem to_json_injective : Function.Injective toJson := by
  rintro ⟨s, a⟩ ⟨t, b⟩ h
  simpa [toJson, Value.record, AtomRecord.to_json_injective.eq_iff] using h

end LiteralRecord

namespace ClauseRecord

theorem is_scannable_to_json (c : ClauseRecord) : c.toJson.IsScannable := by
  have hliterals : (Value.array (c.literals.map LiteralRecord.toJson)).IsScannable :=
    Value.is_scannable_array (List.forall_mem_map.2 fun l _ => l.is_scannable_to_json)
  exact Value.is_scannable_record (by simp [hliterals])

/-- A clause of a list is read back unless it is nested too deep. -/
theorem of_json_to_json {c : ClauseRecord} (h : 1 + c.toJson.depth ≤ Value.maxDepth) :
    ofJson? c.toJson = some c := by
  have hliterals : (c.literals.map LiteralRecord.toJson).mapM LiteralRecord.ofJson? =
      some c.literals := by
    refine map_m_map fun l hl => LiteralRecord.of_json_to_json ?_
    have hdepth : l.toJson.depth + 1 < c.toJson.depth :=
      Value.depth_lt_of_mem_field_items "literals" hl (by simp)
    omega
  change ((c.literals.map LiteralRecord.toJson).mapM LiteralRecord.ofJson?).bind
    (fun ls => some (ClauseRecord.mk ls)) = some c
  rw [hliterals, Option.bind_some]

theorem to_json_injective : Function.Injective toJson := by
  rintro ⟨ls⟩ ⟨ms⟩ h
  simpa [toJson, Value.record,
    (List.map_injective_iff.2 LiteralRecord.to_json_injective).eq_iff] using h

end ClauseRecord

theorem is_scannable_records (cs : List ClauseRecord) : (recordsToJson cs).IsScannable :=
  Value.is_scannable_array (List.forall_mem_map.2 fun c _ => c.is_scannable_to_json)

/-- A list of clauses is read back unless it is nested too deep. -/
theorem read_records_write {cs : List ClauseRecord}
    (h : (recordsToJson cs).depth ≤ Value.maxDepth) :
    readRecords? (recordsToJson cs).write = some cs := by
  have hclauses : (cs.map ClauseRecord.toJson).mapM ClauseRecord.ofJson? = some cs := by
    refine map_m_map fun c hc => ClauseRecord.of_json_to_json ?_
    have hitems := Value.depth_lt_of_mem_items (List.mem_map_of_mem (f := ClauseRecord.toJson) hc)
    have hdepth : (Value.array (cs.map ClauseRecord.toJson)).depth ≤ Value.maxDepth := h
    omega
  rw [readRecords?, Value.read_write (is_scannable_records cs), Option.bind_eq_bind,
    Option.bind_some]
  exact hclauses

/-- Lists of clauses with one text have one record. -/
theorem write_records_iff {cs ds : List ClauseRecord} :
    (recordsToJson cs).write = (recordsToJson ds).write ↔ cs = ds := by
  refine ⟨fun h => ?_, congrArg fun cs => (recordsToJson cs).write⟩
  have hvalue : some (recordsToJson cs) = some (recordsToJson ds) := by
    rw [← Value.read_write (is_scannable_records cs), h, Value.read_write (is_scannable_records ds)]
  have hitems : cs.map ClauseRecord.toJson = ds.map ClauseRecord.toJson := by
    simpa [recordsToJson] using hvalue
  exact List.map_injective_iff.2 ClauseRecord.to_json_injective hitems

end Exchange

/-! ## What records leave out -/

/-- The variable without the name it was first defined with. -/
def Variable.withoutOrigin (v : Variable) : Variable := { v with origin := none }

/-- The term with variables that have forgotten their first names. -/
def Term.withoutOrigins : Term → Term := bind fun v => var v.withoutOrigin

/-- The atom with variables that have forgotten their first names. -/
def Atom.withoutOrigins : Atom → Atom := mapTerms Term.withoutOrigins

/-- The literal with variables that have forgotten their first names. -/
def Literal.withoutOrigins (l : Literal) : Literal := { l with atom := l.atom.withoutOrigins }

/-- The clause with variables that have forgotten their first names. -/
def Clause.withoutOrigins (c : Clause) : Clause := ⟨c.literals.map Literal.withoutOrigins⟩

/-- Every predicate in the clause is applied to as many terms as it asks for. -/
def Clause.HasArities (c : Clause) : Prop :=
  ∀ l ∈ c.literals, l.atom.terms.length = l.atom.predicate.arity

instance (c : Clause) : Decidable c.HasArities :=
  inferInstanceAs (Decidable (∀ l ∈ c.literals, l.atom.terms.length = l.atom.predicate.arity))

namespace Exchange

theorem constant_name_injective : Function.Injective Constant.name :=
  fun _ _ h => congrArg Constant.mk h

namespace TermRecord

/-- A record keeps all of a variable but its first name. -/
theorem of_variable_eq_iff {v w : Variable} :
    ofTerm (.var v) = ofTerm (.var w) ↔ v.withoutOrigin = w.withoutOrigin := by
  have hdomain := Option.map_injective (List.map_injective_iff.2 constant_name_injective)
  rw [ofTerm, ofTerm, TermRecord.var.injEq, hdomain.eq_iff]
  simp [Variable.withoutOrigin]

/-- A record keeps all of a term but first names. -/
theorem of_term_eq_iff {t u : Term} :
    ofTerm t = ofTerm u ↔ t.withoutOrigins = u.withoutOrigins := by
  induction t using Term.induction generalizing u with
  | hconst c =>
      cases u <;>
        simp [ofTerm, Term.withoutOrigins, Term.bind, constant_name_injective.eq_iff]
  | hvar v =>
      cases u with
      | var w => rw [of_variable_eq_iff]; simp [Term.withoutOrigins, Term.bind]
      | const | skolem => simp [ofTerm, Term.withoutOrigins, Term.bind]
  | hskolem name args ih =>
      cases u with
      | skolem name' args' =>
          have hargs : args.map ofTerm = args'.map ofTerm ↔
              args.map Term.withoutOrigins = args'.map Term.withoutOrigins :=
            map_eq_map_iff fun t ht _ _ => ih t ht
          simp [ofTerm, hargs, Term.withoutOrigins, Term.bind]
      | const | var => simp [ofTerm, Term.withoutOrigins, Term.bind]

end TermRecord

/-- With as many terms as the predicate asks for, a record keeps all of an atom but first names. -/
theorem AtomRecord.of_atom_eq_iff {a b : Atom} (ha : a.terms.length = a.predicate.arity)
    (hb : b.terms.length = b.predicate.arity) :
    ofAtom a = ofAtom b ↔ a.withoutOrigins = b.withoutOrigins := by
  have hterms : a.terms.map TermRecord.ofTerm = b.terms.map TermRecord.ofTerm ↔
      a.terms.map Term.withoutOrigins = b.terms.map Term.withoutOrigins :=
    map_eq_map_iff fun _ _ _ _ => TermRecord.of_term_eq_iff
  simp only [ofAtom, AtomRecord.mk.injEq, hterms, Atom.withoutOrigins, Atom.mapTerms,
    Atom.mk.injEq]
  refine and_congr_left fun h => ⟨fun hname => ?_, congrArg Predicate.name⟩
  -- equal names of predicates that are applied to equally many terms
  have harity : a.predicate.arity = b.predicate.arity := by
    rw [← ha, ← hb, ← List.length_map (f := Term.withoutOrigins), h, List.length_map]
  exact congrArg₂ Predicate.mk hname harity

theorem LiteralRecord.of_literal_eq_iff {l m : Literal}
    (hl : l.atom.terms.length = l.atom.predicate.arity)
    (hm : m.atom.terms.length = m.atom.predicate.arity) :
    ofLiteral l = ofLiteral m ↔ l.withoutOrigins = m.withoutOrigins := by
  simp [ofLiteral, Literal.withoutOrigins, AtomRecord.of_atom_eq_iff hl hm]

theorem ClauseRecord.of_clause_eq_iff {c d : Clause} (hc : c.HasArities) (hd : d.HasArities) :
    ofClause c = ofClause d ↔ c.withoutOrigins = d.withoutOrigins := by
  have hliterals := map_eq_map_iff fun l hl m hm =>
    LiteralRecord.of_literal_eq_iff (hc l hl) (hd m hm)
  simp [ofClause, Clause.withoutOrigins, hliterals]

end Exchange

/-! ## Equality -/

/-- Elements with equal images are related one by one if equal images make them so. -/
theorem forall₂_of_map_eq {α β : Type} {f : α → β} {R : α → α → Prop} {xs ys : List α}
    (h : xs.map f = ys.map f) (hR : ∀ x ∈ xs, ∀ y, f x = f y → R x y) : List.Forall₂ R xs ys := by
  induction xs generalizing ys with
  | nil => cases List.map_eq_nil_iff.1 h.symm; exact .nil
  | cons x xs ih =>
      obtain ⟨y, ys, rfl, hy, hys⟩ := List.map_eq_cons_iff.1 h.symm
      exact .cons (hR x (List.mem_cons_self ..) y hy.symm)
        (ih hys.symm fun x hx => hR x (List.mem_cons_of_mem _ hx))

theorem Clause.same_literals_iff {ls ms : List Literal} :
    sameLiterals ls ms = true ↔ List.Forall₂ (fun l m => l.same m = true) ls ms := by
  induction ls generalizing ms with
  | nil => cases ms <;> simp [sameLiterals]
  | cons l ls ih => cases ms <;> simp [sameLiterals, ih]

/-- Equality of terms ignores first names. -/
theorem Term.plain_without_origins {t : Term} : t.withoutOrigins.plain = t.plain := bind_bind

theorem Clause.same_of_without_origins_eq {c d : Clause}
    (h : c.withoutOrigins = d.withoutOrigins) : c.same d = true := by
  simp only [Clause.withoutOrigins, Clause.mk.injEq] at h
  refine same_literals_iff.2 (forall₂_of_map_eq h fun l _ m hlm => ?_)
  simp only [Literal.withoutOrigins, Literal.mk.injEq, Atom.withoutOrigins, Atom.mapTerms,
    Atom.mk.injEq] at hlm
  obtain ⟨hpolarity, hpredicate, hterms⟩ := hlm
  have hplain : l.atom.terms.map Term.plain = m.atom.terms.map Term.plain := by
    have hboth := congrArg (List.map Term.plain) hterms
    simpa only [List.map_map, Function.comp_def, Term.plain_without_origins] using hboth
  simp [Literal.same, Atom.same, hpolarity, hpredicate, Term.same_all_iff.2 hplain]

/-! ## Texts of clauses -/

namespace Exchange

open Json (Value)

/-- Clauses have one text when they agree in all but first names of variables. -/
theorem write_clauses_iff {cs ds : List Clause} (hcs : ∀ c ∈ cs, c.HasArities)
    (hds : ∀ d ∈ ds, d.HasArities) :
    (clausesToJson cs).write = (clausesToJson ds).write ↔
      cs.map Clause.withoutOrigins = ds.map Clause.withoutOrigins :=
  write_records_iff.trans <| map_eq_map_iff fun c hc d hd =>
    ClauseRecord.of_clause_eq_iff (hcs c hc) (hds d hd)

end Exchange

open Exchange
open Json (Value)

/-- The text of clauses loses nothing: records are read back from it unless they are nested too
deep, and clauses with one text agree in all but first names, so they are equal. -/
theorem text_is_lossless :
    (∀ rs : List ClauseRecord, (recordsToJson rs).depth ≤ Value.maxDepth →
      readRecords? (recordsToJson rs).write = some rs) ∧
    ∀ cs ds : List Clause, (∀ c ∈ cs, c.HasArities) → (∀ d ∈ ds, d.HasArities) →
      ((clausesToJson cs).write = (clausesToJson ds).write ↔
        cs.map Clause.withoutOrigins = ds.map Clause.withoutOrigins) ∧
      ((clausesToJson cs).write = (clausesToJson ds).write →
        List.Forall₂ (fun c d => c.same d = true) cs ds) := by
  refine ⟨fun rs => read_records_write, fun cs ds hcs hds => ?_⟩
  have htext := write_clauses_iff hcs hds
  exact ⟨htext, fun h => forall₂_of_map_eq (htext.1 h) fun _ _ _ =>
    Clause.same_of_without_origins_eq⟩

namespace Sample

/-- A clause with nested Skolem terms, a domain and names that are escaped. -/
def exchanged : List ClauseRecord :=
  [⟨[⟨false, ⟨"∈\"P\"", [.skolem "f" [.skolem "g" [.var "x" none], .const "A\n"],
    .var "x" (some ["A", "\\B"])]⟩⟩]⟩]

/-- A clause of one positive literal. -/
def unit (t : Term) : Clause := ⟨[⟨true, ⟨⟨"P", 1⟩, [t]⟩⟩]⟩

end Sample

open Sample in
theorem text_is_lossless_exchanged :
    let c := unit (.const ⟨"x"⟩)
    let d := unit (.var ⟨"x", none, none⟩)
    (recordsToJson exchanged).depth ≤ Value.maxDepth ∧
    readRecords? (recordsToJson exchanged).write = some exchanged ∧
    c.HasArities ∧ d.HasArities ∧ (clausesToJson [c]).write ≠ (clausesToJson [d]).write := by
  intro c d
  have hdepth : (recordsToJson exchanged).depth ≤ Value.maxDepth := by decide
  have hc : c.HasArities := by decide
  have hd : d.HasArities := by decide
  refine ⟨hdepth, text_is_lossless.1 exchanged hdepth, hc, hd, fun h => ?_⟩
  have hsame := (text_is_lossless.2 [c] [d] (List.forall_mem_singleton.2 hc)
    (List.forall_mem_singleton.2 hd)).2 h
  cases hsame with
  | cons hunit _ => cases hunit

end Clausal
