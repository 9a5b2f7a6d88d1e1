import Mathlib.Data.List.Basic
import Clausal.Formula.Render
import Clausal.Formula.Shape
import Clausal.Proofs.Symbols

/-!
# Texts that can be read in one way

Over a legible vocabulary a text is the text of one formula (`Formula.render_injective`). The names
of a legible vocabulary (`Vocabulary.Legible`) hold no character that would end them in a text, and
tell constants from variables.
`Reads` says that an element can be told from a text that begins with its own: the rest of that
text, which has to end the element, is all that is left open. Elements that are read one by one are
read as a list (`reads_flat_map`, `reads_separated`). A formula is read operand by operand along its
longest chain to the left (`Formula.spine`).
-/

namespace Clausal

/-! ## Reading elements off a text -/

section Reading

variable {α : Type} {P : α → Prop} {text : α → List Char} {ends fin : List Char → Prop} {x : α}
  {xs : List α} {c : Char} {sep : List Char}

/-- From a text that begins with that of `x` and then ends it, no element but `x` can be read. -/
def Reads (P : α → Prop) (text : α → List Char) (ends : List Char → Prop) (x : α) : Prop :=
  ∀ ⦃y s s'⦄, P y → ends s → ends s' → text x ++ s = text y ++ s' → x = y ∧ s = s'

/-- A name without certain characters ends where one of them stands. -/
theorem append_inj_of_stop {stop : Char → Bool} {n n' s s' : List Char}
    (hn : ∀ c ∈ n, stop c = false) (hn' : ∀ c ∈ n', stop c = false)
    (hs : ∀ c ∈ s.head?, stop c = true) (hs' : ∀ c ∈ s'.head?, stop c = true)
    (h : n ++ s = n' ++ s') : n = n' ∧ s = s' := by
  have hname {n s : List Char} (hn : ∀ c ∈ n, stop c = false)
      (hs : ∀ c ∈ s.head?, stop c = true) : (n ++ s).takeWhile (fun c => !stop c) = n := by
    rw [List.takeWhile_append_of_pos (by simpa using hn)]
    cases s with
    | nil => simp
    | cons c s => simp [hs c rfl]
  have heq : n = n' := by rw [← hname hn hs, h, hname hn' hs']
  exact ⟨heq, List.append_cancel_left (heq ▸ h)⟩

/-- The character separates elements in a list: it ends an element and not the list, and what ends
the list ends its last element. -/
structure Delimits (c : Char) (ends fin : List Char → Prop) : Prop where
  separates : ∀ s, ends (c :: s)
  last : ∀ s, fin s → ends s
  goesOn : ∀ s, ¬ fin (c :: s)

theorem Delimits.ends_flat_map (hc : Delimits c ends fin) {s : List Char} (hs : fin s) :
    ends ((xs.flatMap fun x => c :: sep ++ text x) ++ s) := by
  cases xs with
  | nil => exact hc.last s hs
  | cons => exact hc.separates _

/-- Elements that each stand behind a separator are read one after the other. -/
theorem reads_flat_map (hc : Delimits c ends fin) (hxs : ∀ x ∈ xs, Reads P text ends x) :
    Reads (∀ x ∈ ·, P x) (fun xs => xs.flatMap fun x => c :: sep ++ text x) fin xs := by
  induction xs with
  | nil =>
      intro ys s s' _ hs _ h
      cases ys with
      | nil => exact ⟨rfl, h⟩
      | cons =>
          cases h
          exact absurd hs (hc.goesOn _)
  | cons x xs ih =>
      intro ys s s' hys hs hs' h
      cases ys with
      | nil =>
          cases h
          exact absurd hs' (hc.goesOn _)
      | cons y ys =>
          obtain ⟨hx, hxs⟩ := List.forall_mem_cons.1 hxs
          obtain ⟨hy, hrest⟩ := List.forall_mem_cons.1 hys
          simp only [List.flatMap_cons, List.cons_append, List.append_assoc, List.cons.injEq,
            true_and, List.append_cancel_left_eq] at h
          obtain ⟨rfl, htail⟩ := hx hy (hc.ends_flat_map hs) (hc.ends_flat_map hs') h
          obtain ⟨rfl, rfl⟩ := ih hxs hrest hs hs' htail
          exact ⟨rfl, rfl⟩

theorem intercalate_cons {sep l : List Char} {ls : List (List Char)} :
    sep.intercalate (l :: ls) = l ++ ls.flatMap (sep ++ ·) := by
  induction ls generalizing l with
  | nil => simp
  | cons _ _ ih => simp [ih]

/-- Elements that are separated from each other are read one after the other, when no text of an
element could be the end of the list. -/
theorem reads_separated (hc : Delimits c ends fin) (hxs : ∀ x ∈ xs, Reads P text ends x)
    (hP : ∀ x ∈ xs, P x) (hstart : ∀ y s, P y → ¬ fin (text y ++ s)) :
    Reads (∀ x ∈ ·, P x) (fun xs => (c :: sep).intercalate (xs.map text)) fin xs := by
  have htext (y : α) (ys : List α) (s : List Char) :
      (c :: sep).intercalate ((y :: ys).map text) ++ s =
        text y ++ ((ys.flatMap fun x => c :: sep ++ text x) ++ s) := by
    rw [List.map_cons, intercalate_cons, List.flatMap_map, List.append_assoc]
  intro ys s s' hys hs hs' h
  cases xs with
  | nil =>
      cases ys with
      | nil => exact ⟨rfl, h⟩
      | cons y ys =>
          have heq : s = _ := h.trans (htext y ys s')
          exact absurd (heq ▸ hs) (hstart y _ (hys y (List.mem_cons_self ..)))
  | cons x xs =>
      cases ys with
      | nil =>
          have heq : s' = _ := h.symm.trans (htext x xs s)
          exact absurd (heq ▸ hs') (hstart x _ (hP x (List.mem_cons_self ..)))
      | cons y ys =>
          obtain ⟨hx, hxs⟩ := List.forall_mem_cons.1 hxs
          obtain ⟨hy, hrest⟩ := List.forall_mem_cons.1 hys
          rw [htext, htext] at h
          obtain ⟨rfl, htail⟩ := hx hy (hc.ends_flat_map hs) (hc.ends_flat_map hs') h
          obtain ⟨rfl, rfl⟩ := reads_flat_map hc hxs hrest hs hs' htail
          exact ⟨rfl, rfl⟩

end Reading

/-! ## Vocabularies -/

/-- The symbols that formulas may be made of. -/
structure Vocabulary where
  IsConst : Constant → Prop
  IsVar : Variable → Prop
  IsFunction : String → Nat → Prop
  IsPredicate : Predicate → Prop

variable {V : Vocabulary}

mutual

/-- The term is made of symbols of the vocabulary. -/
def Term.Over (V : Vocabulary) : Term → Prop
  | .const c => V.IsConst c
  | .var v => V.IsVar v
  | .skolem name args => V.IsFunction name args.length ∧ Term.AllOver V args

/-- Several terms are made of symbols of the vocabulary. -/
def Term.AllOver (V : Vocabulary) : List Term → Prop
  | [] => True
  | t :: ts => t.Over V ∧ Term.AllOver V ts

end

@[simp] theorem Term.all_over_iff {ts : List Term} : Term.AllOver V ts ↔ ∀ t ∈ ts, t.Over V := by
  induction ts with
  | nil => simp [AllOver]
  | cons t ts ih => simp [AllOver, ih]

/-- The formula is made of symbols of the vocabulary, and its predicates have as many arguments as
they ask for. -/
def Formula.Over (V : Vocabulary) : Formula → Prop
  | atom a => V.IsPredicate a.predicate ∧ a.terms.length = a.predicate.arity ∧
      ∀ t ∈ a.terms, t.Over V
  | not f => f.Over V
  | binary _ f g => f.Over V ∧ g.Over V
  | quant _ vs f => (∀ v ∈ vs, V.IsVar v) ∧ f.Over V

/-- The characters that end a name in the text of a term. -/
def isMark (c : Char) : Bool := c == '(' || c == ')' || c == ','

/-- A name that stands for a term, or for the function of one. -/
structure IsTermName (name : String) : Prop where
  nonempty : name.toList ≠ []
  plain : ∀ c ∈ name.toList, isMark c = false

/-- A name that begins the text of an atom. -/
structure IsPredicateName (name : String) : Prop where
  nonempty : name.toList ≠ []
  plain : ∀ c ∈ name.toList, c ≠ '(' ∧ c ≠ ' '
  positive : name.toList.head? ≠ some '¬'

/-- The names of the vocabulary can be read in a text and tell which symbols they are. -/
structure Vocabulary.Legible (V : Vocabulary) : Prop where
  const_name : ∀ c, V.IsConst c → IsTermName c.name
  var_name : ∀ v, V.IsVar v → IsTermName v.name ∧ ' ' ∉ v.name.toList
  function_name : ∀ name arity, V.IsFunction name arity → IsTermName name
  predicate_name : ∀ p, V.IsPredicate p → IsPredicateName p.name
  apart : ∀ c v, V.IsConst c → V.IsVar v → c.name ≠ v.name
  eq_of_name_eq : ∀ v w, V.IsVar v → V.IsVar w → v.name = w.name → v = w

/-! ## Terms -/

namespace Term

variable {t : Term}

/-- A term ends at a comma or a closing bracket, or with the text. -/
def Ends (s : List Char) : Prop := ∀ c ∈ s.head?, c = ',' ∨ c = ')'

/-- The arguments end at a closing bracket. -/
def ArgsEnd (s : List Char) : Prop := s.head? = some ')'

theorem delimits_args : Delimits ',' Ends ArgsEnd where
  separates := by simp [Ends]
  last := by
    intro s hs c hc
    rw [hs] at hc
    exact .inr (Option.some.inj hc).symm
  goesOn := by simp [ArgsEnd]

/-- The name that a term begins with. -/
def head : Term → String
  | const c => c.name
  | var v => v.name
  | skolem name _ => name

/-- The text of arguments in brackets. -/
def argsText (ts : List Term) : List Char :=
  '(' :: [',', ' '].intercalate (ts.map fun t => t.render.toList) ++ [')']

/-- What follows the name. -/
def rest : Term → List Char
  | const _ | var _ => []
  | skolem _ args => argsText args

theorem to_list_render : t.render.toList = t.head.toList ++ t.rest := by
  cases t with
  | const | var => simp [render, head, rest]
  | skolem name args => simp [render, head, rest, argsText, Function.comp_def]

theorem is_term_name_head (hV : V.Legible) (ht : t.Over V) : IsTermName t.head := by
  cases t with
  | const c => exact hV.const_name c ht
  | var v => exact (hV.var_name v ht).1
  | skolem name args => exact hV.function_name name _ ht.1

/-- The text of a term does not begin like the end of arguments. -/
theorem not_args_end (hV : V.Legible) (ht : t.Over V) (s : List Char) :
    ¬ ArgsEnd (t.render.toList ++ s) := by
  obtain ⟨hnonempty, hplain⟩ := is_term_name_head hV ht
  obtain ⟨c, cs, hname⟩ := List.exists_cons_of_ne_nil hnonempty
  intro hend
  rw [to_list_render, hname] at hend
  cases hend
  have hmark := hplain ')' (by simp [hname])
  cases hmark

theorem reads_args (hV : V.Legible) {ts : List Term} (hts : ∀ t ∈ ts, t.Over V)
    (hreads : ∀ t ∈ ts, Reads (Over V) (fun t => t.render.toList) Ends t) :
    Reads (∀ t ∈ ·, t.Over V) argsText (fun _ => True) ts := by
  intro us s s' hus _ _ h
  simp only [argsText, List.cons_append, List.append_assoc, List.cons.injEq, true_and,
    List.nil_append] at h
  have hend (s : List Char) : ArgsEnd (')' :: s) := rfl
  obtain ⟨rfl, hrest⟩ := reads_separated delimits_args hreads hts
    (fun u s hu => not_args_end hV hu s) hus (hend s) (hend s') h
  exact ⟨rfl, (List.cons.inj hrest).2⟩

/-- After its first name a term goes on with an opening bracket or is at its end. -/
theorem is_mark_of_mem_head {s : List Char} (hs : Ends s) :
    ∀ c ∈ (t.rest ++ s).head?, isMark c = true := by
  cases t with
  | const | var =>
      intro c hc
      rcases hs c hc with rfl | rfl <;> rfl
  | skolem name args =>
      intro c hc
      cases hc
      rfl

/-- A term without arguments does not go on like one with arguments. -/
theorem ne_args_of_ends {s s' : List Char} (hs : Ends s) (ts : List Term) :
    s ≠ argsText ts ++ s' := by
  rintro rfl
  simpa using hs '(' rfl

/-- A term is read up to a comma or a closing bracket. -/
theorem reads (hV : V.Legible) (ht : t.Over V) :
    Reads (Over V) (fun t => t.render.toList) Ends t := by
  have hhead {t u : Term} {s s' : List Char} (ht : t.Over V) (hu : u.Over V) (hs : Ends s)
      (hs' : Ends s') (h : t.render.toList ++ s = u.render.toList ++ s') :
      t.head = u.head ∧ t.rest ++ s = u.rest ++ s' := by
    rw [to_list_render, to_list_render, List.append_assoc, List.append_assoc] at h
    obtain ⟨hname, hrest⟩ := append_inj_of_stop (is_term_name_head hV ht).plain
      (is_term_name_head hV hu).plain (is_mark_of_mem_head hs) (is_mark_of_mem_head hs') h
    exact ⟨String.toList_inj.1 hname, hrest⟩
  induction t using Term.induction with
  | hconst c =>
      intro u s s' hu hs hs' h
      obtain ⟨hname, hrest⟩ := hhead ht hu hs hs' h
      cases u with
      | const d => exact ⟨congrArg (fun name => const ⟨name⟩) hname, hrest⟩
      | var v => exact absurd hname (hV.apart c v ht hu)
      | skolem g us => exact absurd hrest (ne_args_of_ends hs us)
  | hvar v =>
      intro u s s' hu hs hs' h
      obtain ⟨hname, hrest⟩ := hhead ht hu hs hs' h
      cases u with
      | const d => exact absurd hname.symm (hV.apart d v hu ht)
      | var w => exact ⟨congrArg var (hV.eq_of_name_eq v w ht hu hname), hrest⟩
      | skolem g us => exact absurd hrest (ne_args_of_ends hs us)
  | hskolem name args ih =>
      intro u s s' hu hs hs' h
      obtain ⟨hname, hrest⟩ := hhead ht hu hs hs' h
      cases u with
      | const | var => exact absurd hrest.symm (ne_args_of_ends hs' args)
      | skolem g us =>
          have hargs := all_over_iff.1 ht.2
          obtain ⟨rfl, htail⟩ := reads_args hV hargs (fun t hmem => ih t hmem (hargs t hmem))
            (all_over_iff.1 hu.2) trivial trivial hrest
          cases hname
          exact ⟨rfl, htail⟩

end Term

/-! ## Operands -/

namespace Formula

variable {f g : Formula} {a : Atom} {s s' : List Char}

/-- The text of a formula that is an operand. -/
def operand (f : Formula) : List Char := (bracket f.isBare f.render).toList

/-- The operand is told from any text that begins with it. -/
def ReadsOperand (V : Vocabulary) (f : Formula) : Prop := Reads (Over V) operand (fun _ => True) f

/-- A formula ends at a closing bracket or with the text. -/
def Ends (s : List Char) : Prop := ∀ c ∈ s.head?, c = ')'

/-- The formula is told from any text that begins with it and goes on after its end. -/
def ReadsText (V : Vocabulary) (f : Formula) : Prop :=
  Reads (Over V) (fun f => f.render.toList) Ends f

theorem operand_atom : (atom a).operand = a.predicate.name.toList ++ Term.argsText a.terms := by
  simp [operand, isBare, bracket, render, Atom.render, Term.argsText, Function.comp_def]

theorem operand_not : (not f).operand = '¬' :: f.operand := by
  simp [operand, isBare, bracket, render]

theorem operand_of_not_bare (h : f.isBare = false) :
    f.operand = '(' :: f.render.toList ++ [')'] := by
  simp [operand, bracket, h]

/-- The character that negations and brackets begin with; atoms begin with a name. -/
def opening : Formula → Option Char
  | atom _ => none
  | not _ => some '¬'
  | binary .. | quant .. => some '('

theorem opening_of_not_bare (h : f.isBare = false) : f.opening = some '(' := by
  cases f with
  | atom | not => cases h
  | binary | quant => rfl

theorem opening_eq_filter (hV : V.Legible) (hf : f.Over V) :
    f.opening = (f.operand ++ s).head?.filter fun c => c == '¬' || c == '(' := by
  cases f with
  | atom a =>
      obtain ⟨hnonempty, hplain, hpositive⟩ := hV.predicate_name _ hf.1
      obtain ⟨c, cs, hname⟩ := List.exists_cons_of_ne_nil hnonempty
      have hc : c ≠ '¬' ∧ c ≠ '(' := by
        refine ⟨fun heq => hpositive ?_, (hplain c ?_).1⟩ <;> simp [*]
      simp [operand_atom, hname, opening, Option.filter, hc]
  | not f => simp [operand_not, opening, Option.filter]
  | binary c f g =>
      rw [operand_of_not_bare rfl]
      rfl
  | quant q vs f =>
      rw [operand_of_not_bare rfl]
      rfl

/-- Operands with which one text begins are of one kind. -/
theorem opening_eq (hV : V.Legible) (hf : f.Over V) (hg : g.Over V)
    (h : f.operand ++ s = g.operand ++ s') : f.opening = g.opening := by
  rw [opening_eq_filter (s := s) hV hf, opening_eq_filter (s := s') hV hg, h]

theorem reads_atom (hV : V.Legible) (ha : (atom a).Over V) : ReadsOperand V (atom a) := by
  intro g s s' hg _ _ h
  have hopening := opening_eq hV ha hg h
  cases g with
  | atom b =>
      have hstop (c : Char) (hc : c ≠ '(' ∧ c ≠ ' ') : (c == '(') = false := by simpa using hc.1
      have hargs (ts : List Term) (s : List Char) :
          ∀ c ∈ (Term.argsText ts ++ s).head?, (c == '(') = true := by simp [Term.argsText]
      rw [operand_atom, operand_atom, List.append_assoc, List.append_assoc] at h
      obtain ⟨hname, hrest⟩ := append_inj_of_stop
        (fun c hc => hstop c ((hV.predicate_name _ ha.1).plain c hc))
        (fun c hc => hstop c ((hV.predicate_name _ hg.1).plain c hc)) (hargs _ _) (hargs _ _) h
      obtain ⟨hterms, htail⟩ := Term.reads_args hV ha.2.2 (fun t ht => Term.reads hV (ha.2.2 t ht))
        hg.2.2 trivial trivial hrest
      have harity : a.predicate.arity = b.predicate.arity := by
        rw [← ha.2.1, ← hg.2.1, hterms]
      obtain ⟨⟨name, arity⟩, terms⟩ := a
      obtain ⟨⟨name', arity'⟩, terms'⟩ := b
      cases harity
      cases hterms
      cases String.toList_inj.1 hname
      exact ⟨rfl, htail⟩
  | not | binary | quant => cases hopening

theorem reads_not (hV : V.Legible) (hf : f.Over V) (h : ReadsOperand V f) :
    ReadsOperand V (not f) := by
  intro g s s' hg _ _ htext
  have hopening := opening_eq (f := not f) hV hf hg htext
  cases g with
  | not g =>
      rw [operand_not, operand_not] at htext
      have hbody : g.Over V := hg
      obtain ⟨rfl, hrest⟩ := h hbody trivial trivial (List.cons.inj htext).2
      exact ⟨rfl, hrest⟩
  | atom | binary | quant => cases hopening

/-- Between brackets an operand is read as a text. -/
theorem reads_bracketed (hV : V.Legible) (hbare : f.isBare = false) (hf : f.Over V)
    (h : ReadsText V f) : ReadsOperand V f := by
  intro g s s' hg _ _ htext
  have hopening := opening_eq hV hf hg htext
  rw [opening_of_not_bare hbare] at hopening
  have hbare' : g.isBare = false := by
    cases g with
    | atom | not => cases hopening
    | binary | quant => rfl
  have hend (s : List Char) : Ends (')' :: s) := fun c hc => (Option.some.inj hc).symm
  simp only [operand_of_not_bare hbare, operand_of_not_bare hbare', List.cons_append,
    List.append_assoc, List.cons.injEq, true_and, List.nil_append] at htext
  obtain ⟨rfl, hrest⟩ := h hg (hend s) (hend s') htext
  exact ⟨rfl, (List.cons.inj hrest).2⟩

/-! ## Bound names -/

/-- The names that a quantifier binds. -/
def boundText (vs : List Variable) : List Char := [','].intercalate (vs.map fun v => v.name.toList)

theorem delimits_names : Delimits ',' (fun s => ∀ c ∈ s.head?, c = ',') (· = []) where
  separates := by simp
  last := by simp
  goesOn := by simp

theorem reads_bound (hV : V.Legible) {vs : List Variable} (hvs : ∀ v ∈ vs, V.IsVar v) :
    Reads (∀ v ∈ ·, V.IsVar v) boundText (· = []) vs := by
  refine reads_separated delimits_names (fun v hv => ?_) hvs fun w s hw => ?_
  · intro w s s' hw hs hs' h
    have hmark {s : List Char} (hs : ∀ c ∈ s.head?, c = ',') : ∀ c ∈ s.head?, isMark c = true := by
      rintro c hc
      cases hs c hc
      rfl
    obtain ⟨hname, hrest⟩ := append_inj_of_stop (hV.var_name v (hvs v hv)).1.plain
      (hV.var_name w hw).1.plain (hmark hs) (hmark hs') h
    exact ⟨hV.eq_of_name_eq v w (hvs v hv) hw (String.toList_inj.1 hname), hrest⟩
  · simp [(hV.var_name w hw).1.nonempty]

/-- The bound names and the colon after them end at the first blank. -/
theorem not_blank_of_mem_bound (hV : V.Legible) {vs : List Variable} (hvs : ∀ v ∈ vs, V.IsVar v) :
    ∀ c ∈ boundText vs ++ [':'], (c == ' ') = false := by
  have hname : ∀ v ∈ vs, ∀ c ∈ v.name.toList, (c == ' ') = false := fun v hv c hc =>
    beq_false_of_ne fun heq => (hV.var_name v (hvs v hv)).2 (heq ▸ hc)
  intro c hc
  rcases List.mem_append.1 hc with hc | hc
  · cases vs with
    | nil => cases hc
    | cons v vs =>
        obtain ⟨hv, hvs⟩ := List.forall_mem_cons.1 hname
        rw [boundText, List.map_cons, intercalate_cons, List.mem_append, List.mem_flatMap] at hc
        rcases hc with hc | ⟨_, hl, hc⟩
        · exact hv c hc
        · obtain ⟨w, hw, rfl⟩ := List.mem_map.1 hl
          rcases List.mem_cons.1 hc with rfl | hc
          · rfl
          · exact hvs w hw c hc
  · rw [List.mem_singleton.1 hc]
    rfl

theorem quantifier_sign_inj {q p : Quantifier}
    (h : q.sign.toList ++ ' ' :: s = p.sign.toList ++ ' ' :: s') : q = p ∧ s = s' := by
  cases q <;> cases p <;> simp_all [Quantifier.sign]

theorem render_quant_append {q : Quantifier} {vs : List Variable} :
    (quant q vs f).render.toList ++ s =
      q.sign.toList ++ ' ' :: ((boundText vs ++ [':']) ++ ' ' :: (f.render.toList ++ s)) := by
  simp [render, boundText, Function.comp_def]

/-! ## Chains -/

/-- The first operand of the longest chain on the left of a formula, and the others with the
connectives before them. -/
def spine : Formula → Formula × List (Connective × Formula)
  | binary c f g => if f.continues c then (f.spine.1, f.spine.2 ++ [(c, g)]) else (f, [(c, g)])
  | f => (f, [])

/-- The text of a connective and the operand after it. -/
def linkText (l : Connective × Formula) : List Char := l.1.sign.toList ++ ' ' :: l.2.operand

/-- The texts of the connectives and operands of a chain. -/
def linksText (ls : List (Connective × Formula)) : List Char :=
  ls.flatMap fun l => ' ' :: [] ++ linkText l

theorem is_quantifier_of_continues {c : Connective} (h : f.continues c = true) :
    f.isQuantifier = false := by
  cases f with
  | quant => cases h
  | atom | not | binary => rfl

/-- A formula is written as the operands of its chain. -/
theorem render_append (h : f.isQuantifier = false) :
    f.render.toList ++ s = f.spine.1.operand ++ (linksText f.spine.2 ++ s) := by
  induction f generalizing s with
  | atom a => simp [spine, linksText, operand, isBare, bracket]
  | not f => simp [spine, linksText, operand, isBare, bracket]
  | binary c f g ihf _ =>
      cases hc : f.continues c with
      | true =>
          have htext := @ihf [] (is_quantifier_of_continues hc)
          simp only [List.append_nil] at htext
          simp [spine, linksText, linkText, render, hc, bracket, htext, operand]
      | false => simp [spine, linksText, linkText, render, hc, operand]
  | quant => cases h

/-- A formula is what its chain joins. -/
theorem foldl_spine : f.spine.2.foldl (fun f l => binary l.1 f l.2) f.spine.1 = f := by
  induction f with
  | atom | not | quant => rfl
  | binary c f g ihf _ =>
      unfold spine
      split
      · rw [List.foldl_append, ihf]
        rfl
      · rfl

theorem over_spine (hf : f.Over V) : f.spine.1.Over V ∧ ∀ l ∈ f.spine.2, l.2.Over V := by
  induction f with
  | atom | not | quant => exact ⟨hf, fun _ h => nomatch h⟩
  | binary c f g ihf _ =>
      unfold spine
      split
      · obtain ⟨hfirst, hlinks⟩ := ihf hf.1
        exact ⟨hfirst, List.forall_mem_append.2 ⟨hlinks, List.forall_mem_singleton.2 hf.2⟩⟩
      · exact ⟨hf.1, List.forall_mem_singleton.2 hf.2⟩

theorem sign_inj {c d : Connective} (h : c.sign.toList ++ ' ' :: s = d.sign.toList ++ ' ' :: s') :
    c = d ∧ s = s' := by
  cases c <;> cases d <;> simp_all [Connective.sign]

theorem reads_link {l : Connective × Formula} (hl : ReadsOperand V l.2) :
    Reads (fun l => l.2.Over V) linkText (fun _ => True) l := by
  intro k s s' hk _ _ h
  simp only [linkText, List.append_assoc, List.cons_append] at h
  obtain ⟨hc, hrest⟩ := sign_inj h
  obtain ⟨hf, htail⟩ := hl hk trivial trivial hrest
  exact ⟨Prod.ext hc hf, htail⟩

theorem delimits_links : Delimits ' ' (fun _ => True) Ends where
  separates := fun _ => trivial
  last := fun _ _ => trivial
  goesOn := by simp [Ends]

/-- No operand begins like a quantified formula. -/
theorem operand_ne_quant (hV : V.Legible) (hf : f.Over V) (q : Quantifier) :
    f.operand ++ s ≠ q.sign.toList ++ ' ' :: s' := by
  intro h
  have hopening : f.opening = none := by
    rw [opening_eq_filter (s := s) hV hf, h]
    cases q <;> rfl
  cases f with
  | atom a =>
      -- the name would be the sign alone or hold a blank
      obtain ⟨hnonempty, hplain, -⟩ := hV.predicate_name _ hf.1
      obtain ⟨c, cs, hname⟩ := List.exists_cons_of_ne_nil hnonempty
      rw [operand_atom, hname] at h
      cases cs with
      | nil => cases q <;> simp [Quantifier.sign, Term.argsText] at h
      | cons d cs =>
          have hd : d ≠ ' ' := (hplain d (by simp [hname])).2
          cases q <;> simp [Quantifier.sign, hd] at h
  | not | binary | quant => cases hopening

/-- A formula without a quantifier on top is read along its chain. -/
theorem reads_chain (hV : V.Legible) (hquant : f.isQuantifier = false) (hf : f.Over V)
    (hfirst : ReadsOperand V f.spine.1) (hlinks : ∀ l ∈ f.spine.2, ReadsOperand V l.2) :
    ReadsText V f := by
  intro g s s' hg hs hs' h
  dsimp only at h
  rw [render_append hquant] at h
  cases hquant' : g.isQuantifier with
  | true =>
      cases g with
      | quant q vs g =>
          rw [render_quant_append] at h
          exact absurd h (operand_ne_quant hV (over_spine hf).1 q)
      | atom | not | binary => cases hquant'
  | false =>
      rw [render_append hquant'] at h
      obtain ⟨hgfirst, hglinks⟩ := over_spine hg
      obtain ⟨hheads, hrest⟩ := hfirst hgfirst trivial trivial h
      obtain ⟨htails, htail⟩ := reads_flat_map delimits_links (fun l hl => reads_link (hlinks l hl))
        hglinks hs hs' hrest
      refine ⟨?_, htail⟩
      rw [← foldl_spine (f := f), hheads, htails, foldl_spine]

theorem reads_quant (hV : V.Legible) {q : Quantifier} {vs : List Variable}
    (hf : (quant q vs f).Over V) (h : ReadsText V f) : ReadsText V (quant q vs f) := by
  intro g s s' hg hs hs' htext
  dsimp only at htext
  rw [render_quant_append] at htext
  cases hquant : g.isQuantifier with
  | false =>
      rw [render_append hquant] at htext
      exact absurd htext.symm (operand_ne_quant hV (over_spine hg).1 q)
  | true =>
      cases g with
      | quant p ws g =>
          rw [render_quant_append] at htext
          obtain ⟨rfl, hrest⟩ := quantifier_sign_inj htext
          have hblank (s : List Char) : ∀ c ∈ (' ' :: s).head?, (c == ' ') = true := by simp
          obtain ⟨hnames, hbody⟩ := append_inj_of_stop (not_blank_of_mem_bound hV hf.1)
            (not_blank_of_mem_bound hV hg.1) (hblank _) (hblank _) hrest
          have hbound : boundText vs ++ [] = boundText ws ++ [] := by
            rw [List.append_cancel_right hnames]
          obtain ⟨rfl, -⟩ := reads_bound hV hf.1 hg.1 rfl rfl hbound
          obtain ⟨rfl, htail⟩ := h hg.2 hs hs' (List.cons.inj hbody).2
          exact ⟨rfl, htail⟩
      | atom | not | binary => cases hquant

/-! ## Whole formulas -/

/-- A formula over a legible vocabulary is told from any text that begins with it, and so are the
operands of its chain. -/
theorem reads (hV : V.Legible) (hf : f.Over V) :
    ReadsText V f ∧ ReadsOperand V f ∧
      ReadsOperand V f.spine.1 ∧ ∀ l ∈ f.spine.2, ReadsOperand V l.2 := by
  induction f with
  | atom a =>
      have hoperand := reads_atom hV hf
      have hlinks : ∀ l ∈ (atom a).spine.2, ReadsOperand V l.2 := fun _ h => nomatch h
      exact ⟨reads_chain hV rfl hf hoperand hlinks, hoperand, hoperand, hlinks⟩
  | not f ih =>
      have hbody : f.Over V := hf
      have hoperand := reads_not hV hbody (ih hbody).2.1
      have hlinks : ∀ l ∈ (not f).spine.2, ReadsOperand V l.2 := fun _ h => nomatch h
      exact ⟨reads_chain hV rfl hf hoperand hlinks, hoperand, hoperand, hlinks⟩
  | binary c f g ihf ihg =>
      obtain ⟨-, hleft, hfirst, hlinks⟩ := ihf hf.1
      obtain ⟨-, hright, -, -⟩ := ihg hf.2
      have hspine : ReadsOperand V (binary c f g).spine.1 ∧
          ∀ l ∈ (binary c f g).spine.2, ReadsOperand V l.2 := by
        unfold spine
        split
        · exact ⟨hfirst, List.forall_mem_append.2 ⟨hlinks, List.forall_mem_singleton.2 hright⟩⟩
        · exact ⟨hleft, List.forall_mem_singleton.2 hright⟩
      have htext := reads_chain hV rfl hf hspine.1 hspine.2
      exact ⟨htext, reads_bracketed hV rfl hf htext, hspine⟩
  | quant q vs f ih =>
      have htext := reads_quant hV hf (ih hf.2).1
      have hoperand := reads_bracketed hV rfl hf htext
      exact ⟨htext, hoperand, hoperand, fun _ h => nomatch h⟩

/-- Formulas over a legible vocabulary that have one text are one formula. -/
theorem render_injective (hV : V.Legible) (hf : f.Over V) (hg : g.Over V)
    (h : f.render = g.render) : f = g := by
  have htext : f.render.toList ++ [] = g.render.toList ++ [] := by rw [h]
  have hend : Ends [] := fun _ hc => nomatch hc
  exact ((reads hV hf).1 hg hend hend htext).1

end Formula

end Clausal
