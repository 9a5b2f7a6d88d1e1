import Clausal.Proofs.Skolem.Objections

/-!
# Skolemization as a loop

The walk that Skolemizes a formula can be made by a loop over a stack of tasks, an agenda. When the
loop comes to an existential it puts the instances of its body back onto the stack, as one
disjunction. Neither the stack nor the formulas on it get smaller that way, but the work does: the
number of turns that the tasks will take (`Formula.work`), which replacements leave alone
(`work_substitute`) and each turn lowers by one (`work_turn`). So the loop ends, whatever is on the
stack, and does what the walk does (`performs_walk`). `skolem_loop_ends` puts this together.
-/

namespace Clausal

/-! ## The loop -/

/-- Carries out the replacements in a formula. -/
def Pending.substitute (p : Pending) (f : Formula) : Formula :=
  p.foldl (fun f (x, s) => f.subst x s) f

/-- The disjunction of the instances of `f` for all choices of constants for the closed-world
variables among `vs`, or `f` itself when there are none. -/
def Formula.expand (vs : List Variable) (f : Formula) : Formula :=
  let instances := (choices (closedWorld vs)).map fun choice => choice.substitute f
  (disjunction instances).getD f

/-- What takes the place of an existential over `vs` with the body `f`, and the number of copies
being made of each of its instances. -/
def Formula.eliminate (cfg : Config) (universals : List Variable) (copies : Nat)
    (vs : List Variable) (f : Formula) : Attempt (Formula × Nat) := do
  let terms ← skolemTerms cfg universals vs
  let copies ← checkExpansion cfg copies (closedWorld vs)
  return ((terms.substitute f).expand vs, copies)

/-- What is left to do: to Skolemize a formula of which copies are being made, or to put together
what came out of parts. -/
inductive Task where
  | process (f : Formula) (copies : Nat)
  | join (c : Connective)
  | close (vs : List Variable)

/-- The tasks and the formulas that came out so far, on stacks, and the universal variables bound
above the next task. -/
structure Agenda where
  tasks : List Task
  results : List Formula
  universals : List Variable

namespace Agenda

/-- Only the formula is to be Skolemized. -/
def start (f : Formula) : Agenda := ⟨[.process f 1], [], []⟩

/-- Nothing is left to do, and the formula came out. -/
def finished (f : Formula) : Agenda := ⟨[], [f], []⟩

/-- Turns to a formula, of which copies are being made. -/
def process (cfg : Config) (copies : Nat) : Formula → Agenda → Attempt Agenda
  | .atom a, m => return { m with results := .atom a :: m.results }
  | .not (.atom a), m => return { m with results := .not (.atom a) :: m.results }
  | .not _, _ => throw (.unsupportedShape .negatedCompound .skolemization)
  | .implies _ _, _ => throw (.unsupportedShape .implication .skolemization)
  | .iff _ _, _ => throw (.unsupportedShape .equivalence .skolemization)
  | .binary c f g, m =>
    return { m with tasks := .process f copies :: .process g copies :: .join c :: m.tasks }
  | .all vs f, m =>
    return { m with
      tasks := .process f copies :: .close vs :: m.tasks
      universals := m.universals ++ vs }
  | .ex vs f, m => do
    let (g, copies) ← f.eliminate cfg m.universals copies vs
    return { m with tasks := .process g copies :: m.tasks }

/-- One turn of the loop, for the task on top. There is none when nothing is left to do, and none
when the formulas are missing that the task puts together. -/
def turn (cfg : Config) : Agenda → Option (Attempt Agenda)
  | ⟨.process f copies :: tasks, results, us⟩ => some (process cfg copies f ⟨tasks, results, us⟩)
  | ⟨.join c :: tasks, g :: f :: results, us⟩ => some (pure ⟨tasks, .binary c f g :: results, us⟩)
  | ⟨.close vs :: tasks, f :: results, us⟩ =>
    some (pure ⟨tasks, .all vs f :: results, us.take (us.length - vs.length)⟩)
  | _ => none

/-- The loop, left after `n` turns at the latest. -/
def loop (cfg : Config) : Nat → Agenda → Attempt Agenda
  | 0, m => pure m
  | n + 1, m =>
    match m.turn cfg with
    | none => pure m
    | some next => next >>= loop cfg n

end Agenda

/-! ## Work -/

/-- The number of turns that the loop takes for a formula, if nothing is refused. -/
def Formula.work : Formula → Nat
  | and f g | or f g => f.work + g.work + 2
  | all _ f => f.work + 2
  | ex vs f => (copiesOf vs).length * (f.work + 2) - 1
  | _ => 1

/-- The number of turns for a task. -/
def Task.work : Task → Nat
  | process f _ => f.work
  | join _ | close _ => 1

/-- The number of turns for all tasks. -/
def Agenda.work (m : Agenda) : Nat := (m.tasks.map Task.work).sum

namespace Formula

variable {f g : Formula} {fs : List Formula} {vs : List Variable} {n : Nat} {p : Pending}

/-- A replacement leaves the quantifiers and connectives as they are. -/
@[simp] theorem work_subst {x : Variable} {s : Term} : (f.subst x s).work = f.work := by
  induction f with
  | atom => rfl
  | not => rfl
  | binary c f g ihf ihg => cases c <;> simp [subst, work, ihf, ihg]
  | quant q vs f ih =>
      rw [subst]
      cases q <;> split <;> simp [work, ih]

@[simp] theorem work_substitute : (p.substitute f).work = f.work := by
  induction p generalizing f with
  | nil => rfl
  | cons xb p ih => exact ih.trans work_subst

/-- Each part of a chain of disjunctions is processed, and each but the first one is joined. -/
theorem work_foldl_or (hfs : ∀ g ∈ fs, g.work = n) :
    (fs.foldl or f).work = f.work + fs.length * (n + 2) := by
  induction fs generalizing f with
  | nil => simp
  | cons g fs ih =>
      obtain ⟨hg, hfs⟩ := List.forall_mem_cons.1 hfs
      rw [List.foldl_cons, ih hfs, work, hg, List.length_cons, Nat.succ_mul]
      omega

end Formula

/-! ## Copies -/

section Copies

variable {vs : List Variable} {choice : Pending} {rest : List Pending} {f : Formula} {p : Pending}

theorem exists_copies_eq_cons (vs : List Variable) : ∃ choice rest, copiesOf vs = choice :: rest :=
  have ⟨_, hmem⟩ := exists_copy vs
  List.exists_cons_of_ne_nil (List.ne_nil_of_mem hmem)

/-- What takes the place of an existential is the chain of its copies. -/
theorem expand_eq (h : copiesOf vs = choice :: rest) :
    f.expand vs = (rest.map fun choice => choice.substitute f).foldl .or (choice.substitute f) := by
  unfold copiesOf at h
  unfold Formula.expand
  split at h
  · next hempty =>
      cases h
      rw [hempty]
      rfl
  · next hcons =>
      cases h
      rw [hcons]
      rfl

/-- Walking through the choices, or through the body itself when there are none, is walking through
the copies one after the other. -/
theorem walk_copies (h : copiesOf vs = choice :: rest) (walk : Pending → Attempt Formula) :
    (do
      let gs ← (choices (closedWorld vs)).mapM walk
      match Formula.disjunction gs with
      | some g => return g
      | none => walk []) =
    (do
      let g ← walk choice
      let gs ← rest.mapM walk
      return gs.foldl .or g) := by
  unfold copiesOf at h
  split at h
  · next hempty =>
      cases h
      rw [hempty]
      simp [Formula.disjunction, Formula.join]
  · next hcons =>
      cases h
      rw [hcons]
      simp [Formula.disjunction, Formula.join]

/-- Eliminating an existential takes one turn, and what takes its place all the others. -/
theorem work_expand : ((p.substitute f).expand vs).work + 1 = (Formula.ex vs f).work := by
  obtain ⟨choice, rest, hcopies⟩ := exists_copies_eq_cons vs
  have hrest : ∀ g ∈ rest.map fun choice => choice.substitute (p.substitute f),
      g.work = (p.substitute f).work :=
    List.forall_mem_map.2 fun _ _ => Formula.work_substitute
  rw [expand_eq hcopies, Formula.work_foldl_or hrest, List.length_map, Formula.work, hcopies,
    List.length_cons, Nat.succ_mul]
  simp only [Formula.work_substitute]
  omega

end Copies

/-! ## Turns -/

variable {cfg : Config} {f g : Formula} {us vs : List Variable} {n k : Nat} {r r' : Registry}
  {m m' : Agenda} {x : Attempt Agenda}

namespace Agenda

/-- To turn to a formula does one piece of its work. The rest of it is on the agenda then. -/
theorem work_process (h : (process cfg n f m).Yields r m' r') : m'.work + 1 = f.work + m.work := by
  cases f with
  | atom a =>
      obtain ⟨rfl, -⟩ := Attempt.yields_pure.1 h
      exact Nat.add_comm ..
  | not f =>
      cases f with
      | atom a =>
          obtain ⟨rfl, -⟩ := Attempt.yields_pure.1 h
          exact Nat.add_comm ..
      | not | binary | quant => exact absurd h Attempt.not_yields_throw
  | binary c f g =>
      cases c with
      | and | or =>
          obtain ⟨rfl, -⟩ := Attempt.yields_pure.1 h
          simp only [work, List.map_cons, List.sum_cons, Task.work, Formula.work]
          omega
      | implies | iff => exact absurd h Attempt.not_yields_throw
  | quant q vs f =>
      cases q with
      | all =>
          obtain ⟨rfl, -⟩ := Attempt.yields_pure.1 h
          simp only [work, List.map_cons, List.sum_cons, Task.work, Formula.work]
          omega
      | ex =>
          simp only [process, Formula.eliminate, Attempt.yields_bind, Attempt.yields_pure] at h
          obtain ⟨_, _, ⟨terms, _, _, copies, _, _, rfl, -⟩, rfl, -⟩ := h
          have hexpand : _ = (Formula.quant .ex vs f).work := work_expand (p := terms)
          simp only [work, List.map_cons, List.sum_cons, Task.work]
          omega

/-- Each turn does one piece of the work, whatever is on the agenda. -/
theorem work_turn (hturn : m.turn cfg = some x) (h : x.Yields r m' r') : m'.work + 1 = m.work := by
  unfold turn at hturn
  split at hturn
  · cases hturn
    exact work_process h
  · cases hturn
    obtain ⟨rfl, -⟩ := Attempt.yields_pure.1 h
    exact Nat.add_comm ..
  · cases hturn
    obtain ⟨rfl, -⟩ := Attempt.yields_pure.1 h
    exact Nat.add_comm ..
  · cases hturn

end Agenda

/-- `Turns cfg n m r m' r'` says that `n` turns lead from the agenda `m` and the registry `r` to
`m'` and `r'`. -/
inductive Turns (cfg : Config) : Nat → Agenda → Registry → Agenda → Registry → Prop where
  | refl (m : Agenda) (r : Registry) : Turns cfg 0 m r m r
  | step {n : Nat} {m mid m' : Agenda} {r r₁ r' : Registry} {x : Attempt Agenda} :
      m.turn cfg = some x → x.Yields r mid r₁ → Turns cfg n mid r₁ m' r' →
      Turns cfg (n + 1) m r m' r'

namespace Turns

/-- As many turns as were taken, so much of the work is done. -/
theorem work (h : Turns cfg n m r m' r') : n + m'.work = m.work := by
  induction h with
  | refl => exact Nat.zero_add _
  | step hturn hyields _ ih =>
      have := Agenda.work_turn hturn hyields
      omega

end Turns

/-- Where the loop is left after `n` turns at the latest, it has taken no more than these. -/
theorem turns_of_loop (h : (Agenda.loop cfg n m).Yields r m' r') :
    ∃ k ≤ n, Turns cfg k m r m' r' := by
  induction n generalizing m r with
  | zero =>
      obtain ⟨rfl, rfl⟩ := Attempt.yields_pure.1 h
      exact ⟨0, Nat.le_refl _, .refl ..⟩
  | succ n ih =>
      rw [Agenda.loop] at h
      split at h
      · obtain ⟨rfl, rfl⟩ := Attempt.yields_pure.1 h
        exact ⟨0, Nat.zero_le _, .refl ..⟩
      · next x hturn =>
          obtain ⟨mid, r₁, hfirst, hrest⟩ := Attempt.yields_bind.1 h
          obtain ⟨k, hk, hturns⟩ := ih hrest
          exact ⟨k + 1, Nat.succ_le_succ hk, .step hturn hfirst hturns⟩

/-! ## The loop and the walk -/

namespace Pending

variable {p : Pending}

theorem substitute_atom {a : Atom} : p.substitute (.atom a) = .atom (p.apply a) := by
  induction p generalizing a with
  | nil => rfl
  | cons xb p ih => exact ih

theorem substitute_not : p.substitute (.not f) = .not (p.substitute f) := by
  induction p generalizing f with
  | nil => rfl
  | cons xb p ih => exact ih

theorem substitute_binary {c : Connective} :
    p.substitute (.binary c f g) = .binary c (p.substitute f) (p.substitute g) := by
  induction p generalizing f g with
  | nil => rfl
  | cons xb p ih => exact ih

/-- Below a quantifier the variables that it binds are not replaced. -/
theorem substitute_quant {q : Quantifier} :
    p.substitute (.quant q vs f) = .quant q vs ((p.below vs).substitute f) := by
  induction p generalizing f with
  | nil => rfl
  | cons xb p ih =>
      have hfirst : substitute (xb :: p) (.quant q vs f) =
          Pending.substitute p (.quant q vs (if xb.1.isAmong vs then f else f.subst xb.1 xb.2)) :=
        rfl
      rw [hfirst, ih, below, below]
      cases hx : xb.1.isAmong vs with
      | true => rw [List.filter_cons_of_neg (by simp [hx])]; rfl
      | false => rw [List.filter_cons_of_pos (by simp [hx])]; rfl

theorem substitute_append {q : Pending} :
    (p ++ q).substitute f = q.substitute (p.substitute f) :=
  List.foldl_append ..

end Pending

/-- The loop turns to the formula on top first. -/
theorem loop_process {tasks : List Task} {results : List Formula} {j : Nat}
    (hwork : f.work = j + 1) :
    Agenda.loop cfg (f.work + k) ⟨.process f n :: tasks, results, us⟩ =
      Agenda.process cfg n f ⟨tasks, results, us⟩ >>= Agenda.loop cfg (j + k) := by
  rw [hwork, Nat.succ_add, Agenda.loop]
  rfl

/-- With the formula on top of the agenda, of which `n` copies are being made below the universal
variables `us`, the loop does what `x` does, and goes on with the outcome. -/
def Performs (cfg : Config) (us : List Variable) (n : Nat) (f : Formula) (x : Attempt Formula) :
    Prop :=
  ∀ k tasks results, Agenda.loop cfg (f.work + k) ⟨.process f n :: tasks, results, us⟩ =
    x >>= fun g => Agenda.loop cfg k ⟨tasks, g :: results, us⟩

namespace Performs

variable {x y : Attempt Formula}

/-- A literal comes out as it is. -/
theorem literal (hwork : f.work = 1)
    (hf : ∀ m, Agenda.process cfg n f m = pure { m with results := f :: m.results }) :
    Performs cfg us n f (pure f) := by
  intro k tasks results
  rw [loop_process hwork, hf, pure_bind, pure_bind, Nat.zero_add]

theorem refused {e : Error} (hwork : f.work = 1)
    (hf : ∀ m, Agenda.process cfg n f m = throw e) : Performs cfg us n f (throw e) := by
  intro k tasks results
  rw [loop_process hwork, hf]
  rfl

/-- Two parts are performed one after the other, and then joined. -/
theorem join {c : Connective} (hc : c = .and ∨ c = .or) (hf : Performs cfg us n f x)
    (hg : Performs cfg us n g y) :
    Performs cfg us n (.binary c f g) (do return .binary c (← x) (← y)) := by
  intro k tasks results
  have hwork : (Formula.binary c f g).work = f.work + (g.work + 1) + 1 := by
    rcases hc with rfl | rfl <;> rfl
  have hprocess : Agenda.process cfg n (.binary c f g) ⟨tasks, results, us⟩ =
      pure ⟨.process f n :: .process g n :: .join c :: tasks, results, us⟩ := by
    rcases hc with rfl | rfl <;> rfl
  rw [loop_process hwork, hprocess, pure_bind, Nat.add_assoc, hf, bind_assoc]
  refine bind_congr fun f' => ?_
  rw [Nat.add_assoc, hg, bind_assoc]
  refine bind_congr fun g' => ?_
  rw [pure_bind, Nat.add_comm 1 k, Agenda.loop]
  rfl

/-- A chain of formulas is performed one after the other. -/
theorem chain {α : Type} {instantiate : α → Formula} {walk : α → Attempt Formula} {xs : List α}
    (hf : Performs cfg us n f x)
    (hxs : ∀ a ∈ xs, Performs cfg us n (instantiate a) (walk a)) :
    Performs cfg us n ((xs.map instantiate).foldl .or f) (do
      let g ← x
      let gs ← xs.mapM walk
      return gs.foldl .or g) := by
  induction xs generalizing f x with
  | nil => simpa using hf
  | cons a xs ih =>
      obtain ⟨ha, hxs⟩ := List.forall_mem_cons.1 hxs
      have hrest := ih (hf.join (.inr rfl) ha) hxs
      simpa only [List.map_cons, List.foldl_cons, List.mapM_cons, bind_assoc, pure_bind] using hrest

/-- The body of a universal quantifier is performed below its variables. -/
theorem all (hf : Performs cfg (us ++ vs) n f x) :
    Performs cfg us n (.all vs f) (do return .all vs (← x)) := by
  intro k tasks results
  have hwork : (Formula.all vs f).work = f.work + 1 + 1 := rfl
  have hprocess : Agenda.process cfg n (.all vs f) ⟨tasks, results, us⟩ =
      pure ⟨.process f n :: .close vs :: tasks, results, us ++ vs⟩ := rfl
  have htake : (us ++ vs).take ((us ++ vs).length - vs.length) = us := by
    rw [List.length_append, Nat.add_sub_cancel, List.take_left]
  rw [loop_process hwork, hprocess, pure_bind, Nat.add_assoc, hf, bind_assoc]
  refine bind_congr fun g => ?_
  rw [pure_bind, Nat.add_comm 1 k, Agenda.loop]
  simp only [Agenda.turn, htake, pure_bind]

/-- What takes the place of an existential is performed in its place. -/
theorem ex {walk : Pending → Nat → Attempt Formula}
    (hf : ∀ terms choice copies, Performs cfg us copies
      (Pending.substitute (terms ++ choice) f) (walk (terms ++ choice) copies)) :
    Performs cfg us n (.ex vs f) (do
      let terms ← skolemTerms cfg us vs
      let copies ← checkExpansion cfg n (closedWorld vs)
      let gs ← (choices (closedWorld vs)).mapM fun choice => walk (terms ++ choice) copies
      match Formula.disjunction gs with
      | some g => return g
      | none => walk terms copies) := by
  intro k tasks results
  obtain ⟨choice, rest, hcopies⟩ := exists_copies_eq_cons vs
  have hprocess : Agenda.process cfg n (.ex vs f) ⟨tasks, results, us⟩ = (do
      let terms ← skolemTerms cfg us vs
      let copies ← checkExpansion cfg n (closedWorld vs)
      return ⟨.process ((terms.substitute f).expand vs) copies :: tasks, results, us⟩) := by
    simp only [Agenda.process, Formula.eliminate, bind_assoc, pure_bind]
  -- the terms are minted in the first turn, but the number of turns does not depend on them
  have hwork (terms : Pending) : ((Pending.substitute [] f).expand vs).work =
      ((terms.substitute f).expand vs).work :=
    Nat.succ.inj (work_expand.trans work_expand.symm)
  rw [loop_process (work_expand (p := [])).symm, hprocess]
  simp only [bind_assoc, pure_bind]
  refine bind_congr fun terms => bind_congr fun copies => ?_
  have hchain : Performs cfg us copies ((terms.substitute f).expand vs) (do
      let g ← walk (terms ++ choice) copies
      let gs ← rest.mapM fun choice => walk (terms ++ choice) copies
      return gs.foldl .or g) := by
    rw [expand_eq hcopies]
    refine chain ?_ fun choice _ => ?_
    · rw [← Pending.substitute_append]
      exact hf terms choice copies
    · rw [← Pending.substitute_append]
      exact hf terms choice copies
  have hwalk := walk_copies hcopies fun choice => walk (terms ++ choice) copies
  rw [List.append_nil] at hwalk
  rw [hwork terms, hchain, ← hwalk]
  simp only [bind_assoc]

end Performs

/-- The loop does with a formula, in which replacements have been made, what the walk does with the
formula itself while the replacements are pending. -/
theorem performs_walk {p : Pending} :
    Performs cfg us n (p.substitute f) (f.skolemWalk cfg us n p) := by
  -- the agenda holds instances of the parts of `f`, so the induction is on `f` and for all `p`
  induction f generalizing us n p with
  | atom a =>
      rw [Pending.substitute_atom]
      exact .literal rfl fun _ => rfl
  | not f _ =>
      rw [Pending.substitute_not]
      cases f with
      | atom a =>
          rw [Pending.substitute_atom]
          exact .literal rfl fun _ => rfl
      | not f =>
          rw [Pending.substitute_not]
          exact .refused rfl fun _ => rfl
      | binary c f g =>
          rw [Pending.substitute_binary]
          exact .refused rfl fun _ => rfl
      | quant q vs f =>
          rw [Pending.substitute_quant]
          exact .refused rfl fun _ => rfl
  | binary c f g ihf ihg =>
      rw [Pending.substitute_binary]
      cases c with
      | and => exact ihf.join (.inl rfl) ihg
      | or => exact ihf.join (.inr rfl) ihg
      | implies | iff => exact .refused rfl fun _ => rfl
  | quant q vs f ih =>
      rw [Pending.substitute_quant]
      cases q with
      | all => exact ih.all
      | ex =>
          rw [Formula.skolemWalk]
          simp only [List.append_assoc]
          refine .ex fun terms choice copies => ?_
          rw [← Pending.substitute_append]
          exact ih

/-- Whatever the formula and the settings, the loop takes no more turns than the work of the formula
says, and never stops halfway: after as many turns it has done what the walk does, with nothing left
to do. Where Skolemization succeeds it takes exactly as many. -/
theorem skolem_loop_ends (cfg : Config) (f : Formula) (r : Registry) :
    (∀ n m r', Turns cfg n (.start f) r m r' → n + m.work = f.work) ∧
    (∀ k, Agenda.loop cfg (f.work + k) (.start f) = Agenda.finished <$> f.skolemWalk cfg [] 1 []) ∧
    (∀ g r', (f.skolemize cfg).Yields r g r' →
      Turns cfg f.work (.start f) r (.finished g) r') := by
  have hstart : (Agenda.start f).work = f.work := Nat.add_zero _
  have hloop (k : Nat) : Agenda.loop cfg (f.work + k) (.start f) =
      Agenda.finished <$> f.skolemWalk cfg [] 1 [] := by
    rw [map_eq_pure_bind]
    refine (performs_walk (p := []) k [] []).trans (bind_congr fun g => ?_)
    cases k <;> rfl
  refine ⟨fun n m r' hturns => hturns.work.trans hstart, hloop, fun g r' hg => ?_⟩
  have hrun : (Agenda.loop cfg f.work (.start f)).Yields r (.finished g) r' := by
    have hwalk := Attempt.yields_atomically.1 hg
    rw [← Nat.add_zero f.work, hloop 0, map_eq_pure_bind, Attempt.yields_bind]
    exact ⟨g, r', hwalk, Attempt.yields_pure.2 ⟨rfl, rfl⟩⟩
  obtain ⟨k, -, hturns⟩ := turns_of_loop hrun
  have hk : k = f.work := hturns.work.trans hstart
  rwa [hk] at hturns

open Sample in
/-- Without a limit below the cap, an existential inside another takes 23 turns. -/
theorem skolem_loop_ends_nested :
    nested.work = 23 ∧
    ∃ g r', (nested.skolemize (.ofLimit copyCap)).Yields registry g r' ∧
      Turns (.ofLimit copyCap) 23 (.start nested) registry (.finished g) r' ∧
      23 + (Agenda.finished g).work = 23 := by
  have hwork : nested.work = 23 := by decide
  obtain ⟨hbound, -, hends⟩ := skolem_loop_ends (.ofLimit copyCap) nested registry
  have hyields : (nested.skolemize (.ofLimit copyCap)).Yields registry _ _ :=
    Attempt.yields_of_outcome rfl
  have hturns := hends _ _ hyields
  rw [hwork] at hturns hbound
  exact ⟨hwork, _, _, hyields, hturns, hbound _ _ _ hturns⟩

end Clausal
