import Clausal.Proofs.Skolem.Agenda
import Clausal.Proofs.WorkStack

/-!
# Loops that do what a recursion does

The loop that Skolemizes works on a stack too, but it changes a registry, keeps a list of the
universal variables bound above, and puts instances of bodies back onto the stack. It never lacks a
formula either, ends with the one outcome of the walk, and has restored the list by then
(`Performs.refines`). For the walk it makes no difference whether replacements are carried out or
pending (`walk_substitute`), so where it comes to an existential it does what it does with the
formula that takes its place (`walk_ex`). `work_stacks_refine` says this of all three loops.
-/

namespace Clausal

/-! ## Replacements that are pending -/

section Walk

variable {cfg : Config} {us vs : List Variable} {n : Nat} {f : Formula} {p : Pending}

/-- Only one attempt is performed for a formula. -/
theorem Performs.unique {x y : Attempt Formula} (hx : Performs cfg us n f x)
    (hy : Performs cfg us n f y) : x = y := by
  let finished (g : Formula) : Agenda := ⟨[], [g], us⟩
  have hsame : finished <$> x = finished <$> y := by
    simp only [map_eq_pure_bind]
    exact (hx 0 [] []).symm.trans (hy 0 [] [])
  -- the formula can be read off the agenda
  have hread (x : Attempt Formula) : (fun m => m.results.headD f) <$> (finished <$> x) = x := by
    rw [Functor.map_map]
    exact id_map x
  rw [← hread x, hsame, hread y]

/-- With nothing pending, the walk is performed. -/
theorem performs_walk_nil : Performs cfg us n f (f.skolemWalk cfg us n []) :=
  performs_walk (p := [])

/-- It makes no difference whether replacements are carried out before the walk or on its way. -/
theorem walk_substitute :
    (p.substitute f).skolemWalk cfg us n [] = f.skolemWalk cfg us n p :=
  performs_walk_nil.unique performs_walk

/-- In place of an existential the loop turns to what takes its place. -/
theorem performs_eliminate : Performs cfg us n (.ex vs f) (do
    let (g, copies) ← f.eliminate cfg us n vs
    g.skolemWalk cfg us copies []) := by
  intro k tasks results
  have hprocess : Agenda.process cfg n (.ex vs f) ⟨tasks, results, us⟩ = (do
      let (g, copies) ← f.eliminate cfg us n vs
      return ⟨.process g copies :: tasks, results, us⟩) := rfl
  have hwork (terms : Pending) : ((Pending.substitute [] f).expand vs).work =
      ((terms.substitute f).expand vs).work :=
    Nat.succ.inj (work_expand.trans work_expand.symm)
  rw [loop_process (work_expand (p := [])).symm, hprocess, Formula.eliminate]
  simp only [bind_assoc, pure_bind]
  refine bind_congr fun terms => bind_congr fun copies => ?_
  rw [hwork terms]
  exact performs_walk_nil k tasks results

/-- The walk through an existential is the walk through what takes its place. -/
theorem walk_ex : (Formula.ex vs f).skolemWalk cfg us n [] = (do
    let (g, copies) ← f.eliminate cfg us n vs
    g.skolemWalk cfg us copies []) :=
  performs_walk_nil.unique performs_eliminate

end Walk

/-! ## The universal variables -/

/-- The variables that the tasks will take off the list, those of the last task first. -/
def Task.bound : List Task → List Variable
  | [] => []
  | close vs :: ts => bound ts ++ vs
  | _ :: ts => bound ts

/-- The variables bound above the next task are those in `us` and those that tasks will take off. -/
def Agenda.Balanced (us : List Variable) (m : Agenda) : Prop :=
  m.universals = us ++ Task.bound m.tasks

variable {cfg : Config} {us : List Variable} {n k : Nat} {f : Formula} {r r' : Registry}
  {m m' : Agenda} {x : Attempt Agenda}

namespace Agenda

theorem Balanced.process (hm : m.Balanced us) (h : (process cfg n f m).Yields r m' r') :
    m'.Balanced us := by
  cases f with
  | atom a =>
      obtain ⟨rfl, -⟩ := Attempt.yields_pure.1 h
      exact hm
  | not f =>
      cases f with
      | atom a =>
          obtain ⟨rfl, -⟩ := Attempt.yields_pure.1 h
          exact hm
      | not | binary | quant => exact absurd h Attempt.not_yields_throw
  | binary c f g =>
      cases c with
      | and | or =>
          obtain ⟨rfl, -⟩ := Attempt.yields_pure.1 h
          exact hm
      | implies | iff => exact absurd h Attempt.not_yields_throw
  | quant q vs f =>
      cases q with
      | all =>
          obtain ⟨rfl, -⟩ := Attempt.yields_pure.1 h
          exact (congrArg (· ++ vs) hm).trans (List.append_assoc ..)
      | ex =>
          obtain ⟨_, _, -, h⟩ := Attempt.yields_bind.1 h
          obtain ⟨rfl, -⟩ := Attempt.yields_pure.1 h
          exact hm

/-- Each turn keeps the balance. -/
theorem Balanced.turn (hm : m.Balanced us) (hturn : m.turn cfg = some x) (h : x.Yields r m' r') :
    m'.Balanced us := by
  unfold Agenda.turn at hturn
  split at hturn
  · next f copies tasks results universals =>
      cases hturn
      have hrest : Balanced us ⟨tasks, results, universals⟩ := hm
      exact hrest.process h
  · cases hturn
    obtain ⟨rfl, -⟩ := Attempt.yields_pure.1 h
    exact hm
  · next vs tasks f results universals =>
      cases hturn
      obtain ⟨rfl, -⟩ := Attempt.yields_pure.1 h
      have hbound : universals = us ++ Task.bound tasks ++ vs :=
        Eq.trans hm (List.append_assoc ..).symm
      rw [Balanced, hbound, List.length_append, Nat.add_sub_cancel, List.take_left]
  · cases hturn

end Agenda

namespace Turns

theorem balanced (h : Turns cfg n m r m' r') (hm : m.Balanced us) : m'.Balanced us := by
  induction h with
  | refl => exact hm
  | step hturn hyields _ ih => exact ih (hm.turn hturn hyields)

/-- Where the turns come to an end, the loop does, however many more it might take. -/
theorem loop_yields (h : Turns cfg n m r m' r') (hlast : m'.turn cfg = none) (k : Nat) :
    (Agenda.loop cfg (n + k) m).Yields r m' r' := by
  induction h with
  | refl m r =>
      rw [Nat.zero_add]
      cases k with
      | zero => exact Attempt.yields_pure.2 ⟨rfl, rfl⟩
      | succ k =>
          rw [Agenda.loop, hlast]
          exact Attempt.yields_pure.2 ⟨rfl, rfl⟩
  | step hturn hyields _ ih =>
      rw [Nat.succ_add, Agenda.loop, hturn]
      exact Attempt.yields_bind.2 ⟨_, _, hyields, ih hlast⟩

end Turns

/-! ## Refinement -/

/-- What the loop has to do with the recursion `x`, when it starts with the formula `f`, of which
`n` copies are being made below the universal variables `us`: no task ever lacks a formula, where
nothing is left to do exactly one formula came out, the one of the recursion, with its registry, and
the loop ends with the outcome of the recursion, be it an error. In between the universal variables
are always `us` and those that tasks will take off, so each task finds its own at the end. -/
structure Agenda.Refines (cfg : Config) (us : List Variable) (n : Nat) (f : Formula)
    (x : Attempt Formula) : Prop where
  not_underflow : ∀ k r m r', Turns cfg k ⟨[.process f n], [], us⟩ r m r' →
    m.turn cfg = none → m.tasks = []
  single : ∀ k r m r', Turns cfg k ⟨[.process f n], [], us⟩ r m r' → m.tasks = [] →
    ∃ g, m = ⟨[], [g], us⟩ ∧ x.Yields r g r'
  ends : ∀ k, f.work ≤ k →
    Agenda.loop cfg k ⟨[.process f n], [], us⟩ = (fun g => ⟨[], [g], us⟩) <$> x
  universals : ∀ k r m r', Turns cfg k ⟨[.process f n], [], us⟩ r m r' →
    m.universals = us ++ Task.bound m.tasks

namespace Performs

variable {y : Attempt Formula}

/-- The loop for a formula alone. -/
theorem loop_start (hy : Performs cfg us n f y) (k : Nat) :
    Agenda.loop cfg (f.work + k) ⟨[.process f n], [], us⟩ = (fun g => ⟨[], [g], us⟩) <$> y := by
  rw [map_eq_pure_bind]
  refine (hy k [] []).trans (bind_congr fun g => ?_)
  cases k <;> rfl

/-- The loop comes to a halt with the outcome only. -/
theorem halts (hy : Performs cfg us n f y) (hturns : Turns cfg k ⟨[.process f n], [], us⟩ r m r')
    (hlast : m.turn cfg = none) : ∃ g, m = ⟨[], [g], us⟩ ∧ y.Yields r g r' := by
  have hyields := hturns.loop_yields hlast f.work
  rw [Nat.add_comm, hy.loop_start, map_eq_pure_bind, Attempt.yields_bind] at hyields
  obtain ⟨g, mid, hg, hm⟩ := hyields
  obtain ⟨rfl, rfl⟩ := Attempt.yields_pure.1 hm
  exact ⟨g, rfl, hg⟩

/-- The loop refines an attempt that it performs. -/
theorem refines (hy : Performs cfg us n f y) : Agenda.Refines cfg us n f y where
  not_underflow k r m r' hturns hlast := by
    obtain ⟨g, rfl, -⟩ := hy.halts hturns hlast
    rfl
  single k r m r' hturns htasks := by
    refine hy.halts hturns ?_
    obtain ⟨tasks, results, universals⟩ := m
    cases htasks
    rfl
  ends k hk := by
    obtain ⟨j, rfl⟩ := Nat.exists_eq_add_of_le hk
    exact hy.loop_start j
  universals k r m r' hturns := hturns.balanced (List.append_nil us).symm

end Performs

/-- The loops for negation normal forms and for distribution refine the recursions, and so does the
loop that Skolemizes, wherever in a formula it starts. The recursion it refines goes through the
left operand before the right one, and from an existential to what takes its place. -/
theorem work_stacks_refine :
    (∀ f, WorkStack.Refines WorkStack.treatNnf (true, f) (.ok f.toNnf)) ∧
    (∀ f, WorkStack.Refines WorkStack.treatDistribute f f.distribute) ∧
    ∀ cfg us n f, Agenda.Refines cfg us n f (f.skolemWalk cfg us n []) ∧
      ∀ vs, (Formula.ex vs f).skolemWalk cfg us n [] = (do
        let (g, copies) ← f.eliminate cfg us n vs
        g.skolemWalk cfg us copies []) :=
  ⟨fun f => WorkStack.unfolds_nnf.refines (true, f), WorkStack.unfolds_distribute.refines,
    fun _ _ _ _ => ⟨performs_walk_nil.refines, fun _ => walk_ex⟩⟩

end Clausal
