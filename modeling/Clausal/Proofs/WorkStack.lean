import Mathlib.Algebra.Order.Ring.Nat
import Clausal.Normal.Distribute
import Clausal.Normal.Negation

/-!
# Recursion by work stacks

A recursion over formulas can be carried out by a loop over two stacks, of the jobs that are left
and of the formulas that came out so far. The invariant of the loop is what comes out in the end
when the items that are left are treated by the recursion: no turn changes it (`complete_turn`).
So the loop never lacks a formula, and as the work gets less with each turn it ends with the outcome
of the recursion (`Unfolds.refines`). Negation normal forms (`unfolds_nnf`) and distribution
(`unfolds_distribute`) are two such loops.
-/

namespace Clausal.WorkStack

/-! ## The loop -/

/-- Why a loop is left early: an item was refused, or a job lacked formulas to make one of. -/
inductive Stop where
  | refused (e : Error)
  | underflow

/-- What is left to do: to treat an item, or to make one formula of the last or the last two. -/
inductive Job (ι : Type) where
  | treat (i : ι)
  | wrap (make : Formula → Formula)
  | join (make : Formula → Formula → Formula)

/-- What comes of an item: a formula, or jobs to do in its place. -/
inductive Treatment (ι : Type) where
  | formula (f : Formula)
  | jobs (js : List (Job ι))

/-- The jobs that are left and the formulas that came out, the top of each stack first. -/
structure Stacks (ι : Type) where
  jobs : List (Job ι)
  results : List Formula

variable {ι : Type}

/-- Only the item is to be treated. -/
def start (i : ι) : Stacks ι := ⟨[.treat i], []⟩

/-- Nothing is left to do, and one formula came out or an item was refused. -/
def finish : Except Error Formula → Except Stop (Stacks ι)
  | .ok f => .ok ⟨[], [f]⟩
  | .error e => .error (.refused e)

/-- One turn of the loop, for the job on top. -/
def turn (treat : ι → Except Error (Treatment ι)) (js : List (Job ι)) :
    Job ι → List Formula → Except Stop (Stacks ι)
  | .treat i, rs =>
    match treat i with
    | .ok (.formula f) => .ok ⟨js, f :: rs⟩
    | .ok (.jobs new) => .ok ⟨new ++ js, rs⟩
    | .error e => .error (.refused e)
  | .wrap make, f :: rs => .ok ⟨js, make f :: rs⟩
  | .join make, g :: f :: rs => .ok ⟨js, make f g :: rs⟩
  | _, _ => .error .underflow

/-- The loop, left after `n` turns at the latest. -/
def loop (treat : ι → Except Error (Treatment ι)) : Nat → Stacks ι → Except Stop (Stacks ι)
  | 0, s => .ok s
  | _ + 1, ⟨[], rs⟩ => .ok ⟨[], rs⟩
  | n + 1, ⟨j :: js, rs⟩ => turn treat js j rs >>= loop treat n

/-- What the loop over the item has to do with the recursion that gives `x` for it: no job ever
lacks a formula, the loop ends, and where nothing is left to do exactly one formula came out. -/
structure Refines (treat : ι → Except Error (Treatment ι)) (i : ι) (x : Except Error Formula) :
    Prop where
  not_underflow : ∀ n, loop treat n (start i) ≠ .error .underflow
  single : ∀ n s, loop treat n (start i) = .ok s → s.jobs = [] → ∃ f, s.results = [f] ∧ x = .ok f
  ends : ∃ bound, ∀ n, bound ≤ n → loop treat n (start i) = finish x

/-! ## The invariant -/

/-- The formulas that come out in the end when the items are treated by the recursion `eval`. -/
def complete (eval : ι → Except Error Formula) :
    List (Job ι) → List Formula → Except Stop (List Formula)
  | [], rs => .ok rs
  | .treat i :: js, rs =>
    match eval i with
    | .ok f => complete eval js (f :: rs)
    | .error e => .error (.refused e)
  | .wrap make :: js, f :: rs => complete eval js (make f :: rs)
  | .join make :: js, g :: f :: rs => complete eval js (make f g :: rs)
  | _, _ => .error .underflow

/-- Two items and the formula made of theirs come to what the recursion makes of the two, the first
one first. -/
theorem complete_join {eval : ι → Except Error Formula} {make : Formula → Formula → Formula}
    {i₁ i₂ : ι} {js : List (Job ι)} {rs : List Formula} :
    complete eval (.treat i₁ :: .treat i₂ :: .join make :: js) rs =
      match (do return make (← eval i₁) (← eval i₂)) with
      | .ok f => complete eval js (f :: rs)
      | .error e => .error (.refused e) := by
  simp only [complete]
  cases eval i₁ with
  | error e => rfl
  | ok f => cases eval i₂ <;> rfl

/-- The work that a job makes. -/
def Job.work (work : ι → Nat) : Job ι → Nat
  | treat i => work i
  | wrap _ | join _ => 1

/-- The work that all jobs make. -/
def totalWork (work : ι → Nat) (js : List (Job ι)) : Nat := (js.map (Job.work work)).sum

section TotalWork

variable {work : ι → Nat} {j : Job ι} {js js' : List (Job ι)}

@[simp] theorem total_work_nil : totalWork work [] = 0 := rfl

@[simp] theorem total_work_cons : totalWork work (j :: js) = j.work work + totalWork work js :=
  List.sum_cons

@[simp] theorem total_work_append :
    totalWork work (js ++ js') = totalWork work js + totalWork work js' := by
  rw [totalWork, List.map_append, List.sum_append, totalWork, totalWork]

end TotalWork

/-- The recursion gives for an item what comes of the jobs in its place, and these make less
work. -/
structure Unfolds (treat : ι → Except Error (Treatment ι)) (eval : ι → Except Error Formula)
    (work : ι → Nat) : Prop where
  complete_treat : ∀ i js rs, complete eval (.treat i :: js) rs =
    turn treat js (.treat i) rs >>= fun s => complete eval s.jobs s.results
  pos : ∀ i, 0 < work i
  less : ∀ i js, treat i = .ok (.jobs js) → totalWork work js < work i

namespace Unfolds

variable {treat : ι → Except Error (Treatment ι)} {eval : ι → Except Error Formula}
  {work : ι → Nat} {j : Job ι} {js : List (Job ι)} {rs : List Formula} {s s' : Stacks ι} {n : Nat}

/-- No turn changes what comes out in the end. -/
theorem complete_turn (h : Unfolds treat eval work) : complete eval (j :: js) rs =
    turn treat js j rs >>= fun s => complete eval s.jobs s.results := by
  cases j with
  | treat i => exact h.complete_treat i js rs
  | wrap make => cases rs <;> rfl
  | join make =>
      cases rs with
      | nil => rfl
      | cons g rs => cases rs <;> rfl

/-- Nor does the loop, however often it turns. -/
theorem complete_loop (h : Unfolds treat eval work) (n : Nat) (s : Stacks ι) :
    complete eval s.jobs s.results =
      loop treat n s >>= fun s' => complete eval s'.jobs s'.results := by
  induction n generalizing s with
  | zero => rfl
  | succ n ih =>
      obtain ⟨js, rs⟩ := s
      cases js with
      | nil => rfl
      | cons j js =>
          rw [h.complete_turn, loop, bind_assoc]
          exact bind_congr ih

/-- A job on top makes more work. -/
theorem lt_work_cons (h : Unfolds treat eval work) :
    totalWork work js < totalWork work (j :: js) := by
  have hpos : 0 < j.work work := by
    cases j with
    | treat i => exact h.pos i
    | wrap | join => exact Nat.one_pos
  rw [total_work_cons]
  exact Nat.lt_add_of_pos_left hpos

/-- Each turn leaves less work. -/
theorem work_turn (h : Unfolds treat eval work) (hturn : turn treat js j rs = .ok s) :
    totalWork work s.jobs < totalWork work (j :: js) := by
  unfold turn at hturn
  split at hturn
  · split at hturn
    · cases hturn
      exact h.lt_work_cons
    · next i _ new htreat =>
        cases hturn
        have hless := h.less i new htreat
        rw [total_work_append, total_work_cons]
        exact Nat.add_lt_add_right hless _
    · cases hturn
  · cases hturn
    exact h.lt_work_cons
  · cases hturn
    exact h.lt_work_cons
  · cases hturn

/-- With as many turns as there is work, nothing is left to do. -/
theorem jobs_eq_nil_of_loop (h : Unfolds treat eval work) (hwork : totalWork work s.jobs ≤ n)
    (hloop : loop treat n s = .ok s') : s'.jobs = [] := by
  induction n generalizing s with
  | zero =>
      obtain ⟨js, rs⟩ := s
      cases js with
      | nil =>
          cases hloop
          rfl
      | cons j js => exact absurd (Nat.lt_of_lt_of_le h.lt_work_cons hwork) (Nat.not_lt_zero _)
  | succ n ih =>
      obtain ⟨js, rs⟩ := s
      cases js with
      | nil =>
          cases hloop
          rfl
      | cons j js =>
          rw [loop] at hloop
          cases hturn : turn treat js j rs with
          | error e =>
              rw [hturn] at hloop
              cases hloop
          | ok mid =>
              rw [hturn] at hloop
              have hless := h.work_turn hturn
              exact ih (Nat.le_of_lt_succ (Nat.lt_of_lt_of_le hless hwork)) hloop

/-- What comes out of the loop over an item in the end is what the recursion gives for it. -/
theorem outcome_loop (h : Unfolds treat eval work) (n : Nat) (i : ι) :
    (finish (eval i) >>= fun s : Stacks ι => pure s.results) =
      loop treat n (start i) >>= fun s => complete eval s.jobs s.results := by
  rw [← h.complete_loop, start, complete]
  cases eval i <;> rfl

/-- The loop is left early only where the recursion refuses the item. -/
theorem refused_of_loop (h : Unfolds treat eval work) {i : ι} {stop : Stop}
    (hloop : loop treat n (start i) = .error stop) :
    ∃ e, stop = .refused e ∧ eval i = .error e := by
  have hout := h.outcome_loop n i
  rw [hloop] at hout
  cases heval : eval i with
  | error e =>
      rw [heval] at hout
      cases hout
      exact ⟨e, rfl, rfl⟩
  | ok f =>
      rw [heval] at hout
      cases hout

/-- Where nothing is left to do, the formula of the recursion came out. -/
theorem single_of_loop (h : Unfolds treat eval work) {i : ι}
    (hloop : loop treat n (start i) = .ok ⟨[], rs⟩) : ∃ f, rs = [f] ∧ eval i = .ok f := by
  have hout := h.outcome_loop n i
  rw [hloop] at hout
  cases heval : eval i with
  | error e =>
      rw [heval] at hout
      cases hout
  | ok f =>
      rw [heval] at hout
      cases hout
      exact ⟨f, rfl, rfl⟩

/-- The loop refines a recursion that unfolds as its items are treated. -/
theorem refines (h : Unfolds treat eval work) (i : ι) : Refines treat i (eval i) where
  not_underflow n hloop := by
    obtain ⟨e, he, -⟩ := h.refused_of_loop hloop
    cases he
  single n s hloop hjobs := by
    obtain ⟨js, rs⟩ := s
    cases hjobs
    exact h.single_of_loop hloop
  ends := by
    refine ⟨totalWork work (start i).jobs, fun n hn => ?_⟩
    cases hloop : loop treat n (start i) with
    | error stop =>
        obtain ⟨e, rfl, heval⟩ := h.refused_of_loop hloop
        rw [heval, finish]
    | ok s =>
        have hjobs := h.jobs_eq_nil_of_loop hn hloop
        obtain ⟨js, rs⟩ := s
        cases hjobs
        obtain ⟨f, rfl, heval⟩ := h.single_of_loop hloop
        rw [heval, finish]

end Unfolds

/-! ## The two loops -/

/-- An upper bound for the turns that both loops take for a formula. An equivalence takes its parts
twice. -/
def effort : Formula → Nat
  | .atom _ => 1
  | .not f => effort f + 1
  | .iff f g => 2 * (effort f + effort g) + 4
  | .binary _ f g => effort f + effort g + 2
  | .quant _ _ f => effort f + 2

theorem effort_pos (f : Formula) : 0 < effort f := by
  unfold effort
  split <;> omega

/-- What comes of a formula, or of its negation for `false`, on the way to negation normal form. -/
def treatNnf : Bool × Formula → Except Error (Treatment (Bool × Formula))
  | (true, .atom a) => .ok (.formula (.atom a))
  | (false, .atom a) => .ok (.formula (.not (.atom a)))
  | (s, .not f) => .ok (.jobs [.treat (!s, f)])
  | (true, .and f g) => .ok (.jobs [.treat (true, f), .treat (true, g), .join .and])
  | (false, .and f g) => .ok (.jobs [.treat (false, f), .treat (false, g), .join .or])
  | (true, .or f g) => .ok (.jobs [.treat (true, f), .treat (true, g), .join .or])
  | (false, .or f g) => .ok (.jobs [.treat (false, f), .treat (false, g), .join .and])
  | (true, .implies f g) => .ok (.jobs [.treat (false, f), .treat (true, g), .join .or])
  | (false, .implies f g) => .ok (.jobs [.treat (true, f), .treat (false, g), .join .and])
  | (true, .iff f g) => .ok (.jobs
      [.treat (false, f), .treat (true, g), .join .or,
        .treat (false, g), .treat (true, f), .join .or, .join .and])
  | (false, .iff f g) => .ok (.jobs
      [.treat (true, f), .treat (false, g), .join .and,
        .treat (true, g), .treat (false, f), .join .and, .join .or])
  | (true, .quant q vs f) => .ok (.jobs [.treat (true, f), .wrap (.quant q vs)])
  | (false, .quant q vs f) => .ok (.jobs [.treat (false, f), .wrap (.quant q.dual vs)])

/-- What comes of a formula on the way to conjunctive normal form. -/
def treatDistribute : Formula → Except Error (Treatment Formula)
  | .atom a => .ok (.formula (.atom a))
  | .not (.atom a) => .ok (.formula (.not (.atom a)))
  | .not _ => .error (.unsupportedShape .negatedCompound .distribution)
  | .and f g => .ok (.jobs [.treat f, .treat g, .join .and])
  | .or f g => .ok (.jobs [.treat f, .treat g, .join Formula.orCnf])
  | .implies _ _ => .error (.unsupportedShape .implication .distribution)
  | .iff _ _ => .error (.unsupportedShape .equivalence .distribution)
  | .quant .. => .error (.unsupportedShape .quantifier .distribution)

/-- Negation normal forms unfold as the loop treats them. -/
theorem unfolds_nnf :
    Unfolds treatNnf (fun i => .ok (Formula.signedNnf i.1 i.2)) fun i => effort i.2 where
  complete_treat := by
    rintro ⟨s, f⟩ js rs
    cases f with
    | atom => cases s <;> rfl
    | not f => cases s <;> rfl
    | binary c f g => cases c <;> cases s <;> rfl
    | quant q vs f => cases s <;> rfl
  pos i := effort_pos i.2
  less := by
    rintro ⟨s, f⟩ js hjs
    cases f with
    | atom => cases s <;> cases hjs
    | not f =>
        have hjs : js = [.treat (!s, f)] := by cases s <;> cases hjs <;> rfl
        simp [hjs, Job.work, effort]
    | binary c f g =>
        -- whatever the connective and the sign, each part is treated once, or twice
        cases c <;> cases s <;> cases hjs <;>
          simp only [total_work_cons, total_work_nil, Job.work, effort] <;> omega
    | quant q vs f => cases s <;> cases hjs <;> simp [Job.work, effort]

/-- Distribution unfolds as the loop treats the formulas. -/
theorem unfolds_distribute : Unfolds treatDistribute Formula.distribute effort where
  complete_treat := by
    intro f js rs
    cases f with
    | atom => rfl
    | not f => cases f <;> rfl
    | binary c f g =>
        cases c with
        | and | or => exact complete_join.symm
        | implies | iff => rfl
    | quant => rfl
  pos := effort_pos
  less := by
    intro f js hjs
    cases f with
    | atom => cases hjs
    | not f => cases f <;> cases hjs
    | binary c f g =>
        cases c with
        | and | or =>
            cases hjs
            simp only [total_work_cons, total_work_nil, Job.work, effort]
            omega
        | implies | iff => cases hjs
    | quant => cases hjs

end Clausal.WorkStack
