import DoNewsStd.Container.Shutdown

/-!
# Shutdown, statement by statement

`DoNewsStd.Container.Shutdown` runs one iteration of the loop of `Shutdown`
as one step.  Here the loop body is the three statements the source writes,
and the goroutines and the final wait may interleave between any two of them:
`wg.Add(1)`, then `p := p`, then the `go` statement that hands the copy to a
new goroutine.  Between `p := p` and `go` the copy lives in the loop's frame.

The abstraction takes back the `wg.Add(1)` of an iteration under way.  Every
statement of the loop is then either invisible to the atomic model
(`wg.Add(1)` and `p := p`) or one step of it (`go`, which ends an iteration,
and every statement of the goroutines and of the wait).  So every state the
statements reach stands for a state the atomic model reaches, with the
counter one higher inside an iteration, and what `Shutdown` promises carries
over.
-/

namespace DoNewsStd.Container.ShutdownStatements

open DoNewsStd.Container.Registry
open DoNewsStd.Container.Dispatch

/--
Where the loop of `Shutdown` stands: at the head, before the `wg.Add(1)` of
an iteration or after the loop; after `wg.Add(1)`; or after `p := p`, which
bound `copy`.
-/
inductive LoopPoint (Value : Type) where
  | head
  | added
  | copied (copy : Callback Value)
  deriving DecidableEq, Repr

/-- The loop's frame and the state it shares with the goroutines. -/
structure LoopState (Value : Type) where
  shared : Shutdown.ShutdownState Value
  point : LoopPoint Value
  deriving DecidableEq, Repr

/--
One statement of `Shutdown` or of one of its goroutines: `wg.Add(1)`, which
enters an iteration; `p := p`; `go func() { p(); wg.Done() }()`, which ends
the iteration; the goroutine `task` starting and calling its `p`; that call
returning and the goroutine running `wg.Done()`; and `wg.Wait()` returning.
-/
inductive Statement where
  | add
  | copy
  | spawn
  | call (task : Nat)
  | finish (task : Nat)
  | wait
  deriving DecidableEq, Repr

variable {Value : Type}

/-- The loop at its head before the first iteration. -/
def initial : LoopState Value :=
  ⟨Shutdown.initial, .head⟩

/--
The transition function; `none` when the statement is not enabled.  The
goroutines and the wait are the steps of the atomic model; the wait needs the
loop at its head.
-/
def step (closers : List (Callback Value)) (state : LoopState Value) :
    Statement → Option (LoopState Value)
  | .add =>
      match state.point, closers[state.shared.position]? with
      | .head, some _ =>
          some ⟨{ state.shared with counter := state.shared.counter + 1 }, .added⟩
      | _, _ => none
  | .copy =>
      match state.point, closers[state.shared.position]? with
      | .added, some closer => some ⟨state.shared, .copied closer⟩
      | _, _ => none
  | .spawn =>
      match state.point with
      | .copied closer =>
          some ⟨{ state.shared with
            position := state.shared.position + 1
            copies := state.shared.copies ++ [closer]
            tasks := state.shared.tasks ++ [.notStarted] }, .head⟩
      | _ => none
  | .call task =>
      (Shutdown.step closers state.shared (.call task)).map (⟨·, state.point⟩)
  | .finish task =>
      (Shutdown.step closers state.shared (.finish task)).map (⟨·, state.point⟩)
  | .wait =>
      match state.point with
      | .head => (Shutdown.step closers state.shared .wait).map (⟨·, .head⟩)
      | _ => none

/-- The states some interleaving of the statements reaches. -/
inductive Reachable (closers : List (Callback Value)) : LoopState Value → Prop
  | initial : Reachable closers initial
  | step {state next : LoopState Value} {statement : Statement} :
      Reachable closers state → step closers state statement = some next →
        Reachable closers next

/-- Run a schedule of statements, failing at the first one not enabled. -/
def run (closers : List (Callback Value)) :
    LoopState Value → List Statement → Option (LoopState Value)
  | state, [] => some state
  | state, statement :: rest => (step closers state statement).bind (run closers · rest)

theorem Reachable.run {closers : List (Callback Value)} :
    ∀ {state next : LoopState Value} {statements : List Statement},
      Reachable closers state → run closers state statements = some next →
        Reachable closers next
  | _, _, [], reachable, ran => by
      cases ran
      exact reachable
  | state, _, statement :: rest, reachable, ran => by
      simp only [ShutdownStatements.run, Option.bind_eq_some] at ran
      obtain ⟨middle, stepped, ran⟩ := ran
      exact Reachable.run (reachable.step stepped) ran

/-! ## The abstraction -/

/-- The iterations under way: one between `wg.Add(1)` and `go`. -/
def LoopPoint.underway : LoopPoint Value → Nat
  | .head => 0
  | _ => 1

/-- Inside an iteration the loop has a closer left, and the copy is that closer. -/
def Framed (closers : List (Callback Value)) (state : LoopState Value) : Prop :=
  match state.point with
  | .head => True
  | .added => state.shared.position < closers.length
  | .copied closer => closers[state.shared.position]? = some closer

/-- Shifting the counter by `shift`; the goroutines never read it. -/
def shiftCounter (shift : Int) (state : Shutdown.ShutdownState Value) :
    Shutdown.ShutdownState Value :=
  { state with counter := state.counter - shift }

/-- The state of the atomic model: an iteration under way is not yet counted. -/
def abstract (state : LoopState Value) : Shutdown.ShutdownState Value :=
  shiftCounter state.point.underway state.shared

@[simp]
theorem shiftCounter_zero (state : Shutdown.ShutdownState Value) :
    shiftCounter 0 state = state := by
  simp [shiftCounter]

section Goroutines

variable {closers : List (Callback Value)} {state : Shutdown.ShutdownState Value}

theorem step_call_shiftCounter (shift : Int) (task : Nat) :
    Shutdown.step closers (shiftCounter shift state) (.call task) =
      (Shutdown.step closers state (.call task)).map (shiftCounter shift) := by
  simp only [Shutdown.step, shiftCounter]
  split <;> rfl

theorem step_finish_shiftCounter (shift : Int) (task : Nat) :
    Shutdown.step closers (shiftCounter shift state) (.finish task) =
      (Shutdown.step closers state (.finish task)).map (shiftCounter shift) := by
  simp only [Shutdown.step, shiftCounter]
  split
  · exact congrArg some (by simp only [shiftCounter]; congr 1; omega)
  · rfl

end Goroutines

/-! ## What one statement does -/

section Steps

variable {closers : List (Callback Value)} {state next : LoopState Value}

theorem step_add (stepped : step closers state .add = some next) :
    state.point = .head ∧ state.shared.position < closers.length ∧
      next = ⟨{ state.shared with counter := state.shared.counter + 1 }, .added⟩ := by
  simp only [step] at stepped
  split at stepped
  · rename_i point found
    exact ⟨point, (List.getElem?_eq_some_iff.mp found).1, (Option.some.inj stepped).symm⟩
  · cases stepped

theorem step_copy (stepped : step closers state .copy = some next) :
    ∃ closer, state.point = .added ∧ closers[state.shared.position]? = some closer ∧
      next = ⟨state.shared, .copied closer⟩ := by
  simp only [step] at stepped
  split at stepped
  · exact ⟨_, ‹_›, ‹_›, (Option.some.inj stepped).symm⟩
  · cases stepped

theorem step_spawn (stepped : step closers state .spawn = some next) :
    ∃ closer, state.point = .copied closer ∧
      next = ⟨{ state.shared with
        position := state.shared.position + 1
        copies := state.shared.copies ++ [closer]
        tasks := state.shared.tasks ++ [.notStarted] }, .head⟩ := by
  simp only [step] at stepped
  split at stepped
  · exact ⟨_, ‹_›, (Option.some.inj stepped).symm⟩
  · cases stepped

theorem step_wait (stepped : step closers state .wait = some next) :
    state.point = .head ∧ ∃ after, Shutdown.step closers state.shared .wait = some after ∧
      next = ⟨after, .head⟩ := by
  simp only [step] at stepped
  split at stepped
  · obtain ⟨after, waited, rfl⟩ := Option.map_eq_some'.mp stepped
    exact ⟨‹_›, after, waited, rfl⟩
  · cases stepped

end Steps

/-! ## The simulation -/

section Simulation

variable {closers : List (Callback Value)} {state next : LoopState Value}

theorem abstract_initial : abstract (initial : LoopState Value) = Shutdown.initial :=
  rfl

@[simp]
theorem abstract_head (shared : Shutdown.ShutdownState Value) :
    abstract ⟨shared, .head⟩ = shared :=
  shiftCounter_zero shared

/--
One statement keeps the frame, and is either invisible to the atomic model or
one step of it.
-/
theorem simulates {statement : Statement} (framed : Framed closers state)
    (stepped : step closers state statement = some next) :
    Framed closers next ∧
      (abstract next = abstract state ∨
        ∃ event, Shutdown.step closers (abstract state) event = some (abstract next)) := by
  obtain ⟨shared, point⟩ := state
  cases statement with
  | add =>
      obtain ⟨rfl, bound, rfl⟩ := step_add stepped
      exact ⟨bound, .inl (by simp [abstract, shiftCounter, LoopPoint.underway])⟩
  | copy =>
      obtain ⟨closer, rfl, found, rfl⟩ := step_copy stepped
      exact ⟨found, .inl rfl⟩
  | spawn =>
      obtain ⟨closer, rfl, rfl⟩ := step_spawn stepped
      simp only [Framed] at framed
      refine ⟨trivial, .inr ⟨.iterate, ?_⟩⟩
      simp [abstract, shiftCounter, LoopPoint.underway, Shutdown.step, framed]
  | call task =>
      obtain ⟨after, called, rfl⟩ := Option.map_eq_some'.mp stepped
      refine ⟨?_, .inr ⟨.call task, by rw [abstract, step_call_shiftCounter, called]; rfl⟩⟩
      obtain ⟨-, -, -, rfl⟩ := Shutdown.step_call called
      exact framed
  | finish task =>
      obtain ⟨after, finished, rfl⟩ := Option.map_eq_some'.mp stepped
      refine ⟨?_, .inr ⟨.finish task, by rw [abstract, step_finish_shiftCounter, finished]; rfl⟩⟩
      obtain ⟨-, rfl⟩ := Shutdown.step_finish finished
      exact framed
  | wait =>
      obtain ⟨rfl, after, waited, rfl⟩ := step_wait stepped
      exact ⟨trivial, .inr ⟨.wait, by simpa using waited⟩⟩

/-- Every state the statements reach stands for a state the atomic model reaches. -/
theorem Reachable.refines (reachable : Reachable closers state) :
    Shutdown.Reachable closers (abstract state) ∧ Framed closers state := by
  induction reachable with
  | initial => exact ⟨abstract_initial ▸ Shutdown.Reachable.initial, trivial⟩
  | step _ stepped ih =>
      obtain ⟨framed, visible⟩ := simulates ih.2 stepped
      refine ⟨?_, framed⟩
      rcases visible with same | ⟨event, matched⟩
      · exact same ▸ ih.1
      · exact ih.1.step matched

/-- With no goroutine inside its closer, a statement of the loop, a goroutine or the wait runs. -/
theorem Reachable.progress_idle (reachable : Reachable closers state)
    (waiting : state.shared.returned = false)
    (idle : Shutdown.TaskState.running ∉ state.shared.tasks) :
    ∃ statement next, ShutdownStatements.step closers state statement = some next := by
  obtain ⟨atomic, framed⟩ := reachable.refines
  obtain ⟨shared, point⟩ := state
  cases point with
  | added =>
      simp only [Framed] at framed
      exact ⟨.copy, _, by simp [ShutdownStatements.step, List.getElem?_eq_getElem framed]; rfl⟩
  | copied closer => exact ⟨.spawn, _, rfl⟩
  | head =>
      rw [abstract_head] at atomic
      obtain ⟨event, after, stepped⟩ := atomic.invariant.progress_idle waiting idle
      cases event with
      | iterate =>
          obtain ⟨closer, found, -⟩ := Shutdown.step_iterate stepped
          exact ⟨.add, _, by simp [ShutdownStatements.step, found]; rfl⟩
      | call task => exact ⟨.call task, _, by simp [ShutdownStatements.step, stepped]; rfl⟩
      | finish task => exact ⟨.finish task, _, by simp [ShutdownStatements.step, stepped]; rfl⟩
      | wait => exact ⟨.wait, _, by simp [ShutdownStatements.step, stepped]; rfl⟩

/-- Before the return some statement runs, a goroutine inside its closer by returning. -/
theorem Reachable.progress (reachable : Reachable closers state)
    (waiting : state.shared.returned = false) :
    ∃ statement next, ShutdownStatements.step closers state statement = some next := by
  by_cases busy : Shutdown.TaskState.running ∈ state.shared.tasks
  · obtain ⟨task, found⟩ := List.mem_iff_getElem?.mp busy
    exact ⟨.finish task, _, by simp [ShutdownStatements.step, Shutdown.step, found]; rfl⟩
  · exact reachable.progress_idle waiting busy

end Simulation

/-! ## Termination -/

/-- The statements of the loop the current iteration has run. -/
def LoopPoint.ran : LoopPoint Value → Nat
  | .head => 0
  | .added => 1
  | .copied _ => 2

/--
The statements left: those the atomic model counts, and the `wg.Add(1)` and
`p := p` of every iteration not ended, less those the current one has run.
-/
def remaining (closers : List (Callback Value)) (state : LoopState Value) : Nat :=
  Shutdown.remaining closers state.shared + 2 * (closers.length - state.shared.position) -
    state.point.ran

section Termination

variable {closers : List (Callback Value)} {state next : LoopState Value}

theorem Framed.ran_le (framed : Framed closers state) :
    state.point.ran ≤ 2 * (closers.length - state.shared.position) := by
  obtain ⟨shared, point⟩ := state
  cases point with
  | head => exact Nat.zero_le _
  | added =>
      simp only [Framed] at framed
      simp only [LoopPoint.ran]
      omega
  | copied closer =>
      simp only [Framed] at framed
      have := (List.getElem?_eq_some_iff.mp framed).1
      simp only [LoopPoint.ran]
      omega

/-- Every statement runs one of the statements left. -/
theorem remaining_step {statement : Statement} (framed : Framed closers state)
    (stepped : step closers state statement = some next) :
    remaining closers next + 1 = remaining closers state := by
  obtain ⟨shared, point⟩ := state
  have ranLe : point.ran ≤ 2 * (closers.length - shared.position) := framed.ran_le
  cases statement with
  | add =>
      obtain ⟨rfl, bound, rfl⟩ := step_add stepped
      simp only [remaining, Shutdown.remaining, LoopPoint.ran] at bound ⊢
      omega
  | copy =>
      obtain ⟨closer, rfl, -, rfl⟩ := step_copy stepped
      simp only [remaining, LoopPoint.ran] at ranLe ⊢
      omega
  | spawn =>
      obtain ⟨closer, rfl, rfl⟩ := step_spawn stepped
      simp only [Framed] at framed
      have bound := (List.getElem?_eq_some_iff.mp framed).1
      simp only [remaining, Shutdown.remaining, LoopPoint.ran, List.count_append,
        List.count_singleton_self, List.count_singleton, reduceCtorEq, beq_iff_eq, if_false]
      omega
  | call task | finish task =>
      obtain ⟨after, atomic, rfl⟩ := Option.map_eq_some'.mp stepped
      have counted := Shutdown.remaining_step atomic
      simp only [remaining, Shutdown.step_position atomic nofun] at counted ⊢
      omega
  | wait =>
      obtain ⟨rfl, after, atomic, rfl⟩ := step_wait stepped
      have counted := Shutdown.remaining_step atomic
      simp only [remaining, Shutdown.step_position atomic nofun] at counted ⊢
      omega

theorem remaining_run :
    ∀ {statements : List Statement}, Reachable closers state →
      run closers state statements = some next →
        statements.length + remaining closers next = remaining closers state := by
  intro statements
  induction statements generalizing state with
  | nil =>
      intro _ ran
      cases ran
      simp
  | cons statement rest ih =>
      intro reachable ran
      simp only [run, Option.bind_eq_some] at ran
      obtain ⟨middle, stepped, ran⟩ := ran
      have := ih (reachable.step stepped) ran
      have := remaining_step reachable.refines.2 stepped
      simp only [List.length_cons]
      omega

/-- From every reachable state some schedule reaches the return, its closers returning. -/
theorem Reachable.returns (reachable : Reachable closers state) :
    ∃ statements final, ShutdownStatements.run closers state statements = some final ∧
      final.shared.returned = true := by
  generalize counted : remaining closers state = left
  induction left using Nat.strong_induction_on generalizing state with
  | h left ih =>
      by_cases done : state.shared.returned = true
      · exact ⟨[], state, rfl, done⟩
      obtain ⟨statement, next, stepped⟩ := reachable.progress (by simpa using done)
      have fewer := remaining_step reachable.refines.2 stepped
      obtain ⟨statements, final, ran, returned⟩ := ih _ (by omega) (reachable.step stepped) rfl
      exact ⟨statement :: statements, final, by simp [ShutdownStatements.run, stepped, ran],
        returned⟩

end Termination

/-! ## What `Shutdown` promises, statement by statement -/

/--
Every state of every interleaving of the statements of `Shutdown` stands for a
state of an interleaving of whole iterations, with the counter one higher
between `wg.Add(1)` and `go`; so the promises of `Shutdown` hold statement by
statement.
-/
theorem statements_refine_iterations (modules : List (Module Value))
    (state : LoopState Value)
    (reachable : Reachable (register modules).closerProviders state) :
    Shutdown.Reachable (register modules).closerProviders (abstract state) ∧
      state.shared.counter = Shutdown.pending state.shared.tasks + state.point.underway ∧
      Shutdown.Guarantees (register modules).closerProviders (abstract state) := by
  obtain ⟨atomic, -⟩ := reachable.refines
  have counted := atomic.invariant.counter_eq
  simp only [abstract, shiftCounter] at counted
  exact ⟨atomic, by omega, atomic.invariant.guarantees⟩

/-- Inside the second iteration, after its `wg.Add(1)`, the first goroutine inside its closer. -/
def insideSecondIteration : LoopState Nat :=
  ⟨⟨1, 2, [.func 0], [.running], [(0, .func 0)], false⟩, .added⟩

theorem statements_refine_iterations_inside_iteration :
    Reachable (register twoClosers).closerProviders insideSecondIteration ∧
      Shutdown.Reachable (register twoClosers).closerProviders
        (abstract insideSecondIteration) ∧
      insideSecondIteration.shared.counter =
        Shutdown.pending insideSecondIteration.shared.tasks +
          insideSecondIteration.point.underway ∧
      Shutdown.Guarantees (register twoClosers).closerProviders
        (abstract insideSecondIteration) := by
  refine ⟨?reachable, statements_refine_iterations _ _ ?reachable⟩
  exact @Reachable.run _ _ _ _ [.add, .copy, .spawn, .call 0, .add] Reachable.initial (by decide)

/--
`Shutdown` waits on nothing but its closers, statement by statement.  In
every reachable state before `wg.Wait()` returns, with no goroutine inside its
closer, a statement of the loop, a goroutine start or the wait can run; every
schedule has at most five statements per closer and the wait; and when the
closers return once called, some schedule from every reachable state reaches
the return.
-/
theorem statements_return (modules : List (Module Value)) :
    (∀ state, Reachable (register modules).closerProviders state →
      state.shared.returned = false → Shutdown.TaskState.running ∉ state.shared.tasks →
        ∃ statement next, step (register modules).closerProviders state statement = some next) ∧
    (∀ (statements : List Statement) (final : LoopState Value),
      run (register modules).closerProviders initial statements = some final →
        statements.length ≤ 5 * (register modules).closerProviders.length + 1) ∧
    ∀ state, Reachable (register modules).closerProviders state →
      ∃ statements final, run (register modules).closerProviders state statements = some final ∧
        final.shared.returned = true := by
  refine ⟨fun state reachable waiting idle => reachable.progress_idle waiting idle,
    fun statements final ran => ?_, fun state reachable => reachable.returns⟩
  have counted := remaining_run Reachable.initial ran
  simp only [remaining, initial, Shutdown.remaining, Shutdown.initial, List.count_nil,
    Bool.false_eq_true, if_false, LoopPoint.ran] at counted
  omega

/--
Every interleaving of the statements of `Shutdown` that reaches the return of
`wg.Wait()` ends in the state of the atomic model, up to the order of the
calls: the loop is at its head past every closer, and each closer was called
once, by the goroutine of its own index.
-/
theorem statements_outcome (modules : List (Module Value)) (state : LoopState Value)
    (reachable : Reachable (register modules).closerProviders state)
    (returned : state.shared.returned = true) :
    state = ⟨Shutdown.finalState (register modules).closerProviders state.shared.invoked, .head⟩ ∧
      state.shared.invoked.Perm (register modules).closerProviders.enum := by
  obtain ⟨atomic, framed⟩ := reachable.refines
  obtain ⟨shared, point⟩ := state
  have atEnd : shared.position = (register modules).closerProviders.length :=
    (atomic.invariant.returned_eq returned).1
  cases point with
  | head =>
      rw [abstract_head] at atomic
      rw [← atomic.invariant.final returned]
      exact ⟨rfl, atomic.invariant.invoked_perm_enum returned⟩
  | added =>
      simp only [Framed] at framed
      omega
  | copied closer =>
      simp only [Framed, atEnd, List.getElem?_len_le (le_refl _), reduceCtorEq] at framed

/-- The goroutine of the second closer calls first, statement by statement. -/
theorem statements_outcome_reversed_calls :
    Reachable (register twoClosers).closerProviders ⟨Shutdown.reversedCalls, .head⟩ ∧
      Shutdown.reversedCalls.returned = true ∧
      (⟨Shutdown.reversedCalls, .head⟩ : LoopState Nat) =
          ⟨Shutdown.finalState (register twoClosers).closerProviders
            Shutdown.reversedCalls.invoked, .head⟩ ∧
        Shutdown.reversedCalls.invoked.Perm (register twoClosers).closerProviders.enum := by
  refine ⟨?reachable, rfl, statements_outcome _ _ ?reachable rfl⟩
  exact @Reachable.run _ _ _ _
    [.add, .copy, .spawn, .add, .copy, .spawn, .call 1, .call 0, .finish 0, .finish 1, .wait]
    Reachable.initial (by decide)

end DoNewsStd.Container.ShutdownStatements
