import DoNewsStd.Container.Dispatch
import Mathlib.Data.List.Nodup

/-!
# Parallel shutdown

`Shutdown` ranges over `closerProviders`.  Each iteration runs
`wg.Add(1)`, binds its own variable `p := p` and starts a goroutine that calls
`p()` and then `wg.Done()`; after the loop, `wg.Wait()` blocks until the
counter is zero.

The model is a transition system over the loop position, the `WaitGroup`
counter, the per-iteration copies of `p`, the state of every spawned
goroutine and the log of the calls made.  An iteration of the loop is one
step: between `wg.Add(1)` and `go` the loop touches no state a goroutine
reads, and `DoNewsStd.Container.ShutdownStatements` proves that the three
statements, interleaved with the goroutines, refine this step.  Every
interleaving of the goroutines with the loop and the final wait is a sequence
of events accepted by `step`.

The invariant says what every reachable state looks like: the counter is the
number of spawned goroutines that are not done, each goroutine calls only its
own copy, and at most once.  Everything `Shutdown` promises follows from it.
-/

namespace DoNewsStd.Container.Shutdown

open DoNewsStd.Container.Registry
open DoNewsStd.Container.Dispatch

/-- The life of a goroutine `go func() { p(); wg.Done() }()`. -/
inductive TaskState where
  | notStarted
  | running
  | done
  deriving DecidableEq, Repr

/--
A state of one call of `Shutdown`, with all the goroutines it spawned: the
iterations of `for _, p := range c.closerProviders` done so far, the counter
of `wg`, the variable `p := p` each iteration bound, the goroutine each
iteration started (it captured the copy of the same index), every call `p()`
made so far with the goroutine that made it, and whether `wg.Wait()`, and with
it `Shutdown`, has returned.
-/
structure ShutdownState (Value : Type) where
  position : Nat
  counter : Int
  copies : List (Callback Value)
  tasks : List TaskState
  invoked : List (Nat × Callback Value)
  returned : Bool
  deriving DecidableEq, Repr

/--
One atomic action of `Shutdown` or of one of its goroutines: an iteration
(`wg.Add(1)`, `p := p`, `go func() { ... }()`); the goroutine `task` starting
and calling its `p`; that call returning and the goroutine running
`wg.Done()`; and `wg.Wait()` returning.  A closer that blocks, or a nil
`func()` whose call panics, never returns: its goroutine stays running, and no
schedule holds its `finish`.
-/
inductive Event where
  | iterate
  | call (task : Nat)
  | finish (task : Nat)
  | wait
  deriving DecidableEq, Repr

variable {Value : Type}

/-- `var wg sync.WaitGroup` before the loop. -/
def initial : ShutdownState Value :=
  ⟨0, 0, [], [], [], false⟩

/-- The number of spawned goroutines that have not finished. -/
def pending (tasks : List TaskState) : Nat :=
  tasks.countP (· != .done)

/-- The transition function; `none` when the event is not enabled. -/
def step (closers : List (Callback Value)) (state : ShutdownState Value) :
    Event → Option (ShutdownState Value)
  | .iterate =>
      match closers[state.position]? with
      | some closer =>
          some { state with
            position := state.position + 1
            counter := state.counter + 1
            copies := state.copies ++ [closer]
            tasks := state.tasks ++ [.notStarted] }
      | none => none
  | .call task =>
      match state.tasks[task]?, state.copies[task]? with
      | some .notStarted, some closer =>
          some { state with
            tasks := state.tasks.set task .running
            invoked := state.invoked ++ [(task, closer)] }
      | _, _ => none
  | .finish task =>
      if state.tasks[task]? = some .running then
        some { state with
          tasks := state.tasks.set task .done
          counter := state.counter - 1 }
      else none
  | .wait =>
      if state.position = closers.length ∧ state.counter = 0 ∧ state.returned = false then
        some { state with returned := true }
      else none

/-- Run a schedule of events, failing at the first one not enabled. -/
def run (closers : List (Callback Value)) :
    ShutdownState Value → List Event → Option (ShutdownState Value)
  | state, [] => some state
  | state, event :: rest => (step closers state event).bind (run closers · rest)

/-- The states some interleaving of `Shutdown` reaches. -/
inductive Reachable (closers : List (Callback Value)) : ShutdownState Value → Prop
  | initial : Reachable closers initial
  | step {state next : ShutdownState Value} {event : Event} :
      Reachable closers state → step closers state event = some next →
        Reachable closers next

theorem Reachable.run {closers : List (Callback Value)} :
    ∀ {state next : ShutdownState Value} {events : List Event},
      Reachable closers state → run closers state events = some next →
        Reachable closers next
  | _, _, [], reachable, ran => by
      cases ran
      exact reachable
  | state, _, event :: rest, reachable, ran => by
      simp only [Shutdown.run, Option.bind_eq_some] at ran
      obtain ⟨middle, stepped, ran⟩ := ran
      exact Reachable.run (reachable.step stepped) ran

/-! ## What one step does -/

section Steps

variable {closers : List (Callback Value)} {state next : ShutdownState Value}

theorem step_iterate (stepped : step closers state .iterate = some next) :
    ∃ closer, closers[state.position]? = some closer ∧
      next = { state with
        position := state.position + 1
        counter := state.counter + 1
        copies := state.copies ++ [closer]
        tasks := state.tasks ++ [.notStarted] } := by
  simp only [step] at stepped
  split at stepped
  · exact ⟨_, ‹_›, (Option.some.inj stepped).symm⟩
  · cases stepped

theorem step_call {task : Nat} (stepped : step closers state (.call task) = some next) :
    ∃ closer, state.tasks[task]? = some .notStarted ∧ state.copies[task]? = some closer ∧
      next = { state with
        tasks := state.tasks.set task .running
        invoked := state.invoked ++ [(task, closer)] } := by
  simp only [step] at stepped
  split at stepped
  · exact ⟨_, ‹_›, ‹_›, (Option.some.inj stepped).symm⟩
  · cases stepped

theorem step_finish {task : Nat} (stepped : step closers state (.finish task) = some next) :
    state.tasks[task]? = some .running ∧
      next = { state with
        tasks := state.tasks.set task .done
        counter := state.counter - 1 } := by
  simp only [step] at stepped
  split at stepped
  · exact ⟨‹_›, (Option.some.inj stepped).symm⟩
  · cases stepped

theorem step_wait (stepped : step closers state .wait = some next) :
    state.position = closers.length ∧ state.counter = 0 ∧ state.returned = false ∧
      next = { state with returned := true } := by
  simp only [step] at stepped
  split at stepped
  · rename_i guard
    exact ⟨guard.1, guard.2.1, guard.2.2, (Option.some.inj stepped).symm⟩
  · cases stepped

/-- Only an iteration moves the loop. -/
theorem step_position {event : Event} (stepped : step closers state event = some next)
    (goroutine : event ≠ .iterate) : next.position = state.position := by
  cases event with
  | iterate => exact absurd rfl goroutine
  | call task => obtain ⟨_, -, -, rfl⟩ := step_call stepped; rfl
  | finish task => obtain ⟨-, rfl⟩ := step_finish stepped; rfl
  | wait => obtain ⟨-, -, -, rfl⟩ := step_wait stepped; rfl

end Steps

/-! ## The invariant -/

theorem pending_append_notStarted (tasks : List TaskState) :
    pending (tasks ++ [.notStarted]) = pending tasks + 1 := by
  simp [pending]

/-- Replacing one element moves a count by what the old and the new element count. -/
theorem countP_set_add {α : Type} (p : α → Bool) {list : List α} {index : Nat} {old : α}
    (new : α) (found : list[index]? = some old) :
    (list.set index new).countP p + (if p old then 1 else 0) =
      list.countP p + (if p new then 1 else 0) := by
  obtain ⟨bound, rfl⟩ := List.getElem?_eq_some_iff.mp found
  have atMost := List.boole_getElem_le_countP p list index bound
  rw [List.countP_set _ _ _ _ bound]
  omega

theorem pending_set {tasks : List TaskState} {task : Nat} {old : TaskState}
    (new : TaskState) (found : tasks[task]? = some old) :
    pending (tasks.set task new) + (if old != .done then 1 else 0) =
      pending tasks + (if new != .done then 1 else 0) :=
  countP_set_add _ new found

/-- What every reachable state of `Shutdown` over `closers` satisfies. -/
structure Invariant (closers : List (Callback Value)) (state : ShutdownState Value) :
    Prop where
  position_le : state.position ≤ closers.length
  copies_eq : state.copies = closers.take state.position
  tasks_length : state.tasks.length = state.position
  counter_eq : state.counter = pending state.tasks
  invoked_copy : ∀ entry ∈ state.invoked, state.copies[entry.1]? = some entry.2
  invoked_nodup : (state.invoked.map Prod.fst).Nodup
  invoked_iff : ∀ task, task ∈ state.invoked.map Prod.fst ↔
    ∃ taskState, state.tasks[task]? = some taskState ∧ taskState ≠ .notStarted
  returned_eq : state.returned = true → state.position = closers.length ∧ state.counter = 0

theorem invariant_initial (closers : List (Callback Value)) :
    Invariant closers initial where
  position_le := Nat.zero_le _
  copies_eq := rfl
  tasks_length := rfl
  counter_eq := rfl
  invoked_copy := by simp [initial]
  invoked_nodup := List.nodup_nil
  invoked_iff := by simp [initial]
  returned_eq := by simp [initial]

section Preservation

variable {closers : List (Callback Value)} {state next : ShutdownState Value}

theorem Invariant.iterate (invariant : Invariant closers state)
    (stepped : step closers state .iterate = some next) : Invariant closers next := by
  obtain ⟨closer, found, rfl⟩ := step_iterate stepped
  have bound := (List.getElem?_eq_some_iff.mp found).1
  refine ⟨bound, ?_, ?_, ?_, ?_, invariant.invoked_nodup, ?_, ?_⟩
  · simp [invariant.copies_eq, List.take_succ, found]
  · simp [invariant.tasks_length]
  · simp [invariant.counter_eq, pending_append_notStarted]
  · intro entry member
    have copied := invariant.invoked_copy entry member
    rw [List.getElem?_append_left (List.getElem?_eq_some_iff.mp copied).1]
    exact copied
  · intro task
    rw [invariant.invoked_iff task, List.getElem?_append]
    split
    · rfl
    · rename_i outside
      simp only [List.getElem?_eq_none (Nat.le_of_not_lt outside), reduceCtorEq,
        false_and, exists_false, false_iff, not_exists, not_and]
      intro taskState placed
      simpa using List.getElem?_mem placed
  · intro returned
    have := (invariant.returned_eq returned).1
    omega

theorem Invariant.call {task : Nat} (invariant : Invariant closers state)
    (stepped : step closers state (.call task) = some next) : Invariant closers next := by
  obtain ⟨closer, waiting, copy, rfl⟩ := step_call stepped
  have bound := (List.getElem?_eq_some_iff.mp waiting).1
  have fresh : task ∉ state.invoked.map Prod.fst := by
    rw [invariant.invoked_iff]
    rintro ⟨taskState, found, started⟩
    exact started (Option.some.inj (found.symm.trans waiting))
  have counted := pending_set .running waiting
  refine ⟨invariant.position_le, invariant.copies_eq, ?_, ?_, ?_, ?_, ?_,
    invariant.returned_eq⟩
  · simp [invariant.tasks_length]
  · simp only [invariant.counter_eq]
    simp at counted
    omega
  · intro entry member
    rcases List.mem_append.mp member with member | member
    · exact invariant.invoked_copy entry member
    · rw [List.mem_singleton.mp member]
      exact copy
  · simpa [List.nodup_append, fresh] using invariant.invoked_nodup
  · intro other
    by_cases same : other = task
    · subst same
      simp [List.getElem?_set_self bound]
    · simp [List.getElem?_set_ne (Ne.symm same), same, invariant.invoked_iff other]

theorem Invariant.finish {task : Nat} (invariant : Invariant closers state)
    (stepped : step closers state (.finish task) = some next) : Invariant closers next := by
  obtain ⟨running, rfl⟩ := step_finish stepped
  have bound := (List.getElem?_eq_some_iff.mp running).1
  have counted := pending_set .done running
  simp only [bne_self_eq_false, Bool.false_eq_true, if_false, reduceCtorEq, bne_iff_ne,
    ne_eq, not_false_eq_true, if_true, Nat.add_zero] at counted
  refine ⟨invariant.position_le, invariant.copies_eq, ?_, ?_, invariant.invoked_copy,
    invariant.invoked_nodup, ?_, ?_⟩
  · simp [invariant.tasks_length]
  · simp only [invariant.counter_eq]
    omega
  · intro other
    by_cases same : other = task
    · subst same
      simp [List.getElem?_set_self bound, invariant.invoked_iff, running]
    · simp [List.getElem?_set_ne (Ne.symm same), invariant.invoked_iff other]
  · intro returned
    have := (invariant.returned_eq returned).2
    have := invariant.counter_eq
    omega

theorem Invariant.wait (invariant : Invariant closers state)
    (stepped : step closers state .wait = some next) : Invariant closers next := by
  obtain ⟨atEnd, zero, -, rfl⟩ := step_wait stepped
  exact { invariant with returned_eq := fun _ => ⟨atEnd, zero⟩ }

/-- One step of any party keeps the invariant. -/
theorem Invariant.step {event : Event} (invariant : Invariant closers state)
    (stepped : step closers state event = some next) : Invariant closers next := by
  cases event with
  | iterate => exact invariant.iterate stepped
  | call task => exact invariant.call stepped
  | finish task => exact invariant.finish stepped
  | wait => exact invariant.wait stepped

end Preservation

/-- Every state of every interleaving satisfies the invariant. -/
theorem Reachable.invariant {closers : List (Callback Value)} {state : ShutdownState Value}
    (reachable : Reachable closers state) : Invariant closers state := by
  induction reachable with
  | initial => exact invariant_initial closers
  | step _ stepped ih => exact ih.step stepped

/-! ## What `Shutdown` promises -/

theorem pending_eq_zero {tasks : List TaskState} :
    pending tasks = 0 ↔ ∀ taskState ∈ tasks, taskState = .done := by
  simp [pending]

/--
The promises of `Shutdown` about one state of an interleaving: the counter is
the number of goroutines not done, every call is of the closer of the calling
goroutine's own iteration, no goroutine calls twice, after the return every
goroutine is done and every closer was called exactly once, and once the loop
is over and every goroutine is done the wait can return.
-/
structure Guarantees (closers : List (Callback Value)) (state : ShutdownState Value) :
    Prop where
  counter_eq : state.counter = pending state.tasks
  own_closer : ∀ entry ∈ state.invoked, closers[entry.1]? = some entry.2
  called_once : (state.invoked.map Prod.fst).Nodup
  returned_all : state.returned = true →
    state.tasks = List.replicate closers.length .done ∧
      (state.invoked.map Prod.fst).Perm (List.range closers.length)
  wait_enabled : state.position = closers.length →
    (∀ taskState ∈ state.tasks, taskState = .done) → state.returned = false →
      ∃ next, step closers state .wait = some next

section Consequences

variable {closers : List (Callback Value)} {state : ShutdownState Value}

theorem Invariant.own_closer (invariant : Invariant closers state) :
    ∀ entry ∈ state.invoked, closers[entry.1]? = some entry.2 := by
  intro entry member
  have copied := invariant.invoked_copy entry member
  rw [invariant.copies_eq, List.getElem?_take] at copied
  split at copied
  · exact copied
  · cases copied

theorem Invariant.returned_all (invariant : Invariant closers state)
    (returned : state.returned = true) :
    state.tasks = List.replicate closers.length .done ∧
      (state.invoked.map Prod.fst).Perm (List.range closers.length) := by
  obtain ⟨atEnd, zero⟩ := invariant.returned_eq returned
  have allDone : ∀ taskState ∈ state.tasks, taskState = .done :=
    pending_eq_zero.mp (by have := invariant.counter_eq; omega)
  have length : state.tasks.length = closers.length := invariant.tasks_length.trans atEnd
  refine ⟨List.eq_replicate_iff.mpr ⟨length, allDone⟩, ?_⟩
  rw [List.perm_ext_iff_of_nodup invariant.invoked_nodup (List.nodup_range _)]
  intro task
  rw [invariant.invoked_iff, List.mem_range, ← length]
  constructor
  · rintro ⟨taskState, found, -⟩
    exact (List.getElem?_eq_some_iff.mp found).1
  · intro bound
    refine ⟨.done, ?_, by decide⟩
    rw [List.getElem?_eq_getElem bound, allDone _ (List.getElem_mem bound)]

theorem Invariant.wait_enabled (invariant : Invariant closers state)
    (atEnd : state.position = closers.length)
    (allDone : ∀ taskState ∈ state.tasks, taskState = .done)
    (waiting : state.returned = false) :
    ∃ next, Shutdown.step closers state .wait = some next := by
  have zero : state.counter = 0 := by
    rw [invariant.counter_eq, pending_eq_zero.mpr allDone]
    rfl
  exact ⟨{ state with returned := true }, by simp [Shutdown.step, atEnd, zero, waiting]⟩

theorem Invariant.guarantees (invariant : Invariant closers state) :
    Guarantees closers state where
  counter_eq := invariant.counter_eq
  own_closer := invariant.own_closer
  called_once := invariant.invoked_nodup
  returned_all := invariant.returned_all
  wait_enabled := invariant.wait_enabled

end Consequences

/-! ## Progress and termination -/

/--
The steps left: three per iteration not run, two per goroutine not started,
one per goroutine running, and the wait.
-/
def remaining (closers : List (Callback Value)) (state : ShutdownState Value) : Nat :=
  3 * (closers.length - state.position) + 2 * state.tasks.count .notStarted +
    state.tasks.count .running + (if state.returned then 0 else 1)

section Termination

variable {closers : List (Callback Value)} {state next : ShutdownState Value}

theorem count_set_add {tasks : List TaskState} {task : Nat} {old : TaskState}
    (new target : TaskState) (found : tasks[task]? = some old) :
    (tasks.set task new).count target + (if old = target then 1 else 0) =
      tasks.count target + (if new = target then 1 else 0) := by
  simpa [List.count_eq_countP] using countP_set_add (· == target) new found

/-- Every step does one of the steps left. -/
theorem remaining_step {event : Event}
    (stepped : step closers state event = some next) :
    remaining closers next + 1 = remaining closers state := by
  cases event with
  | iterate =>
      obtain ⟨closer, found, rfl⟩ := step_iterate stepped
      have bound := (List.getElem?_eq_some_iff.mp found).1
      simp only [remaining, List.count_append, List.count_singleton_self,
        List.count_singleton, reduceCtorEq, beq_iff_eq, if_false]
      omega
  | call task =>
      obtain ⟨closer, waiting, -, rfl⟩ := step_call stepped
      have started := count_set_add .running .notStarted waiting
      have running := count_set_add .running .running waiting
      simp only [if_true, reduceCtorEq, if_false] at started running
      simp only [remaining]
      omega
  | finish task =>
      obtain ⟨found, rfl⟩ := step_finish stepped
      have waiting := count_set_add .done .notStarted found
      have running := count_set_add .done .running found
      simp only [if_true, reduceCtorEq, if_false] at waiting running
      simp only [remaining]
      omega
  | wait =>
      obtain ⟨-, -, waiting, rfl⟩ := step_wait stepped
      simp [remaining, waiting]

theorem remaining_run :
    ∀ {events : List Event}, run closers state events = some next →
      events.length + remaining closers next = remaining closers state := by
  intro events
  induction events generalizing state with
  | nil =>
      intro ran
      cases ran
      simp
  | cons event rest ih =>
      intro ran
      simp only [run, Option.bind_eq_some] at ran
      obtain ⟨middle, stepped, ran⟩ := ran
      have := ih ran
      have := remaining_step stepped
      simp only [List.length_cons]
      omega

/--
`Shutdown` never blocks on its own: before the return, with no goroutine
inside its closer, the loop, a goroutine start or the wait can step.
-/
theorem Invariant.progress_idle (invariant : Invariant closers state)
    (waiting : state.returned = false) (idle : TaskState.running ∉ state.tasks) :
    ∃ event next, Shutdown.step closers state event = some next := by
  by_cases looping : state.position < closers.length
  · exact ⟨.iterate, _, by simp [Shutdown.step, List.getElem?_eq_getElem looping]; rfl⟩
  have atEnd : state.position = closers.length := by
    have := invariant.position_le
    omega
  by_cases unstarted : TaskState.notStarted ∈ state.tasks
  · obtain ⟨task, found⟩ := List.mem_iff_getElem?.mp unstarted
    have inRange : task < state.position := by
      have := (List.getElem?_eq_some_iff.mp found).1
      have := invariant.tasks_length
      omega
    have copied : state.copies[task]? = closers[task]? := by
      rw [invariant.copies_eq, List.getElem?_take_of_lt inRange]
    exact ⟨.call task, _, by
      simp [Shutdown.step, found, copied, List.getElem?_eq_getElem (atEnd ▸ inRange)]; rfl⟩
  have allDone : ∀ taskState ∈ state.tasks, taskState = .done
    | .notStarted, member => absurd member unstarted
    | .running, member => absurd member idle
    | .done, _ => rfl
  obtain ⟨next, stepped⟩ := invariant.wait_enabled atEnd allDone waiting
  exact ⟨.wait, next, stepped⟩

/-- Before the return some party can move, a goroutine inside its closer by returning. -/
theorem Invariant.progress (invariant : Invariant closers state)
    (waiting : state.returned = false) :
    ∃ event next, Shutdown.step closers state event = some next := by
  by_cases busy : TaskState.running ∈ state.tasks
  · obtain ⟨task, found⟩ := List.mem_iff_getElem?.mp busy
    exact ⟨.finish task, _, by simp [Shutdown.step, found]; rfl⟩
  · exact invariant.progress_idle waiting busy

/-- From every reachable state some schedule reaches the return, its closers returning. -/
theorem Reachable.returns (reachable : Reachable closers state) :
    ∃ events final, Shutdown.run closers state events = some final ∧ final.returned = true := by
  generalize counted : remaining closers state = left
  induction left using Nat.strong_induction_on generalizing state with
  | h left ih =>
      by_cases done : state.returned = true
      · exact ⟨[], state, rfl, done⟩
      obtain ⟨event, next, stepped⟩ := reachable.invariant.progress (by simpa using done)
      have fewer := remaining_step stepped
      obtain ⟨events, final, ran, returned⟩ := ih _ (by omega) (reachable.step stepped) rfl
      exact ⟨event :: events, final, by simp [Shutdown.run, stepped, ran], returned⟩

end Termination

/--
`Shutdown` waits on nothing but its closers.  In every reachable state before
`wg.Wait()` returns, with no goroutine inside its closer, the loop, a
goroutine start or the wait can step; every schedule has at most three events
per closer and the wait; and when the closers return once called, some
schedule from every reachable state reaches the return.
-/
theorem shutdown_returns (modules : List (Module Value)) :
    (∀ state, Reachable (register modules).closerProviders state →
      state.returned = false → TaskState.running ∉ state.tasks →
        ∃ event next, step (register modules).closerProviders state event = some next) ∧
    (∀ (events : List Event) (final : ShutdownState Value),
      run (register modules).closerProviders initial events = some final →
        events.length ≤ 3 * (register modules).closerProviders.length + 1) ∧
    ∀ state, Reachable (register modules).closerProviders state →
      ∃ events final, run (register modules).closerProviders state events = some final ∧
        final.returned = true := by
  refine ⟨fun state reachable waiting idle => reachable.invariant.progress_idle waiting idle,
    fun events final ran => ?_, fun state reachable => reachable.returns⟩
  have counted := remaining_run ran
  simp only [remaining, initial, List.count_nil, Bool.false_eq_true, if_false] at counted
  omega

/--
`Shutdown` over the closers of any registration sequence keeps its promises
in every state of every interleaving.
-/
theorem shutdown_interleavings (modules : List (Module Value)) (state : ShutdownState Value)
    (reachable : Reachable (register modules).closerProviders state) :
    Guarantees (register modules).closerProviders state :=
  reachable.invariant.guarantees

/-- `Shutdown` over `twoClosers` once returned, the second goroutine having called first. -/
def reversedCalls : ShutdownState Nat :=
  ⟨2, 0, [.func 0, .method 1 .closer], [.done, .done],
    [(1, .method 1 .closer), (0, .func 0)], true⟩

theorem reversedCalls_reachable : Reachable (register twoClosers).closerProviders reversedCalls :=
  @Reachable.run _ _ _ _ [.iterate, .iterate, .call 1, .call 0, .finish 0, .finish 1, .wait]
    Reachable.initial (by decide)

theorem shutdown_interleavings_two_closers :
    Reachable (register twoClosers).closerProviders reversedCalls ∧
      Guarantees (register twoClosers).closerProviders reversedCalls :=
  ⟨reversedCalls_reachable, shutdown_interleavings _ _ reversedCalls_reachable⟩

/-! ## The outcome -/

/-- The state a schedule ends in once `wg.Wait()` returned, given the log of calls. -/
def finalState (closers : List (Callback Value)) (invoked : List (Nat × Callback Value)) :
    ShutdownState Value :=
  ⟨closers.length, 0, closers, List.replicate closers.length .done, invoked, true⟩

section Outcome

variable {closers : List (Callback Value)} {state : ShutdownState Value}

/-- After the return the calls are the closers, each by the goroutine of its index. -/
theorem Invariant.invoked_perm_enum (invariant : Invariant closers state)
    (returned : state.returned = true) : state.invoked.Perm closers.enum := by
  have allCalled := (invariant.returned_all returned).2
  rw [List.perm_ext_iff_of_nodup (List.Nodup.of_map Prod.fst invariant.invoked_nodup)
    (List.Nodup.of_map Prod.fst (by rw [List.enum_map_fst]; exact List.nodup_range _))]
  rintro ⟨task, closer⟩
  rw [List.mem_enum_iff_getElem?]
  refine ⟨invariant.own_closer _, fun found => ?_⟩
  have inRange : task ∈ List.range closers.length :=
    List.mem_range.mpr (List.getElem?_eq_some_iff.mp found).1
  obtain ⟨entry, member, rfl⟩ := List.mem_map.mp (allCalled.mem_iff.mpr inRange)
  obtain rfl : closer = entry.2 :=
    Option.some.inj (found.symm.trans (invariant.own_closer entry member))
  exact member

theorem Invariant.final (invariant : Invariant closers state) (returned : state.returned = true) :
    state = finalState closers state.invoked := by
  obtain ⟨atEnd, zero⟩ := invariant.returned_eq returned
  have copies : state.copies = closers := by
    rw [invariant.copies_eq, atEnd, List.take_length]
  have tasks := (invariant.returned_all returned).1
  obtain ⟨position, counter, copied, spawned, invoked, waited⟩ := state
  dsimp only at atEnd zero copies tasks returned
  subst atEnd zero copies tasks returned
  rfl

end Outcome

/--
`Shutdown` ends in one state whatever the schedule, up to the order of the
calls: once `wg.Wait()` returned, every iteration ran, the counter is zero,
every goroutine is done, and the calls made are the closers, each called once
by the goroutine of its own index, in some order.
-/
theorem shutdown_outcome (modules : List (Module Value)) (state : ShutdownState Value)
    (reachable : Reachable (register modules).closerProviders state)
    (returned : state.returned = true) :
    state = finalState (register modules).closerProviders state.invoked ∧
      state.invoked.Perm (register modules).closerProviders.enum :=
  ⟨reachable.invariant.final returned, reachable.invariant.invoked_perm_enum returned⟩

/-- The goroutine of the second closer calls first; the outcome is the same. -/
theorem shutdown_outcome_reversed_calls :
    Reachable (register twoClosers).closerProviders reversedCalls ∧
      reversedCalls.returned = true ∧
      reversedCalls = finalState (register twoClosers).closerProviders reversedCalls.invoked ∧
        reversedCalls.invoked.Perm (register twoClosers).closerProviders.enum :=
  ⟨reversedCalls_reachable, rfl, shutdown_outcome _ _ reversedCalls_reachable rfl⟩

end DoNewsStd.Container.Shutdown
