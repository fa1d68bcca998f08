import DoNewsStd.Key.Ownership

/-!
# Package key refines its value reading

The package documents `KeyManager` as immutable.  Read so, a program of calls
of package key runs on a list of values of `DoNewsStd.Key.Manager`: each call
returns what the value reading computes from its operand's labels, and nothing
returned earlier ever changes.  This module states what the caller of each
call sees on both machines, the store machine of `DoNewsStd.Key.Aliasing` and
the value machine, and proves that a run of the store machine in which every
`append` keeps to the discipline of `DoNewsStd.Key.Ownership` returns, call
for call, what the value machine returns, under every growth policy.  A
program whose `NewManager` calls take literal arguments, and which never calls
the method `With`, keeps to it.  Runs are sequential: what concurrent calls
on one manager see is not modelled here.

The abstraction maps a store machine to the labels each of its managers
shows.  One call commutes with it (`storeCall_abstract`); a run is the
induction over the calls (`trace_abstract`).  A run that breaks the
discipline need not refine the value machine: the run of
`key_overwrites_earlier_manager` returns other labels for `Spread`.
-/

namespace DoNewsStd.Key.Refinement

open DoNewsStd.Key.SliceStore
open DoNewsStd.Key.Aliasing
open DoNewsStd.Key.Ownership

/--
What a call returns, as its caller reads it when the call returns: a manager
by its labels (`NewManager`, `With`, the package `With`, `KeepOdd`), the
joined key (`Key`), or the labels handed out (`Spread`, `SpreadInterface`).
-/
inductive Returned where
  | manager (manager : Manager.KeyManager)
  | key (key : String)
  | labels (labels : List String)
  deriving DecidableEq, Repr

/-- What a run returns call by call, for a machine given by one call; `none` once a call fails. -/
def trace {State : Type} (call : State → Operation → Option (State × Returned)) :
    State → List Operation → Option (List Returned)
  | _, [] => some []
  | state, operation :: rest =>
      (call state operation).bind fun called =>
        (trace call called.1 rest).map (called.2 :: ·)

/-! ## The value machine -/

/-- Record a returned value. -/
def valueReturning (managers : List Manager.KeyManager) (manager : Manager.KeyManager) :
    List Manager.KeyManager × Returned :=
  (managers ++ [manager], .manager manager)

/--
One call on immutable values: the managers after it, and what it returns.  A
value has no cells past its labels, so a reslice beyond them has no reading.
-/
def valueCall (managers : List Manager.KeyManager) :
    Operation → Option (List Manager.KeyManager × Returned)
  | .newManager parts => some (valueReturning managers (Manager.newManager parts))
  | .newManagerSpread index length => managers[index]?.bind fun manager =>
      if length ≤ manager.prefixes.length then
        some (valueReturning managers (Manager.newManager (manager.spread.take length)))
      else none
  | .managerWith index parts => managers[index]?.map fun manager =>
      valueReturning managers (manager.With parts)
  | .keyWith index parts => managers[index]?.map fun manager =>
      valueReturning managers (Manager.With manager parts)
  | .key index delimiter parts => managers[index]?.map fun manager =>
      (managers, .key (manager.key delimiter parts))
  | .keepOdd index => managers[index]?.map fun manager =>
      valueReturning managers (Manager.keepOdd manager)
  | .spread index => managers[index]?.map fun manager => (managers, .labels manager.spread)
  | .spreadInterface index => managers[index]?.map fun manager =>
      (managers, .labels (Manager.spreadInterface manager))

/-! ## The store machine, observed -/

/-- A returned manager, by the labels it shows in the store the call leaves. -/
def returnedManager (result : Heap × KeyManager) : Returned :=
  .manager (result.2.view result.1)

/-- What a call of the store machine returns, read when it returns. -/
def returned (growth : Growth) (machine : Machine) : Operation → Option Returned
  | .newManager parts => some (returnedManager (newManager machine.heap parts))
  | .newManagerSpread index length => machine.managers[index]?.bind fun manager =>
      (newManagerSpread manager length).map fun made => returnedManager (machine.heap, made)
  | .managerWith index parts => machine.managers[index]?.map fun manager =>
      returnedManager (manager.With growth machine.heap parts)
  | .keyWith index parts => machine.managers[index]?.map fun manager =>
      returnedManager (With growth machine.heap manager parts)
  | .key index delimiter parts => machine.managers[index]?.map fun manager =>
      .key (manager.key growth machine.heap delimiter parts).2
  | .keepOdd index => machine.managers[index]?.map fun manager =>
      returnedManager (keepOdd growth machine.heap manager)
  | .spread index => machine.managers[index]?.map fun manager =>
      .labels (machine.heap.read manager.spread)
  | .spreadInterface index => machine.managers[index]?.map fun manager =>
      .labels (spreadInterface machine.heap manager)

/-- One call of the store machine: the machine after it, and what it returns. -/
def storeCall (growth : Growth) (machine : Machine) (operation : Operation) :
    Option (Machine × Returned) :=
  (machine.step growth operation).bind fun next =>
    (returned growth machine operation).map (next, ·)

/-- The abstraction: every manager of the store machine, as the labels it shows. -/
def abstract (machine : Machine) : List Manager.KeyManager :=
  machine.managers.map (·.view machine.heap)

/-! ## One call -/

section Call

variable {growth : Growth} {machine : Machine}

theorem storeCall_step {operation : Operation} {next : Machine} {value : Returned}
    (called : storeCall growth machine operation = some (next, value)) :
    machine.step growth operation = some next := by
  simp only [storeCall, Option.bind_eq_some, Option.map_eq_some', Prod.mk.injEq] at called
  obtain ⟨after, stepped, _, -, rfl, -⟩ := called
  exact stepped

theorem abstract_of_keeps {heap : Heap}
    (kept : ∀ manager ∈ machine.managers,
      heap.read manager.prefixes = machine.heap.read manager.prefixes) :
    abstract { machine with heap := heap } = abstract machine :=
  List.map_congr_left fun manager member => congrArg Manager.KeyManager.mk (kept manager member)

/-- A call on the manager returned `index`-th commutes when it commutes for that manager. -/
theorem lookup_square {index : Nat} {next : KeyManager → Machine}
    {value : KeyManager → Returned}
    {valueNext : Manager.KeyManager → List Manager.KeyManager × Returned}
    (each : ∀ manager, machine.managers[index]? = some manager →
      (abstract (next manager), value manager) = valueNext (manager.view machine.heap)) :
    ((machine.managers[index]?.map next).bind fun stepped =>
        (machine.managers[index]?.map value).map (stepped, ·)).map
        (fun called => (abstract called.1, called.2)) =
      (abstract machine)[index]?.map valueNext := by
  rw [abstract, List.getElem?_map]
  cases found : machine.managers[index]? with
  | none => rfl
  | some manager => exact congrArg some (each manager found)

variable (valid : machine.Valid)
include valid

/-- A call that keeps to the discipline and returns a manager showing `value` commutes. -/
theorem returning_square (growth : Growth) {operation : Operation} {result : Heap × KeyManager}
    {value : Manager.KeyManager} (owned : Owned machine operation)
    (stepped : machine.step growth operation = some (machine.returning result))
    (shows : result.2.view result.1 = value) :
    (abstract (machine.returning result), returnedManager result) =
      valueReturning (abstract machine) value := by
  have old := abstract_of_keeps (step_keeps valid owned stepped).2
  simp only [abstract, Machine.returning, List.map_append, List.map_singleton] at old ⊢
  rw [old, returnedManager, shows]
  rfl

/-- One call that keeps to the discipline commutes with the abstraction. -/
theorem storeCall_abstract {operation : Operation} (owned : Owned machine operation) :
    (storeCall growth machine operation).map (fun called => (abstract called.1, called.2)) =
      valueCall (abstract machine) operation := by
  cases operation <;> simp only [storeCall, Machine.step, returned, valueCall]
  case newManager parts =>
    exact congrArg some (returning_square valid growth owned rfl
      (congrArg Manager.KeyManager.mk (newManager_spec machine.heap parts).2.2.1))
  case newManagerSpread index length =>
    rw [abstract, List.getElem?_map]
    cases found : machine.managers[index]? with
    | none => rfl
    | some manager =>
        have holds := valid manager (List.getElem?_mem found)
        have within : length ≤ manager.prefixes.len :=
          owned.2 (manager, length) (by simp [resliced, found])
        have fits := Heap.reslice_of_le (within.trans holds.1)
        simp only [Option.some_bind, Option.map_some', newManagerSpread, KeyManager.spread, fits,
          KeyManager.view, Manager.KeyManager.spread, Heap.length_read _ holds, within, if_true]
        have stepped : machine.step growth (.newManagerSpread index length) =
            some (machine.returning (machine.heap, ⟨{ manager.prefixes with len := length }⟩)) := by
          simp only [Machine.step, found, newManagerSpread, KeyManager.spread, fits,
            Option.some_bind, Option.map_some']
        exact congrArg some (returning_square valid growth owned stepped
          (congrArg Manager.KeyManager.mk (Heap.read_reslice _ within)))
  case managerWith index parts =>
    refine lookup_square fun manager found => returning_square valid growth owned
      (by simp only [Machine.step, found, Option.map_some']) ?_
    exact congrArg Manager.KeyManager.mk
      (read_append growth parts (valid manager (List.getElem?_mem found)))
  case keyWith index parts =>
    refine lookup_square fun manager found => returning_square valid growth owned
      (by simp only [Machine.step, found, Option.map_some']) ?_
    simp only [KeyManager.view, Manager.With, Manager.KeyManager.With, List.nil_append,
      (With_spec growth (valid manager (List.getElem?_mem found)) parts).1]
    rfl
  case key index delimiter parts =>
    refine lookup_square fun manager found => ?_
    have stepped : machine.step growth (.key index delimiter parts) =
        some { machine with heap := (manager.key growth machine.heap delimiter parts).1 } := by
      simp only [Machine.step, found, Option.map_some']
    rw [abstract_of_keeps (step_keeps valid owned stepped).2,
      KeyManager.key_view growth (valid manager (List.getElem?_mem found))]
  case keepOdd index =>
    refine lookup_square fun manager found => returning_square valid growth owned
      (by simp only [Machine.step, found, Option.map_some']) ?_
    rw [KeyManager.view, (keepOdd_spec growth (valid manager (List.getElem?_mem found))).1]
  case spread index => exact lookup_square fun manager _ => rfl
  case spreadInterface index =>
    refine lookup_square fun manager found => ?_
    rw [spreadInterface_view (valid manager (List.getElem?_mem found))]

end Call

/-- A run that keeps to the discipline returns what the value machine returns from the labels. -/
theorem trace_abstract {growth : Growth} :
    ∀ {operations : List Operation} {machine : Machine}, machine.Valid →
      OwnedRun growth machine operations →
        trace (storeCall growth) machine operations =
          trace valueCall (abstract machine) operations
  | [], _, _, _ => rfl
  | operation :: rest, machine, valid, ⟨owned, ownedRest⟩ => by
      rw [trace, trace, ← storeCall_abstract valid owned, Option.bind_map]
      match called : storeCall growth machine operation with
      | none => rfl
      | some (next, value) =>
          have stepped := storeCall_step called
          rw [stepped] at ownedRest
          exact congrArg (Option.map (value :: ·)) (trace_abstract (valid.step stepped) ownedRest)

/--
Under any growth policy, a run of package key in which every `append` onto a
manager appends onto one owning the spare capacity of its array returns, call
for call, what the package returns when `KeyManager` is an immutable value.
-/
theorem owned_runs_return_values (growth : Growth) (operations : List Operation)
    (owned : OwnedRun growth Machine.initial operations) :
    trace (storeCall growth) Machine.initial operations = trace valueCall [] operations :=
  trace_abstract valid_initial owned

/--
`k3 := k2.With("x")` writes into the spare capacity of `k2`, which it owns, a
manager is cut from `k3.Spread()[:2]`, and the later appends go onto full
headers.
-/
def sharedArrayCalls : List Operation :=
  [.newManager ["a", "b"], .managerWith 0 ["c"], .managerWith 1 ["x"], .spread 1,
    .newManagerSpread 2 2, .key 2 ":" ["z"], .keyWith 2 ["y"], .spread 2, .spread 3]

theorem owned_runs_return_values_of_shared_array :
    OwnedRun .doubling Machine.initial sharedArrayCalls ∧
      trace (storeCall .doubling) Machine.initial sharedArrayCalls =
        trace valueCall [] sharedArrayCalls :=
  ⟨by decide, owned_runs_return_values _ _ (by decide)⟩

/-- The run of `key_overwrites_earlier_manager`, then `k3.Spread()`. -/
def overwritingCalls : List Operation :=
  [.newManager ["a", "b"], .managerWith 0 ["c"], .managerWith 1 ["x"], .key 1 ":" ["z"],
    .spread 2]

/-- That run breaks the discipline, and its last `Spread` returns other labels. -/
example :
    trace (storeCall .doubling) Machine.initial overwritingCalls ≠
      trace valueCall [] overwritingCalls := by
  decide

end DoNewsStd.Key.Refinement
