import DoNewsStd.Key.Manager
import DoNewsStd.Key.SliceStore

/-!
# Package key over shared backing arrays

Here a `KeyManager` holds a slice header, and its labels are what that header
shows in the current store.  `NewManager` keeps the slice its variadic
parameter received: a new array for literal arguments, the caller's own header
for `NewManager(s...)`.  `Spread` hands out the same header, and `With` and
`Key` call `append` on `Prefixes` itself.

One call at a time this is the value reading of `DoNewsStd.Key.Manager`: the
result shows what the value semantics computes, and the operand shows what it
showed before.  Over a run it is not: a `With` result that got spare capacity
from a growing `append` shares its array with every later `With` or `Key` on
it, so a later `Key` can overwrite a label of a `KeyManager` handed out
earlier, contrary to the package's promise that `KeyManager` is immutable.
With a growth policy that never leaves spare capacity every `KeyManager` made
from literal arguments keeps its labels; `NewManager(s[:n]...)` hands out
spare capacity under any policy.
-/

namespace DoNewsStd.Key.Aliasing

open DoNewsStd.Key
open DoNewsStd.Key.SliceStore

/-- A `KeyManager` value: its `Prefixes` header. -/
structure KeyManager where
  prefixes : Slice
  deriving DecidableEq, Repr

/-- `NewManager("a", "b", ...)`: the variadic parameter receives a new array holding the
arguments `parts`. -/
def newManager (heap : Heap) (parts : List String) : Heap × KeyManager :=
  let received := variadic heap parts
  (received.1, ⟨received.2⟩)

namespace KeyManager

/-- `Key`: `parts = append(k.Prefixes, parts...)`, then `strings.Join`. -/
def key (growth : Growth) (heap : Heap) (manager : KeyManager) (delimiter : String)
    (parts : List String) : Heap × String :=
  let joined := append growth heap manager.prefixes parts
  (joined.1, String.intercalate delimiter (joined.1.read joined.2))

/-- `Spread` returns the header of `Prefixes` itself. -/
def spread (manager : KeyManager) : Slice :=
  manager.prefixes

/-- `With`: `newKeyManager.Prefixes = append(k.Prefixes, parts...)`. -/
def With (growth : Growth) (heap : Heap) (manager : KeyManager) (parts : List String) :
    Heap × KeyManager :=
  let appended := append growth heap manager.prefixes parts
  (appended.1, ⟨appended.2⟩)

end KeyManager

/-- The package function `With`: `parts = append(k.Spread(), parts...)`, then
`km.With(parts...)` on the zero `KeyManager`. -/
def With (growth : Growth) (heap : Heap) (keyer : KeyManager) (parts : List String) :
    Heap × KeyManager :=
  let joined := append growth heap keyer.spread parts
  KeyManager.With growth joined.1 ⟨.nil⟩ (joined.1.read joined.2)

/--
`NewManager(s[:length]...)` for `s := k.Spread()`: the variadic parameter
receives the caller's header itself, resliced; `none` where the reslice panics.
-/
def newManagerSpread (keyer : KeyManager) (length : Nat) : Option KeyManager :=
  (keyer.spread.reslice length).map KeyManager.mk

/-- `SpreadInterface`: `out[i] = spreader[i]` for every index. -/
def spreadInterface (heap : Heap) (keyer : KeyManager) : List String :=
  (List.range keyer.spread.len).map (heap.index keyer.spread ·)

/-- One iteration of the loop of `KeepOdd`. -/
def keepOddStep (growth : Growth) (spreader : Slice) (state : Heap × KeyManager)
    (index : Nat) : Heap × KeyManager :=
  if index % 2 = 1 then
    let appended := append growth state.1 state.2.prefixes [state.1.index spreader index]
    (appended.1, ⟨appended.2⟩)
  else state

/-- `KeepOdd`: append every label at an odd index to a zero `KeyManager`. -/
def keepOdd (growth : Growth) (heap : Heap) (keyer : KeyManager) : Heap × KeyManager :=
  (List.range keyer.spread.len).foldl (keepOddStep growth keyer.spread) (heap, ⟨.nil⟩)

/-! ## One call at a time -/

/-- The labels a header shows in a store, as a value. -/
def KeyManager.view (heap : Heap) (manager : KeyManager) : Manager.KeyManager :=
  ⟨heap.read manager.prefixes⟩

section Calls

open SliceStore.Heap

variable (growth : Growth) {heap : Heap}

theorem newManager_spec (heap : Heap) (parts : List String) :
    heap.arrays <+: (newManager heap parts).1.arrays ∧
      (newManager heap parts).1.Holds (newManager heap parts).2.prefixes ∧
      (newManager heap parts).1.read (newManager heap parts).2.prefixes = parts ∧
      (newManager heap parts).2.prefixes.len = (newManager heap parts).2.prefixes.cap := by
  unfold newManager variadic
  split
  · rename_i empty
    subst empty
    exact ⟨List.prefix_refl _, holds_nil _, rfl, rfl⟩
  · exact ⟨push_extends heap parts, ⟨le_refl _, by simp [cells_push_self]⟩,
      by simp [SliceStore.Heap.read, cells_push_self], rfl⟩

/-- The package `With` shows the keyer's labels and then `parts`, and leaves
the keyer alone although its first `append` may write into the keyer's array. -/
theorem With_spec {keyer : KeyManager} (holds : heap.Holds keyer.prefixes)
    (parts : List String) :
    (With growth heap keyer parts).1.read (With growth heap keyer parts).2.prefixes =
        heap.read keyer.prefixes ++ parts ∧
      (With growth heap keyer parts).1.Holds (With growth heap keyer parts).2.prefixes ∧
      (With growth heap keyer parts).1.read keyer.prefixes = heap.read keyer.prefixes ∧
      ∀ other, heap.Holds other → (With growth heap keyer parts).1.Holds other := by
  have nilHolds := holds_nil (append growth heap keyer.prefixes parts).1
  refine ⟨?_, holds_append growth _ nilHolds, ?_, fun other otherHolds =>
    (otherHolds.append growth parts holds).append growth _ nilHolds⟩
  · simp only [With, KeyManager.With, KeyManager.spread]
    rw [read_append growth _ nilHolds, read_nil, List.nil_append, read_append growth _ holds]
  · simp only [With, KeyManager.With, KeyManager.spread]
    rw [read_append_other growth _ nilHolds (holds.append growth parts holds)
      (fun fits nonempty _ => absurd (List.eq_nil_of_length_eq_zero (by
        simp only [Slice.nil] at fits
        omega)) nonempty),
      read_append_operand growth parts holds]

/-- The loop state of `KeepOdd`: both headers valid, the keyer's labels in
place, and the result not sharing the keyer's array. -/
structure Kept (spreader : Slice) (labels : List String) (state : Heap × KeyManager) :
    Prop where
  holds : state.1.Holds state.2.prefixes
  spreaderHolds : state.1.Holds spreader
  spreaderRead : state.1.read spreader = labels
  separate : spreader.len = 0 ∨ state.2.prefixes.cap = 0 ∨
    state.2.prefixes.array ≠ spreader.array

/-- One iteration of `KeepOdd` on the store does what it does on values. -/
theorem Kept.step {spreader : Slice} {labels : List String} {state : Heap × KeyManager}
    (kept : Kept spreader labels state) {index : Nat} (inside : index < spreader.len) :
    Kept spreader labels (keepOddStep growth spreader state index) ∧
      (keepOddStep growth spreader state index).1.read
          (keepOddStep growth spreader state index).2.prefixes =
        (Manager.keepOddStep labels ⟨state.1.read state.2.prefixes⟩ index).prefixes := by
  unfold keepOddStep Manager.keepOddStep
  split
  · have item : state.1.index spreader index = labels.getD index "" := by
      rw [index_eq_getD_read _ inside, kept.spreaderRead]
    simp only [item]
    refine ⟨⟨holds_append growth _ kept.holds,
      kept.spreaderHolds.append growth _ kept.holds, ?_, ?_⟩, read_append growth _ kept.holds⟩
    · rw [read_append_other growth _ kept.holds kept.spreaderHolds, kept.spreaderRead]
      intro fits _ same
      rcases kept.separate with empty | noRoom | apart
      · omega
      · simp only [List.length_singleton] at fits
        omega
      · exact absurd same.symm apart
    · unfold append
      split
      · exact kept.separate
      · by_cases empty : spreader.len = 0
        · exact .inl empty
        · exact .inr (.inr (Nat.ne_of_gt (kept.spreaderHolds.array_lt (by omega))))
  · exact ⟨kept, rfl⟩

theorem keepOddStep_holds {spreader : Slice} {state : Heap × KeyManager}
    (holds : state.1.Holds state.2.prefixes) (index : Nat) {other : Slice}
    (otherHolds : state.1.Holds other) :
    (keepOddStep growth spreader state index).1.Holds other ∧
      (keepOddStep growth spreader state index).1.Holds
        (keepOddStep growth spreader state index).2.prefixes := by
  unfold keepOddStep
  split
  · exact ⟨otherHolds.append growth _ holds, holds_append growth _ holds⟩
  · exact ⟨otherHolds, holds⟩

theorem Kept.foldl {spreader : Slice} {labels : List String} :
    ∀ (indices : List Nat) (state : Heap × KeyManager), Kept spreader labels state →
      (∀ index ∈ indices, index < spreader.len) →
      Kept spreader labels (indices.foldl (keepOddStep growth spreader) state) ∧
        (indices.foldl (keepOddStep growth spreader) state).1.read
            (indices.foldl (keepOddStep growth spreader) state).2.prefixes =
          (indices.foldl (Manager.keepOddStep labels) ⟨state.1.read state.2.prefixes⟩).prefixes
  | [], _, kept, _ => ⟨kept, rfl⟩
  | index :: rest, state, kept, inside => by
      obtain ⟨next, stepped⟩ := kept.step growth (inside index (List.mem_cons_self _ _))
      obtain ⟨final, folded⟩ := Kept.foldl rest _ next
        (fun other member => inside other (List.mem_cons_of_mem _ member))
      refine ⟨final, ?_⟩
      rw [List.foldl_cons, List.foldl_cons, folded, stepped]

theorem foldl_keepOddStep_holds {spreader : Slice} :
    ∀ (indices : List Nat) (state : Heap × KeyManager),
      state.1.Holds state.2.prefixes → ∀ other, state.1.Holds other →
        (indices.foldl (keepOddStep growth spreader) state).1.Holds other
  | [], _, _, _, otherHolds => otherHolds
  | index :: rest, _, holds, other, otherHolds =>
      foldl_keepOddStep_holds rest _ (keepOddStep_holds growth holds index holds).2 other
        (keepOddStep_holds growth holds index otherHolds).1

/-- `KeepOdd` on the store shows what it computes on values, and leaves the
keyer alone. -/
theorem keepOdd_spec {keyer : KeyManager} (holds : heap.Holds keyer.prefixes) :
    (keepOdd growth heap keyer).1.read (keepOdd growth heap keyer).2.prefixes =
        (Manager.keepOdd (keyer.view heap)).prefixes ∧
      (keepOdd growth heap keyer).1.Holds (keepOdd growth heap keyer).2.prefixes ∧
      (keepOdd growth heap keyer).1.read keyer.prefixes = heap.read keyer.prefixes ∧
      ∀ other, heap.Holds other → (keepOdd growth heap keyer).1.Holds other := by
  have start : Kept keyer.prefixes (heap.read keyer.prefixes) (heap, ⟨.nil⟩) :=
    ⟨holds_nil heap, holds, rfl, .inr (.inl rfl)⟩
  obtain ⟨final, folded⟩ := Kept.foldl growth (List.range keyer.prefixes.len) _ start
    (fun index member => List.mem_range.mp member)
  refine ⟨?_, final.holds, final.spreaderRead, fun other otherHolds =>
    foldl_keepOddStep_holds growth _ _ (holds_nil heap) other otherHolds⟩
  simp only [keepOdd, KeyManager.spread, folded, Manager.keepOdd, KeyManager.view,
    Manager.KeyManager.spread, length_read heap holds, read_nil]

end Calls

/-! ## Runs of calls -/

/--
A call of package key; managers are named by the order they were returned in.
`newManagerSpread k n` is `NewManager(s[:n]...)` for `s := k.Spread()`: a
slice the caller holds, such as its own literal `[]string{...}`, stands as the
manager made from it, and its reslices are those of that manager's `Spread`.
-/
inductive Operation where
  | newManager (parts : List String)
  | newManagerSpread (manager : Nat) (length : Nat)
  | managerWith (manager : Nat) (parts : List String)
  | keyWith (manager : Nat) (parts : List String)
  | key (manager : Nat) (delimiter : String) (parts : List String)
  | keepOdd (manager : Nat)
  | spread (manager : Nat)
  | spreadInterface (manager : Nat)
  deriving DecidableEq, Repr

/-- The store and every `KeyManager` returned so far. -/
structure Machine where
  heap : Heap
  managers : List KeyManager
  deriving DecidableEq, Repr

/-- Nothing allocated, nothing returned. -/
def Machine.initial : Machine :=
  ⟨⟨[]⟩, []⟩

/-- Record a call that returns a `KeyManager`. -/
def Machine.returning (result : Heap × KeyManager) (machine : Machine) : Machine :=
  ⟨result.1, machine.managers ++ [result.2]⟩

/-- One call; `none` when it names a manager not returned yet. -/
def Machine.step (growth : Growth) (machine : Machine) : Operation → Option Machine
  | .newManager parts => some (machine.returning (newManager machine.heap parts))
  | .newManagerSpread index length => machine.managers[index]?.bind fun manager =>
      (newManagerSpread manager length).map fun made => machine.returning (machine.heap, made)
  | .managerWith index parts => machine.managers[index]?.map fun manager =>
      machine.returning (manager.With growth machine.heap parts)
  | .keyWith index parts => machine.managers[index]?.map fun manager =>
      machine.returning (With growth machine.heap manager parts)
  | .key index delimiter parts => machine.managers[index]?.map fun manager =>
      { machine with heap := (manager.key growth machine.heap delimiter parts).1 }
  | .keepOdd index => machine.managers[index]?.map fun manager =>
      machine.returning (keepOdd growth machine.heap manager)
  | .spread index => machine.managers[index]?.map fun _ => machine
  | .spreadInterface index => machine.managers[index]?.map fun _ => machine

/-- Run calls one after the other. -/
def Machine.run (growth : Growth) : Machine → List Operation → Option Machine
  | machine, [] => some machine
  | machine, operation :: rest =>
      (machine.step growth operation).bind (Machine.run growth · rest)

/-- A call of `NewManager` on a slice the caller holds, rather than on literal arguments. -/
def Operation.fromSlice : Operation → Bool
  | .newManagerSpread _ _ => true
  | _ => false

/-- The labels the manager returned `index`-th shows in the machine's store. -/
def Machine.labels (machine : Machine) (index : Nat) : List String :=
  machine.heap.read (machine.managers.getD index ⟨.nil⟩).prefixes

/--
`k2 := NewManager("a", "b").With("c")` gets capacity four; `k3 := k2.With("x")`
shares its array, and `k2.Key(":", "z")` then overwrites the last label of
`k3`.
-/
theorem key_overwrites_earlier_manager :
    ((Machine.initial.run .doubling
        [.newManager ["a", "b"], .managerWith 0 ["c"], .managerWith 1 ["x"]]).map
      (·.labels 2) = some ["a", "b", "c", "x"]) ∧
    ((Machine.initial.run .doubling
        [.newManager ["a", "b"], .managerWith 0 ["c"], .managerWith 1 ["x"],
          .key 1 ":" ["z"]]).map
      (·.labels 2) = some ["a", "b", "c", "z"]) := by
  decide

section Runs

open SliceStore.Heap

variable {growth : Growth} {machine next : Machine}

theorem Machine.step_some {operation : Operation}
    (stepped : machine.step growth operation = some next) :
    next = machine ∨
      (∃ manager ∈ machine.managers, ∃ delimiter parts,
        next = { machine with heap := (manager.key growth machine.heap delimiter parts).1 }) ∨
      ∃ result : Heap × KeyManager, next = machine.returning result ∧
        ((∃ parts, result = newManager machine.heap parts) ∨
          ∃ manager ∈ machine.managers,
            (∃ parts, result = manager.With growth machine.heap parts) ∨
            (∃ parts, result = With growth machine.heap manager parts) ∨
            result = keepOdd growth machine.heap manager ∨
            operation.fromSlice = true ∧ ∃ length made,
              newManagerSpread manager length = some made ∧ result = (machine.heap, made)) := by
  cases operation <;>
    simp only [Machine.step, Option.map_eq_some', Option.bind_eq_some, Option.some.injEq] at stepped
  case newManager parts => exact .inr (.inr ⟨_, stepped.symm, .inl ⟨parts, rfl⟩⟩)
  case newManagerSpread index length =>
    obtain ⟨manager, found, made, sliced, rfl⟩ := stepped
    exact .inr (.inr ⟨_, rfl, .inr ⟨manager, List.getElem?_mem found,
      .inr (.inr (.inr ⟨rfl, length, made, sliced, rfl⟩))⟩⟩)
  all_goals
    obtain ⟨manager, found, rfl⟩ := stepped
    have member := List.getElem?_mem found
  · exact .inr (.inr ⟨_, rfl, .inr ⟨manager, member, .inl ⟨_, rfl⟩⟩⟩)
  · exact .inr (.inr ⟨_, rfl, .inr ⟨manager, member, .inr (.inl ⟨_, rfl⟩)⟩⟩)
  · exact .inr (.inl ⟨manager, member, _, _, rfl⟩)
  · exact .inr (.inr ⟨_, rfl, .inr ⟨manager, member, .inr (.inr (.inl rfl))⟩⟩)
  · exact .inl rfl
  · exact .inl rfl

/-- Every `KeyManager` of the machine is a valid header. -/
def Machine.Valid (machine : Machine) : Prop :=
  ∀ manager ∈ machine.managers, machine.heap.Holds manager.prefixes

theorem Machine.Valid.returning {result : Heap × KeyManager} (valid : machine.Valid)
    (kept : ∀ other, machine.heap.Holds other → result.1.Holds other)
    (holds : result.1.Holds result.2.prefixes) : (machine.returning result).Valid := by
  intro manager member
  rcases List.mem_append.mp member with old | new
  · exact kept _ (valid manager old)
  · rw [List.mem_singleton.mp new]
    exact holds

theorem Machine.Valid.step {operation : Operation} (valid : machine.Valid)
    (stepped : machine.step growth operation = some next) : next.Valid := by
  rcases Machine.step_some stepped with rfl | ⟨manager, member, delimiter, parts, rfl⟩ |
    ⟨result, rfl, ⟨parts, rfl⟩ |
      ⟨manager, member, ⟨parts, rfl⟩ | ⟨parts, rfl⟩ | rfl | ⟨-, length, made, sliced, rfl⟩⟩⟩
  · exact valid
  · exact fun other otherMember => (valid other otherMember).append growth parts
      (valid manager member)
  · have spec := newManager_spec machine.heap parts
    exact valid.returning (fun other holds => (holds.of_extends spec.1).1) spec.2.1
  · have holds := valid manager member
    exact valid.returning (fun other otherHolds => otherHolds.append growth parts holds)
      (holds_append growth parts holds)
  · have spec := With_spec growth (valid manager member) parts
    exact valid.returning spec.2.2.2 spec.2.1
  · have spec := keepOdd_spec growth (valid manager member)
    exact valid.returning spec.2.2.2 spec.2.1
  · obtain ⟨resliced, found, rfl⟩ := Option.map_eq_some'.mp sliced
    exact valid.returning (fun _ holds => holds) ((valid manager member).reslice found)

theorem Machine.Valid.run (valid : machine.Valid) :
    ∀ {operations : List Operation}, machine.run growth operations = some next →
      next.Valid := by
  intro operations
  induction operations generalizing machine with
  | nil =>
      intro ran
      cases ran
      exact valid
  | cons operation rest ih =>
      intro ran
      simp only [Machine.run, Option.bind_eq_some] at ran
      obtain ⟨middle, stepped, ran⟩ := ran
      exact ih (valid.step stepped) ran

/-! ### Exact growth -/

theorem keepOddStep_exact (spreader : Slice) {state : Heap × KeyManager}
    (holds : state.1.Holds state.2.prefixes) (full : state.2.prefixes.len = state.2.prefixes.cap)
    (index : Nat) :
    state.1.arrays <+: (keepOddStep .exact spreader state index).1.arrays ∧
      (keepOddStep .exact spreader state index).1.Holds
        (keepOddStep .exact spreader state index).2.prefixes ∧
      (keepOddStep .exact spreader state index).2.prefixes.len =
        (keepOddStep .exact spreader state index).2.prefixes.cap := by
  unfold keepOddStep
  split
  · exact ⟨append_extends_of_full _ _ full, holds_append _ _ holds, full_append_exact _ full⟩
  · exact ⟨List.prefix_refl _, holds, full⟩

theorem foldl_keepOddStep_exact (spreader : Slice) :
    ∀ (indices : List Nat) (state : Heap × KeyManager), state.1.Holds state.2.prefixes →
      state.2.prefixes.len = state.2.prefixes.cap →
      state.1.arrays <+: (indices.foldl (keepOddStep .exact spreader) state).1.arrays ∧
        (indices.foldl (keepOddStep .exact spreader) state).1.Holds
          (indices.foldl (keepOddStep .exact spreader) state).2.prefixes ∧
        (indices.foldl (keepOddStep .exact spreader) state).2.prefixes.len =
          (indices.foldl (keepOddStep .exact spreader) state).2.prefixes.cap
  | [], _, holds, full => ⟨List.prefix_refl _, holds, full⟩
  | index :: rest, state, holds, full => by
      obtain ⟨grows, nextHolds, nextFull⟩ := keepOddStep_exact spreader holds full index
      obtain ⟨restGrows, finalHolds, finalFull⟩ :=
        foldl_keepOddStep_exact spreader rest _ nextHolds nextFull
      exact ⟨grows.trans restGrows, finalHolds, finalFull⟩

/--
With exact growth the package `With` on a header without spare capacity only
allocates, and returns a header without spare capacity.
-/
theorem With_exact {heap : Heap} {keyer : KeyManager}
    (noRoom : keyer.prefixes.len = keyer.prefixes.cap) (parts : List String) :
    heap.arrays <+: (With .exact heap keyer parts).1.arrays ∧
      (With .exact heap keyer parts).1.Holds (With .exact heap keyer parts).2.prefixes ∧
      (With .exact heap keyer parts).2.prefixes.len =
        (With .exact heap keyer parts).2.prefixes.cap := by
  simp only [With, KeyManager.With, KeyManager.spread]
  have nilFull : Slice.nil.len = Slice.nil.cap := rfl
  exact ⟨(append_extends_of_full .exact parts noRoom).trans
      (append_extends_of_full .exact _ nilFull),
    holds_append .exact _ (holds_nil _), full_append_exact _ nilFull⟩

/-- Every `KeyManager` of the machine is a valid header without spare capacity. -/
def Machine.Full (machine : Machine) : Prop :=
  ∀ manager ∈ machine.managers,
    machine.heap.Holds manager.prefixes ∧ manager.prefixes.len = manager.prefixes.cap

theorem Machine.Full.grow {heap : Heap} (full : machine.Full)
    (grows : machine.heap.arrays <+: heap.arrays) :
    ({ machine with heap := heap } : Machine).Full :=
  fun manager member => ⟨((full manager member).1.of_extends grows).1, (full manager member).2⟩

theorem Machine.Full.returning {result : Heap × KeyManager} (full : machine.Full)
    (grows : machine.heap.arrays <+: result.1.arrays) (holds : result.1.Holds result.2.prefixes)
    (noRoom : result.2.prefixes.len = result.2.prefixes.cap) :
    (machine.returning result).Full ∧
      machine.heap.arrays <+: (machine.returning result).heap.arrays ∧
      machine.managers <+: (machine.returning result).managers := by
  refine ⟨fun manager member => ?_, grows, List.prefix_append _ _⟩
  rcases List.mem_append.mp member with old | new
  · exact (full.grow grows) manager old
  · rw [List.mem_singleton.mp new]
    exact ⟨holds, noRoom⟩

/-- With exact growth a call on literal arguments only allocates, and every header stays full. -/
theorem Machine.Full.step {operation : Operation} (full : machine.Full)
    (literal : operation.fromSlice = false)
    (stepped : machine.step .exact operation = some next) :
    next.Full ∧ machine.heap.arrays <+: next.heap.arrays ∧
      machine.managers <+: next.managers := by
  rcases Machine.step_some stepped with rfl | ⟨manager, member, delimiter, parts, rfl⟩ |
    ⟨result, rfl, ⟨parts, rfl⟩ |
      ⟨manager, member, ⟨parts, rfl⟩ | ⟨parts, rfl⟩ | rfl | ⟨fromSlice, -⟩⟩⟩
  · exact ⟨full, List.prefix_refl _, List.prefix_refl _⟩
  · have grows : machine.heap.arrays <+:
        (append .exact machine.heap manager.prefixes parts).1.arrays :=
      append_extends_of_full _ parts (full manager member).2
    exact ⟨full.grow grows, grows, List.prefix_refl _⟩
  · have spec := newManager_spec machine.heap parts
    exact full.returning spec.1 spec.2.1 spec.2.2.2
  · obtain ⟨holds, noRoom⟩ := full manager member
    exact full.returning (append_extends_of_full _ parts noRoom) (holds_append _ parts holds)
      (full_append_exact parts noRoom)
  · obtain ⟨grows, joinedHolds, joinedFull⟩ := With_exact (full manager member).2 parts
    exact full.returning grows joinedHolds joinedFull
  · obtain ⟨holds, noRoom⟩ := full manager member
    obtain ⟨grows, keptHolds, keptFull⟩ :=
      foldl_keepOddStep_exact manager.prefixes (List.range manager.prefixes.len)
        (machine.heap, ⟨.nil⟩) (holds_nil _) rfl
    exact full.returning grows keptHolds keptFull
  · simp [literal] at fromSlice

theorem Machine.Full.run (full : machine.Full) :
    ∀ {operations : List Operation}, (∀ operation ∈ operations, operation.fromSlice = false) →
      machine.run .exact operations = some next →
        next.Full ∧ machine.heap.arrays <+: next.heap.arrays ∧
          machine.managers <+: next.managers := by
  intro operations
  induction operations generalizing machine with
  | nil =>
      intro _ ran
      cases ran
      exact ⟨full, List.prefix_refl _, List.prefix_refl _⟩
  | cons operation rest ih =>
      intro literal ran
      simp only [Machine.run, Option.bind_eq_some] at ran
      obtain ⟨middle, stepped, ran⟩ := ran
      obtain ⟨middleFull, heapGrows, managersGrow⟩ :=
        full.step (literal operation (List.mem_cons_self _ _)) stepped
      obtain ⟨nextFull, heapGrowsMore, managersGrowMore⟩ :=
        ih middleFull (fun other member => literal other (List.mem_cons_of_mem _ member)) ran
      exact ⟨nextFull, heapGrows.trans heapGrowsMore, managersGrow.trans managersGrowMore⟩

end Runs

/--
`NewManager(labels[:2]...)` shares the array of the caller's `labels`, spare
capacity included, under exact growth too: its `Key` rewrites a label of
`NewManager(labels...)`.
-/
example :
    (Machine.initial.run .exact
        [.newManager ["module", "foo", "service", "bar"], .newManagerSpread 0 2,
          .key 1 ":" ["x"]]).map (·.labels 0) =
      some ["module", "foo", "x", "bar"] := by
  decide

section Values

variable (growth : Growth) {heap : Heap} {manager : KeyManager}

/-- `Key` on a valid header joins what the value reading joins. -/
theorem KeyManager.key_view (holds : heap.Holds manager.prefixes) (delimiter : String)
    (parts : List String) :
    (manager.key growth heap delimiter parts).2 = (manager.view heap).key delimiter parts := by
  simp only [KeyManager.key, read_append growth parts holds, Manager.KeyManager.key,
    KeyManager.view]

/-- `SpreadInterface` on a valid header copies the labels it shows. -/
theorem spreadInterface_view (holds : heap.Holds manager.prefixes) :
    spreadInterface heap manager = Manager.spreadInterface (manager.view heap) := by
  simp only [spreadInterface, Manager.spreadInterface, KeyManager.view,
    Manager.KeyManager.spread, KeyManager.spread, SliceStore.Heap.length_read heap holds]
  exact List.map_congr_left fun position member =>
    SliceStore.Heap.index_eq_getD_read heap (List.mem_range.mp member)

end Values

/-- What one call on a `KeyManager` shows, against the value reading of the same
call on the labels the manager shows. -/
structure CallsReadAsValues (growth : Growth) (heap : Heap) (manager : KeyManager)
    (delimiter : String) (parts : List String) : Prop where
  newManager_read : (newManager heap parts).1.read (newManager heap parts).2.prefixes =
    (Manager.newManager parts).prefixes
  with_read : (manager.With growth heap parts).1.read (manager.With growth heap parts).2.prefixes =
    ((manager.view heap).With parts).prefixes
  with_operand : (manager.With growth heap parts).1.read manager.prefixes =
    heap.read manager.prefixes
  keyWith_read :
    (With growth heap manager parts).1.read (With growth heap manager parts).2.prefixes =
      (Manager.With (manager.view heap) parts).prefixes
  keyWith_operand : (With growth heap manager parts).1.read manager.prefixes =
    heap.read manager.prefixes
  key_value : (manager.key growth heap delimiter parts).2 = (manager.view heap).key delimiter parts
  key_operand : (manager.key growth heap delimiter parts).1.read manager.prefixes =
    heap.read manager.prefixes
  keepOdd_read : (keepOdd growth heap manager).1.read (keepOdd growth heap manager).2.prefixes =
    (Manager.keepOdd (manager.view heap)).prefixes
  keepOdd_operand : (keepOdd growth heap manager).1.read manager.prefixes =
    heap.read manager.prefixes
  spreadInterface_value : spreadInterface heap manager = Manager.spreadInterface (manager.view heap)

/--
Under any growth policy every `KeyManager` of every run is a valid header, and
each call on a valid header returns what the value reading computes from the
labels it shows, leaving those labels in place.
-/
theorem calls_read_as_values (growth : Growth) :
    (∀ (operations : List Operation) (machine : Machine),
      Machine.initial.run growth operations = some machine → machine.Valid) ∧
    ∀ (heap : Heap) (manager : KeyManager), heap.Holds manager.prefixes →
      ∀ delimiter parts, CallsReadAsValues growth heap manager delimiter parts := by
  refine ⟨fun operations machine ran => Machine.Valid.run (fun _ absent => by
    cases absent) ran, fun heap manager holds delimiter parts => ?_⟩
  have withSpec := With_spec growth holds parts
  have keepOddSpec := keepOdd_spec growth holds
  exact ⟨(newManager_spec heap parts).2.2.1, read_append growth parts holds,
    read_append_operand growth parts holds, withSpec.1, withSpec.2.2.1,
    KeyManager.key_view growth holds delimiter parts, read_append_operand growth parts holds,
    keepOddSpec.1, keepOddSpec.2.2.1, spreadInterface_view holds⟩

/-- The array of `k2 := NewManager("a", "b").With("c")` once `k2.With("x")` wrote its spare cell. -/
def sharedHeap : Heap :=
  ⟨[["a", "b", "c", "x"]]⟩

/-- `k2`, showing three cells of the array of four it shares with `k2.With("x")`. -/
def sharedHeader : KeyManager :=
  ⟨⟨0, 3, 4⟩⟩

theorem calls_read_as_values_shared_header :
    sharedHeap.Holds sharedHeader.prefixes ∧
      CallsReadAsValues .doubling sharedHeap sharedHeader ":" ["z"] :=
  ⟨by decide, (calls_read_as_values .doubling).2 _ _ (by decide) _ _⟩

end DoNewsStd.Key.Aliasing
