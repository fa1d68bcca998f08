import DoNewsStd.Key.Aliasing
import Mathlib.Data.List.Pairwise

/-!
# Package key under an ownership discipline

`DoNewsStd.Key.Aliasing` shows how a `KeyManager` loses a label: `With` and
`Key` append in place into spare capacity that a longer manager on the same
array already shows.  Every write of an `append` lands at or past the
operand's length.  So a run keeps every label when each call that appends
onto a manager (`With`, the package `With`, `Key`) appends onto one that owns
the spare capacity of its array: one without spare capacity, or one that no
manager on its array is longer than.  The other calls never write into an
array a manager shows: `NewManager` only allocates, and the loop of
`KeepOdd` writes only into arrays it allocated itself.

This holds under every growth policy.  With Go's doubling growth it is the
discipline a caller has to keep: a manager with spare capacity may be
extended, or used with `Key`, only while no manager derived from it by `With`
exists, nor one made by `NewManager` from a longer slice on its array.  A
reslice of a `Spread` that a manager is made from stays within the labels: the
cells past them are nothing the package handed out.

Only the method `With` and `NewManager(s[:n]...)` return a header on their
operand's array.  `NewManager` on literal arguments and the package function
`With` end with a fresh allocation, and `KeepOdd` builds its result in arrays
of its own.  So a program without those two calls keeps every manager alone on
its array, keeps to the discipline in every call, and never changes a label.
-/

namespace DoNewsStd.Key.Ownership

open DoNewsStd.Key.SliceStore
open DoNewsStd.Key.Aliasing

/-! ## The discipline -/

/--
`slice` owns the spare capacity of its array among the machine's managers:
it has none, or no manager on its array is longer.
-/
def Owns (machine : Machine) (slice : Slice) : Prop :=
  slice.len < slice.cap → ∀ other ∈ machine.managers,
    other.prefixes.array = slice.array → other.prefixes.len ≤ slice.len

instance (machine : Machine) (slice : Slice) : Decidable (Owns machine slice) :=
  inferInstanceAs (Decidable (_ → ∀ other ∈ machine.managers, _))

/-- The manager a call appends onto: that of `With`, of the package `With` and of `Key`. -/
def operand (machine : Machine) : Operation → Option KeyManager
  | .managerWith index _ | .keyWith index _ | .key index _ _ => machine.managers[index]?
  | _ => none

/-- The manager a call reslices the `Spread` of, and the new length: `NewManager(s[:length]...)`. -/
def resliced (machine : Machine) : Operation → Option (KeyManager × Nat)
  | .newManagerSpread index length => machine.managers[index]?.map (·, length)
  | _ => none

/--
A call keeps to the discipline when the manager it appends onto owns its
spare capacity, and a reslice stays within the labels of the manager it cuts.
-/
def Owned (machine : Machine) (operation : Operation) : Prop :=
  (∀ target ∈ operand machine operation, Owns machine target.prefixes) ∧
    ∀ cut ∈ resliced machine operation, cut.2 ≤ cut.1.prefixes.len

instance (machine : Machine) (operation : Operation) : Decidable (Owned machine operation) :=
  @instDecidableAnd _ _ (Option.decidableForallMem _) (Option.decidableForallMem _)

/-- Every call of a run keeps to the discipline in the state it is made in. -/
def OwnedRun (growth : Growth) : Machine → List Operation → Prop
  | _, [] => True
  | machine, operation :: rest =>
      Owned machine operation ∧
        match machine.step growth operation with
        | some next => OwnedRun growth next rest
        | none => True

instance decidableOwnedRun (growth : Growth) :
    (machine : Machine) → (operations : List Operation) →
      Decidable (OwnedRun growth machine operations)
  | _, [] => isTrue trivial
  | machine, operation :: rest =>
      match stepped : machine.step growth operation with
      | some next =>
          have := decidableOwnedRun growth next rest
          decidable_of_iff (Owned machine operation ∧ OwnedRun growth next rest)
            (by rw [OwnedRun, stepped])
      | none => decidable_of_iff (Owned machine operation) (by simp [OwnedRun, stepped])

/-- An `append` onto an owning header writes below no manager's length. -/
theorem Owns.untouched {machine : Machine} {slice : Slice} (owns : Owns machine slice)
    {other : KeyManager} (member : other ∈ machine.managers) (items : List String) :
    slice.len + items.length ≤ slice.cap → items ≠ [] →
      other.prefixes.array = slice.array → other.prefixes.len ≤ slice.len :=
  fun fits nonempty same =>
    owns (by have := List.length_pos.mpr nonempty; omega) other member same

/-- An `append` onto the nil slice writes nothing in place. -/
theorem nil_untouched (items : List String) (other : Slice) :
    Slice.nil.len + items.length ≤ Slice.nil.cap → items ≠ [] →
      other.array = Slice.nil.array → other.len ≤ Slice.nil.len :=
  fun fits nonempty _ =>
    absurd (List.eq_nil_of_length_eq_zero (by simp only [Slice.nil] at fits; omega)) nonempty

/-! ## `KeepOdd` writes only into arrays it allocated -/

section KeepOdd

open SliceStore.Heap

variable (growth : Growth)

/-- Writing into an array past the prefix `base` keeps that prefix. -/
theorem write_extends {base heap : Heap} (grows : base.arrays <+: heap.arrays)
    {address : Nat} (beyond : base.arrays.length ≤ address) (start : Nat)
    (items : List String) : base.arrays <+: (heap.write address start items).arrays := by
  obtain ⟨rest, grown⟩ := grows
  unfold Heap.write
  rw [← grown, List.set_append_right _ _ beyond]
  exact List.prefix_append _ _

/-- The loop state of `KeepOdd` against the store `base` it started from. -/
structure Fresh (base : Heap) (state : Heap × KeyManager) : Prop where
  grows : base.arrays <+: state.1.arrays
  holds : state.1.Holds state.2.prefixes
  apart : state.2.prefixes.cap = 0 ∨ base.arrays.length ≤ state.2.prefixes.array

theorem Fresh.step {base : Heap} {state : Heap × KeyManager} (fresh : Fresh base state)
    (spreader : Slice) (index : Nat) : Fresh base (keepOddStep growth spreader state index) := by
  unfold keepOddStep
  split
  · have holds := holds_append growth [state.1.index spreader index] fresh.holds
    unfold append at holds ⊢
    by_cases fits :
        state.2.prefixes.len + [state.1.index spreader index].length ≤ state.2.prefixes.cap
    · rw [if_pos fits] at holds ⊢
      have beyond : base.arrays.length ≤ state.2.prefixes.array := by
        rcases fresh.apart with noRoom | beyond
        · simp only [List.length_singleton] at fits
          omega
        · exact beyond
      exact ⟨write_extends fresh.grows beyond _ _, holds, .inr beyond⟩
    · rw [if_neg fits] at holds ⊢
      exact ⟨fresh.grows.trans (push_extends _ _), holds, .inr fresh.grows.length_le⟩
  · exact fresh

theorem Fresh.foldl {base : Heap} (spreader : Slice) :
    ∀ (indices : List Nat) (state : Heap × KeyManager), Fresh base state →
      Fresh base (indices.foldl (keepOddStep growth spreader) state)
  | [], _, fresh => fresh
  | index :: rest, _, fresh => Fresh.foldl spreader rest _ (fresh.step growth spreader index)

/--
`KeepOdd` keeps the store it starts from as a prefix, writing into no older
array, and returns a header on none of its arrays.
-/
theorem keepOdd_fresh (heap : Heap) (keyer : KeyManager) :
    Fresh heap (keepOdd growth heap keyer) :=
  Fresh.foldl growth keyer.spread (List.range keyer.spread.len) (heap, ⟨.nil⟩)
    ⟨List.prefix_refl _, holds_nil heap, .inl rfl⟩

end KeepOdd

/-! ## Runs that keep to the discipline -/

section Runs

open SliceStore.Heap

variable {growth : Growth} {machine next : Machine}

/-- A call that keeps to the discipline only adds managers, and leaves what every manager shows. -/
theorem step_keeps {operation : Operation} (valid : machine.Valid)
    (owned : Owned machine operation) (stepped : machine.step growth operation = some next) :
    machine.managers <+: next.managers ∧
      ∀ manager ∈ machine.managers,
        next.heap.read manager.prefixes = machine.heap.read manager.prefixes := by
  cases operation with
  | newManager parts =>
      cases stepped
      exact ⟨List.prefix_append _ _, fun manager member =>
        ((valid manager member).of_extends (newManager_spec machine.heap parts).1).2⟩
  | newManagerSpread index length =>
      obtain ⟨target, -, sliced⟩ := Option.bind_eq_some.mp stepped
      obtain ⟨made, -, rfl⟩ := Option.map_eq_some'.mp sliced
      exact ⟨List.prefix_append _ _, fun _ _ => rfl⟩
  | managerWith index parts =>
      obtain ⟨target, found, rfl⟩ := Option.map_eq_some'.mp stepped
      exact ⟨List.prefix_append _ _, fun manager member =>
        read_append_other growth parts (valid target (List.getElem?_mem found))
          (valid manager member) ((owned.1 target found).untouched member parts)⟩
  | keyWith index parts =>
      obtain ⟨target, found, rfl⟩ := Option.map_eq_some'.mp stepped
      refine ⟨List.prefix_append _ _, fun manager member => ?_⟩
      have holds := valid target (List.getElem?_mem found)
      have otherHolds := valid manager member
      simp only [Machine.returning, With, KeyManager.With, KeyManager.spread]
      rw [read_append_other growth _ (holds_nil _) (otherHolds.append growth parts holds)
          (nil_untouched _ _),
        read_append_other growth parts holds otherHolds
          ((owned.1 target found).untouched member parts)]
  | key index delimiter parts =>
      obtain ⟨target, found, rfl⟩ := Option.map_eq_some'.mp stepped
      exact ⟨List.prefix_refl _, fun manager member =>
        read_append_other growth parts (valid target (List.getElem?_mem found))
          (valid manager member) ((owned.1 target found).untouched member parts)⟩
  | keepOdd index =>
      obtain ⟨target, -, rfl⟩ := Option.map_eq_some'.mp stepped
      exact ⟨List.prefix_append _ _, fun manager member =>
        ((valid manager member).of_extends (keepOdd_fresh growth _ target).grows).2⟩
  | spread index | spreadInterface index =>
      obtain ⟨target, -, rfl⟩ := Option.map_eq_some'.mp stepped
      exact ⟨List.prefix_refl _, fun _ _ => rfl⟩

end Runs

theorem valid_initial : Machine.initial.Valid :=
  fun _ absent => nomatch absent

/--
The calls that can return a header on their operand's array: the method
`With`, whose `append` writes in place when it fits, and `NewManager` on a
reslice of a `Spread`.
-/
def sharesOperand : Operation → Bool
  | .managerWith _ _ | .newManagerSpread _ _ => true
  | _ => false

/-- Two managers share no backing array: one has no capacity, or their arrays differ. -/
def Apart (first second : KeyManager) : Prop :=
  0 < first.prefixes.cap → 0 < second.prefixes.cap → first.prefixes.array ≠ second.prefixes.array

/-- No two managers of the machine share a backing array. -/
def Separate (machine : Machine) : Prop :=
  machine.managers.Pairwise Apart

section Separate

open SliceStore.Heap

variable {growth : Growth} {machine next : Machine}

theorem apart_symmetric : Symmetric Apart :=
  fun _ _ apart secondCap firstCap => (apart firstCap secondCap).symm

/-- A header with no capacity, or on an array allocated after `heap`, shares no array. -/
theorem apart_of_fresh {heap : Heap} {managers : List KeyManager}
    (valid : ∀ manager ∈ managers, heap.Holds manager.prefixes) {fresh : KeyManager}
    (beyond : fresh.prefixes.cap = 0 ∨ heap.arrays.length ≤ fresh.prefixes.array) :
    ∀ manager ∈ managers, Apart manager fresh := by
  intro manager member spare freshSpare same
  have := (valid manager member).array_lt_of_cap spare
  omega

theorem Separate.returning (separate : Separate machine) {result : Heap × KeyManager}
    (apart : ∀ manager ∈ machine.managers, Apart manager result.2) :
    Separate (machine.returning result) :=
  List.pairwise_append.mpr ⟨separate, List.pairwise_singleton _ _,
    fun manager member _ single => List.mem_singleton.mp single ▸ apart manager member⟩

theorem length_le_append (growth : Growth) (heap : Heap) (slice : Slice) (items : List String) :
    heap.arrays.length ≤ (append growth heap slice items).1.arrays.length := by
  unfold append
  split
  · simp [Heap.write]
  · simp [Heap.push]

/-- An `append` onto the nil slice returns a header without capacity or on a new array. -/
theorem append_nil_fresh (growth : Growth) (heap : Heap) (items : List String) :
    (append growth heap .nil items).2.cap = 0 ∨
      heap.arrays.length ≤ (append growth heap .nil items).2.array := by
  unfold append
  split
  · exact .inl rfl
  · exact .inr (le_refl _)

theorem newManager_fresh (heap : Heap) (parts : List String) :
    (newManager heap parts).2.prefixes.cap = 0 ∨
      heap.arrays.length ≤ (newManager heap parts).2.prefixes.array := by
  unfold newManager variadic
  split
  · exact .inl rfl
  · exact .inr (le_refl _)

/-- The package `With` ends with an `append` onto the nil slice: its result is fresh. -/
theorem With_fresh (growth : Growth) (heap : Heap) (keyer : KeyManager) (parts : List String) :
    (With growth heap keyer parts).2.prefixes.cap = 0 ∨
      heap.arrays.length ≤ (With growth heap keyer parts).2.prefixes.array := by
  let joined := append growth heap keyer.spread parts
  rcases append_nil_fresh growth joined.1 (joined.1.read joined.2) with noCap | beyond
  · exact .inl noCap
  · exact .inr ((length_le_append growth heap keyer.spread parts).trans beyond)

/-- With no manager sharing an array, every manager owns the spare capacity of its own. -/
theorem Separate.owns (valid : machine.Valid) (separate : Separate machine)
    {target : KeyManager} (member : target ∈ machine.managers) : Owns machine target.prefixes := by
  intro spare other otherMember same
  by_cases identical : other = target
  · rw [identical]
  · have noCap : other.prefixes.cap = 0 := by
      by_contra hasCap
      exact separate.forall apart_symmetric otherMember member identical (by omega) (by omega) same
    have := (valid other otherMember).1
    omega

theorem mem_operand {operation : Operation} {target : KeyManager}
    (found : target ∈ operand machine operation) : target ∈ machine.managers := by
  cases operation <;> simp only [operand, Option.mem_def, reduceCtorEq] at found <;>
    exact List.getElem?_mem found

/-- Apart managers own their spare capacity, and a call sharing no operand cuts no `Spread`. -/
theorem Separate.owned (valid : machine.Valid) (separate : Separate machine)
    {operation : Operation} (unshared : sharesOperand operation = false) :
    Owned machine operation := by
  refine ⟨fun target found => separate.owns valid (mem_operand found), fun cut found => ?_⟩
  cases operation <;> simp [resliced, sharesOperand] at found unshared

/-- Every call but those sharing their operand's array keeps the managers apart. -/
theorem Separate.step {operation : Operation} (valid : machine.Valid)
    (separate : Separate machine) (unshared : sharesOperand operation = false)
    (stepped : machine.step growth operation = some next) : Separate next := by
  cases operation with
  | newManager parts =>
      cases stepped
      exact separate.returning (apart_of_fresh valid (newManager_fresh _ parts))
  | newManagerSpread _ _ | managerWith _ _ => cases unshared
  | keyWith index parts =>
      obtain ⟨target, -, rfl⟩ := Option.map_eq_some'.mp stepped
      exact separate.returning (apart_of_fresh valid (With_fresh growth _ target parts))
  | keepOdd index =>
      obtain ⟨target, -, rfl⟩ := Option.map_eq_some'.mp stepped
      exact separate.returning (apart_of_fresh valid (keepOdd_fresh growth _ target).apart)
  | key index delimiter parts | spread index | spreadInterface index =>
      obtain ⟨target, -, rfl⟩ := Option.map_eq_some'.mp stepped
      exact separate

/-- A run without calls sharing their operand keeps the managers apart. -/
theorem Separate.run :
    ∀ {operations : List Operation} {machine next : Machine}, machine.Valid →
      Separate machine → (∀ operation ∈ operations, sharesOperand operation = false) →
      machine.run growth operations = some next → Separate next
  | [], _, _, _, separate, _, ran => by
      cases ran
      exact separate
  | operation :: rest, machine, next, valid, separate, unshared, ran => by
      simp only [Machine.run, Option.bind_eq_some] at ran
      obtain ⟨middle, stepped, ran⟩ := ran
      exact Separate.run (valid.step stepped)
        (separate.step valid (unshared operation (List.mem_cons_self _ _)) stepped)
        (fun other member => unshared other (List.mem_cons_of_mem _ member)) ran

end Separate

end DoNewsStd.Key.Ownership
