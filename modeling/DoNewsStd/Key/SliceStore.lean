import Mathlib.Data.List.Infix

/-!
# Go slices over a store of backing arrays

A slice is a header: the address of a backing array, a length and a capacity.
The store holds every backing array allocated so far, each as the list of its
cells, as long as its capacity.  `append(s, items...)` writes in place into
`s`'s array when the new length fits its capacity; otherwise it allocates a
fresh array, copies `s` and `items` into it, and takes the capacity the
runtime's growth policy gives, which may exceed the new length.

The growth policy belongs to the runtime, not to this repository, so it is a
parameter.  `Growth.exact` never leaves room; `Growth.doubling` is what
`growslice` does for the small string slices of package key.

The spec of `append`: the new header reads as the old one followed by
`items`, the operand reads as before, and when the operand has no spare
capacity the store only grows.
-/

namespace DoNewsStd.Key.SliceStore

/-- A growth policy: the capacity of the array a growing `append` allocates,
from the old capacity and the length needed. -/
structure Growth where
  newCap : Nat → Nat → Nat
  needed_le : ∀ oldCap needed, needed ≤ newCap oldCap needed

/-- A fresh array exactly as long as the length needed. -/
def Growth.exact : Growth :=
  ⟨fun _ needed => needed, fun _ _ => le_refl _⟩

/--
`growslice` below its threshold: twice the old capacity, or the length needed
when that is more.  For slices of a few strings the size-class rounding that
follows changes nothing.
-/
def Growth.doubling : Growth :=
  ⟨fun oldCap needed => if 2 * oldCap < needed then needed else 2 * oldCap,
    fun oldCap needed => by dsimp only; split <;> omega⟩

/-- A slice header. -/
structure Slice where
  array : Nat
  len : Nat
  cap : Nat
  deriving DecidableEq, Repr

/-- The nil slice: no array, no length, no capacity. -/
def Slice.nil : Slice :=
  ⟨0, 0, 0⟩

/-- `s[:length]`: the same array up to a new length; `none` past the capacity, where Go panics. -/
def Slice.reslice (slice : Slice) (length : Nat) : Option Slice :=
  if length ≤ slice.cap then some { slice with len := length } else none

/-- The backing arrays allocated so far, by address. -/
structure Heap where
  arrays : List (List String)
  deriving DecidableEq, Repr

namespace Heap

/-- The cells of the array at `address`. -/
def cells (heap : Heap) (address : Nat) : List String :=
  heap.arrays.getD address []

/-- The elements a slice shows: the first `len` cells of its array. -/
def read (heap : Heap) (slice : Slice) : List String :=
  (heap.cells slice.array).take slice.len

/-- `s[i]` for an index below the length. -/
def index (heap : Heap) (slice : Slice) (position : Nat) : String :=
  (heap.cells slice.array).getD position ""

/-- Overwrite the cells from `start` on of the array at `address` by `items`. -/
def write (heap : Heap) (address start : Nat) (items : List String) : Heap :=
  ⟨heap.arrays.set address
    ((heap.cells address).take start ++ items ++
      (heap.cells address).drop (start + items.length))⟩

/-- Allocate a new array after the existing ones. -/
def push (heap : Heap) (cells : List String) : Heap :=
  ⟨heap.arrays ++ [cells]⟩

/-- A header fits the store: length within capacity, capacity within its array. -/
def Holds (heap : Heap) (slice : Slice) : Prop :=
  slice.len ≤ slice.cap ∧ slice.cap ≤ (heap.cells slice.array).length

instance (heap : Heap) (slice : Slice) : Decidable (heap.Holds slice) :=
  inferInstanceAs (Decidable (_ ∧ _))

end Heap

/-- `append(slice, items...)`. -/
def append (growth : Growth) (heap : Heap) (slice : Slice) (items : List String) :
    Heap × Slice :=
  if slice.len + items.length ≤ slice.cap then
    (heap.write slice.array slice.len items, { slice with len := slice.len + items.length })
  else
    let cap := growth.newCap slice.cap (slice.len + items.length)
    (heap.push (heap.read slice ++ items ++ List.replicate (cap - (slice.len + items.length)) ""),
      ⟨heap.arrays.length, slice.len + items.length, cap⟩)

/--
The slice a variadic parameter receives from the arguments `parts`: nil for
none, otherwise a new array holding exactly them.
-/
def variadic (heap : Heap) (parts : List String) : Heap × Slice :=
  if parts = [] then (heap, .nil)
  else (heap.push parts, ⟨heap.arrays.length, parts.length, parts.length⟩)

/-! ## Writing in place -/

namespace Heap

theorem cells_write (heap : Heap) (address start other : Nat) (items : List String) :
    (heap.write address start items).cells other =
      if other = address then
        (if address < heap.arrays.length then
          (heap.cells address).take start ++ items ++
            (heap.cells address).drop (start + items.length)
        else [])
      else heap.cells other := by
  simp only [cells, write, List.getD_eq_getElem?_getD, List.getElem?_set]
  by_cases same : other = address
  · subst same
    by_cases inRange : other < heap.arrays.length <;> simp [inRange]
  · simp [same, Ne.symm same]

theorem length_cells_write {heap : Heap} {address start : Nat} {items : List String}
    (fits : start + items.length ≤ (heap.cells address).length) (other : Nat) :
    ((heap.write address start items).cells other).length = (heap.cells other).length := by
  rw [cells_write]
  split
  · rename_i same
    subst same
    split
    · simp only [List.length_append, List.length_take, List.length_drop]
      omega
    · rename_i outside
      simp [cells, List.getD_eq_getElem?_getD, List.getElem?_eq_none (Nat.le_of_not_lt outside)]
  · rfl

theorem Holds.write {heap : Heap} {address start : Nat} {items : List String} {slice : Slice}
    (fits : start + items.length ≤ (heap.cells address).length) (holds : heap.Holds slice) :
    (heap.write address start items).Holds slice := by
  refine ⟨holds.1, ?_⟩
  rw [length_cells_write fits]
  exact holds.2

/-- A write from the end of a slice on leaves what the slice shows alone. -/
theorem read_write_of_le {heap : Heap} {address start : Nat} {items : List String}
    {slice : Slice} (fits : start ≤ (heap.cells address).length)
    (below : slice.array = address → slice.len ≤ start) :
    (heap.write address start items).read slice = heap.read slice := by
  simp only [read, cells_write]
  split
  · rename_i same
    have short := below same
    subst same
    split
    · rw [List.take_append_of_le_length
        (by simp only [List.length_append, List.length_take]; omega),
        List.take_append_of_le_length (by simp only [List.length_take]; omega), List.take_take,
        Nat.min_eq_left short]
    · rename_i outside
      simp [cells, List.getD_eq_getElem?_getD, List.getElem?_eq_none (Nat.le_of_not_lt outside)]
  · rfl

/-- Writing nothing changes nothing. -/
theorem write_nil (heap : Heap) (address start : Nat) : heap.write address start [] = heap := by
  obtain ⟨arrays⟩ := heap
  simp only [write, cells, List.append_nil, List.length_nil, Nat.add_zero, List.take_append_drop,
    Heap.mk.injEq]
  apply List.ext_getElem?
  intro other
  rw [List.getElem?_set]
  split
  · rename_i same
    subst same
    by_cases inRange : address < arrays.length
    · simp [List.getElem?_eq_getElem inRange, inRange]
    · simp [inRange, List.getElem?_eq_none (Nat.le_of_not_lt inRange)]
  · rfl

theorem length_read (heap : Heap) {slice : Slice} (holds : heap.Holds slice) :
    (heap.read slice).length = slice.len := by
  simp only [read, List.length_take]
  exact Nat.min_eq_left (holds.1.trans holds.2)

/-- The in-place branch of `append`: the longer header shows the old elements
and then `items`. -/
theorem read_write_extend {heap : Heap} {slice : Slice} {items : List String}
    (holds : heap.Holds slice) (fits : slice.len + items.length ≤ slice.cap) :
    (heap.write slice.array slice.len items).read { slice with len := slice.len + items.length } =
      heap.read slice ++ items := by
  rw [read, cells_write, if_pos rfl]
  by_cases inRange : slice.array < heap.arrays.length
  · have long : slice.len ≤ (heap.cells slice.array).length := by
      have := holds.2
      omega
    rw [if_pos inRange, List.take_append_eq_append_take, List.take_of_length_le
      (by simp only [List.length_append, List.length_take]; omega),
      List.length_append, List.length_take, Nat.min_eq_left long]
    simp [read]
  · have empty : heap.cells slice.array = [] := by
      simp [cells, List.getD_eq_getElem?_getD, List.getElem?_eq_none (Nat.le_of_not_lt inRange)]
    have := holds.2
    rw [empty, List.length_nil] at this
    have noItems : items = [] := List.eq_nil_of_length_eq_zero (by omega)
    subst noItems
    simp [read, empty, if_neg inRange]

/-- A header with capacity points at an allocated array. -/
theorem Holds.array_lt_of_cap {heap : Heap} {slice : Slice} (holds : heap.Holds slice)
    (spare : 0 < slice.cap) : slice.array < heap.arrays.length := by
  by_contra outside
  have empty : heap.cells slice.array = [] := by
    simp [cells, List.getD_eq_getElem?_getD, List.getElem?_eq_none (Nat.le_of_not_lt outside)]
  have := holds.2
  rw [empty, List.length_nil] at this
  omega

/-- A valid header that shows something lives in an allocated array. -/
theorem Holds.array_lt {heap : Heap} {slice : Slice} (holds : heap.Holds slice)
    (nonempty : 0 < slice.len) : slice.array < heap.arrays.length :=
  holds.array_lt_of_cap (Nat.lt_of_lt_of_le nonempty holds.1)

/-- `s[i]` below the length is the `i`-th element the slice shows. -/
theorem index_eq_getD_read (heap : Heap) {slice : Slice} {position : Nat}
    (inside : position < slice.len) :
    heap.index slice position = (heap.read slice).getD position "" := by
  simp only [index, read, List.getD_eq_getElem?_getD, List.getElem?_take_of_lt inside]

theorem holds_nil (heap : Heap) : heap.Holds .nil :=
  ⟨le_refl 0, Nat.zero_le _⟩

@[simp]
theorem read_nil (heap : Heap) : heap.read .nil = [] :=
  rfl

theorem reslice_of_le {slice : Slice} {length : Nat} (fits : length ≤ slice.cap) :
    slice.reslice length = some { slice with len := length } :=
  if_pos fits

theorem Holds.reslice {heap : Heap} {slice resliced : Slice} {length : Nat}
    (holds : heap.Holds slice) (found : slice.reslice length = some resliced) :
    heap.Holds resliced := by
  unfold Slice.reslice at found
  split at found
  · cases found
    exact ⟨‹_›, holds.2⟩
  · cases found

/-- A reslice within the length shows the first elements of the slice. -/
theorem read_reslice (heap : Heap) {slice : Slice} {length : Nat} (within : length ≤ slice.len) :
    heap.read { slice with len := length } = (heap.read slice).take length := by
  simp only [read, List.take_take, Nat.min_eq_left within]

/-! ## A store that only grows -/

theorem cells_of_extends {heap grown : Heap} (grows : heap.arrays <+: grown.arrays)
    {address : Nat} (inRange : address < heap.arrays.length) :
    grown.cells address = heap.cells address := by
  obtain ⟨rest, equal⟩ := grows
  simp only [cells, List.getD_eq_getElem?_getD, ← equal,
    List.getElem?_append_left inRange]

theorem Holds.of_extends {heap grown : Heap} (grows : heap.arrays <+: grown.arrays)
    {slice : Slice} (holds : heap.Holds slice) :
    grown.Holds slice ∧ grown.read slice = heap.read slice := by
  by_cases inRange : slice.array < heap.arrays.length
  · simp only [Holds, read, cells_of_extends grows inRange, and_true]
    exact holds
  · have empty : heap.cells slice.array = [] := by
      simp [cells, List.getD_eq_getElem?_getD, List.getElem?_eq_none (Nat.le_of_not_lt inRange)]
    have := holds.2
    rw [empty, List.length_nil] at this
    refine ⟨⟨holds.1, by omega⟩, ?_⟩
    simp only [read, empty, show slice.len = 0 by have := holds.1; omega, List.take_zero]

theorem push_extends (heap : Heap) (cells : List String) :
    heap.arrays <+: (heap.push cells).arrays :=
  List.prefix_append _ _

theorem cells_push_self (heap : Heap) (cells : List String) :
    (heap.push cells).cells heap.arrays.length = cells := by
  simp [push, Heap.cells, List.getD_eq_getElem?_getD]

end Heap

/-! ## The spec of `append` -/

section Append

open Heap

variable (growth : Growth) {heap : Heap} {slice : Slice} (items : List String)

/-- The result of `append` shows the operand's elements followed by `items`. -/
theorem read_append (holds : heap.Holds slice) :
    (append growth heap slice items).1.read (append growth heap slice items).2 =
      heap.read slice ++ items := by
  unfold append
  split
  · exact read_write_extend holds ‹_›
  · rw [Heap.read, cells_push_self, List.append_assoc, List.take_append_eq_append_take,
      List.take_of_length_le (by simp [length_read heap holds]), length_read heap holds]
    simp

theorem holds_append (holds : heap.Holds slice) :
    (append growth heap slice items).1.Holds (append growth heap slice items).2 := by
  unfold append
  split
  · rename_i fits
    refine ⟨fits, ?_⟩
    rw [length_cells_write (by have := holds.2; omega)]
    exact holds.2
  · refine ⟨growth.needed_le _ _, ?_⟩
    simp only [cells_push_self, List.length_append, List.length_replicate,
      length_read heap holds]
    have := growth.needed_le slice.cap (slice.len + items.length)
    omega

theorem Heap.Holds.append {other : Slice} (otherHolds : heap.Holds other)
    (holds : heap.Holds slice) :
    (SliceStore.append growth heap slice items).1.Holds other := by
  unfold SliceStore.append
  split
  · exact otherHolds.write (by have := holds.2; omega)
  · exact (otherHolds.of_extends (push_extends heap _)).1

/--
`append` leaves what any valid header shows alone, unless it writes in place
into that header's array below the header's length.
-/
theorem read_append_other {other : Slice} (holds : heap.Holds slice)
    (otherHolds : heap.Holds other)
    (untouched : slice.len + items.length ≤ slice.cap → items ≠ [] →
      other.array = slice.array → other.len ≤ slice.len) :
    (append growth heap slice items).1.read other = heap.read other := by
  unfold append
  split
  · rename_i fits
    by_cases noItems : items = []
    · subst noItems
      rw [Heap.write_nil]
    · exact read_write_of_le (by have := holds.2; omega) (untouched fits noItems)
  · exact (otherHolds.of_extends (push_extends heap _)).2

/-- The operand of `append` shows what it showed before. -/
theorem read_append_operand (holds : heap.Holds slice) :
    (append growth heap slice items).1.read slice = heap.read slice :=
  read_append_other growth items holds holds fun _ _ _ => le_refl _

/-- On a header without spare capacity, `append` only allocates. -/
theorem append_extends_of_full (full : slice.len = slice.cap) :
    heap.arrays <+: (append growth heap slice items).1.arrays := by
  unfold append
  split
  · rename_i fits
    have noItems : items = [] := List.eq_nil_of_length_eq_zero (by omega)
    subst noItems
    rw [Heap.write_nil]
  · exact push_extends heap _

/-- With exact growth, `append` on a full header returns a full header. -/
theorem full_append_exact (full : slice.len = slice.cap) :
    (append .exact heap slice items).2.len = (append .exact heap slice items).2.cap := by
  unfold append
  split
  · simp only
    omega
  · rfl

end Append

end DoNewsStd.Key.SliceStore
