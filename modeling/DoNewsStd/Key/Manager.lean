import Mathlib.Data.List.Basic

/-!
# Package key, read with value semantics

A `KeyManager` holds the labels `Prefixes`.  This module reads every slice of
package key as the sequence of labels it shows when it is used, which is what
each function computes from its arguments at the moment it runs.  Whether
those sequences stay put afterwards is a question about the backing arrays
Go's `append` shares, and is settled in `DoNewsStd.Key.Aliasing` over the
slice store of `DoNewsStd.Key.SliceStore`.

A `contract.Keyer` is observed only through `Spread()`; a `KeyManager` with
the same labels stands for it.

`KeepOdd` keeps the labels at odd indices.  Its loop is proved to compute
`oddIndexed`, and the labels `With` adds after a sequence of odd length shift
parity.
-/

namespace DoNewsStd.Key.Manager

/-- `KeyManager` manages the labels for log, metrics, tracing, kv store. -/
structure KeyManager where
  prefixes : List String
  deriving DecidableEq, Repr

/-- `NewManager` constructs a `KeyManager` from alternating key values. -/
def newManager (parts : List String) : KeyManager :=
  ⟨parts⟩

namespace KeyManager

/-- `Key` joins the labels and then `parts` with `delimiter`, as `strings.Join`. -/
def key (manager : KeyManager) (delimiter : String) (parts : List String) : String :=
  String.intercalate delimiter (manager.prefixes ++ parts)

/-- `Spread` returns all labels. -/
def spread (manager : KeyManager) : List String :=
  manager.prefixes

/-- `With` returns a new `KeyManager` with added alternating key values. -/
def With (manager : KeyManager) (parts : List String) : KeyManager :=
  ⟨manager.prefixes ++ parts⟩

end KeyManager

/--
The package function `With(k, parts...)`: the labels of `k` followed by
`parts`, handed to `KeyManager{}.With`.
-/
def With (keyer : KeyManager) (parts : List String) : KeyManager :=
  KeyManager.With ⟨[]⟩ (keyer.spread ++ parts)

/-- `SpreadInterface` copies the labels one by one into a fresh slice. -/
def spreadInterface (keyer : KeyManager) : List String :=
  (List.range keyer.spread.length).map (keyer.spread.getD · "")

/-- One iteration `if i%2 == 1 { km.Prefixes = append(km.Prefixes, spreader[i]) }`. -/
def keepOddStep (spreader : List String) (kept : KeyManager) (index : Nat) : KeyManager :=
  if index % 2 = 1 then ⟨kept.prefixes ++ [spreader.getD index ""]⟩ else kept

/-- `KeepOdd` only retains the labels at odd indices. -/
def keepOdd (keyer : KeyManager) : KeyManager :=
  (List.range keyer.spread.length).foldl (keepOddStep keyer.spread) ⟨[]⟩

/-! ## Labels by parity -/

/-- The labels whose index is odd, when the first one has index `first`. -/
def oddFrom (first : Nat) : List String → List String
  | [] => []
  | label :: rest => (if first % 2 = 1 then [label] else []) ++ oddFrom (first + 1) rest

/-- The labels at indices 1, 3, 5, ... -/
def oddIndexed (labels : List String) : List String :=
  oddFrom 0 labels

/-- The labels at indices 0, 2, 4, ... -/
def evenIndexed (labels : List String) : List String :=
  oddFrom 1 labels

theorem oddFrom_append (first : Nat) (front back : List String) :
    oddFrom first (front ++ back) = oddFrom first front ++ oddFrom (first + front.length) back := by
  induction front generalizing first with
  | nil => simp [oddFrom]
  | cons label rest ih =>
      rw [List.cons_append, oddFrom, oddFrom, ih, List.append_assoc, List.length_cons,
        show first + (rest.length + 1) = first + 1 + rest.length by omega]

/-- Only the parity of the first index matters. -/
theorem oddFrom_mod_two (first : Nat) (labels : List String) :
    oddFrom first labels = oddFrom (first % 2) labels := by
  induction labels generalizing first with
  | nil => rfl
  | cons label rest ih =>
      rw [oddFrom, oddFrom, Nat.mod_mod, ih (first + 1), ih (first % 2 + 1),
        show (first % 2 + 1) % 2 = (first + 1) % 2 by omega]

theorem length_oddFrom (first : Nat) (labels : List String) :
    (oddFrom first labels).length = (labels.length + first % 2) / 2 := by
  induction labels generalizing first with
  | nil => simp only [oddFrom, List.length_nil]; omega
  | cons label rest ih =>
      simp only [oddFrom, List.length_append, ih, List.length_cons]
      split <;> simp only [List.length_singleton, List.length_nil] <;> omega

/-- Pairs spread as `k1, v1, ..., kn, vn`. -/
def alternate : List (String × String) → List String
  | [] => []
  | (key, value) :: rest => key :: value :: alternate rest

theorem oddIndexed_alternate (pairs : List (String × String)) :
    oddIndexed (alternate pairs) = pairs.map Prod.snd := by
  induction pairs with
  | nil => rfl
  | cons pair rest ih =>
      obtain ⟨key, value⟩ := pair
      rw [alternate, oddIndexed, oddFrom, oddFrom, oddFrom_mod_two (0 + 1 + 1)]
      simpa [oddIndexed] using ih

/-! ## The loop of `KeepOdd` -/

theorem foldl_keepOddStep (spreader : List String) (count : Nat) :
    ∀ (start : Nat) (kept : KeyManager), start + count = spreader.length →
      (List.range' start count).foldl (keepOddStep spreader) kept =
        ⟨kept.prefixes ++ oddFrom start (spreader.drop start)⟩ := by
  induction count with
  | zero =>
      intro start kept atEnd
      have exhausted : spreader.drop start = [] := List.drop_eq_nil_of_le (by omega)
      cases kept
      simp [exhausted, oddFrom]
  | succ count ih =>
      intro start kept fits
      have bound : start < spreader.length := by omega
      rw [List.range'_succ, List.foldl_cons, ih (start + 1) _ (by omega),
        List.drop_eq_getElem_cons bound]
      by_cases odd : start % 2 = 1 <;>
        simp [keepOddStep, oddFrom, odd, List.getElem?_eq_getElem bound]

/-- `KeepOdd` keeps exactly the labels at odd indices. -/
theorem keepOdd_spread (keyer : KeyManager) :
    (keepOdd keyer).spread = oddIndexed keyer.spread := by
  simp [keepOdd, List.range_eq_range', foldl_keepOddStep, oddIndexed, KeyManager.spread]

/--
`KeepOdd` after `With` keeps the odd labels of the keyer, then the labels of
`parts` whose index in the whole sequence is odd: the odd-indexed ones after a
sequence of even length, the even-indexed ones after one of odd length.
-/
theorem keepOdd_With (keyer : KeyManager) (parts : List String) :
    (keepOdd (With keyer parts)).spread =
        (keepOdd keyer).spread ++
          (if keyer.spread.length % 2 = 0 then oddIndexed parts else evenIndexed parts) ∧
      (keepOdd keyer).spread = oddIndexed keyer.spread ∧
      (keepOdd keyer).spread.length = keyer.spread.length / 2 ∧
      ∀ pairs : List (String × String),
        (keepOdd (newManager (alternate pairs))).spread = pairs.map Prod.snd := by
  refine ⟨?_, keepOdd_spread keyer, ?_, fun pairs => ?_⟩
  · rw [keepOdd_spread, keepOdd_spread]
    simp only [With, KeyManager.With, KeyManager.spread, List.nil_append, oddIndexed,
      oddFrom_append, Nat.zero_add, evenIndexed]
    rw [oddFrom_mod_two keyer.prefixes.length]
    split <;> rename_i parity
    · rw [parity]
    · rw [Nat.mod_two_ne_zero.mp parity]
  · rw [keepOdd_spread, oddIndexed, length_oddFrom]
    rfl
  · rw [keepOdd_spread]
    exact oddIndexed_alternate pairs

end DoNewsStd.Key.Manager
