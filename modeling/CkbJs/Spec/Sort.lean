import CkbJs.Impl.ArraySort

/-!
# What sorting is for

A comparison function follows an order when its answers do, up to a point from
which on the world is no longer good: a function that fails goes on with
answers that mean nothing. Of an object with plain elements (`Plain`),
`Array.prototype.sort` leaves the sorted values in front (`layout`).
-/

namespace CkbJs.Spec.Sort

open CkbJs.Impl.Sort CkbJs.Impl.ArraySort CkbJs.Shuffle

variable {α σ : Type}

/-- While the world stays good, the answers are those of the preorder `le`. -/
structure Follows (cmp : α → α → σ → Int × σ) (le : α → α → Prop) (good : σ → Prop) : Prop where
  refl : ∀ a, le a a
  trans : ∀ a b c, le a b → le b c → le a c
  good_of : ∀ a b w, good (cmp a b w).2 → good w
  nonpos : ∀ a b w, good (cmp a b w).2 → ((cmp a b w).1 ≤ 0 ↔ le a b)
  nonneg : ∀ a b w, good (cmp a b w).2 → (0 ≤ (cmp a b w).1 ↔ le b a)

/-- The first `n` elements, as a list. -/
def elements (n : Nat) (s : State α σ) : List α := (List.range n).map s.elems

/-! ## `Array.prototype.sort` -/

variable {V W : Type}

/-- The object has plain elements, `elems` of the world: to read, set and delete
one runs no code and does not fail. -/
structure Plain (engine : Engine V W) (elems : W → List (Option V)) : Prop where
  getLength : ∀ w, engine.getLength w = (some (elems w).length, w)
  tryGetProperty : ∀ w i, i < (elems w).length →
    engine.tryGetProperty i w = (some ((elems w).getD i none), w)
  setProperty : ∀ w i v, i < (elems w).length →
    ∃ w', engine.setProperty i v w = (some (), w') ∧ elems w' = (elems w).set i (some v)
  deleteProperty : ∀ w i, i < (elems w).length →
    ∃ w', engine.deleteProperty i w = (some (), w') ∧ elems w' = (elems w).set i none

/-- The code does not touch the elements of the object. -/
def Leaves {α : Type} (elems : W → List (Option V)) (code : W → α × W) : Prop :=
  ∀ w, elems (code w).2 = elems w

variable [DecidableEq V]

/-- The values that are sorted: those that are there and not undefined. -/
def values (engine : Engine V W) (obj : List (Option V)) : List V :=
  (obj.filterMap id).filter fun v => v ≠ engine.undefined

/-- The sorted values, then the undefined ones, then what is missing. -/
def layout (engine : Engine V W) (obj : List (Option V)) (sorted : List V) : List (Option V) :=
  sorted.map some ++ List.replicate ((obj.filterMap id).count engine.undefined) (some engine.undefined) ++
    List.replicate (obj.length - (obj.filterMap id).length) none

end CkbJs.Spec.Sort
