import CkbJs.Impl.Sort

/-!
# `Array.prototype.sort`

`js_array_sort` of `quickjs.c`, once its object and its comparison function are
at hand. All code that it runs is a parameter, over a world that has the object
(`Engine`): an element may be an accessor, and a comparison may change the
object while it is sorted. The string that a slot keeps (`str`) is kept beside
the slots.
-/

namespace CkbJs.Impl.ArraySort

open CkbJs.Impl.Sort

/-- `ValueSlot`: a value, and where it comes from. -/
structure ValueSlot (V : Type) where
  val : V
  pos : Nat
  deriving DecidableEq

/-- The code that is run: `none` is an exception. -/
structure Engine (V W : Type) where
  undefined : V
  /-- `JS_ToString`, by its 16 bit units. -/
  toString : V → W → Option (List UInt16) × W
  /-- `js_get_length64` of the object. -/
  getLength : W → Option Nat × W
  /-- `JS_TryGetPropertyInt64` of the object: an element, if it is there. -/
  tryGetProperty : Nat → W → Option (Option V) × W
  /-- `JS_SetPropertyInt64` of the object. -/
  setProperty : Nat → V → W → Option Unit × W
  /-- `JS_DeletePropertyInt64` of the object. -/
  deleteProperty : Nat → W → Option Unit × W

/-- `struct array_sort_context`, with the strings of the slots. -/
structure Context {V W : Type} (engine : Engine V W) where
  exception : Bool
  str : ValueSlot V → Option (List UInt16)
  user : W
  /-- The strings are what `toString` gave. -/
  answered : ∀ slot text, str slot = some text → ∃ w w', engine.toString slot.val w = (some text, w')

/-- The context at the start, with no string. -/
def Context.start {V W : Type} (engine : Engine V W) (w : W) : Context engine :=
  ⟨false, fun _ => none, w, fun _ _ h => nomatch h⟩

/-- `memcmp16`: the first units that differ. -/
def memcmp16 : List UInt16 → List UInt16 → Nat → Int
  | a :: src1, b :: src2, len + 1 =>
    let c : Int := (a.toNat : Int) - b.toNat
    if c ≠ 0 then c else memcmp16 src1 src2 len
  | _, _, _ => 0

/-- `js_string_compare`. -/
def stringCompare (p1 p2 : List UInt16) : Int :=
  let res := memcmp16 p1 p2 (min p1.length p2.length)
  if res = 0 then
    if p1.length = p2.length then 0 else if p1.length < p2.length then -1 else 1
  else res

variable {V W : Type} [DecidableEq V] (engine : Engine V W)

/-- The second loop: the slots are stored from the index `n` on. -/
def store : Nat → List (ValueSlot V) → W → Option Unit × W
  | _, [], w => (some (), w)
  | n, slot :: array, w =>
    if slot.pos = n then store (n + 1) array w
    else
      match engine.setProperty n slot.val w with
      | (none, w) => (none, w)
      | (some (), w) => store (n + 1) array w

/-- What `js_array_sort` leaves: whether it threw, and the world. -/
structure Outcome (W : Type) where
  exception : Bool
  user : W

end CkbJs.Impl.ArraySort
