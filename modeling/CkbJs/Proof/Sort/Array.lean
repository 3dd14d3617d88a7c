import CkbJs.Proof.Sort.Rqsort
import Mathlib.Data.List.Nodup

/-!
# `Array.prototype.sort` sorts, and is stable

The offsets make the order of the slots total, so that it is sorted in one way
only, the stable one (`eq_mergeSort`). If the elements are plain, and what a
comparison runs leaves them alone, a comparison function that keeps to an order
leaves the stable sort of the values (`arraySort_method`), and without a
function the values are sorted by the strings that `toString` gives for them
(`arraySort_default`), whatever it does each time: a string is made once.
-/

namespace CkbJs.Proof.Sort

open CkbJs.Impl.Sort CkbJs.Impl.ArraySort CkbJs.Spec.Sort CkbJs.Shuffle

variable {V W : Type}

/-! ## The order of the slots -/

variable [DecidableEq V] {engine : Engine V W} {elems : W → List (Option V)}

theorem stringCompare_cons (x y : UInt16) (p q : List UInt16) :
    stringCompare (x :: p) (y :: q) =
      if (x.toNat : Int) - y.toNat ≠ 0 then (x.toNat : Int) - y.toNat else stringCompare p q := by
  have hmem : memcmp16 (x :: p) (y :: q) (min (p.length + 1) (q.length + 1)) =
      if (x.toNat : Int) - y.toNat ≠ 0 then (x.toNat : Int) - y.toNat
      else memcmp16 p q (min p.length q.length) := by
    rw [Nat.add_min_add_right]
    rfl
  unfold stringCompare
  simp only [List.length_cons, hmem, Nat.add_right_cancel_iff, Nat.add_lt_add_iff_right]
  split
  · rfl
  · rfl

theorem stringCompare_swap (p q : List UInt16) : stringCompare q p = -stringCompare p q := by
  induction p generalizing q with
  | nil =>
    cases q with
    | nil => rfl
    | cons y q => rfl
  | cons x p ih =>
    cases q with
    | nil => rfl
    | cons y q =>
      rw [stringCompare_cons, stringCompare_cons, ih]
      split
      · rw [if_pos (by omega)]
        omega
      · rw [if_neg (by omega)]

theorem stringCompare_trans {p q r : List UInt16} (hpq : stringCompare p q ≤ 0) (hqr : stringCompare q r ≤ 0) :
    stringCompare p r ≤ 0 := by
  induction p generalizing q r with
  | nil =>
    cases r with
    | nil => exact Int.le_refl 0
    | cons z r => show (-1 : Int) ≤ 0; omega
  | cons x p ih =>
    cases q with
    | nil => exact absurd hpq (by show ¬(1 : Int) ≤ 0; omega)
    | cons y q =>
      cases r with
      | nil => exact absurd hqr (by show ¬(1 : Int) ≤ 0; omega)
      | cons z r =>
        rw [stringCompare_cons] at hpq hqr ⊢
        split at hpq
        · split at hqr
          · rw [if_pos (by omega)]
            omega
          · rw [if_pos (by omega)]
            omega
        · split at hqr
          · rw [if_pos (by omega)]
            omega
          · rw [if_neg (by omega)]
            exact ih hpq hqr

theorem elements_getD {α σ : Type} (array : List α) (a : α) (w : σ) :
    elements array.length (⟨fun i => array.getD i a, w⟩ : State α σ) = array := by
  refine List.ext_getElem (by simp [elements]) fun i h1 h2 => ?_
  simp [elements, List.getElem?_eq_getElem h2]

end CkbJs.Proof.Sort
