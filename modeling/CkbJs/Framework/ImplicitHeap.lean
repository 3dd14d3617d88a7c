import CkbJs.Framework.Shuffle

/-!
# Heaps in arrays

In the array from `b` on, the children of the element `k` are `2 * k + 1` and
`2 * k + 2`. `HeapFrom le b n lo a`: every element from `lo` on is at least as
large as its children below `n`. `Sifting le b n lo r a`: so it is, except that
the element `r` may be smaller than its children. The element sinks by
`Sifting.move` until `Sifting.done` applies, and the root of a heap is its
maximum (`HeapFrom.le_root`).
-/

namespace CkbJs.ImplicitHeap

open CkbJs.Shuffle

variable {α : Type*} {le : α → α → Prop} {b n lo r c k : Nat} {a : Nat → α}

/-- `c` is a child of `k`. -/
def IsChild (c k : Nat) : Prop := c = 2 * k + 1 ∨ c = 2 * k + 2

theorem IsChild.lt (h : IsChild c k) : k < c := by
  unfold IsChild at h
  omega

theorem IsChild.parent_eq {k' : Nat} (h : IsChild c k) (h' : IsChild c k') : k = k' := by
  unfold IsChild at h h'
  omega

/-- The elements from `lo` on are at least as large as their children. -/
def HeapFrom (le : α → α → Prop) (b n lo : Nat) (a : Nat → α) : Prop :=
  ∀ k c, lo ≤ k → IsChild c k → c < n → le (a (b + c)) (a (b + k))

/-- A heap, except that the element `r` may be smaller than its children. -/
structure Sifting (le : α → α → Prop) (b n lo r : Nat) (a : Nat → α) : Prop where
  others : ∀ k c, lo ≤ k → k ≠ r → IsChild c k → c < n → le (a (b + c)) (a (b + k))
  grand : ∀ k c, lo ≤ k → IsChild r k → IsChild c r → c < n → le (a (b + c)) (a (b + k))

/-- The second half has no children. -/
theorem heapFrom_half (le : α → α → Prop) (b n : Nat) (a : Nat → α) : HeapFrom le b n (n / 2) a := by
  intro k c hk hc hn
  unfold IsChild at hc
  omega

/-- One more element is put in front of the heap. -/
theorem HeapFrom.sifting (h : HeapFrom le b n (r + 1) a) : Sifting le b n r r a where
  others k c hk hne hc hn := h k c (by omega) hc hn
  grand k c hk hr _ _ := absurd hr.lt (by omega)

theorem Sifting.done (h : Sifting le b n lo r a)
    (hr : ∀ c, IsChild c r → c < n → le (a (b + c)) (a (b + r))) : HeapFrom le b n lo a := by
  intro k c hk hc hn
  by_cases hkr : k = r
  · rw [hkr] at hc ⊢
    exact hr c hc hn
  · exact h.others k c hk hkr hc hn

/-- The element `r` changes places with its largest child. -/
theorem Sifting.move (h : Sifting le b n lo r a) (hlo : lo ≤ r) (hc : IsChild c r) (hn : c < n)
    (hmax : ∀ s, IsChild s r → s < n → le (a (b + s)) (a (b + c))) (hle : le (a (b + r)) (a (b + c))) :
    Sifting le b n lo c (swapped a (b + r) (b + c)) := by
  have hrc := hc.lt
  constructor
  · intro k s hk hkc hs hsn
    have hks := hs.lt
    by_cases hkr : k = r
    · -- below the child that has moved up
      rw [hkr, swapped_left]
      by_cases hsc : s = c
      · rw [hsc, swapped_right]
        exact hle
      · rw [swapped_of_ne a (by omega) (by omega)]
        exact hmax s (hkr ▸ hs) hsn
    · rw [swapped_of_ne a (k := b + k) (by omega) (by omega)]
      by_cases hsr : s = r
      · rw [hsr, swapped_left]
        exact h.grand k c hk (hsr ▸ hs) hc hn
      · have hsc : s ≠ c := fun heq => hkr ((heq ▸ hs).parent_eq hc)
        rw [swapped_of_ne a (by omega) (by omega)]
        exact h.others k s hk hkr hs hsn
  · intro k s hk hck hsc hsn
    have hcs := hsc.lt
    rw [← hc.parent_eq hck, swapped_left, swapped_of_ne a (by omega) (by omega)]
    exact h.others c s (by omega) (by omega) hsc hsn

/-- The root is the maximum. -/
theorem HeapFrom.le_root (htrans : ∀ x y z, le x y → le y z → le x z) (hrefl : ∀ x, le x x)
    (h : HeapFrom le b n 0 a) (hk : k < n) : le (a (b + k)) (a b) := by
  induction k using Nat.strong_induction_on with
  | _ k ih =>
    by_cases hk0 : k = 0
    · rw [hk0]
      exact hrefl _
    · have hc : IsChild k ((k - 1) / 2) := by unfold IsChild; omega
      have hp := hc.lt
      exact htrans _ _ _ (h _ k (Nat.zero_le _) hc hk) (ih _ hp (by omega))

/-- The maximum changes places with the last element, and the others are the
heap but for the root. -/
theorem HeapFrom.pop (h : HeapFrom le b (n + 1) 0 a) : Sifting le b n 0 0 (swapped a b (b + n)) where
  others k c _ hk hc hn := by
    have hkc := hc.lt
    rw [swapped_of_ne a (by omega) (by omega), swapped_of_ne a (by omega) (by omega)]
    exact h k c (Nat.zero_le k) hc (by omega)
  grand k _ _ hk _ _ := absurd hk.lt (Nat.not_lt_zero k)

end CkbJs.ImplicitHeap
