import Mathlib.Data.List.Pairwise

/-!
# Tilings of an interval

`Tiles addr size a l b`: the elements of `l`, each at its `addr` and as long as its
`size`, lie one after the other from `a` to `b`, without a gap. `Tiles.append` cuts a
tiling in two, `Tiles.mem` bounds an element, `Tiles.pairwise` says that an element
ends before the next ones begin, and `Tiles.eq_of_addr` that an address has one
element.
-/

namespace CkbJs

variable {α : Type*} {addr size : α → Nat}

def Tiles (addr size : α → Nat) (a : Nat) : List α → Nat → Prop
  | [], b => a = b
  | x :: l, b => addr x = a ∧ 0 < size x ∧ Tiles addr size (a + size x) l b

namespace Tiles

variable {a b : Nat} {x y : α} {l l₁ l₂ : List α}

theorem cons_iff : Tiles addr size a (x :: l) b ↔
    addr x = a ∧ 0 < size x ∧ Tiles addr size (a + size x) l b := Iff.rfl

theorem singleton_iff : Tiles addr size a [x] b ↔ addr x = a ∧ 0 < size x ∧ a + size x = b := Iff.rfl

theorem le (h : Tiles addr size a l b) : a ≤ b := by
  induction l generalizing a with
  | nil => exact Nat.le_of_eq h
  | cons x l ih =>
    have := ih h.2.2
    omega

/-- A tiling ends in one place. -/
theorem end_eq {b' : Nat} (h : Tiles addr size a l b) (h' : Tiles addr size a l b') : b = b' := by
  induction l generalizing a with
  | nil => exact (show a = b from h).symm.trans h'
  | cons x l ih => exact ih h.2.2 h'.2.2

theorem append : Tiles addr size a (l₁ ++ l₂) b ↔
    ∃ m, Tiles addr size a l₁ m ∧ Tiles addr size m l₂ b := by
  induction l₁ generalizing a with
  | nil => exact ⟨fun h => ⟨a, rfl, h⟩, fun ⟨m, hm, h⟩ => (show a = m from hm) ▸ h⟩
  | cons x l₁ ih =>
    simp only [List.cons_append, cons_iff, ih]
    constructor
    · rintro ⟨ha, hs, m, h₁, h₂⟩
      exact ⟨m, ⟨ha, hs, h₁⟩, h₂⟩
    · rintro ⟨m, ⟨ha, hs, h₁⟩, h₂⟩
      exact ⟨ha, hs, m, h₁, h₂⟩

/-- An element begins where the ones before it end. -/
theorem split : Tiles addr size a (l₁ ++ x :: l₂) b ↔
    Tiles addr size a l₁ (addr x) ∧ 0 < size x ∧ Tiles addr size (addr x + size x) l₂ b := by
  rw [append]
  constructor
  · rintro ⟨m, h₁, rfl, hs, h₂⟩
    exact ⟨h₁, hs, h₂⟩
  · rintro ⟨h₁, hs, h₂⟩
    exact ⟨addr x, h₁, rfl, hs, h₂⟩

theorem mem (h : Tiles addr size a l b) (hx : x ∈ l) : a ≤ addr x ∧ 0 < size x ∧ addr x + size x ≤ b := by
  obtain ⟨l₁, l₂, rfl⟩ := List.append_of_mem hx
  obtain ⟨h₁, hs, h₂⟩ := split.mp h
  exact ⟨h₁.le, hs, h₂.le⟩

theorem pairwise (h : Tiles addr size a l b) : l.Pairwise fun x y => addr x + size x ≤ addr y := by
  induction l generalizing a with
  | nil => exact List.Pairwise.nil
  | cons x l ih =>
    refine List.pairwise_cons.mpr ⟨fun y hy => ?_, ih h.2.2⟩
    have := (h.2.2.mem hy).1
    have := h.1
    omega

/-- Two elements are the same or lie apart. -/
theorem apart (h : Tiles addr size a l b) (hx : x ∈ l) (hy : y ∈ l) :
    x = y ∨ addr x + size x ≤ addr y ∨ addr y + size y ≤ addr x := by
  obtain ⟨l₁, l₂, rfl⟩ := List.append_of_mem hx
  obtain ⟨h₁, -, h₂⟩ := split.mp h
  rcases List.mem_append.mp hy with hy | hy
  · exact Or.inr (Or.inr (h₁.mem hy).2.2)
  · rcases List.mem_cons.mp hy with rfl | hy
    · exact Or.inl rfl
    · exact Or.inr (Or.inl (h₂.mem hy).1)

theorem eq_of_addr (h : Tiles addr size a l b) (hx : x ∈ l) (hy : y ∈ l) (he : addr x = addr y) :
    x = y := by
  have := (h.mem hx).2.1
  have := (h.mem hy).2.1
  rcases h.apart hx hy with h | h | h
  · exact h
  · omega
  · omega

theorem nodup (h : Tiles addr size a l b) : l.Nodup := by
  refine h.pairwise.imp_of_mem fun {x y} hx _ hxy he => ?_
  have := (h.mem hx).2.1
  rw [← he] at hxy
  omega

end Tiles

end CkbJs
