import Mathlib.Data.List.Basic

/-!
# Cursors

A `Cursor` is a position in a list, `before` and `rest` are the two parts of the list. `read n`
is the next `n` items, or what is left, and `advance n` goes past them, so that what has been
read is always the part before (`before_advance`). The cursor is at its end exactly if the part
before is the whole list (`before_eq_iff`).
-/

namespace CkbJs

structure Cursor (α : Type*) where
  items : List α
  pos : Nat
  pos_le : pos ≤ items.length

namespace Cursor

variable {α : Type*}

def start (items : List α) : Cursor α := ⟨items, 0, Nat.zero_le _⟩

def before (c : Cursor α) : List α := c.items.take c.pos

def rest (c : Cursor α) : List α := c.items.drop c.pos

/-- The next `n` items, or what is left. -/
def read (c : Cursor α) (n : Nat) : List α := c.rest.take n

def advance (c : Cursor α) (n : Nat) : Cursor α :=
  ⟨c.items, c.pos + min n (c.items.length - c.pos), by have := c.pos_le; omega⟩

@[simp] theorem before_start (items : List α) : (start items).before = [] := rfl

@[simp] theorem items_start (items : List α) : (start items).items = items := rfl

theorem pos_advance (c : Cursor α) (n : Nat) :
    (c.advance n).pos = c.pos + min n (c.items.length - c.pos) := rfl

theorem length_read (c : Cursor α) (n : Nat) : (c.read n).length = min n (c.items.length - c.pos) := by
  rw [read, rest, List.length_take, List.length_drop]

/-- A read of more than there is left. -/
theorem read_min (c : Cursor α) (n : Nat) : c.read (min n (c.items.length - c.pos)) = c.read n := by
  rw [read, read, rest, List.take_eq_take_iff, List.length_drop]
  omega

theorem advance_min (c : Cursor α) (n : Nat) : c.advance (min n (c.items.length - c.pos)) = c.advance n := by
  simp only [advance, mk.injEq, true_and]
  omega

@[simp] theorem read_zero (c : Cursor α) : c.read 0 = [] := rfl

@[simp] theorem advance_zero (c : Cursor α) : c.advance 0 = c := by
  obtain ⟨items, pos, h⟩ := c
  simp only [advance, mk.injEq, true_and]
  omega

/-- At the end there is nothing to read. -/
theorem read_of_end {c : Cursor α} (h : c.pos = c.items.length) (n : Nat) : c.read n = [] := by
  rw [← read_min, h, Nat.sub_self, Nat.min_zero, read_zero]

theorem advance_of_end {c : Cursor α} (h : c.pos = c.items.length) (n : Nat) : c.advance n = c := by
  rw [← advance_min, h, Nat.sub_self, Nat.min_zero, advance_zero]

/-- What has been read, item by item and in order, is what is before the cursor. -/
theorem before_advance (c : Cursor α) (n : Nat) : (c.advance n).before = c.before ++ c.read n := by
  rw [← read_min]
  exact List.take_add

theorem before_eq_iff {c : Cursor α} : c.before = c.items ↔ c.pos = c.items.length := by
  have := c.pos_le
  constructor
  · intro h
    have hlength := congrArg List.length h
    rw [before, List.length_take] at hlength
    omega
  · intro h
    rw [before, h, List.take_length]

end Cursor

end CkbJs
