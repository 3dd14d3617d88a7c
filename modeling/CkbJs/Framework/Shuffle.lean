import Mathlib.Logic.Equiv.Basic
import Mathlib.Data.List.Perm.Basic
import Mathlib.Data.List.Nodup
import Mathlib.Data.List.Range

/-!
# Arrays in another order

An array is a function of the index. `Shuffled lo hi a b`: `b` has the elements
of `a` in another order, and only those from `lo` to `hi` have moved.
`SortedOn le lo hi a`: from `lo` to `hi` the elements are in order. While an
array is sorted piece by piece, `Settled le n segs a` says that the elements
are in order unless they are in the same segment of `segs`: from it,
`Settled.refine` replaces a segment by smaller ones, and with no segment left
the array is sorted (`Settled.sorted`).
-/

namespace CkbJs.Shuffle

variable {α : Type*} {lo hi lo' hi' i j n : Nat} {a b c : Nat → α}

/-- The elements `i` and `j` are exchanged. -/
def swapped (a : Nat → α) (i j : Nat) : Nat → α :=
  fun k => if k = i then a j else if k = j then a i else a k

@[simp] theorem swapped_left (a : Nat → α) (i j : Nat) : swapped a i j i = a j := by
  simp [swapped]

@[simp] theorem swapped_right (a : Nat → α) (i j : Nat) : swapped a i j j = a i := by
  unfold swapped
  split
  · rename_i h
    rw [h]
  · simp

theorem swapped_of_ne (a : Nat → α) {k : Nat} (hi : k ≠ i) (hj : k ≠ j) : swapped a i j k = a k := by
  simp [swapped, hi, hj]

/-- `b` is `a` with the elements from `lo` to `hi` in another order. -/
def Shuffled (lo hi : Nat) (a b : Nat → α) : Prop :=
  ∃ π : Equiv.Perm Nat, (∀ i, ¬(lo ≤ i ∧ i < hi) → π i = i) ∧ ∀ i, b i = a (π i)

namespace Shuffled

theorem refl (lo hi : Nat) (a : Nat → α) : Shuffled lo hi a a := ⟨Equiv.refl Nat, fun _ _ => rfl, fun _ => rfl⟩

theorem trans (h : Shuffled lo hi a b) (h' : Shuffled lo hi b c) : Shuffled lo hi a c := by
  obtain ⟨π, hπ, hab⟩ := h
  obtain ⟨ρ, hρ, hbc⟩ := h'
  refine ⟨ρ.trans π, fun i hi => ?_, fun i => ?_⟩
  · show π (ρ i) = i
    rw [hρ i hi, hπ i hi]
  · rw [hbc, hab]
    rfl

theorem mono (h : Shuffled lo hi a b) (hlo : lo' ≤ lo) (hhi : hi ≤ hi') : Shuffled lo' hi' a b := by
  obtain ⟨π, hπ, hab⟩ := h
  exact ⟨π, fun i hi => hπ i (by omega), hab⟩

theorem swap (a : Nat → α) (hi' : lo ≤ i ∧ i < hi) (hj' : lo ≤ j ∧ j < hi) :
    Shuffled lo hi a (swapped a i j) := by
  refine ⟨Equiv.swap i j, fun k hk => ?_, fun k => ?_⟩
  · apply Equiv.swap_apply_of_ne_of_ne
    · rintro rfl
      exact hk hi'
    · rintro rfl
      exact hk hj'
  · rw [Equiv.swap_apply_def, swapped]
    split
    · rfl
    · split <;> rfl

theorem outside (h : Shuffled lo hi a b) (hout : ¬(lo ≤ i ∧ i < hi)) : b i = a i := by
  obtain ⟨π, hπ, hab⟩ := h
  rw [hab, hπ i hout]

/-- Where an element comes from. -/
theorem source (h : Shuffled lo hi a b) (hin : lo ≤ i ∧ i < hi) : ∃ k, (lo ≤ k ∧ k < hi) ∧ b i = a k := by
  obtain ⟨π, hπ, hab⟩ := h
  refine ⟨π i, ?_, hab i⟩
  by_contra hout
  have hfix : π i = i := π.injective (hπ _ hout)
  rw [hfix] at hout
  exact hout hin

/-- What holds of all elements still does. -/
theorem all {P : α → Prop} (h : Shuffled lo hi a b) (ha : ∀ i, lo ≤ i → i < hi → P (a i)) :
    ∀ i, lo ≤ i → i < hi → P (b i) := by
  intro i hlo hhi
  obtain ⟨k, hk, heq⟩ := h.source ⟨hlo, hhi⟩
  rw [heq]
  exact ha k hk.1 hk.2

theorem perm (h : Shuffled 0 n a b) : ((List.range n).map b).Perm ((List.range n).map a) := by
  have hmem : ∀ k, 0 ≤ k ∧ k < n ↔ k ∈ List.range n := fun k => by simp
  obtain ⟨π, hπ, hab⟩ := h
  have hb : (List.range n).map b = ((List.range n).map π).map a := by
    rw [List.map_map]
    exact List.map_congr_left fun k _ => hab k
  have hindices : ((List.range n).map π).Perm (List.range n) := by
    rw [List.perm_ext_iff_of_nodup (List.nodup_range.map π.injective) List.nodup_range]
    intro k
    rw [List.mem_map, ← hmem]
    constructor
    · rintro ⟨i, hi, rfl⟩
      by_contra hout
      have hfix : π i = i := π.injective (hπ _ hout)
      rw [hfix, hmem] at hout
      exact hout hi
    · intro hk
      refine ⟨π.symm k, ?_, π.apply_symm_apply k⟩
      by_contra hout
      have hfix : k = π.symm k := by
        have h := hπ (π.symm k) (by rwa [hmem])
        rwa [π.apply_symm_apply] at h
      exact hout (hfix ▸ (hmem k).1 hk)
  rw [hb]
  exact hindices.map a

end Shuffled

/-! ## Order -/

variable {le : α → α → Prop}

/-- From `lo` to `hi` the elements are in order. -/
def SortedOn (le : α → α → Prop) (lo hi : Nat) (a : Nat → α) : Prop :=
  ∀ i j, lo ≤ i → i < j → j < hi → le (a i) (a j)

theorem SortedOn.pairwise (h : SortedOn le 0 n a) : ((List.range n).map a).Pairwise le := by
  rw [List.pairwise_map]
  refine List.Pairwise.imp_of_mem (fun {i j} _ hj hij => h i j (Nat.zero_le i) hij ?_) List.pairwise_lt_range
  exact List.mem_range.1 hj

/-- A part of an array. -/
structure Segment where
  base : Nat
  count : Nat
  deriving DecidableEq

namespace Segment

/-- `i` is an index of the segment. -/
def Has (s : Segment) (i : Nat) : Prop := s.base ≤ i ∧ i < s.base + s.count

def Disjoint (s t : Segment) : Prop := ∀ i, s.Has i → ¬t.Has i

/-- The segment has no index outside of another one. -/
def Within (s t : Segment) : Prop := t.base ≤ s.base ∧ s.base + s.count ≤ t.base + t.count

end Segment

/-- The elements below `n` are in order, unless they are in one of the
segments, which do not overlap. -/
structure Settled (le : α → α → Prop) (n : Nat) (segs : List Segment) (a : Nat → α) : Prop where
  disjoint : segs.Pairwise Segment.Disjoint
  within : ∀ s ∈ segs, s.base + s.count ≤ n
  ordered : ∀ i j, i < j → j < n → (∃ s ∈ segs, s.Has i ∧ s.Has j) ∨ le (a i) (a j)

namespace Settled

variable {s : Segment} {segs : List Segment}

theorem start (le : α → α → Prop) (n : Nat) (a : Nat → α) : Settled le n [⟨0, n⟩] a where
  disjoint := List.pairwise_singleton _ _
  within s hs := by
    rw [List.mem_singleton.1 hs]
    exact Nat.le_of_eq (Nat.zero_add n)
  ordered i j hij hj := .inl ⟨_, List.mem_singleton_self _, by simp only [Segment.Has]; omega,
    by simp only [Segment.Has]; omega⟩

theorem sorted (h : Settled le n [] a) : SortedOn le 0 n a := by
  intro i j _ hij hj
  obtain ⟨s, hs, _⟩ | hle := h.ordered i j hij hj
  · exact absurd hs List.not_mem_nil
  · exact hle

/-- A segment is replaced by segments within it, when its elements are in order
except within these. -/
theorem refine (h : Settled le n (s :: segs) a) (new : List Segment)
    (hab : Shuffled s.base (s.base + s.count) a b)
    (hnew : new.Pairwise Segment.Disjoint) (hin : ∀ t ∈ new, t.Within s)
    (hord : ∀ i j, s.Has i → s.Has j → i < j → (∃ t ∈ new, t.Has i ∧ t.Has j) ∨ le (b i) (b j)) :
    Settled le n (new ++ segs) b := by
  obtain ⟨hs, hsegs⟩ := List.pairwise_cons.1 h.disjoint
  have hwithin := h.within s List.mem_cons_self
  refine ⟨List.pairwise_append.2 ⟨hnew, hsegs, fun t ht u hu i hi hui => ?_⟩, fun t ht => ?_, ?_⟩
  · obtain ⟨h1, h2⟩ := hin t ht
    have hsi : s.Has i := by simp only [Segment.Has] at hi ⊢; omega
    exact hs u hu i hsi hui
  · rcases List.mem_append.1 ht with ht | ht
    · obtain ⟨h1, h2⟩ := hin t ht
      omega
    · exact h.within t (List.mem_cons_of_mem s ht)
  intro i j hij hj
  by_cases hi' : s.Has i <;> by_cases hj' : s.Has j
  · rcases hord i j hi' hj' hij with ⟨t, ht, hti⟩ | hle
    · exact .inl ⟨t, List.mem_append_left segs ht, hti⟩
    · exact .inr hle
  · -- the element before comes from somewhere in the segment
    right
    obtain ⟨k, hk, heq⟩ := hab.source hi'
    rw [heq, hab.outside hj']
    have hkj : k < j := by simp only [Segment.Has] at hi' hj'; omega
    rcases h.ordered k j hkj hj with ⟨t, ht, htk, htj⟩ | hle
    · rcases List.mem_cons.1 ht with rfl | ht
      · exact absurd htj hj'
      · exact absurd htk (hs t ht k hk)
    · exact hle
  · right
    obtain ⟨k, hk, heq⟩ := hab.source hj'
    rw [heq, hab.outside hi']
    have hik : i < k := by simp only [Segment.Has] at hi' hj'; omega
    rcases h.ordered i k hik (by omega) with ⟨t, ht, hti, htk⟩ | hle
    · rcases List.mem_cons.1 ht with rfl | ht
      · exact absurd hti hi'
      · exact absurd htk (hs t ht k hk)
    · exact hle
  · rw [hab.outside hi', hab.outside hj']
    rcases h.ordered i j hij hj with ⟨t, ht, hti⟩ | hle
    · rcases List.mem_cons.1 ht with rfl | ht
      · exact absurd hti.1 hi'
      · exact .inl ⟨t, List.mem_append_right new ht, hti⟩
    · exact .inr hle

end Settled

end CkbJs.Shuffle
