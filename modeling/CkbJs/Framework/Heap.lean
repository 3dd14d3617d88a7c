import CkbJs.Framework.WP
import Mathlib.Data.List.Basic
import Mathlib.Data.List.Perm.Basic
import Mathlib.Data.List.Count
import Mathlib.Data.List.Flatten
import Mathlib.Data.List.Nodup

/-!
# Counted references

In a heap `children p` lists the references that the object `p` holds, an
object as often as it is referred to. `owed children R H p` is the number of
references to `p` among the roots `R` and in the objects `H`: what a reference
count should be. `Reach children R p`: `p` is found from the roots by
following references. The main results are `reach_iff_mem` (a set that
supports itself and is closed is the set of the reachable objects) and
`reach_of_wellFounded` (without cycles, an object that is owed something is
reachable).
-/

namespace CkbJs.Heap

variable {α : Type*} {children : α → List α} {R R' H K : List α} {p q : α}

/-- The references to `p` from the roots `R` and from the holders `H`. -/
def owed [DecidableEq α] (children : α → List α) (R H : List α) (p : α) : Nat :=
  (R ++ H.flatMap children).count p

/-- Found from the roots by following references. -/
inductive Reach (children : α → List α) (R : List α) : α → Prop where
  | root {p : α} : p ∈ R → Reach children R p
  | child {p q : α} : Reach children R q → p ∈ children q → Reach children R p

theorem Reach.mono (h : ∀ r ∈ R, r ∈ R') (hp : Reach children R p) : Reach children R' p := by
  induction hp with
  | root hr => exact .root (h _ hr)
  | child _ hc ih => exact .child ih hc

/-- A closed set that contains the roots contains what is reachable. -/
theorem Reach.mem (hR : ∀ r ∈ R, r ∈ H) (hH : ∀ q ∈ H, ∀ c ∈ children q, c ∈ H)
    (hp : Reach children R p) : p ∈ H := by
  induction hp with
  | root hr => exact hR _ hr
  | child _ hc ih => exact hH _ ih _ hc

theorem reach_iff_mem (hR : ∀ r ∈ R, r ∈ H) (hH : ∀ q ∈ H, ∀ c ∈ children q, c ∈ H)
    (h : ∀ q ∈ H, Reach children R q) : Reach children R p ↔ p ∈ H :=
  ⟨fun hp => hp.mem hR hH, h p⟩

variable [DecidableEq α]

theorem owed_nil (R : List α) (p : α) : owed children R [] p = R.count p := by
  simp [owed]

theorem owed_append (A R H : List α) (p : α) :
    owed children (A ++ R) H p = A.count p + owed children R H p := by
  simp only [owed, List.append_assoc, List.count_append]

theorem owed_cons_self (c : α) (R H : List α) :
    owed children (c :: R) H c = owed children R H c + 1 := by
  simp [owed]

theorem owed_cons_of_ne {c p : α} (h : p ≠ c) (R H : List α) :
    owed children (c :: R) H p = owed children R H p := by
  simp [owed, h.symm]

theorem owed_concat (R H : List α) (q p : α) :
    owed children R (H ++ [q]) p = owed children (children q ++ R) H p := by
  simp only [owed, List.flatMap_append, List.flatMap_cons, List.flatMap_nil, List.append_nil,
    List.count_append]
  omega

theorem owed_cons_holder (R H : List α) (q p : α) :
    owed children R (q :: H) p = owed children (children q ++ R) H p := by
  simp only [owed, List.flatMap_cons, List.count_append]
  omega

theorem owed_perm_roots (h : R.Perm R') (H : List α) (p : α) :
    owed children R H p = owed children R' H p :=
  (h.append_right _).count_eq p

theorem owed_perm_holders (h : H.Perm K) (R : List α) (p : α) :
    owed children R H p = owed children R K p :=
  ((h.flatMap_right children).append_left R).count_eq p

/-- A holder that lets go passes its references to the roots. -/
theorem owed_erase (h : q ∈ H) (R : List α) (p : α) :
    owed children (children q ++ R) (H.erase q) p = owed children R H p := by
  rw [← owed_cons_holder]
  exact owed_perm_holders (List.perm_cons_erase h).symm R p

theorem owed_pos_iff : 0 < owed children R H p ↔ p ∈ R ∨ ∃ q ∈ H, p ∈ children q := by
  rw [owed, List.count_pos_iff, List.mem_append, List.mem_flatMap]

theorem owed_eq_zero_iff : owed children R H p = 0 ↔ p ∉ R ∧ ∀ q ∈ H, p ∉ children q := by
  rw [owed, List.count_eq_zero, List.mem_append, List.mem_flatMap, not_or]
  simp only [not_exists, not_and]

theorem owed_le (hR : R.Sublist R') (hH : H.Sublist K) (p : α) :
    owed children R H p ≤ owed children R' K p :=
  (hR.append (hH.flatMap children)).count_le p

/-- Every reachable object is owed something by the roots and the reachable
holders. -/
theorem Reach.owed_pos (hp : Reach children R p) (hH : ∀ q, Reach children R q → q ∈ H) :
    0 < owed children R H p := by
  rw [owed_pos_iff]
  cases hp with
  | root hr => exact .inl hr
  | child hq hc => exact .inr ⟨_, hH _ hq, hc⟩

/-- Where no reference closes a cycle, what is owed something is reachable. -/
theorem reach_of_wellFounded (hwf : WellFounded fun q p => q ∈ H ∧ p ∈ children q)
    (h : ∀ q ∈ H, 0 < owed children R H q) (hp : p ∈ H) : Reach children R p := by
  induction p using hwf.induction with
  | _ p ih =>
    rcases owed_pos_iff.1 (h p hp) with hr | ⟨q, hq, hc⟩
    · exact .root hr
    · exact .child (ih q ⟨hq, hc⟩ hq) hc

end CkbJs.Heap

namespace CkbJs.WP

universe u

variable {ε σ β : Type u} {s : σ} {f : β → EStateM ε σ PUnit}

/-- A loop over a list, from an invariant about what is left of it. -/
theorem forM {I : List β → σ → Prop} {R : ε → σ → Prop} {l : List β} (h : I l s)
    (step : ∀ a l s, I (a :: l) s → WP (f a) s (fun _ s' => I l s') R) :
    WP (l.forM f) s (fun _ s' => I [] s') R := by
  induction l generalizing s with
  | nil => exact of_pure h
  | cons a l ih => exact bind ((step a l s h).mono (fun _ s' h' => ih h') fun _ _ h' => h')

end CkbJs.WP
