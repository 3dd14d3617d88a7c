import CkbJs.Framework.Heap

/-!
# Exploring a graph

A search that enters each vertex once keeps a list of those it has seen.
`Explored next R s s'`: from the seen vertices `s`, the search has gone through
everything that the roots `R` lead to, and has then seen `s'`. The rules follow
the search: a vertex that is seen (`Explored.seen`), a new one
(`Explored.visit`), one root after the other (`Explored.cons`). What was seen
from the start is then closed (`Explored.closed_nil`), and the number of
vertices that are left (`unseen`) bounds the depth of the search.
-/

namespace CkbJs.Explore

open CkbJs.Heap

variable {α : Type*} {next : α → List α} {R : List α} {s s1 s2 s' U : List α} {p q : α}

structure Explored (next : α → List α) (R s s' : List α) : Prop where
  mono : ∀ q ∈ s, q ∈ s'
  roots : ∀ q ∈ R, q ∈ s'
  reach : ∀ q ∈ s', q ∉ s → Reach next R q
  closed : ∀ q ∈ s', q ∉ s → ∀ c ∈ next q, c ∈ s'

/-- What is reached from roots that are reached. -/
theorem reach_trans {R' : List α} (h : Reach next R' q) (hR : ∀ r ∈ R', Reach next R r) : Reach next R q := by
  induction h with
  | root hr => exact hR _ hr
  | child _ hc ih => exact .child ih hc

namespace Explored

theorem nil (next : α → List α) (s : List α) : Explored next [] s s where
  mono _ h := h
  roots _ h := absurd h List.not_mem_nil
  reach _ h hn := absurd h hn
  closed _ h hn := absurd h hn

theorem seen (next : α → List α) (h : p ∈ s) : Explored next [p] s s where
  mono _ h := h
  roots _ hq := List.mem_singleton.1 hq ▸ h
  reach _ h hn := absurd h hn
  closed _ h hn := absurd h hn

/-- A new vertex, and then what it leads to. -/
theorem visit (h : Explored next (next p) (s ++ [p]) s') : Explored next [p] s s' := by
  have hp : p ∈ s' := h.mono p (List.mem_append_right s (List.mem_singleton_self p))
  refine ⟨fun q hq => h.mono q (List.mem_append_left [p] hq), fun q hq => List.mem_singleton.1 hq ▸ hp,
    fun q hq hn => ?_, fun q hq hn => ?_⟩
  · by_cases hqp : q ∈ s ++ [p]
    · have hq' : q = p := (List.mem_append.1 hqp).elim (fun h => absurd h hn) List.mem_singleton.1
      rw [hq']
      exact .root (List.mem_singleton_self p)
    · exact reach_trans (h.reach q hq hqp) fun r hr => .child (.root (List.mem_singleton_self p)) hr
  · by_cases hqp : q ∈ s ++ [p]
    · have hq' : q = p := (List.mem_append.1 hqp).elim (fun h => absurd h hn) List.mem_singleton.1
      rw [hq']
      exact h.roots
    · exact h.closed q hq hqp

/-- One root after the other. -/
theorem cons (h : Explored next [p] s s1) (h' : Explored next R s1 s2) : Explored next (p :: R) s s2 where
  mono q hq := h'.mono q (h.mono q hq)
  roots q hq := by
    rcases List.mem_cons.1 hq with rfl | hq
    · exact h'.mono q (h.roots q (List.mem_singleton_self q))
    · exact h'.roots q hq
  reach q hq hn := by
    by_cases hq1 : q ∈ s1
    · exact (h.reach q hq1 hn).mono fun r hr => List.mem_singleton.1 hr ▸ List.mem_cons_self
    · exact (h'.reach q hq hq1).mono fun r hr => List.mem_cons_of_mem p hr
  closed q hq hn c hc := by
    by_cases hq1 : q ∈ s1
    · exact h'.mono c (h.closed q hq1 hn c hc)
    · exact h'.closed q hq hq1 c hc

/-- A search that begins with nothing seen has seen all it leads to. -/
theorem closed_nil (h : Explored next R [] s') : ∀ q ∈ s', ∀ c ∈ next q, c ∈ s' :=
  fun q hq => h.closed q hq List.not_mem_nil

end Explored

/-! ## The depth -/

variable [DecidableEq α]

/-- The vertices of `U` that are left. -/
def unseen (U s : List α) : Nat := (U.filter fun q => q ∉ s).length

theorem unseen_le (h : ∀ q ∈ s, q ∈ s') : unseen U s' ≤ unseen U s := by
  apply List.Sublist.length_le
  refine List.monotone_filter_right U fun q hq => ?_
  simp only [decide_eq_true_eq] at hq ⊢
  exact fun hs => hq (h q hs)

theorem unseen_lt (hp : p ∈ U) (hn : p ∉ s) : unseen U (s ++ [p]) < unseen U s := by
  unfold unseen
  have hsub : U.filter (fun q => q ∉ s ++ [p]) = (U.filter fun q => q ∉ s).filter fun q => q ≠ p := by
    rw [List.filter_filter]
    refine List.filter_congr fun q _ => ?_
    simp [and_comm]
  rw [hsub]
  apply List.length_filter_lt_length_iff_exists.2
  exact ⟨p, List.mem_filter.2 ⟨hp, decide_eq_true hn⟩, by simp⟩

end CkbJs.Explore
