import Mathlib.Data.List.Chain
import Mathlib.Data.List.Nodup

/-!
# Doubly linked rings

`Ring next prev b l`: starting at the anchor `b`, following `next` gives the
elements of `l` in order and then `b` again, and `prev` leads back. The links
are arbitrary functions, so that they can be fields in a memory. `Ring.remove`
takes an element out by relinking its two neighbours, `Ring.insert` puts one
in before the anchor.
-/

namespace CkbJs

variable {α : Type*} {next prev next' prev' : α → α}

/-- Neighbours in the list are linked both ways. -/
def Linked (next prev : α → α) (l : List α) : Prop := l.IsChain fun x y => next x = y ∧ prev y = x

def Ring (next prev : α → α) (b : α) (l : List α) : Prop := Linked next prev (b :: (l ++ [b]))

/-- The first element has no link back, the last no link on. -/
theorem Linked.congr {l : List α} (h : Linked next prev l) (hn : ∀ x ∈ l.dropLast, next' x = next x)
    (hp : ∀ x ∈ l.tail, prev' x = prev x) : Linked next' prev' l := by
  refine List.isChain_iff_forall_rel_of_append_cons_cons.mpr fun x y l₁ l₂ hl => ?_
  obtain ⟨hx, hy⟩ := List.isChain_iff_forall_rel_of_append_cons_cons.mp h hl
  refine ⟨(hn x ?_).trans hx, (hp y ?_).trans hy⟩
  · rw [hl, List.dropLast_append_of_ne_nil (List.cons_ne_nil _ _)]
    exact List.mem_append_right _ (by rw [List.dropLast_cons_cons]; exact List.mem_cons_self)
  · rw [hl]
    cases l₁ with
    | nil => exact List.mem_cons_self
    | cons z l₁ => exact List.mem_append_right _ (List.mem_cons_of_mem _ List.mem_cons_self)

namespace Ring

variable {b c : α} {l l₁ l₂ : List α}

theorem congr (h : Ring next prev b l) (hn : ∀ x ∈ b :: l, next' x = next x)
    (hp : ∀ x ∈ b :: l, prev' x = prev x) : Ring next' prev' b l := by
  refine Linked.congr h (fun x hx => hn x ?_) fun x hx => hp x ?_
  · rwa [← List.cons_append, List.dropLast_concat] at hx
  · rcases List.mem_append.mp (show x ∈ l ++ [b] from hx) with hx | hx
    · exact List.mem_cons_of_mem b hx
    · exact List.mem_singleton.mp hx ▸ List.mem_cons_self

theorem nil_iff : Ring next prev b [] ↔ next b = b ∧ prev b = b := List.isChain_pair

/-- The anchor leads to the first element. -/
theorem next_eq (h : Ring next prev b (c :: l)) : next b = c := (List.isChain_cons_cons.mp h).1.1

/-- The anchor leads to itself or into the ring. -/
theorem next_mem (h : Ring next prev b l) : next b ∈ b :: l := by
  cases l with
  | nil =>
    rw [(nil_iff.mp h).1]
    exact List.mem_cons_self
  | cons c l =>
    rw [h.next_eq]
    exact List.mem_cons_of_mem b List.mem_cons_self

/-- The anchor leads back to the last element. -/
theorem prev_eq (h : Ring next prev b (l ++ [c])) : prev b = c := by
  unfold Ring Linked at h
  rw [List.append_assoc, ← List.cons_append] at h
  exact (List.isChain_append_cons_cons.mp h).2.1.2

/-- The lists around an element of a ring, as the neighbours see them. -/
theorem split (l₁ l₂ : List α) (b c : α) : ∃ xs p n ys, b :: l₁ = xs ++ [p] ∧ l₂ ++ [b] = n :: ys ∧
    b :: ((l₁ ++ c :: l₂) ++ [b]) = xs ++ p :: c :: n :: ys ∧
    b :: ((l₁ ++ l₂) ++ [b]) = xs ++ p :: n :: ys := by
  obtain ⟨xs, p, hxs⟩ : ∃ xs p, b :: l₁ = xs ++ [p] :=
    ⟨_, _, (List.dropLast_append_getLast (List.cons_ne_nil b l₁)).symm⟩
  obtain ⟨n, ys, hys⟩ : ∃ n ys, l₂ ++ [b] = n :: ys := List.exists_cons_of_ne_nil (by simp)
  refine ⟨xs, p, n, ys, hxs, hys, ?_, ?_⟩
  · rw [List.append_assoc, List.cons_append, hys, ← List.cons_append, hxs, List.append_assoc]
    rfl
  · rw [List.append_assoc, hys, ← List.cons_append, hxs, List.append_assoc]
    rfl

/-- The neighbours of an element are in the ring. -/
theorem neighbours_mem (h : Ring next prev b (l₁ ++ c :: l₂)) :
    prev c ∈ b :: l₁ ∧ next c ∈ l₂ ++ [b] := by
  obtain ⟨xs, p, n, ys, hxs, hys, hl, -⟩ := split l₁ l₂ b c
  unfold Ring Linked at h
  rw [hl] at h
  obtain ⟨-, hpc, hrest⟩ := List.isChain_append_cons_cons.mp h
  obtain ⟨hcn, -⟩ := List.isChain_cons_cons.mp hrest
  rw [hpc.2, hcn.1, hxs, hys]
  exact ⟨List.mem_append_right _ List.mem_cons_self, List.mem_cons_self⟩

/-- Only an element that is alone has one neighbour on both sides: the anchor. -/
theorem prev_eq_next_iff (h : Ring next prev b (l₁ ++ c :: l₂)) (hnodup : (b :: (l₁ ++ c :: l₂)).Nodup) :
    prev c = next c ↔ l₁ ++ l₂ = [] := by
  obtain ⟨hp, hn⟩ := h.neighbours_mem
  have hb := (List.nodup_cons.mp hnodup).1
  obtain ⟨-, -, hdisj⟩ := List.nodup_append.mp (List.nodup_cons.mp hnodup).2
  obtain ⟨xs, p, n, ys, hxs, hys, hl, -⟩ := split l₁ l₂ b c
  unfold Ring Linked at h
  rw [hl] at h
  obtain ⟨-, hpc, hrest⟩ := List.isChain_append_cons_cons.mp h
  obtain ⟨hcn, -⟩ := List.isChain_cons_cons.mp hrest
  constructor
  · intro heq
    rw [heq] at hp
    rcases List.mem_append.mp hn with hn | hn
    · -- the right neighbour is neither the anchor nor on the left
      rcases List.mem_cons.mp hp with he | hp
      · exact absurd (List.mem_append_right l₁ (List.mem_cons_of_mem c (he ▸ hn))) hb
      · exact absurd rfl (hdisj _ hp _ (List.mem_cons_of_mem c hn))
    · have hnb : n = b := hcn.1.symm.trans (List.mem_singleton.mp hn)
      have hpb : p = b := hpc.2.symm.trans (heq.trans (List.mem_singleton.mp hn))
      have h₂ : l₂ = [] := by
        cases l₂ with
        | nil => rfl
        | cons y l₂ =>
          obtain ⟨rfl, -⟩ := List.cons.inj hys
          exact absurd (List.mem_append_right l₁ (List.mem_cons_of_mem c (hnb ▸ List.mem_cons_self))) hb
      have h₁ : l₁ = [] := by
        cases xs with
        | nil => exact (List.cons.inj hxs).2
        | cons x xs =>
          have : b ∈ l₁ := by
            rw [(List.cons.inj hxs).2, hpb]
            exact List.mem_append_right _ List.mem_cons_self
          exact absurd (List.mem_append_left _ this) hb
      rw [h₁, h₂]
      rfl
  · intro hnil
    obtain ⟨rfl, rfl⟩ := List.append_eq_nil_iff.mp hnil
    rw [List.mem_singleton.mp hp, List.mem_singleton.mp hn]

/-- Relinking the two neighbours of an element takes it out. -/
theorem remove (h : Ring next prev b (l₁ ++ c :: l₂)) (hnodup : (b :: (l₁ ++ c :: l₂)).Nodup)
    (hnp : next' (prev c) = next c) (hpn : prev' (next c) = prev c)
    (hn : ∀ x ∈ b :: (l₁ ++ c :: l₂), x ≠ prev c → next' x = next x)
    (hp : ∀ x ∈ b :: (l₁ ++ c :: l₂), x ≠ next c → prev' x = prev x) :
    Ring next' prev' b (l₁ ++ l₂) := by
  have hb := (List.nodup_cons.mp hnodup).1
  obtain ⟨hnd₁, hnd₂, hdisj⟩ := List.nodup_append.mp (List.nodup_cons.mp hnodup).2
  obtain ⟨xs, p, n, ys, hxs, hys, hl, hl'⟩ := split l₁ l₂ b c
  have h' := h
  unfold Ring Linked at h' ⊢
  rw [hl] at h'
  rw [hl']
  obtain ⟨hleft, hpc, hrest⟩ := List.isChain_append_cons_cons.mp h'
  obtain ⟨hcn, hright⟩ := List.isChain_cons_cons.mp hrest
  rw [hpc.2, hcn.1] at hnp hpn
  rw [hpc.2] at hn
  rw [hcn.1] at hp
  have hmem₁ {x : α} (hx : x ∈ b :: l₁) : x ∈ b :: (l₁ ++ c :: l₂) := by
    rw [← List.cons_append]
    exact List.mem_append_left _ hx
  have hmem₂ {x : α} (hx : x ∈ l₂) : x ∈ l₁ ++ c :: l₂ :=
    List.mem_append_right _ (List.mem_cons_of_mem c hx)
  have hndl : (xs ++ [p]).Nodup := by
    rw [← hxs]
    exact List.nodup_cons.mpr ⟨fun hb' => hb (List.mem_append_left _ hb'), hnd₁⟩
  have hndr : (n :: ys).Nodup := by
    rw [← hys]
    refine List.nodup_append.mpr ⟨(List.nodup_cons.mp hnd₂).2, List.nodup_singleton b, fun x hx y hy => ?_⟩
    rintro rfl
    exact hb (hmem₂ (List.mem_singleton.mp hy ▸ hx))
  have hpmem : p ∈ b :: l₁ := by rw [hxs]; exact List.mem_append_right _ List.mem_cons_self
  have hnmem : n ∈ l₂ ++ [b] := by rw [hys]; exact List.mem_cons_self
  refine List.isChain_append_cons_cons.mpr ⟨?_, ⟨hnp, hpn⟩, ?_⟩
  · refine Linked.congr hleft (fun x hx => ?_) fun x hx => ?_
    · rw [List.dropLast_concat] at hx
      refine hn x (hmem₁ (by rw [hxs]; exact List.mem_append_left _ hx)) ?_
      exact (List.nodup_append.mp hndl).2.2 x hx p List.mem_cons_self
    · rw [← hxs, List.tail_cons] at hx
      refine hp x (hmem₁ (List.mem_cons_of_mem b hx)) ?_
      rintro rfl
      rcases List.mem_append.mp hnmem with h | h
      · exact hdisj x hx x (List.mem_cons_of_mem c h) rfl
      · exact hb (List.mem_append_left _ (List.mem_singleton.mp h ▸ hx))
  · refine Linked.congr hright (fun x hx => ?_) fun x hx => ?_
    · rw [← hys, List.dropLast_concat] at hx
      refine hn x (List.mem_cons_of_mem b (hmem₂ hx)) ?_
      rintro rfl
      rcases List.mem_cons.mp hpmem with h | h
      · exact hb (h ▸ hmem₂ hx)
      · exact hdisj x h x (List.mem_cons_of_mem c hx) rfl
    · rw [List.tail_cons] at hx
      have hx' : x ∈ l₂ ++ [b] := by rw [hys]; exact List.mem_cons_of_mem n hx
      refine hp x ?_ ?_
      · rcases List.mem_append.mp hx' with h | h
        · exact List.mem_cons_of_mem b (hmem₂ h)
        · exact List.mem_singleton.mp h ▸ List.mem_cons_self
      · rintro rfl
        exact (List.nodup_cons.mp hndr).1 hx

/-- Linking an element between the last one and the anchor puts it in. -/
theorem insert (h : Ring next prev b l) (hnodup : (b :: l).Nodup) (hnc : next' c = b)
    (hpc : prev' c = prev b) (hnp : next' (prev b) = c) (hpb : prev' b = c)
    (hn : ∀ x ∈ b :: l, x ≠ prev b → next' x = next x) (hp : ∀ x ∈ l, prev' x = prev x) :
    Ring next' prev' b (l ++ [c]) := by
  obtain ⟨xs, p, hxs⟩ : ∃ xs p, b :: l = xs ++ [p] :=
    ⟨_, _, (List.dropLast_append_getLast (List.cons_ne_nil b l)).symm⟩
  unfold Ring Linked at h ⊢
  rw [← List.cons_append, hxs, List.append_assoc] at h
  obtain ⟨hleft, hpb', -⟩ := List.isChain_append_cons_cons.mp h
  rw [hpb'.2] at hpc hnp hn
  have hl : b :: ((l ++ [c]) ++ [b]) = xs ++ p :: c :: [b] := by
    rw [List.append_assoc, ← List.cons_append, hxs, List.append_assoc]
    rfl
  rw [hl]
  refine List.isChain_append_cons_cons.mpr ⟨?_, ⟨hnp, hpc⟩, List.isChain_pair.mpr ⟨hnc, hpb⟩⟩
  refine Linked.congr hleft (fun x hx => ?_) fun x hx => ?_
  · rw [List.dropLast_concat] at hx
    have hnd : (xs ++ [p]).Nodup := hxs ▸ hnodup
    refine hn x (by rw [hxs]; exact List.mem_append_left _ hx) ?_
    exact (List.nodup_append.mp hnd).2.2 x hx p List.mem_cons_self
  · rw [← hxs, List.tail_cons] at hx
    exact hp x hx

/-- The anchor leads back into the ring. -/
theorem prev_mem (h : Ring next prev b l) : prev b ∈ b :: l := by
  obtain ⟨xs, p, hxs⟩ : ∃ xs p, b :: l = xs ++ [p] :=
    ⟨_, _, (List.dropLast_append_getLast (List.cons_ne_nil b l)).symm⟩
  unfold Ring Linked at h
  rw [← List.cons_append, hxs, List.append_assoc] at h
  obtain ⟨-, hpb, -⟩ := List.isChain_append_cons_cons.mp h
  rw [hpb.2, hxs]
  exact List.mem_append_right _ List.mem_cons_self

end Ring

end CkbJs
