import CkbJs.Framework.WP
import CkbJs.Framework.ImplicitHeap
import CkbJs.Spec.Sort

/-!
# Steps of sorting

`Moves good lo hi s s'`: from `s` to `s'` only elements from `lo` to `hi` have
moved, and the world was good before if it is good after. A comparison tells
how two elements are ordered (`wp_compare`), and an exchange is an exchange
(`wp_swap`); neither leaves the array. Then heap sort and insertion sort, each
of a part of the array (`wp_heapsortx`, `wp_insertAll`).
-/

namespace CkbJs.Proof.Sort

open CkbJs.Impl.Sort CkbJs.Spec.Sort CkbJs.Shuffle CkbJs.ImplicitHeap

variable {α σ : Type} {cmp : α → α → σ → Int × σ} {le : α → α → Prop} {good : σ → Prop} {nmemb : Nat}

/-- The elements from `lo` to `hi` are in another order, and a world that is
good was good before. -/
structure Moves (good : σ → Prop) (lo hi : Nat) (s s' : State α σ) : Prop where
  shuffled : Shuffled lo hi s.elems s'.elems
  good_of : good s'.world → good s.world

namespace Moves

variable {lo hi lo' hi' i j : Nat} {s s' s'' : State α σ}

theorem refl (good : σ → Prop) (lo hi : Nat) (s : State α σ) : Moves good lo hi s s :=
  ⟨.refl lo hi _, id⟩

theorem trans (h : Moves good lo hi s s') (h' : Moves good lo hi s' s'') : Moves good lo hi s s'' :=
  ⟨h.shuffled.trans h'.shuffled, fun hg => h.good_of (h'.good_of hg)⟩

theorem mono (h : Moves good lo hi s s') (hlo : lo' ≤ lo) (hhi : hi ≤ hi') : Moves good lo' hi' s s' :=
  ⟨h.shuffled.mono hlo hhi, h.good_of⟩

theorem swap (s : State α σ) (hi' : lo ≤ i ∧ i < hi) (hj' : lo ≤ j ∧ j < hi) :
    Moves good lo hi s ⟨swapped s.elems i j, s.world⟩ :=
  ⟨.swap s.elems hi' hj', id⟩

theorem outside (h : Moves good lo hi s s') (hout : ¬(lo ≤ i ∧ i < hi)) : s'.elems i = s.elems i :=
  h.shuffled.outside hout

end Moves

/-- What a comparison of the elements `i` and `j` tells. -/
structure Compared (le : α → α → Prop) (good : σ → Prop) (i j : Nat) (s : State α σ) (c : Int)
    (s' : State α σ) : Prop where
  elems : s'.elems = s.elems
  good_of : good s'.world → good s.world
  nonpos : good s'.world → c ≤ 0 → le (s.elems i) (s.elems j)
  nonneg : good s'.world → 0 ≤ c → le (s.elems j) (s.elems i)

theorem Compared.moves {i j : Nat} {s s' : State α σ} {c : Int} (h : Compared le good i j s c s') (lo hi : Nat) :
    Moves good lo hi s s' :=
  ⟨h.elems ▸ .refl lo hi _, h.good_of⟩

theorem wp_compare (h : Follows cmp le good) {i j : Nat} (hi : i < nmemb) (hj : j < nmemb) (s : State α σ) :
    WP (compare cmp nmemb i j) s (Compared le good i j s) fun _ _ => False := by
  refine WP.bind (WP.of_get ?_)
  rw [if_pos ⟨hi, hj⟩]
  exact WP.bind (WP.of_set (WP.of_pure
    ⟨rfl, h.good_of _ _ _, fun hg => (h.nonpos _ _ _ hg).1, fun hg => (h.nonneg _ _ _ hg).1⟩))

theorem wp_swap {i j : Nat} (hi : i < nmemb) (hj : j < nmemb) (s : State α σ) :
    WP (swap nmemb i j) s (fun _ s' => s' = ⟨swapped s.elems i j, s.world⟩) fun _ _ => False := by
  refine WP.bind (WP.of_get ?_)
  rw [if_pos ⟨hi, hj⟩]
  exact WP.of_set rfl

/-! ## Heap sort -/

theorem wp_largerChild (h : Follows cmp le good) {base n c : Nat} (hb : base + n ≤ nmemb) (hc : c < n)
    (s : State α σ) :
    WP (largerChild cmp nmemb base n c) s (fun d s' => s'.elems = s.elems ∧ (good s'.world → good s.world) ∧
      (d = c ∨ d = c + 1) ∧ d < n ∧
      (good s'.world → ∀ e, (e = c ∨ e = c + 1) → e < n → le (s.elems (base + e)) (s.elems (base + d))))
      fun _ _ => False := by
  unfold largerChild
  refine WP.ite (fun hlt => ?_) fun hlt => ?_
  · refine WP.seq (wp_compare h (by omega) (by omega) s) (fun _ _ h => h) fun r s1 h1 => ?_
    refine WP.ite (fun hr => ?_) fun hr => ?_
    · refine WP.of_pure ⟨h1.elems, h1.good_of, .inr rfl, hlt, fun hg e he _ => ?_⟩
      obtain rfl | rfl := he
      · exact h1.nonpos hg hr
      · exact h.refl _
    · refine WP.of_pure ⟨h1.elems, h1.good_of, .inl rfl, hc, fun hg e he _ => ?_⟩
      obtain rfl | rfl := he
      · exact h.refl _
      · exact h1.nonneg hg (by omega)
  · refine WP.of_pure ⟨rfl, id, .inl rfl, hc, fun _ e he hn => ?_⟩
    have hec : e = c := by omega
    rw [hec]
    exact h.refl _

theorem wp_siftDown (h : Follows cmp le good) {base n : Nat} (hb : base + n ≤ nmemb) (fuel r : Nat)
    (hr : r < n) (hfuel : n ≤ fuel + r) (s : State α σ) :
    WP (siftDown cmp nmemb base n fuel r) s (fun _ s' => Moves good base (base + n) s s' ∧
      (good s'.world → ∀ lo ≤ r, Sifting le base n lo r s.elems → HeapFrom le base n lo s'.elems))
      fun _ _ => False := by
  induction fuel generalizing r s with
  | zero => omega
  | succ fuel ih =>
    unfold siftDown
    refine WP.ite (fun hlt => ?_) fun hlt => ?_
    · refine WP.seq (wp_largerChild h hb hlt s) (fun _ _ h => h) fun c s1 ⟨he1, hg1, hc, hn, hmax⟩ => ?_
      have hchild : IsChild c r := by unfold IsChild; omega
      have hrc := hchild.lt
      refine WP.seq (wp_compare h (by omega) (by omega) s1) (fun _ _ h => h) fun d s2 h2 => ?_
      have hm2 : Moves good base (base + n) s s2 :=
        Moves.trans ⟨he1 ▸ .refl _ _ _, hg1⟩ (h2.moves _ _)
      refine WP.ite (fun hd => ?_) fun hd => ?_
      · refine WP.of_pure ⟨hm2, fun hg lo hlo hs => ?_⟩
        rw [h2.elems, he1]
        refine hs.done fun e he hen => h.trans _ _ _ (hmax (h2.good_of hg) e ?_ hen) ?_
        · unfold IsChild at he
          omega
        · rw [← he1]
          exact h2.nonneg hg (by omega)
      · refine WP.seq (wp_swap (by omega) (by omega) s2) (fun _ _ h => h) ?_
        rintro _ s3 rfl
        refine (ih c hn (by omega) _).mono (fun _ s4 ⟨hm4, hheap⟩ => ⟨?_, fun hg lo hlo hs => ?_⟩) fun _ _ h => h
        · exact hm2.trans (Moves.trans (Moves.swap s2 (by omega) (by omega)) hm4)
        · have hg2 : good s2.world := hm4.good_of hg
          refine hheap hg lo (by omega) ?_
          show Sifting le base n lo c (swapped s2.elems (base + r) (base + c))
          rw [h2.elems, he1]
          refine hs.move hlo hchild hn (fun e he hen => hmax (h2.good_of hg2) e ?_ hen) ?_
          · unfold IsChild at he
            omega
          · rw [← he1]
            exact h2.nonpos hg2 (by omega)
    · refine WP.of_pure ⟨.refl _ _ _ _, fun _ lo _ hs => hs.done fun c hc hcn => ?_⟩
      unfold IsChild at hc
      omega

theorem wp_heapify (h : Follows cmp le good) {base n : Nat} (hb : base + n ≤ nmemb) (i : Nat) (hi : i ≤ n)
    (s : State α σ) :
    WP (heapify cmp nmemb base n i) s (fun _ s' => Moves good base (base + n) s s' ∧
      (good s'.world → HeapFrom le base n i s.elems → HeapFrom le base n 0 s'.elems)) fun _ _ => False := by
  induction i generalizing s with
  | zero => exact WP.of_pure ⟨.refl _ _ _ _, fun _ hheap => hheap⟩
  | succ i ih =>
    refine WP.seq (wp_siftDown h hb n i (by omega) (by omega) s) (fun _ _ h => h) fun _ s1 ⟨hm1, h1⟩ => ?_
    refine (ih (by omega) s1).mono (fun _ s2 ⟨hm2, h2⟩ => ⟨hm1.trans hm2, fun hg hheap => ?_⟩) fun _ _ h => h
    exact h2 hg (h1 (hm2.good_of hg) i (Nat.le_refl i) hheap.sifting)

/-- One more element, that none of the others exceeds. -/
theorem sortedOn_concat {lo : Nat} (hi : Nat) {a : Nat → α} (h : SortedOn le lo hi a)
    (hmax : ∀ i, lo ≤ i → i < hi → le (a i) (a hi)) : SortedOn le lo (hi + 1) a := by
  intro i j hlo hij hj
  by_cases hjh : j = hi
  · rw [hjh]
    exact hmax i hlo (by omega)
  · exact h i j hlo hij (by omega)

theorem wp_popAll (h : Follows cmp le good) {base : Nat} (i : Nat) (hb : base + (i + 1) ≤ nmemb) (s : State α σ) :
    WP (popAll cmp nmemb base i) s (fun _ s' => Moves good base (base + (i + 1)) s s' ∧
      (good s'.world → HeapFrom le base (i + 1) 0 s.elems → SortedOn le base (base + (i + 1)) s'.elems))
      fun _ _ => False := by
  induction i generalizing s with
  | zero => exact WP.of_pure ⟨.refl _ _ _ _, fun _ _ j k hj hjk hk => by omega⟩
  | succ i ih =>
    refine WP.seq (wp_swap (by omega) (by omega) s) (fun _ _ h => h) ?_
    rintro _ s1 rfl
    refine WP.seq (wp_siftDown h (by omega) (i + 1) 0 (by omega) (by omega) _) (fun _ _ h => h)
      fun _ s2 ⟨hm2, h2⟩ => ?_
    refine (ih (by omega) s2).mono (fun _ s3 ⟨hm3, h3⟩ => ⟨?_, fun hg hheap => ?_⟩) fun _ _ h => h
    · have hm1 : Moves good base (base + (i + 1 + 1)) s ⟨swapped s.elems base (base + (i + 1)), s.world⟩ :=
        .swap s (by omega) (by omega)
      exact hm1.trans ((hm2.mono (Nat.le_refl base) (by omega)).trans (hm3.mono (Nat.le_refl base) (by omega)))
    · have hpopped := h2 (hm3.good_of hg) 0 (Nat.le_refl 0) hheap.pop
      -- the maximum is behind the others, and stays there
      have hm := hm2.trans hm3
      have hlast : s3.elems (base + (i + 1)) = s.elems base := by
        rw [hm.outside (by omega)]
        exact swapped_right s.elems base _
      refine sortedOn_concat (base + (i + 1)) (h3 hg hpopped) fun j hlo hj => ?_
      rw [hlast]
      refine hm.shuffled.all (P := fun x => le x (s.elems base)) (fun k hlo hk => ?_) j hlo hj
      show le (swapped s.elems base (base + (i + 1)) k) (s.elems base)
      by_cases hk0 : k = base
      · rw [hk0, swapped_left]
        exact hheap.le_root h.trans h.refl (by omega)
      · rw [swapped_of_ne s.elems hk0 (by omega)]
        obtain ⟨d, rfl⟩ := Nat.exists_eq_add_of_le hlo
        exact hheap.le_root h.trans h.refl (by omega)

theorem wp_heapsortx (h : Follows cmp le good) {base n : Nat} (hb : base + n ≤ nmemb) (s : State α σ) :
    WP (heapsortx cmp nmemb base n) s (fun _ s' => Moves good base (base + n) s s' ∧
      (good s'.world → SortedOn le base (base + n) s'.elems)) fun _ _ => False := by
  refine WP.ite (fun hn => ?_) fun hn => ?_
  · obtain ⟨m, rfl⟩ : ∃ m, n = m + 1 := ⟨n - 1, by omega⟩
    refine WP.seq (wp_heapify h hb _ (by omega) s) (fun _ _ h => h) fun _ s1 ⟨hm1, h1⟩ => ?_
    refine (wp_popAll h m hb s1).mono (fun _ s2 ⟨hm2, h2⟩ => ⟨hm1.trans hm2, fun hg => ?_⟩) fun _ _ h => h
    exact h2 hg (h1 (hm2.good_of hg) (heapFrom_half le base (m + 1) s.elems))
  · exact WP.of_pure ⟨.refl _ _ _ _, fun _ i j hi hij hj => by omega⟩

/-! ## Insertion sort -/

theorem wp_insert (h : Follows cmp le good) {ptr : Nat} (k : Nat) (hk : ptr + k < nmemb) (s : State α σ) :
    WP (insert cmp nmemb ptr k) s (fun _ s' => Moves good ptr (ptr + (k + 1)) s s' ∧
      (good s'.world → SortedOn le ptr (ptr + k) s.elems → SortedOn le ptr (ptr + (k + 1)) s'.elems))
      fun _ _ => False := by
  induction k generalizing s with
  | zero => exact WP.of_pure ⟨.refl _ _ _ _, fun _ _ i j hi hij hj => by omega⟩
  | succ k ih =>
    refine WP.seq (wp_compare h (by omega) hk s) (fun _ _ h => h) fun c s1 h1 => ?_
    refine WP.ite (fun hc => ?_) fun hc => ?_
    · refine WP.seq (wp_swap hk (by omega) s1) (fun _ _ h => h) ?_
      rintro _ s2 rfl
      refine (ih (by omega) _).mono (fun _ s3 ⟨hm3, h3⟩ => ⟨?_, fun hg hs => ?_⟩) fun _ _ h => h
      · exact (h1.moves _ _).trans ((Moves.swap s1 (by omega) (by omega)).trans
          (hm3.mono (Nat.le_refl ptr) (by omega)))
      · rw [h1.elems] at hm3 h3
        have hg1 : good s1.world := hm3.good_of hg
        have hmax : s3.elems (ptr + (k + 1)) = s.elems (ptr + k) := by
          rw [hm3.outside (by omega)]
          exact swapped_left s.elems _ _
        refine sortedOn_concat (ptr + (k + 1)) (h3 hg fun i j hi hij hj => ?_) fun i hi hik => ?_
        · show le (swapped s.elems (ptr + (k + 1)) (ptr + k) i) (swapped s.elems (ptr + (k + 1)) (ptr + k) j)
          rw [swapped_of_ne _ (by omega) (by omega), swapped_of_ne _ (by omega) (by omega)]
          exact hs i j hi hij (by omega)
        · -- what is in front of the place is not larger than what was there
          rw [hmax]
          refine hm3.shuffled.all (P := fun x => le x (s.elems (ptr + k))) (fun j hlo hj => ?_) i hi hik
          show le (swapped s.elems (ptr + (k + 1)) (ptr + k) j) (s.elems (ptr + k))
          by_cases hjk : j = ptr + k
          · rw [hjk, swapped_right]
            exact h1.nonneg hg1 (by omega)
          · rw [swapped_of_ne _ (by omega) hjk]
            exact hs j (ptr + k) hlo (by omega) (by omega)
    · refine WP.of_pure ⟨h1.moves _ _, fun hg hs => ?_⟩
      have hle := h1.nonpos hg (by omega)
      rw [h1.elems]
      refine sortedOn_concat (ptr + (k + 1)) hs fun i hi hik => ?_
      by_cases hieq : i = ptr + k
      · rw [hieq]
        exact hle
      · exact h.trans _ _ _ (hs i (ptr + k) hi (by omega) (by omega)) hle

theorem wp_insertAll (h : Follows cmp le good) {ptr top : Nat} (htop : top ≤ nmemb) (k : Nat) (hk : ptr + k ≤ top)
    (s : State α σ) :
    WP (insertAll cmp nmemb ptr top k) s (fun _ s' => Moves good ptr top s s' ∧
      (good s'.world → SortedOn le ptr (top - k) s.elems → SortedOn le ptr top s'.elems)) fun _ _ => False := by
  induction k generalizing s with
  | zero => exact WP.of_pure ⟨.refl _ _ _ _, fun _ hs => hs⟩
  | succ k ih =>
    refine WP.seq (wp_insert h (top - (k + 1) - ptr) (by omega) s) (fun _ _ h => h) fun _ s1 ⟨hm1, h1⟩ => ?_
    refine (ih (by omega) s1).mono (fun _ s2 ⟨hm2, h2⟩ => ⟨?_, fun hg hs => ?_⟩) fun _ _ h => h
    · exact (hm1.mono (Nat.le_refl ptr) (by omega)).trans hm2
    · have hsorted := h1 (hm2.good_of hg)
      rw [show ptr + (top - (k + 1) - ptr) = top - (k + 1) by omega,
        show ptr + (top - (k + 1) - ptr + 1) = top - k by omega] at hsorted
      exact h2 hg (hsorted hs)

end CkbJs.Proof.Sort
