import CkbJs.Proof.Sort.Steps

/-!
# The partition

`Low le v lo plt pi a` and `High le v pj pgt top a` are the two ends of the
array while it is partitioned by the pivot `v`: elements like the pivot at the
outside, and next to them those that do not exceed it, or that it does not
exceed. Each loop makes them grow (`wp_scanUp`, `wp_scanDown`,
`wp_partition`); then the elements like the pivot are moved to the middle, and
an element of the left segment, of the middle and of the right segment are in
order (`wp_split`).
-/

namespace CkbJs.Proof.Sort

open CkbJs.Impl.Sort CkbJs.Spec.Sort CkbJs.Shuffle

variable {α σ : Type} {cmp : α → α → σ → Int × σ} {le : α → α → Prop} {good : σ → Prop} {nmemb : Nat}
  {v : α} {ptr lo plt pi pj pgt top : Nat} {a a' : Nat → α}

/-- As large as `v`. -/
def Alike (le : α → α → Prop) (v x : α) : Prop := le v x ∧ le x v

structure Low (le : α → α → Prop) (v : α) (lo plt pi : Nat) (a : Nat → α) : Prop where
  alike : ∀ i, lo ≤ i → i < plt → Alike le v (a i)
  below : ∀ i, plt ≤ i → i < pi → le (a i) v

structure High (le : α → α → Prop) (v : α) (pj pgt top : Nat) (a : Nat → α) : Prop where
  above : ∀ i, pj ≤ i → i < pgt → le v (a i)
  alike : ∀ i, pgt ≤ i → i < top → Alike le v (a i)

theorem Low.congr (h : Low le v lo plt pi a) (hplt : plt ≤ pi) (heq : ∀ i, lo ≤ i → i < pi → a' i = a i)
    (hlo : lo ≤ plt) : Low le v lo plt pi a' where
  alike i hi hp := heq i hi (by omega) ▸ h.alike i hi hp
  below i hi hp := heq i (by omega) hp ▸ h.below i hi hp

theorem High.congr (h : High le v pj pgt top a) (hpgt : pj ≤ pgt) (heq : ∀ i, pj ≤ i → i < top → a' i = a i)
    (htop : pgt ≤ top) : High le v pj pgt top a' where
  above i hi hp := heq i hi (by omega) ▸ h.above i hi hp
  alike i hi hp := heq i (by omega) hp ▸ h.alike i hi hp

/-- One more element that does not exceed the pivot. -/
theorem Low.grow (h : Low le v lo plt pi a) (hle : le (a pi) v) : Low le v lo plt (pi + 1) a where
  alike := h.alike
  below i hi hp := by
    by_cases heq : i = pi
    · rw [heq]
      exact hle
    · exact h.below i hi (by omega)

/-- One more element like the pivot, which is exchanged with the first of those
below it. -/
theorem Low.growAlike (h : Low le v lo plt pi a) (hplt : plt ≤ pi) (hle : Alike le v (a pi)) :
    Low le v lo (plt + 1) (pi + 1) (swapped a plt pi) where
  alike i hi hp := by
    by_cases heq : i = plt
    · rw [heq, swapped_left]
      exact hle
    · rw [swapped_of_ne a heq (by omega)]
      exact h.alike i hi (by omega)
  below i hi hp := by
    by_cases heq : i = pi
    · rw [heq, swapped_right]
      exact h.below plt (Nat.le_refl plt) (by omega)
    · rw [swapped_of_ne a (by omega) heq]
      exact h.below i (by omega) (by omega)

theorem High.grow (h : High le v (pj + 1) pgt top a) (hle : le v (a pj)) : High le v pj pgt top a where
  above i hi hp := by
    by_cases heq : i = pj
    · rw [heq]
      exact hle
    · exact h.above i (by omega) hp
  alike := h.alike

theorem High.growAlike (h : High le v (pj + 1) pgt top a) (hpgt : pj + 1 ≤ pgt) (hle : Alike le v (a pj)) :
    High le v pj (pgt - 1) top (swapped a (pgt - 1) pj) where
  above i hi hp := by
    by_cases heq : i = pj
    · rw [heq, swapped_right]
      exact h.above (pgt - 1) (by omega) (by omega)
    · rw [swapped_of_ne a (by omega) heq]
      exact h.above i (by omega) (by omega)
  alike i hi hp := by
    by_cases heq : i = pgt - 1
    · rw [heq, swapped_left]
      exact hle
    · rw [swapped_of_ne a heq (by omega)]
      exact h.alike i (by omega) hp

/-! ## The two scans -/

/-- What the first scan does, from `pi` on: the new `pi` and `plt` are `r`. -/
structure Up (le : α → α → Prop) (good : σ → Prop) (v : α) (ptr plt pi pj : Nat) (s : State α σ) (r : Nat × Nat)
    (s' : State α σ) : Prop where
  moves : Moves good (ptr + 1) pj s s'
  plt_le : plt ≤ r.2
  le_pi : r.2 ≤ r.1
  pi_le : pi ≤ r.1
  le_pj : r.1 ≤ pj
  low : good s'.world → Low le v ptr plt pi s.elems → Low le v ptr r.2 r.1 s'.elems
  stop : good s'.world → r.1 < pj → le v (s'.elems r.1)

theorem wp_scanUp (h : Follows cmp le good) (k plt : Nat) (hplt : ptr < plt) (hpi : plt + k ≤ pj) (hpj : pj ≤ nmemb)
    (s : State α σ) (hv : s.elems ptr = v) :
    WP (scanUp cmp nmemb ptr pj k plt) s (Up le good v ptr plt (pj - k) pj s) fun _ _ => False := by
  induction k generalizing plt s with
  | zero =>
    exact WP.of_pure ⟨.refl _ _ _ _, Nat.le_refl _, by omega, Nat.le_refl _, Nat.le_refl _, fun _ hl => hl,
      fun _ hlt => absurd hlt (Nat.lt_irrefl _)⟩
  | succ k ih =>
    refine WP.seq (wp_compare h (by omega) (by omega) s) (fun _ _ h => h) fun c s1 h1 => ?_
    have hm1 : Moves good (ptr + 1) pj s s1 := h1.moves _ _
    have hpk : pj - (k + 1) + 1 = pj - k := by omega
    refine WP.ite (fun hc => ?_) fun hc => ?_
    · have hbelow : good s1.world → le (s.elems (pj - (k + 1))) v := fun hg => hv ▸ h1.nonneg hg hc
      refine WP.ite (fun hc0 => ?_) fun hc0 => ?_
      · refine WP.seq (wp_swap (by omega) (by omega) s1) (fun _ _ h => h) ?_
        rintro _ s2 rfl
        have hm2 : Moves good (ptr + 1) pj s ⟨swapped s1.elems plt (pj - (k + 1)), s1.world⟩ :=
          hm1.trans (.swap s1 (by omega) (by omega))
        refine (ih (plt + 1) (by omega) (by omega) _ ?_).mono (fun r s3 h3 => ?_) fun _ _ h => h
        · rw [hm2.outside (by omega), hv]
        · refine ⟨hm2.trans h3.moves, by have := h3.plt_le; omega, h3.le_pi, by have := h3.pi_le; omega, h3.le_pj,
            fun hg hl => h3.low hg ?_, h3.stop⟩
          have hg1 : good s1.world := h3.moves.good_of hg
          show Low le v ptr (plt + 1) (pj - k) (swapped s1.elems plt (pj - (k + 1)))
          rw [← hpk, h1.elems]
          refine hl.growAlike (by omega) ⟨?_, hbelow hg1⟩
          rw [← hv]
          exact h1.nonpos hg1 (by omega)
      · refine (ih plt (by omega) (by omega) s1 (by rw [h1.elems, hv])).mono (fun r s3 h3 => ?_) fun _ _ h => h
        refine ⟨hm1.trans h3.moves, h3.plt_le, h3.le_pi, by have := h3.pi_le; omega, h3.le_pj,
          fun hg hl => h3.low hg ?_, h3.stop⟩
        rw [← hpk, h1.elems]
        exact hl.grow (hbelow (h3.moves.good_of hg))
    · refine WP.of_pure ⟨hm1, Nat.le_refl _, by show plt ≤ pj - (k + 1); omega, Nat.le_refl _, Nat.sub_le _ _,
        fun _ hl => by rw [h1.elems]; exact hl, fun hg _ => ?_⟩
      rw [h1.elems, ← hv]
      exact h1.nonpos hg (by omega)

/-- What the second scan does, down from `pj`: the new `pj` and `pgt` are `r`. -/
structure Down (le : α → α → Prop) (good : σ → Prop) (v : α) (pi pj pgt top : Nat) (s : State α σ) (r : Nat × Nat)
    (s' : State α σ) : Prop where
  moves : Moves good (pi + 1) pgt s s'
  pi_le : pi ≤ r.1
  lt_pj : r.1 < pj
  lt_pgt : r.1 < r.2
  pgt_le : r.2 ≤ pgt
  high : good s'.world → High le v pj pgt top s.elems → High le v (r.1 + 1) r.2 top s'.elems
  stop : good s'.world → pi < r.1 → le (s'.elems r.1) v

theorem wp_scanDown (h : Follows cmp le good) (k pgt top : Nat) (hptr : ptr < pi) (hpgt : pi + (k + 1) ≤ pgt)
    (hn : pgt ≤ nmemb) (s : State α σ) (hv : s.elems ptr = v) :
    WP (scanDown cmp nmemb ptr pi (k + 1) pgt) s (Down le good v pi (pi + (k + 1)) pgt top s)
      fun _ _ => False := by
  induction k generalizing pgt s with
  | zero =>
    refine WP.ite (fun hlt => absurd hlt (Nat.lt_irrefl pi)) fun _ => ?_
    exact WP.of_pure ⟨.refl _ _ _ _, Nat.le_refl _, Nat.lt_succ_self _, by show pi < pgt; omega, Nat.le_refl _,
      fun _ hh => hh, fun _ hlt => absurd hlt (Nat.lt_irrefl _)⟩
  | succ k ih =>
    refine WP.ite (fun _ => ?_) fun hlt => absurd hlt (by omega)
    refine WP.seq (wp_compare h (by omega) (by omega) s) (fun _ _ h => h) fun c s1 h1 => ?_
    have hm1 : Moves good (pi + 1) pgt s s1 := h1.moves _ _
    refine WP.ite (fun hc => ?_) fun hc => ?_
    · have habove : good s1.world → le v (s.elems (pi + (k + 1))) := fun hg => hv ▸ h1.nonpos hg hc
      refine WP.ite (fun hc0 => ?_) fun hc0 => ?_
      · refine WP.seq (wp_swap (by omega) (by omega) s1) (fun _ _ h => h) ?_
        rintro _ s2 rfl
        have hm2 : Moves good (pi + 1) pgt s ⟨swapped s1.elems (pgt - 1) (pi + (k + 1)), s1.world⟩ :=
          hm1.trans (.swap s1 (by omega) (by omega))
        refine (ih (pgt - 1) (by omega) (by omega) _ ?_).mono (fun r s3 h3 => ?_) fun _ _ h => h
        · rw [hm2.outside (by omega), hv]
        · refine ⟨hm2.trans (h3.moves.mono (Nat.le_refl _) (Nat.sub_le _ _)), h3.pi_le, by have := h3.lt_pj; omega,
            h3.lt_pgt, by have := h3.pgt_le; omega, fun hg hh => h3.high hg ?_, h3.stop⟩
          have hg1 : good s1.world := h3.moves.good_of hg
          show High le v (pi + (k + 1)) (pgt - 1) top (swapped s1.elems (pgt - 1) (pi + (k + 1)))
          rw [h1.elems]
          refine High.growAlike hh (by omega) ⟨habove hg1, ?_⟩
          rw [← hv]
          exact h1.nonneg hg1 (by omega)
      · refine (ih pgt (by omega) hn s1 (by rw [h1.elems, hv])).mono (fun r s3 h3 => ?_) fun _ _ h => h
        refine ⟨hm1.trans h3.moves, h3.pi_le, by have := h3.lt_pj; omega, h3.lt_pgt, h3.pgt_le,
          fun hg hh => h3.high hg ?_, h3.stop⟩
        rw [h1.elems]
        exact High.grow hh (habove (h3.moves.good_of hg))
    · refine WP.of_pure ⟨hm1, Nat.le_add_right _ _, by show pi + (k + 1) < pi + (k + 1 + 1); omega,
        by show pi + (k + 1) < pgt; omega, Nat.le_refl _, fun _ hh => by rw [h1.elems]; exact hh, fun hg _ => ?_⟩
      rw [h1.elems, ← hv]
      exact h1.nonneg hg (by omega)

/-! ## The loop -/

/-- What the loop does: `pi`, `plt` and `pgt` at its end are `r`. -/
structure Parted (le : α → α → Prop) (good : σ → Prop) (v : α) (ptr plt pi pj pgt top : Nat) (s : State α σ)
    (r : Nat × Nat × Nat) (s' : State α σ) : Prop where
  moves : Moves good (ptr + 1) top s s'
  ptr_lt : ptr < r.2.1
  le_pi : r.2.1 ≤ r.1
  le_pgt : r.1 ≤ r.2.2
  le_top : r.2.2 ≤ top
  low : good s'.world → Low le v ptr plt pi s.elems → High le v pj pgt top s.elems →
    Low le v ptr r.2.1 r.1 s'.elems
  high : good s'.world → Low le v ptr plt pi s.elems → High le v pj pgt top s.elems →
    High le v r.1 r.2.2 top s'.elems

theorem wp_partition (h : Follows cmp le good) (htop : top ≤ nmemb) (fuel pi plt pj pgt : Nat) (hptr : ptr < plt)
    (hplt : plt ≤ pi) (hpi : pi ≤ pj) (hpj : pj ≤ pgt) (hpgt : pgt ≤ top) (hfuel : pj - pi < fuel)
    (s : State α σ) (hv : s.elems ptr = v) :
    WP (partition cmp nmemb ptr fuel pi plt pj pgt) s (Parted le good v ptr plt pi pj pgt top s)
      fun _ _ => False := by
  induction fuel generalizing pi plt pj pgt s with
  | zero => omega
  | succ fuel ih =>
    refine WP.seq (wp_scanUp h (pj - pi) plt hptr (by omega) (by omega) s hv) (fun _ _ h => h) ?_
    rintro ⟨pi1, plt1⟩ s1 h1
    have hpi_eq : pj - (pj - pi) = pi := by omega
    rw [hpi_eq] at h1
    obtain ⟨hm1, hplt1, hlepi1, hpi1, hlepj1, hlow1, hstop1⟩ := h1
    dsimp only at hplt1 hlepi1 hpi1 hlepj1 hlow1 hstop1 ⊢
    have hv1 : s1.elems ptr = v := by rw [hm1.outside (by omega), hv]
    have hframe1 (hh : High le v pj pgt top s.elems) : High le v pj pgt top s1.elems :=
      hh.congr hpj (fun i hi _ => hm1.outside (by omega)) hpgt
    by_cases hmeet : pi1 = pj
    · -- the first scan has met the second one
      subst hmeet
      rw [Nat.sub_self]
      refine WP.ite (fun _ => ?_) fun hlt => absurd (Nat.sub_le pi1 1) hlt
      refine WP.of_pure ⟨hm1.mono (Nat.le_refl _) (by omega), by show ptr < plt1; omega, hlepi1, hpj, hpgt,
        fun hg hl _ => hlow1 hg hl, fun _ _ hh => hframe1 hh⟩
    · obtain ⟨k, hk⟩ : ∃ k, pj - pi1 = k + 1 := ⟨pj - pi1 - 1, by omega⟩
      have hpj_eq : pi1 + (k + 1) = pj := by omega
      rw [hk]
      refine WP.seq (wp_scanDown h k pgt top (by omega) (by omega) (by omega) s1 hv1) (fun _ _ h => h) ?_
      rintro ⟨pj2, pgt2⟩ s2 h2
      rw [hpj_eq] at h2
      obtain ⟨hm2, hpi2, hltpj2, hltpgt2, hpgt2, hhigh2, hstop2⟩ := h2
      dsimp only at hpi2 hltpj2 hltpgt2 hpgt2 hhigh2 hstop2 ⊢
      have hlow2 (hg : good s2.world) (hl : Low le v ptr plt pi s.elems) : Low le v ptr plt1 pi1 s2.elems :=
        (hlow1 (hm2.good_of hg) hl).congr hlepi1 (fun i _ hi => hm2.outside (by omega)) (by omega)
      have hstep2 (hg : good s2.world) (hh : High le v pj pgt top s.elems) :
          High le v (pj2 + 1) pgt2 top s2.elems := hhigh2 hg (hframe1 hh)
      have hat : s2.elems pi1 = s1.elems pi1 := hm2.outside (by omega)
      have habove (hg : good s2.world) : le v (s2.elems pi1) := hat ▸ hstop1 (hm2.good_of hg) (by omega)
      have hm12 : Moves good (ptr + 1) top s s2 :=
        (hm1.mono (Nat.le_refl _) (by omega)).trans (hm2.mono (by omega) (by omega))
      refine WP.ite (fun hmeet2 => ?_) fun hmeet2 => ?_
      · have heq : pj2 = pi1 := by omega
        subst heq
        exact WP.of_pure ⟨hm12, by show ptr < plt1; omega, hlepi1, by show pj2 ≤ pgt2; omega,
          by show pgt2 ≤ top; omega, fun hg hl _ => hlow2 hg hl, fun hg _ hh => (hstep2 hg hh).grow (habove hg)⟩
      · refine WP.seq (wp_swap (by omega) (by omega) s2) (fun _ _ h => h) ?_
        rintro _ s3 rfl
        have hm3 : Moves good (ptr + 1) top s ⟨swapped s2.elems pi1 pj2, s2.world⟩ :=
          hm12.trans (.swap s2 (by omega) (by omega))
        refine (ih (pi1 + 1) plt1 pj2 pgt2 (by omega) (by omega) (by omega) (by omega) (by omega) (by omega) _
          ?_).mono (fun r s4 h4 => ?_) fun _ _ h => h
        · rw [hm3.outside (by omega), hv]
        have hg2 (hg : good s4.world) : good s2.world := h4.moves.good_of hg
        have hlow3 (hg : good s4.world) (hl : Low le v ptr plt pi s.elems) :
            Low le v ptr plt1 (pi1 + 1) (swapped s2.elems pi1 pj2) := by
          refine Low.grow ((hlow2 (hg2 hg) hl).congr hlepi1 (fun i _ hi => ?_) (by omega)) ?_
          · exact swapped_of_ne s2.elems (by omega) (by omega)
          · rw [swapped_left]
            exact hstop2 (hg2 hg) (by omega)
        have hhigh3 (hg : good s4.world) (hh : High le v pj pgt top s.elems) :
            High le v pj2 pgt2 top (swapped s2.elems pi1 pj2) := by
          refine High.grow ((hstep2 (hg2 hg) hh).congr hltpgt2 (fun i hi _ => ?_) (by omega)) ?_
          · exact swapped_of_ne s2.elems (by omega) (by omega)
          · rw [swapped_right]
            exact habove (hg2 hg)
        exact ⟨hm3.trans h4.moves, h4.ptr_lt, h4.le_pi, h4.le_pgt, h4.le_top,
          fun hg hl hh => h4.low hg (hlow3 hg hl) (hhigh3 hg hh),
          fun hg hl hh => h4.high hg (hlow3 hg hl) (hhigh3 hg hh)⟩

/-! ## The elements like the pivot go to the middle -/

/-- The `n` elements from `x` on and those from `y` on are exchanged. -/
structure Exchanged (x y n : Nat) (a a' : Nat → α) : Prop where
  left : ∀ k < n, a' (x + k) = a (y + k)
  right : ∀ k < n, a' (y + k) = a (x + k)
  others : ∀ i, ¬(x ≤ i ∧ i < x + n) → ¬(y ≤ i ∧ i < y + n) → a' i = a i

theorem wp_swapBlock (good : σ → Prop) (n x y : Nat) (hxy : x + n ≤ y) (hy : y + n ≤ nmemb) (s : State α σ) :
    WP (swapBlock nmemb x y n) s (fun _ s' => Moves good x (y + n) s s' ∧ Exchanged x y n s.elems s'.elems)
      fun _ _ => False := by
  induction n generalizing x y s with
  | zero => exact WP.of_pure ⟨.refl _ _ _ _, ⟨fun _ h => absurd h (Nat.not_lt_zero _),
      fun _ h => absurd h (Nat.not_lt_zero _), fun _ _ _ => rfl⟩⟩
  | succ n ih =>
    refine WP.seq (wp_swap (by omega) (by omega) s) (fun _ _ h => h) ?_
    rintro _ s1 rfl
    refine (ih (x + 1) (y + 1) (by omega) (by omega) _).mono (fun _ s2 ⟨hm, he⟩ => ⟨?_, ?_, ?_, ?_⟩) fun _ _ h => h
    · exact (Moves.swap s (by omega) (by omega)).trans (hm.mono (Nat.le_succ x) (by omega))
    · intro k hk
      cases k with
      | zero =>
        rw [he.others _ (by omega) (by omega)]
        exact swapped_left s.elems x y
      | succ k =>
        rw [show x + (k + 1) = x + 1 + k by omega, he.left k (by omega)]
        show swapped s.elems x y (y + 1 + k) = _
        rw [swapped_of_ne _ (by omega) (by omega), show y + 1 + k = y + (k + 1) by omega]
    · intro k hk
      cases k with
      | zero =>
        rw [he.others _ (by omega) (by omega)]
        exact swapped_right s.elems x y
      | succ k =>
        rw [show y + (k + 1) = y + 1 + k by omega, he.right k (by omega)]
        show swapped s.elems x y (x + 1 + k) = _
        rw [swapped_of_ne _ (by omega) (by omega), show x + 1 + k = x + (k + 1) by omega]
    · intro i hx hy
      rw [he.others i (by omega) (by omega)]
      exact swapped_of_ne s.elems (by omega) (by omega)

theorem Low.exchange (h : Low le v lo plt pi a) (hlo : lo ≤ plt) (hplt : plt ≤ pi)
    (he : Exchanged lo (pi - min (plt - lo) (pi - plt)) (min (plt - lo) (pi - plt)) a a') :
    (∀ i, lo ≤ i → i < lo + (pi - plt) → le (a' i) v) ∧
      ∀ i, lo + (pi - plt) ≤ i → i < pi → Alike le v (a' i) := by
  generalize hspan : min (plt - lo) (pi - plt) = span at he
  constructor
  · intro i hi hp
    by_cases hin : i < lo + span
    · obtain ⟨k, rfl⟩ := Nat.exists_eq_add_of_le hi
      rw [he.left k (by omega)]
      exact h.below _ (by omega) (by omega)
    · rw [he.others i (by omega) (by omega)]
      exact h.below i (by omega) (by omega)
  · intro i hi hp
    by_cases hin : pi - span ≤ i
    · obtain ⟨k, rfl⟩ := Nat.exists_eq_add_of_le hin
      rw [he.right k (by omega)]
      exact h.alike _ (by omega) (by omega)
    · rw [he.others i (by omega) (by omega)]
      exact h.alike i (by omega) (by omega)

theorem High.exchange (h : High le v pi pgt top a) (hpi : pi ≤ pgt) (hpgt : pgt ≤ top)
    (he : Exchanged pi (top - min (top - pgt) (pgt - pi)) (min (top - pgt) (pgt - pi)) a a') :
    (∀ i, pi ≤ i → i < top - (pgt - pi) → Alike le v (a' i)) ∧
      ∀ i, top - (pgt - pi) ≤ i → i < top → le v (a' i) := by
  generalize hspan : min (top - pgt) (pgt - pi) = span at he
  constructor
  · intro i hi hp
    by_cases hin : i < pi + span
    · obtain ⟨k, rfl⟩ := Nat.exists_eq_add_of_le hi
      rw [he.left k (by omega)]
      exact h.alike _ (by omega) (by omega)
    · rw [he.others i (by omega) (by omega)]
      exact h.alike i (by omega) (by omega)
  · intro i hi hp
    by_cases hin : top - span ≤ i
    · obtain ⟨k, rfl⟩ := Nat.exists_eq_add_of_le hin
      rw [he.right k (by omega)]
      exact h.above _ (by omega) (by omega)
    · rw [he.others i (by omega) (by omega)]
      exact h.above i (by omega) (by omega)

theorem wp_med3 (h : Follows cmp le good) {a b c : Nat} (ha : a < nmemb) (hb : b < nmemb) (hc : c < nmemb)
    (s : State α σ) :
    WP (med3 cmp nmemb a b c) s (fun m s' => (∀ lo hi, Moves good lo hi s s') ∧ (m = a ∨ m = b ∨ m = c))
      fun _ _ => False := by
  refine WP.seq (wp_compare h ha hb s) (fun _ _ h => h) fun _ s1 h1 => ?_
  refine WP.ite (fun _ => ?_) fun _ => ?_
  all_goals
    refine WP.seq (wp_compare h hb hc s1) (fun _ _ h => h) fun _ s2 h2 => ?_
    refine WP.ite (fun _ => ?_) fun _ => ?_
    · exact WP.of_pure ⟨fun lo hi => (h1.moves lo hi).trans (h2.moves lo hi), .inr (.inl rfl)⟩
    · refine WP.seq (wp_compare h ha hc s2) (fun _ _ h => h) fun _ s3 h3 => ?_
      have hm (lo hi : Nat) : Moves good lo hi s s3 :=
        ((h1.moves lo hi).trans (h2.moves lo hi)).trans (h3.moves lo hi)
      refine WP.ite (fun _ => WP.of_pure ⟨hm, ?_⟩) fun _ => WP.of_pure ⟨hm, ?_⟩ <;> simp

/-- What a partition does: `r` are the numbers of the elements in the two
segments that are left. -/
structure Split (le : α → α → Prop) (good : σ → Prop) (ptr n : Nat) (s : State α σ) (r : Nat × Nat)
    (s' : State α σ) : Prop where
  moves : Moves good ptr (ptr + n) s s'
  lt : r.1 + r.2 < n
  parts : good s'.world → ∃ v, (∀ i, ptr ≤ i → i < ptr + r.1 → le (s'.elems i) v) ∧
    (∀ i, ptr + r.1 ≤ i → i < ptr + n - r.2 → Alike le v (s'.elems i)) ∧
    ∀ i, ptr + n - r.2 ≤ i → i < ptr + n → le v (s'.elems i)

theorem wp_split (h : Follows cmp le good) {n : Nat} (hn : 6 < n) (htop : ptr + n ≤ nmemb) (s : State α σ) :
    WP (split cmp nmemb ptr n) s (Split le good ptr n s) fun _ _ => False := by
  refine WP.seq (wp_med3 h (by omega) (by omega) (by omega) s) (fun _ _ h => h) fun m s1 ⟨hm1, hm⟩ => ?_
  refine WP.seq (wp_swap (by omega) (by omega) s1) (fun _ _ h => h) ?_
  rintro _ s2 rfl
  have hm2 : Moves good ptr (ptr + n) s ⟨swapped s1.elems ptr m, s1.world⟩ :=
    (hm1 _ _).trans (.swap s1 (by omega) (by omega))
  obtain ⟨v, hv⟩ : ∃ v, swapped s1.elems ptr m ptr = v := ⟨_, rfl⟩
  refine WP.seq (wp_partition h htop n (ptr + 1) (ptr + 1) (ptr + n) (ptr + n) (by omega) (Nat.le_refl _) (by omega)
    (Nat.le_refl _) (Nat.le_refl _) (by omega) _ hv) (fun _ _ h => h) ?_
  rintro ⟨pi, plt, pgt⟩ s3 ⟨hm3, hptr, hplt, hpgt, htop', hlow, hhigh⟩
  dsimp only at hptr hplt hpgt htop' hlow hhigh ⊢
  refine WP.seq (wp_swapBlock good _ ptr _ (by omega) (by omega) s3) (fun _ _ h => h) fun _ s4 ⟨hm4, he4⟩ => ?_
  refine WP.seq (wp_swapBlock good _ pi _ (by omega) (by omega) s4) (fun _ _ h => h) fun _ s5 ⟨hm5, he5⟩ => ?_
  refine WP.of_pure ⟨?_, by show pi - plt + (pgt - pi) < n; omega, fun hg => ⟨v, ?_⟩⟩
  · exact ((hm2.trans (hm3.mono (by omega) (Nat.le_refl _))).trans (hm4.mono (Nat.le_refl _) (by omega))).trans
      (hm5.mono (by omega) (by omega))
  · have hlow0 : Low le v ptr (ptr + 1) (ptr + 1) (swapped s1.elems ptr m) := by
      refine ⟨fun i hi hp => ?_, fun i hi hp => by omega⟩
      rw [show i = ptr by omega, hv]
      exact ⟨h.refl v, h.refl v⟩
    have hhigh0 : High le v (ptr + n) (ptr + n) (ptr + n) (swapped s1.elems ptr m) :=
      ⟨fun i hi hp => by omega, fun i hi hp => by omega⟩
    have hg3 : good s3.world := hm4.good_of (hm5.good_of hg)
    obtain ⟨hleft, hmid⟩ := (hlow hg3 hlow0 hhigh0).exchange (by omega) hplt he4
    -- what is behind `pi` does not change with the first exchange, nor what is before it with the second
    have hhigh4 : High le v pi pgt (ptr + n) s4.elems :=
      (hhigh hg3 hlow0 hhigh0).congr hpgt (fun i hi _ => he4.others i (by omega) (by omega)) htop'
    obtain ⟨hmid', hright⟩ := hhigh4.exchange hpgt htop' he5
    have hkeep (i : Nat) (hi : i < pi) : s5.elems i = s4.elems i := he5.others i (by omega) (by omega)
    refine ⟨fun i hi hp => ?_, fun i hi hp => ?_, fun i hi hp => hright i hi hp⟩
    · rw [hkeep i (by omega)]
      exact hleft i hi hp
    · by_cases hip : i < pi
      · rw [hkeep i hip]
        exact hmid i hi hip
      · exact hmid' i (by omega) hp

end CkbJs.Proof.Sort
