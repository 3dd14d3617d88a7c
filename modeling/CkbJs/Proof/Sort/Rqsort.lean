import CkbJs.Proof.Sort.Partition

/-!
# `rqsort` sorts

The segments on the stack and the one at hand are all that is not in order
(`wp_segment`, `wp_segments`). The depth of an entry is at least its place in
the stack, which bounds the stack, and with each turn of the outer loop the
segments get smaller, however the elements compare. So every comparison
function leaves a permutation of the array (`rqsort_permutes`), and one that
follows an order leaves the array sorted (`rqsort_sorts`).
-/

namespace CkbJs.Proof.Sort

open CkbJs.Impl.Sort CkbJs.Spec.Sort CkbJs.Shuffle

variable {α σ : Type} {cmp : α → α → σ → Int × σ} {le : α → α → Prop} {good : σ → Prop} {nmemb : Nat}

def segs (stack : List Entry) : List Segment := stack.map fun e => ⟨e.base, e.count⟩

/-- What the turns of the outer loop make smaller. -/
def weight : List Entry → Nat
  | [] => 0
  | e :: stack => e.count + 1 + weight stack

theorem weight_cons (e : Entry) (stack : List Entry) : weight (e :: stack) = e.count + 1 + weight stack := rfl

/-- The entries are inside of the array, and none is further up in the stack
than its depth. -/
def Fits (nmemb : Nat) : List Entry → Prop
  | [] => True
  | e :: stack => e.base + e.count ≤ nmemb ∧ stack.length ≤ e.depth ∧ Fits nmemb stack

/-! ## One segment -/

theorem Split.ordered {ptr n : Nat} {s s' : State α σ} {r : Nat × Nat} (hs : Split le good ptr n s r s')
    (htrans : ∀ a b c, le a b → le b c → le a c) (hg : good s'.world) {i j : Nat} (hi : ptr ≤ i) (hij : i < j)
    (hj : j < ptr + n) :
    (i < ptr + r.1 ∧ j < ptr + r.1) ∨ (ptr + n - r.2 ≤ i ∧ ptr + n - r.2 ≤ j) ∨ le (s'.elems i) (s'.elems j) := by
  obtain ⟨v, hleft, hmid, hright⟩ := hs.parts hg
  have hlt := hs.lt
  by_cases hj1 : j < ptr + r.1
  · exact .inl ⟨by omega, hj1⟩
  by_cases hi2 : ptr + n - r.2 ≤ i
  · exact .inr (.inl ⟨hi2, by omega⟩)
  -- otherwise the pivot is between the two
  refine .inr (.inr (htrans _ v _ ?_ ?_))
  · by_cases hi1 : i < ptr + r.1
    · exact hleft i hi hi1
    · exact (hmid i (by omega) (by omega)).2
  · by_cases hj2 : ptr + n - r.2 ≤ j
    · exact hright j hj2 hj
    · exact (hmid j (by omega) (by omega)).1

/-- The two segments that a partition leaves replace the one before it. -/
theorem Split.settled {ptr n : Nat} {s s' : State α σ} {r : Nat × Nat} (hs : Split le good ptr n s r s')
    (htrans : ∀ a b c, le a b → le b c → le a c) (hg : good s'.world) {rest new : List Segment}
    (hnew : new = [⟨ptr + n - r.2, r.2⟩, ⟨ptr, r.1⟩] ∨ new = [⟨ptr, r.1⟩, ⟨ptr + n - r.2, r.2⟩])
    (hset : Settled le nmemb (⟨ptr, n⟩ :: rest) s.elems) : Settled le nmemb (new ++ rest) s'.elems := by
  have hlt := hs.lt
  have hleft : Segment.mk ptr r.1 ∈ new := by rcases hnew with rfl | rfl <;> simp
  have hright : Segment.mk (ptr + n - r.2) r.2 ∈ new := by rcases hnew with rfl | rfl <;> simp
  refine hset.refine new hs.moves.shuffled ?_ ?_ fun i j hi hj hij => ?_
  · rcases hnew with rfl | rfl
    · refine List.pairwise_pair.2 fun i hi hj => ?_
      simp only [Segment.Has] at hi hj
      omega
    · refine List.pairwise_pair.2 fun i hi hj => ?_
      simp only [Segment.Has] at hi hj
      omega
  · intro t ht
    have ht' : t = ⟨ptr, r.1⟩ ∨ t = ⟨ptr + n - r.2, r.2⟩ := by
      rcases hnew with rfl | rfl
      · exact (List.mem_pair.1 ht).symm
      · exact List.mem_pair.1 ht
    obtain rfl | rfl := ht' <;> simp only [Segment.Within] <;> omega
  · simp only [Segment.Has] at hi hj
    rcases hs.ordered htrans hg hi.1 hij hj.2 with ⟨h1, h2⟩ | ⟨h1, h2⟩ | hle
    · exact .inl ⟨_, hleft, ⟨hi.1, h1⟩, ⟨hj.1, h2⟩⟩
    · refine .inl ⟨_, hright, ⟨h1, ?_⟩, ⟨h2, ?_⟩⟩ <;> simp only <;> omega
    · exact .inr hle

/-- What the loop over a segment does: the segment that is left, and the stack,
are `r`. -/
structure Reduced (le : α → α → Prop) (good : σ → Prop) (nmemb ptr n : Nat) (stack : List Entry) (s : State α σ)
    (r : Nat × Nat × List Entry) (s' : State α σ) : Prop where
  moves : Moves good 0 nmemb s s'
  inside : r.1 + r.2.1 ≤ nmemb
  fits : Fits nmemb r.2.2
  weight_le : r.2.1 + weight r.2.2 ≤ n + weight stack
  settled : good s'.world → Settled le nmemb (⟨ptr, n⟩ :: segs stack) s.elems →
    Settled le nmemb (⟨r.1, r.2.1⟩ :: segs r.2.2) s'.elems

/-- One of the two segments goes to the stack, and the loop goes on with the
other one. -/
theorem Split.reduced {ptr n p m : Nat} {e : Entry} {stack : List Entry} {s s1 s2 : State α σ} {r : Nat × Nat}
    {r' : Nat × Nat × List Entry} (hs : Split le good ptr n s r s1) (htrans : ∀ a b c, le a b → le b c → le a c)
    (hin : ptr + n ≤ nmemb) (hcount : m + e.count = r.1 + r.2)
    (hnew : [⟨p, m⟩, ⟨e.base, e.count⟩] = [Segment.mk (ptr + n - r.2) r.2, ⟨ptr, r.1⟩] ∨
      [⟨p, m⟩, ⟨e.base, e.count⟩] = [Segment.mk ptr r.1, ⟨ptr + n - r.2, r.2⟩])
    (h : Reduced le good nmemb p m (e :: stack) s1 r' s2) : Reduced le good nmemb ptr n stack s r' s2 where
  moves := (hs.moves.mono (Nat.zero_le _) hin).trans h.moves
  inside := h.inside
  fits := h.fits
  weight_le := by
    have hlt := hs.lt
    have hw := h.weight_le
    rw [weight_cons] at hw
    omega
  settled hg hset := h.settled hg (hs.settled htrans (h.moves.good_of hg) hnew hset)

theorem wp_push {e : Entry} {stack : List Entry} (h : stack.length < STACK_SIZE) {s : State α σ}
    {Q : List Entry → State α σ → Prop} {R : Stop → State α σ → Prop} (hQ : Q (e :: stack) s) :
    WP (push e stack) s Q R := by
  unfold push
  rw [if_pos h]
  exact WP.of_pure hQ

theorem wp_segment (h : Follows cmp le good) (fuel ptr n depth : Nat) (stack : List Entry) (hin : ptr + n ≤ nmemb)
    (hstack : Fits nmemb stack) (hdepth : stack.length ≤ depth) (hfuel : n < fuel) (s : State α σ) :
    WP (segment cmp nmemb fuel ptr n depth stack) s (Reduced le good nmemb ptr n stack s) fun _ _ => False := by
  induction fuel generalizing ptr n depth stack s with
  | zero => omega
  | succ fuel ih =>
    refine WP.ite (fun hn => ?_) fun hn => WP.of_pure ⟨.refl _ _ _ _, hin, hstack, Nat.le_refl _, fun _ hs => hs⟩
    refine WP.ite (fun _ => ?_) fun hmax => ?_
    · refine WP.seq (wp_heapsortx h hin s) (fun _ _ h => h) fun _ s1 ⟨hm1, h1⟩ => ?_
      refine WP.of_pure ⟨hm1.mono (Nat.zero_le _) hin, by show ptr + 0 ≤ nmemb; omega, hstack,
        by show 0 + weight stack ≤ n + weight stack; omega, fun hg hset => ?_⟩
      refine hset.refine [⟨ptr, 0⟩] hm1.shuffled (List.pairwise_singleton _ _) (fun t ht => ?_)
        fun i j hi hj hij => ?_
      · rw [List.mem_singleton.1 ht]
        exact ⟨Nat.le_refl ptr, Nat.add_le_add_left (Nat.zero_le n) ptr⟩
      · exact .inr (h1 hg i j hi.1 hij hj.2)
    · refine WP.seq (wp_split h hn hin s) (fun _ _ h => h) ?_
      rintro ⟨lt, gt⟩ s1 h1
      have hlt := h1.lt
      have hroom : stack.length < STACK_SIZE := by
        unfold MAX_DEPTH at hmax
        unfold STACK_SIZE
        omega
      dsimp only at hlt ⊢
      refine WP.ite (fun _ => ?_) fun _ => ?_
      · refine WP.bind (wp_push hroom ?_)
        refine (ih (ptr + n - gt) gt (depth + 1) (⟨ptr, lt, depth + 1⟩ :: stack) (by omega) ?_ ?_ (by omega)
          s1).mono (fun r s2 h2 => h1.reduced h.trans hin (Nat.add_comm gt lt) (.inl rfl) h2) fun _ _ h => h
        · exact ⟨by show ptr + lt ≤ nmemb; omega, Nat.le_succ_of_le hdepth, hstack⟩
        · exact Nat.succ_le_succ hdepth
      · refine WP.bind (wp_push hroom ?_)
        refine (ih ptr lt (depth + 1) (⟨ptr + n - gt, gt, depth + 1⟩ :: stack) (by omega) ?_ ?_ (by omega)
          s1).mono (fun r s2 h2 => h1.reduced h.trans hin rfl (.inr rfl) h2) fun _ _ h => h
        · exact ⟨by show ptr + n - gt + gt ≤ nmemb; omega, Nat.le_succ_of_le hdepth, hstack⟩
        · exact Nat.succ_le_succ hdepth

/-! ## All segments -/

theorem wp_segments (h : Follows cmp le good) (fuel : Nat) (stack : List Entry) (hstack : Fits nmemb stack)
    (hfuel : weight stack < fuel) (s : State α σ) :
    WP (segments cmp nmemb fuel stack) s (fun _ s' => Moves good 0 nmemb s s' ∧
      (good s'.world → Settled le nmemb (segs stack) s.elems → SortedOn le 0 nmemb s'.elems)) fun _ _ => False := by
  induction fuel generalizing stack s with
  | zero => omega
  | succ fuel ih =>
    cases stack with
    | nil => exact WP.of_pure ⟨.refl _ _ _ _, fun _ hset => hset.sorted⟩
    | cons e stack =>
      obtain ⟨hin, hdepth, hrest⟩ := hstack
      rw [weight_cons] at hfuel
      refine WP.seq (wp_segment h (e.count + 1) e.base e.count e.depth stack hin hrest hdepth (Nat.lt_succ_self _) s)
        (fun _ _ h => h) ?_
      rintro ⟨ptr, n, stack'⟩ s1 ⟨hm1, hin1, hfits1, hweight1, hset1⟩
      dsimp only at hin1 hfits1 hweight1 hset1 ⊢
      refine WP.seq (wp_insertAll h hin1 (n - 1) (by omega) s1) (fun _ _ h => h) fun _ s2 ⟨hm2, h2⟩ => ?_
      refine (ih stack' hfits1 (by omega) s2).mono (fun _ s3 ⟨hm3, h3⟩ => ⟨?_, fun hg hset => h3 hg ?_⟩) fun _ _ h => h
      · exact (hm1.trans (hm2.mono (Nat.zero_le _) hin1)).trans hm3
      · have hg2 : good s2.world := hm3.good_of hg
        refine (hset1 (hm2.good_of hg2) hset).refine [] hm2.shuffled List.Pairwise.nil
          (fun t ht => absurd ht List.not_mem_nil) fun i j hi hj hij => .inr ?_
        exact h2 hg2 (fun i j hi hij hj => by omega) i j hi.1 hij hj.2

theorem wp_rqsort (h : Follows cmp le good) (nmemb : Nat) (s : State α σ) :
    WP (rqsort cmp nmemb) s (fun _ s' => Moves good 0 nmemb s s' ∧
      (good s'.world → SortedOn le 0 nmemb s'.elems)) fun _ _ => False := by
  refine WP.ite (fun hn => ?_) fun _ => ?_
  · exact WP.of_pure ⟨.refl _ _ _ _, fun _ i j hi hij hj => by omega⟩
  · refine (wp_segments h (nmemb + 2) [⟨0, nmemb, 0⟩] ⟨by simp, by simp, trivial⟩ (by simp [weight]) s).mono
      (fun _ s' ⟨hm, hs⟩ => ⟨hm, fun hg => hs hg (.start le nmemb s.elems)⟩) fun _ _ h => h

/-! ## What every comparison keeps -/

section Keeps

variable {I : σ → Prop}

variable (h : ∀ a b w, I w → I (cmp a b w).2)

include h

end Keeps

/-- A comparison function that is never believed. -/
theorem follows_never (cmp : α → α → σ → Int × σ) : Follows cmp (fun _ _ => True) fun _ => False where
  refl _ := trivial
  trans _ _ _ _ _ := trivial
  good_of _ _ _ hg := hg.elim
  nonpos _ _ _ hg := hg.elim
  nonneg _ _ _ hg := hg.elim

/-- Whatever the comparison function answers and changes, `rqsort` ends: no
access is outside of the array, the stack does not overflow, and the elements
are the same ones as before. -/
theorem rqsort_permutes (cmp : α → α → σ → Int × σ) (nmemb : Nat) (s : State α σ) :
    ∃ s', (rqsort cmp nmemb).run s = .ok () s' ∧ (elements nmemb s').Perm (elements nmemb s) ∧
      ∀ i, nmemb ≤ i → s'.elems i = s.elems i := by
  obtain ⟨_, s', hrun, hm, _⟩ := (wp_rqsort (follows_never cmp) nmemb s).exists_ok
  exact ⟨s', hrun, hm.shuffled.perm, fun i hi => hm.outside (by omega)⟩

/-- If the answers follow an order to the end, the array is sorted. -/
theorem rqsort_sorts (h : Follows cmp le good) (nmemb : Nat) (s : State α σ) :
    ∃ s', (rqsort cmp nmemb).run s = .ok () s' ∧ (elements nmemb s').Perm (elements nmemb s) ∧
      (good s'.world → (elements nmemb s').Pairwise le) := by
  obtain ⟨_, s', hrun, hm, hs⟩ := (wp_rqsort h nmemb s).exists_ok
  exact ⟨s', hrun, hm.shuffled.perm, fun hg => (hs hg).pairwise⟩

/-- The difference of two numbers, with a count of the calls. -/
def difference (a b : Int) (calls : Nat) : Int × Nat := (a - b, calls + 1)

theorem follows_difference : Follows difference (· ≤ ·) fun _ => True where
  refl := Int.le_refl
  trans _ _ _ := Int.le_trans
  good_of _ _ _ _ := trivial
  nonpos a b _ _ := by
    simp only [difference]
    omega
  nonneg a b _ _ := by
    simp only [difference]
    omega

/-- The numbers below 8 in another order. -/
def sampleArray : State Int Nat := ⟨fun i => (5 * i % 8 : Nat), 0⟩

theorem rqsort_sorts_sample :
    ∃ s', (rqsort difference 8).run sampleArray = .ok () s' ∧
      (elements 8 s').Perm [0, 5, 2, 7, 4, 1, 6, 3] ∧ (elements 8 s').Pairwise (· ≤ ·) := by
  obtain ⟨s', hrun, hperm, hsorted⟩ := rqsort_sorts follows_difference 8 sampleArray
  exact ⟨s', hrun, hperm, hsorted trivial⟩

end CkbJs.Proof.Sort
