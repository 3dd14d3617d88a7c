import CkbJs.Proof.Malloc.Merge

/-!
# The growing heap

`Holds h U`: the heap `h` is in shape, or has not begun, and its used chunks are `U`.
`expandHeap_spec` is `expand_heap`: unless the break cannot move, there is a new used
chunk at the end, in the place of the sentinel (`Shape.extend`) or as the first
(`Fresh.extend`).
-/

namespace CkbJs.Proof.Malloc

open CkbJs.Impl.Malloc CkbJs.Spec.Malloc

/-- A heap that has not begun. -/
structure Fresh (h : Heap) : Prop where
  heapEnd : h.heapEnd = 0
  rings : Rings h fun _ => []
  page : h.programBreak % 4096 = 0
  min : h.programBreak ≠ 0 → h.brkMin ≤ h.programBreak
  lt : h.programBreak + 0x38000 < 2 ^ 64

def Inv (h : Heap) (cs : List Chunk) : Prop :=
  (Fresh h ∧ cs = []) ∨ ∃ base sent B, Shape h base cs sent B

def Holds (h : Heap) (U : List Chunk) : Prop := ∃ cs, Inv h cs ∧ (usedOf cs).Perm U

variable {h : Heap} {base sent : Nat} {cs xs ys U : List Chunk} {c : Chunk} {B : Nat → List Nat}

theorem perm_around (hc : c.used = true) (xs ys : List Chunk) :
    (usedOf (xs ++ c :: ys)).Perm (c :: usedOf (xs ++ ys)) := by
  rw [usedOf_append, usedOf_append, usedOf_cons_used hc]
  exact List.perm_middle

theorem Holds.exists_shape (hU : Holds h (c :: U)) : ∃ xs ys base sent B,
    Shape h base (xs ++ c :: ys) sent B ∧ c.used = true ∧ (usedOf (xs ++ ys)).Perm U := by
  obtain ⟨cs, hI, hperm⟩ := hU
  obtain ⟨hc, hu⟩ := mem_usedOf.mp (hperm.symm.subset List.mem_cons_self)
  rcases hI with ⟨-, rfl⟩ | ⟨base, sent, B, hs⟩
  · cases hc
  · obtain ⟨xs, ys, rfl⟩ := List.append_of_mem hc
    exact ⟨xs, ys, base, sent, B, hs, hu, ((perm_around hu xs ys).symm.trans hperm).cons_inv⟩

theorem Shape.holds (hs : Shape h base (xs ++ c :: ys) sent B) (hu : c.used = true)
    (hperm : (usedOf (xs ++ ys)).Perm U) : Holds h (c :: U) :=
  ⟨_, Or.inr ⟨base, sent, B, hs⟩, (perm_around hu xs ys).trans (hperm.cons c)⟩

theorem Keeps.perm {D D' : List Chunk} {h' : Heap} (hk : Keeps D h h') (hp : D'.Perm D) :
    Keeps D' h h' := hk.mono fun _ hc => hp.subset hc

/-! ## `expand_heap` -/

/-- The break after a call of `_sbrk` that does not wrap. -/
theorem sbrk_eq {incr : Nat} (hlt : breakOf h + incr < 2 ^ 64) : sbrk incr h =
    if h.brkMax < breakOf h + incr then (none, { h with programBreak := breakOf h })
    else (some (breakOf h), { h with programBreak := breakOf h + incr }) := by
  unfold breakOf at hlt ⊢
  by_cases h0 : h.programBreak = 0
  · simp only [sbrk, if_pos h0] at hlt ⊢
    rw [Nat.mod_eq_of_lt hlt]
  · simp only [sbrk, if_neg h0] at hlt ⊢
    rw [Nat.mod_eq_of_lt hlt]

/-- The tags after `expand_heap`: a used chunk in the place of the sentinel. -/
theorem Tags.extend {n : Nat} {m : Mem} {h' : Heap} (hm : h'.mem = m) (htiles : ChunksTile base cs sent)
    (hsized : ∀ c ∈ cs, c.size % 32 = 0) (haligned : base % 32 = 16) (hlt : sent + n < 2 ^ 64)
    (hcsize : ∀ c ∈ cs, h.csize c.addr = c.tag) (hpsize : ∀ c ∈ cs, h.psize (c.addr + c.size) = c.tag)
    (hfirst : h.psize base = 1) (hw : Mem.Within (sent + 8) (sent + n + 16) h.mem m) (hn : 32 ≤ n)
    (hmod : n % 32 = 0) (hc : h'.csize sent = n + 1) (hp : h'.psize (sent + n) = n + 1)
    (hlast : h'.csize (sent + n) = 1) : Tags h' base (cs ++ [⟨sent, n, true⟩]) (sent + n) := by
  subst hm
  have hle := htiles.le
  have hmem {c : Chunk} (hc : c ∈ cs) : c.addr + 32 ≤ sent ∧ c.addr + c.size ≤ sent := by
    have := htiles.mem hc
    have := hsized c hc
    omega
  have hold {w : Nat} (hw' : w + 8 ≤ sent + 8) : h'.word w = h.word w := hw.load_eq (by omega)
  refine ⟨Tiles.append.mpr ⟨sent, htiles, ⟨rfl, show 0 < n by omega, rfl⟩⟩, ?_, haligned, hlt, ?_, ?_, ?_,
    hlast⟩
  · rw [List.forall_mem_append, List.forall_mem_singleton]
    exact ⟨hsized, hmod⟩
  · rw [List.forall_mem_append, List.forall_mem_singleton]
    refine ⟨fun c hc => ?_, hc⟩
    have := hmem hc
    exact (hold (by omega)).trans (hcsize c hc)
  · rw [List.forall_mem_append, List.forall_mem_singleton]
    refine ⟨fun c hc => ?_, hp⟩
    have := hmem hc
    exact (hold (by omega)).trans (hpsize c hc)
  · exact (hold (by omega)).trans hfirst

/-- The words that `expand_heap` writes for a chunk of `n` bytes at `a`. -/
def footed (a n : Nat) (h : Heap) : Heap :=
  (({ h with heapEnd := a + n + 16 }.setPsize (a + n) (n + 1)).setCsize (a + n) 1).setCsize a (n + 1)

theorem footed_spec {a n : Nat} (hn : 32 ≤ n) (hlt : n + 1 < 2 ^ 64) :
    Mem.Within (a + 8) (a + n + 16) h.mem (footed a n h).mem ∧ (footed a n h).csize a = n + 1 ∧
      (footed a n h).psize (a + n) = n + 1 ∧ (footed a n h).csize (a + n) = 1 := by
  refine ⟨?_, Heap.word_setWord_self _ hlt, ?_, ?_⟩
  · refine Mem.Within.trans ?_ ((Mem.Within.store _ _ _ _).mono (by omega) (by omega))
    refine Mem.Within.trans ?_ ((Mem.Within.store _ _ _ _).mono (by omega) (by omega))
    exact (Mem.Within.store _ _ _ _).mono (by omega) (by omega)
  · refine (Heap.word_setWord_sep _ (by omega)).trans ?_
    refine (Heap.word_setWord_sep _ (by omega)).trans ?_
    exact Heap.word_setWord_self _ hlt
  · refine (Heap.word_setWord_sep _ (by omega)).trans ?_
    exact Heap.word_setWord_self _ (by omega)

/-- A chunk of `n` bytes is put in the place of the sentinel. -/
theorem Shape.extend {n brk : Nat} (hs : Shape h base cs sent B) (hn : 32 ≤ n) (hmod : n % 32 = 0)
    (hlt : sent + n < 2 ^ 64) (hmax : sent + n + 16 ≤ h.brkMax) (hbrk : brk = sent + n + 16) :
    Shape (footed sent n { h with programBreak := brk }) base (cs ++ [⟨sent, n, true⟩]) (sent + n) B ∧
      Keeps cs h (footed sent n { h with programBreak := brk }) := by
  obtain ⟨hw, hc, hp, hl⟩ := @footed_spec { h with programBreak := brk } sent n hn (by omega)
  have hlinks : ∀ i, ∀ x ∈ B i, x + 32 ≤ sent := by
    intro i x hx
    obtain ⟨c, hc, -, rfl, -⟩ := (hs.binned i x).mp hx
    have := hs.tags.bounds hc
    omega
  refine ⟨⟨?_, ?_, ?_, ?_, ?_⟩, rfl, rfl, fun c hc x hx hx' => hw x ?_⟩
  · exact @Tags.extend h base sent cs n _ _ rfl hs.tags.tiles hs.tags.sized hs.tags.aligned hlt
      hs.tags.csize hs.tags.psize hs.tags.first hw hn hmod hc hp hl
  · refine hs.rings.within hw (fun i x hx => Or.inl ?_) rfl rfl rfl
    have := hlinks i x hx
    omega
  · refine hs.binned.congr fun c hf => ?_
    rw [List.mem_append, List.mem_singleton]
    refine ⟨Or.inl, fun h => h.resolve_right ?_⟩
    rintro rfl
    cases hf
  · exact (apart_used rfl).mpr ⟨hs.apart, List.isChain_nil⟩
  · have := hs.limits.lt
    exact ⟨by omega, rfl, hbrk, hmax, hs.limits.min⟩
  · have := (hs.tags.bounds hc).2.2.1
    omega

/-- The first chunk. -/
theorem Fresh.extend {n b brk : Nat} (hf : Fresh h) (hb : b % 32 = 0) (hmin : h.brkMin ≤ b) (hn : 32 ≤ n)
    (hmod : n % 32 = 0) (hlt : b + 32 + n < 2 ^ 64) (hmax : b + 32 + n ≤ h.brkMax)
    (hbrk : brk = b + 32 + n) :
    Shape (footed (b + 16) n ({ h with programBreak := brk }.setPsize (b + 16) 1)) (b + 16)
      [⟨b + 16, n, true⟩] (b + 16 + n) fun _ => [] := by
  generalize hg : ({ h with programBreak := brk } : Heap).setPsize (b + 16) 1 = g
  have hfirst : g.psize (b + 16) = 1 := hg ▸ Heap.word_setWord_self _ (by omega)
  obtain ⟨hw, hc, hp, hl⟩ := @footed_spec g (b + 16) n hn (by omega)
  have hfields : g.head = h.head ∧ g.tail = h.tail ∧ g.binmap = h.binmap ∧ g.programBreak = brk ∧
      g.brkMin = h.brkMin ∧ g.brkMax = h.brkMax := by
    rw [← hg]
    exact ⟨rfl, rfl, rfl, rfl, rfl, rfl⟩
  obtain ⟨hhead, htail, hmap, hpb, hmin', hmax'⟩ := hfields
  have hwg : Mem.Within (b + 16) (b + 16 + 8) h.mem g.mem := hg ▸ Mem.Within.store _ _ _ _
  refine ⟨?_, ?_, ?_, List.isChain_singleton _, ⟨?_, rfl, ?_, ?_, ?_⟩⟩
  · exact @Tags.extend g (b + 16) (b + 16) [] n (footed (b + 16) n g).mem (footed (b + 16) n g) rfl rfl
      (by simp) (by omega) (by omega) (by simp) (by simp) hfirst hw hn hmod hc hp hl
  · have hall : Mem.Within (b + 16) (b + 16 + n + 16) h.mem (footed (b + 16) n g).mem :=
      (hwg.mono (Nat.le_refl _) (by omega)).trans (hw.mono (by omega) (Nat.le_refl _))
    exact hf.rings.within hall (fun i x hx => absurd hx List.not_mem_nil) hhead htail hmap
  · intro i a
    simp
  · omega
  · show g.programBreak = _
    omega
  · show _ ≤ g.brkMax
    omega
  · show g.brkMin ≤ _
    omega

/-- The pages that `expand_heap` asks for. -/
theorem pageUp_bounds {n : Nat} (hn : Sized n) (hlt : n < MMAP_THRESHOLD) :
    n + 32 ≤ pageUp (n + SIZE_ALIGN) ∧ pageUp (n + SIZE_ALIGN) ≤ 0x38000 ∧
      pageUp (n + SIZE_ALIGN) % 4096 = 0 := by
  have h32 := hn.2.1
  simp only [MMAP_THRESHOLD, SIZE_ALIGN] at hlt ⊢
  rw [pageUp_eq (by omega)]
  omega

theorem expandHeap_none {n : Nat} {g : Heap} (hs : sbrk (pageUp (n + SIZE_ALIGN)) h = (none, g)) :
    expandHeap n h = (0, g) := by
  simp only [expandHeap, hs, Option.getD_none, if_true]

theorem expandHeap_zero {n : Nat} {g : Heap} (hs : sbrk (pageUp (n + SIZE_ALIGN)) h = (some 0, g)) :
    expandHeap n h = (0, g) := by
  simp only [expandHeap, hs, Option.getD_some, if_true]

/-- The break is not where the heap ended: a new heap begins there. -/
theorem expandHeap_new {n p N : Nat} {g : Heap} (hN : pageUp (n + SIZE_ALIGN) = N) (hmod : N % 32 = 0)
    (hs : sbrk N h = (some p, g)) (h0 : p ≠ 0) (hend : p ≠ g.heapEnd) :
    expandHeap n h = (p + 16, footed (p + 16) (N - 32) (g.setPsize (p + 16) 1)) := by
  have hw : withInuse (N - SIZE_ALIGN) = N - 32 + 1 := withInuse_eq (by simp only [SIZE_ALIGN]; omega)
  have h₁ : memToChunk (p + SIZE_ALIGN) = p + 16 := by
    simp only [memToChunk, SIZE_ALIGN, OVERHEAD]
    omega
  have h₂ : memToChunk (p + SIZE_ALIGN + (N - SIZE_ALIGN)) = p + 16 + (N - 32) := by
    simp only [memToChunk, SIZE_ALIGN, OVERHEAD]
    omega
  have h₃ : p + SIZE_ALIGN + (N - SIZE_ALIGN) = p + 16 + (N - 32) + 16 := by
    simp only [SIZE_ALIGN]
    omega
  simp only [expandHeap, hN, hs, Option.getD_some, if_neg h0, if_pos hend, hw, h₁, h₂, footed]
  rw [h₃]
  rfl

/-- The break is where the heap ended: it goes on. -/
theorem expandHeap_more {n p N : Nat} {g : Heap} (hN : pageUp (n + SIZE_ALIGN) = N) (hmod : N % 32 = 0)
    (hs : sbrk N h = (some (p + 16), g)) (hend : p + 16 = g.heapEnd) :
    expandHeap n h = (p, footed p N g) := by
  have hw : withInuse N = N + 1 := withInuse_eq hmod
  have h₁ : memToChunk (p + 16) = p := Nat.add_sub_cancel ..
  have h₂ : memToChunk (p + 16 + N) = p + N := by
    simp only [memToChunk, OVERHEAD]
    omega
  have h₃ : p + 16 + N = p + N + 16 := by omega
  simp only [expandHeap, hN, hs, Option.getD_some, if_neg (show p + 16 ≠ 0 by omega),
    if_neg (not_not.mpr hend), hw, h₁, h₂, footed]
  rw [h₃]
  rfl

/-- A heap that has not begun stays so when only its break moves. -/
theorem Fresh.break {brk : Nat} (hf : Fresh h) (hpage : brk % 4096 = 0) (hmin : brk ≠ 0 → h.brkMin ≤ brk)
    (hlt : brk + 0x38000 < 2 ^ 64) : Fresh { h with programBreak := brk } where
  heapEnd := hf.heapEnd
  rings := @Rings.within h _ hf.rings { h with programBreak := brk } 0 0 (fun _ _ => rfl)
    (fun _ _ hx => absurd hx List.not_mem_nil) rfl rfl rfl
  page := hpage
  min := hmin
  lt := hlt

theorem Fresh.breakOf (hr : Range h.brkMin h.brkMax) (hf : Fresh h) : breakOf h % 4096 = 0 ∧
    h.brkMin ≤ breakOf h ∧ Spec.Malloc.breakOf h + 0x38000 < 2 ^ 64 := by
  have hmin := hr.min_le
  have hpage := hf.page
  have hlt := hf.lt
  unfold Spec.Malloc.breakOf
  split
  · rw [pageUp_eq (by omega)]
    omega
  · have := hf.min ‹_›
    omega

/-- Either `expand_heap` fails, or its chunk is the last one. -/
theorem expandHeap_spec {n : Nat} (hr : Range h.brkMin h.brkMax) (hI : Inv h cs) (hn : Sized n)
    (hlt : n < MMAP_THRESHOLD) :
    (∃ g, expandHeap n h = (0, g) ∧ Inv g cs ∧ Keeps cs h g ∧
      (0 < h.brkMin → h.brkMax < breakOf h + pageUp (n + SIZE_ALIGN))) ∨
    ∃ a n' g base sent B, expandHeap n h = (a, g) ∧ a ≠ 0 ∧ n ≤ n' ∧
      Shape g base (cs ++ [⟨a, n', true⟩]) sent B ∧ Keeps cs h g := by
  obtain ⟨hle, hlarge, hpage⟩ := pageUp_bounds hn hlt
  generalize hN : pageUp (n + SIZE_ALIGN) = N at hle hlarge hpage
  have hn32 := hn.1
  have hmax' := hr.max_lt
  rcases hI with ⟨hf, rfl⟩ | ⟨base, sent, B, hs⟩
  · obtain ⟨hbp, hbm, hbl⟩ := hf.breakOf hr
    have hsbrk := @sbrk_eq h N (by omega)
    by_cases hmax : h.brkMax < breakOf h + N
    · rw [if_pos hmax] at hsbrk
      have hfresh := @Fresh.break h (breakOf h) hf hbp (fun _ => hbm) hbl
      exact Or.inl ⟨{ h with programBreak := breakOf h }, expandHeap_none (by rw [hN, hsbrk]),
        Or.inl ⟨hfresh, rfl⟩, ⟨rfl, rfl, by simp⟩, fun _ => hmax⟩
    rw [if_neg hmax] at hsbrk
    by_cases h0 : breakOf h = 0
    · rw [h0, Nat.zero_add] at hsbrk
      have hfresh := @Fresh.break h N hf hpage (fun _ => by omega) (by omega)
      refine Or.inl ⟨{ h with programBreak := N }, expandHeap_zero (by rw [hN, hsbrk]), Or.inl ⟨hfresh, rfl⟩,
        ⟨rfl, rfl, by simp⟩, fun hpos => ?_⟩
      omega
    · have hend : breakOf h ≠ h.heapEnd := by
        rw [hf.heapEnd]
        exact h0
      have hshape := @Fresh.extend h (N - 32) (breakOf h) (breakOf h + N) hf (by omega) hbm (by omega)
        (by omega) (by omega) (by omega) (by omega)
      exact Or.inr ⟨_, N - 32, _, _, _, _, expandHeap_new hN (by omega) hsbrk h0 hend, by omega, by omega,
        hshape, rfl, rfl, by simp⟩
  · have hpb := hs.limits.programBreak
    have hend := hs.limits.heapEnd
    have hsl := hs.limits.max
    have hb : breakOf h = sent + 16 := by
      rw [breakOf, if_neg (by omega), hpb]
    have hsbrk := @sbrk_eq h N (by omega)
    by_cases hmax : h.brkMax < breakOf h + N
    · rw [if_pos hmax, hb, ← hpb] at hsbrk
      exact Or.inl ⟨h, expandHeap_none (by rw [hN, hsbrk]), Or.inr ⟨base, sent, B, hs⟩, Keeps.refl _ _,
        fun _ => hmax⟩
    · rw [if_neg hmax, hb] at hsbrk
      obtain ⟨hs', hk⟩ := @Shape.extend h base sent cs B N (sent + 16 + N) hs (by omega) (by omega) (by omega)
        (by omega) (by omega)
      refine Or.inr ⟨sent, N, _, base, sent + N, B, expandHeap_more hN (by omega) hsbrk hend.symm, ?_,
        by omega, hs', hk⟩
      have := tiles_mod hs.tags.tiles hs.tags.sized
      have := hs.tags.aligned
      omega

end CkbJs.Proof.Malloc
