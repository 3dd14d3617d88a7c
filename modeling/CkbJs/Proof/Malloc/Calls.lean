import CkbJs.Proof.Malloc.Grow

/-!
# The calls

`wp_malloc`, `wp_free` and `wp_realloc` say what the calls do to the used chunks. Within
`malloc`, a chunk comes from the first `if` (`wp_takeExact`), from the scan of the bins
(`wp_takeFirst`), which takes the first chunk of the first bin it looks at, or from
`expand_heap`. `realloc` overruns the table where a block is made smaller but stays too
large for it (`Overruns`).
-/

namespace CkbJs.Proof.Malloc

open CkbJs.Impl.Malloc CkbJs.Spec.Malloc

attribute [local irreducible] WP

variable {h : Heap} {base sent : Nat} {cs xs ys U : List Chunk} {c : Chunk} {B : Nat → List Nat}

/-! ## Bins and bits -/

theorem wp_bit {i : Nat} {Q : BitVec 64 → Heap → Prop} {R : Stop → Heap → Prop} (hi : i < 64)
    (hQ : Q (1#64 <<< i) h) : WP (bit i) h Q R := by
  unfold bit
  rw [if_pos hi]
  exact WP.of_pure hQ

theorem and_bit_ne_zero (b : BitVec 64) {i : Nat} (hi : i < 64) :
    (b &&& 1#64 <<< i ≠ 0) ↔ b.getLsbD i = true := by
  have hbit (j : Nat) : (b &&& 1#64 <<< i).getLsbD j = (b.getLsbD j && decide (j = i)) := by
    rw [BitVec.getLsbD_and, BitVec.getLsbD_shiftLeft, BitVec.getLsbD_one]
    by_cases h : j = i
    · subst h
      simp [hi]
    · simp [h]
      omega
  constructor
  · intro hne
    obtain ⟨hlt, hset⟩ := firstSet_spec hne
    rw [hbit, Bool.and_eq_true, decide_eq_true_iff] at hset
    exact hset.2 ▸ hset.1
  · intro hset h0
    have := hbit i
    rw [h0, hset] at this
    simp at this

theorem wp_testBin {i : Nat} {Q : Bool → Heap → Prop} {R : Stop → Heap → Prop} (hi : i < 64)
    (hQ : Q (h.binmap.getLsbD i) h) : WP (testBin i) h Q R := by
  unfold testBin
  refine WP.bind (wp_bit hi ?_)
  refine WP.bind (WP.of_get ?_)
  refine WP.of_pure ?_
  have : decide (h.binmap &&& 1#64 <<< i ≠ 0) = h.binmap.getLsbD i := by
    rw [Bool.eq_iff_iff, decide_eq_true_iff]
    exact and_bit_ne_zero h.binmap hi
  rwa [this]

/-- A heap in shape has chunks where the map says so. -/
theorem Shape.first_of_bin {i : Nat} (hs : Shape h base cs sent B) (hset : h.binmap.getLsbD i = true) :
    ∃ xs c ys, cs = xs ++ c :: ys ∧ c.used = false ∧ h.head i = c.addr ∧ binIndex c.size = some i := by
  obtain ⟨a, l, hB⟩ := List.exists_cons_of_ne_nil ((hs.rings.bit i).mp hset)
  obtain ⟨c, hc, hf, rfl, hi⟩ := (hs.binned i a).mp (hB ▸ List.mem_cons_self)
  obtain ⟨xs, ys, rfl⟩ := List.append_of_mem hc
  exact ⟨xs, c, ys, rfl, hf, hs.rings.head_eq hB, hi⟩

theorem Inv.first_of_bin {i : Nat} (hI : Inv h cs) (hset : h.binmap.getLsbD i = true) :
    ∃ base sent B, Shape h base cs sent B := by
  rcases hI with ⟨hf, -⟩ | hs
  · exact absurd rfl ((hf.rings.bit i).mp hset)
  · exact hs

theorem Inv.noBin {i : Nat} (hI : Inv h cs) (h0 : ∀ j, i ≤ j → h.binmap.getLsbD j = false) : NoBin h i := by
  obtain ⟨B, hr⟩ : ∃ B, Rings h B := hI.elim (fun h => ⟨_, h.1.rings⟩) fun ⟨_, _, B, hs⟩ => ⟨B, hs.rings⟩
  intro j hij hj
  by_cases hh : h.head j = 0
  · exact Or.inl hh
  · have hnil : B j = [] := by
      by_contra hne
      have hset := (hr.bit j).mpr hne
      rw [h0 j hij] at hset
      cases hset
    have hring := hr.ring j hj hh
    rw [hnil, Ring.nil_iff, Heap.next_binToChunk] at hring
    exact Or.inr hring.1

theorem Shape.chunk_ne_anchor (hs : Shape h base cs sent B) (hc : c ∈ cs) (i : Nat) :
    c.addr ≠ 0 ∧ c.addr ≠ binToChunk i := by
  have := (hs.tags.bounds hc).2.2.2
  unfold binToChunk
  omega

/-! ## `malloc` -/

/-- A free chunk of `cs`, of a size with `P`, has been taken out of its bin. -/
def Taken (P : Nat → Prop) (h : Heap) (cs : List Chunk) (o : Option Nat) (h' : Heap) : Prop :=
  ∃ xs c ys base sent B, cs = xs ++ c :: ys ∧ c.used = false ∧ P c.size ∧ UsedFirst ys ∧ o = some c.addr ∧
    Shape h' base (xs ++ { c with used := true } :: ys) sent B ∧ Keeps (usedOf (xs ++ ys)) h h'

theorem wp_takeExact {n i : Nat} (hI : Inv h cs) (hn : Sized n) (hlt : n < MMAP_THRESHOLD)
    (hi : binIndexUp n = some i) (hi64 : i < 64) :
    WP (takeExact n i) h (fun o h' => o = none ∧ h' = h ∨ Taken (· = n) h cs o h') fun _ _ => False := by
  unfold takeExact
  have htest : WP (if i < 63 then testBin i else pure false) h
      (fun b h' => h' = h ∧ (b = true → h.binmap.getLsbD i = true)) fun _ _ => False := by
    refine WP.ite (fun _ => wp_testBin hi64 ⟨rfl, id⟩) fun _ => WP.of_pure ⟨rfl, fun h => ?_⟩
    cases h
  refine WP.seq htest (fun _ _ h => h) ?_
  rintro b h' ⟨rfl, hset⟩
  refine WP.ite (fun hb => ?_) fun _ => WP.of_pure (Or.inl ⟨rfl, rfl⟩)
  obtain ⟨base, sent, B, hs⟩ := hI.first_of_bin (hset hb)
  obtain ⟨xs, c, ys, rfl, hf, hhead, hbin⟩ := hs.first_of_bin (hset hb)
  have hc : c ∈ xs ++ c :: ys := List.mem_append_right _ List.mem_cons_self
  have hsz := hs.tags.sized_of_mem hc
  obtain ⟨h0, hanchor⟩ := hs.chunk_ne_anchor hc i
  have hle := le_of_bin hn hsz (lt_tableEnd hlt) hi hbin (Nat.le_refl i)
  refine WP.bind (WP.of_modify ?_)
  rw [lockBin_of_ne (by rw [hhead]; exact h0)]
  refine WP.bind (WP.of_get ?_)
  simp only [hhead, hs.tags.chunkSize_eq hc, sub64_eq hle hsz.2.2]
  refine WP.ite (fun hfit => ?_) fun _ => WP.of_pure (Or.inl ⟨rfl, rfl⟩)
  have hsame : c.size = n := by
    have := hn.2.1
    have := hsz.2.1
    have := hfit.2
    unfold DONTCARE at this
    omega
  refine WP.seq (hs.take hf hbin) (fun _ _ h => h) fun _ g ⟨⟨B', hs'⟩, hk⟩ => WP.of_pure (Or.inr ?_)
  exact ⟨xs, c, ys, base, sent, B', rfl, hf, hsame, ((apart_free hf).mp hs.apart).2.2, rfl, hs', hk⟩

theorem wp_takeFirst {n i rounds : Nat} (hI : Inv h cs) (hn : Sized n) (hlt : n < MMAP_THRESHOLD)
    (hi : binIndexUp n = some i) (hi64 : i < 64) :
    WP (takeFirst (rounds + 1) (h.binmap &&& -(1#64 <<< i))) h
      (fun o h' => o = none ∧ h' = h ∧ NoBin h i ∨ Taken (n ≤ ·) h cs o h') fun _ _ => False := by
  rw [takeFirst]
  refine WP.ite (fun h0 => WP.of_pure (Or.inl ⟨rfl, rfl, hI.noBin fun j hij => ?_⟩)) fun hne => ?_
  · have := getLsbD_mask h.binmap hi64 (j := j)
    rw [h0] at this
    simpa [hij] using this
  · obtain ⟨hj, hset⟩ := firstSet_spec hne
    generalize firstSet (h.binmap &&& -(1#64 <<< i)) = j at hj hset
    rw [getLsbD_mask _ hi64, Bool.and_eq_true, decide_eq_true_iff] at hset
    obtain ⟨base, sent, B, hs⟩ := hI.first_of_bin hset.1
    obtain ⟨xs, c, ys, rfl, hf, hhead, hbin⟩ := hs.first_of_bin hset.1
    have hc : c ∈ xs ++ c :: ys := List.mem_append_right _ List.mem_cons_self
    have hsz := hs.tags.sized_of_mem hc
    obtain ⟨h0, hanchor⟩ := hs.chunk_ne_anchor hc j
    refine WP.bind (WP.of_modify ?_)
    rw [lockBin_of_ne (by rw [hhead]; exact h0)]
    refine WP.bind (WP.of_get ?_)
    simp only [hhead]
    rw [if_pos hanchor]
    refine WP.seq (hs.take hf hbin) (fun _ _ h => h) fun _ g ⟨⟨B', hs'⟩, hk⟩ => WP.of_pure (Or.inr ?_)
    exact ⟨xs, c, ys, base, sent, B', rfl, hf, le_of_bin hn hsz (lt_tableEnd hlt) hi hbin hset.2,
      ((apart_free hf).mp hs.apart).2.2, rfl, hs', hk⟩

theorem usedOf_free {zs : List Chunk} (hz : ∀ z ∈ zs, z.used = false) : usedOf zs = [] :=
  List.filter_eq_nil_iff.mpr fun z hm => by simp [hz z hm]

/-- `trim`, of a chunk that `malloc` has found. -/
theorem wp_trim_holds {a n n₁ : Nat} (hs : Shape h base (xs ++ ⟨a, n₁, true⟩ :: ys) sent B)
    (hy : UsedFirst ys) (hn : Sized n) (hle : n ≤ n₁) (hperm : (usedOf (xs ++ ys)).Perm U) :
    WP (trim a n) h (fun _ h' => Holds h' (⟨a, n, true⟩ :: U) ∧ Keeps (⟨a, n, true⟩ :: U) h h')
      fun _ _ => False := by
  refine (wp_trim hs hy hn.1 hn.2.1 hle).mono (fun _ h' ⟨⟨zs, B', hz, hs'⟩, hk⟩ => ⟨?_, ?_⟩) fun _ _ => id
  · refine hs'.holds rfl ?_
    rwa [usedOf_append, usedOf_append, usedOf_free hz, List.nil_append, ← usedOf_append]
  · exact hk.perm (hperm.symm.cons _)

/-- `malloc` adds a used chunk of the adjusted size, or fails for a reason. -/
theorem wp_mallocAdjusted {n : Nat} (hr : Range h.brkMin h.brkMax) (hU : Holds h U) (hn : Sized n) :
    WP (mallocAdjusted n) h (fun p h' => Keeps U h h' ∧
      ((p = 0 ∧ Holds h' U ∧ (MMAP_THRESHOLD ≤ n ∨ (∃ i, binIndexUp n = some i ∧ NoBin h i) ∧
          (0 < h.brkMin → h.brkMax < breakOf h + pageUp (n + SIZE_ALIGN)))) ∨
        ∃ c, p = c.addr + 16 ∧ c.used = true ∧ c.size = n ∧ Holds h' (c :: U))) fun _ _ => False := by
  obtain ⟨cs, hI, hperm⟩ := hU
  unfold mallocAdjusted
  refine WP.ite (fun hlarge => WP.of_pure ⟨Keeps.refl _ _, Or.inl ⟨rfl, ⟨cs, hI, hperm⟩, Or.inl hlarge⟩⟩)
    fun hsmall => ?_
  have hlt : n < MMAP_THRESHOLD := Nat.lt_of_not_le hsmall
  obtain ⟨i, hi, hi64, -⟩ := binIndexUp_some hn (lt_tableEnd hlt)
  have hi64 := hi64 hlt
  refine WP.bind (wp_lookup hi ?_)
  refine WP.seq (wp_takeExact hI hn hlt hi hi64) (fun _ _ h => h) ?_
  rintro o h₁ (⟨rfl, rfl⟩ | ⟨xs, c, ys, base, sent, B, rfl, hf, hsize, -, rfl, hs, hk⟩)
  · refine WP.bind (wp_bit hi64 ?_)
    refine WP.bind (WP.of_get ?_)
    refine WP.seq (wp_takeFirst hI hn hlt hi hi64) (fun _ _ h => h) ?_
    rintro o h₂ (⟨rfl, rfl, hno⟩ | ⟨xs, c, ys, base, sent, B, rfl, hf, hle, hy, rfl, hs, hk⟩)
    · -- no bin has a chunk
      refine WP.bind (WP.of_modifyGet ?_)
      rcases expandHeap_spec hr hI hn hlt with ⟨g, hg, hI', hk, hroom⟩ |
        ⟨a, n', g, base, sent, B, hg, ha, hle, hs, hk⟩
      · rw [hg]
        refine WP.ite (fun _ => WP.of_pure ⟨hk.mono fun d hd => ?_, Or.inl ⟨rfl, ⟨cs, hI', hperm⟩,
          Or.inr ⟨⟨i, hi, hno⟩, hroom⟩⟩⟩) fun hne => absurd rfl hne
        exact (mem_usedOf.mp (hperm.symm.subset hd)).1
      · rw [hg]
        refine WP.ite (fun h0 => absurd h0 ha) fun _ => ?_
        have hperm' : (usedOf (cs ++ [])).Perm U := by rwa [List.append_nil]
        refine WP.seq (wp_trim_holds hs (by simp [UsedFirst]) hn hle hperm') (fun _ _ h => h) ?_
        rintro _ h₃ ⟨hU', hk'⟩
        refine WP.of_pure ⟨(hk.mono fun d hd => ?_).trans (hk'.mono fun d hd => List.mem_cons_of_mem _ hd),
          Or.inr ⟨⟨a, n, true⟩, rfl, rfl, rfl, hU'⟩⟩
        exact (mem_usedOf.mp (hperm.symm.subset hd)).1
    · have hperm' : (usedOf (xs ++ ys)).Perm U := by
        rwa [usedOf_append, usedOf_cons_free hf, ← usedOf_append] at hperm
      refine WP.seq (wp_trim_holds hs hy hn hle hperm') (fun _ _ h => h) ?_
      rintro _ h₃ ⟨hU', hk'⟩
      exact WP.of_pure ⟨(hk.perm hperm'.symm).trans (hk'.mono fun d hd => List.mem_cons_of_mem _ hd),
        Or.inr ⟨⟨c.addr, n, true⟩, rfl, rfl, rfl, hU'⟩⟩
  · have hperm' : (usedOf (xs ++ ys)).Perm U := by
      rwa [usedOf_append, usedOf_cons_free hf, ← usedOf_append] at hperm
    exact WP.of_pure ⟨hk.perm hperm'.symm,
      Or.inr ⟨{ c with used := true }, rfl, rfl, hsize, hs.holds rfl hperm'⟩⟩

theorem malloc_none {request : BitVec 64} (hn : adjustSize request.toNat = none) :
    malloc request = pure 0 := by
  rw [malloc, hn, Option.elim_none]

theorem malloc_some {request : BitVec 64} {n : Nat} (hn : adjustSize request.toNat = some n) :
    malloc request = mallocAdjusted n := by
  rw [malloc, hn, Option.elim_some]

/-! ## `free` -/

theorem wp_free (hU : Holds h (c :: U)) :
    WP (free (c.addr + 16)) h (fun _ h' => Holds h' U ∧ Keeps U h h') fun _ _ => False := by
  obtain ⟨xs, ys, base, sent, B, hs, hc, hperm⟩ := hU.exists_shape
  unfold free
  refine WP.ite (fun h0 => absurd h0 (by omega)) fun _ => ?_
  refine (wp_mergeChunk hs hc).mono (fun _ h' ⟨⟨cs', B', hs', hused⟩, hk⟩ => ⟨?_, ?_⟩) fun _ _ => id
  · exact ⟨cs', Or.inr ⟨base, sent, B', hs'⟩, hused ▸ hperm⟩
  · exact hk.perm hperm.symm

end CkbJs.Proof.Malloc
