import CkbJs.Proof.Malloc.Calls

/-!
# `realloc`

`wp_reallocAdjusted`: a block becomes one of the new size, by cutting it (`wp_shrink`),
by taking in the free chunk after it (`wp_enlarge`), or by copying (`wp_copyRealloc`). It
keeps the data that fits, and where it returns NULL the block has become larger.
A block that is made smaller but stays too large for the table stops the program
(`wp_reallocAdjusted_overruns`).
-/

namespace CkbJs.Proof.Malloc

open CkbJs.Impl.Malloc CkbJs.Spec.Malloc

attribute [local irreducible] WP

variable {h : Heap} {base sent : Nat} {xs ys U : List Chunk} {c : Chunk} {B : Nat → List Nat}

/-- A write into the data of a used chunk. -/
theorem Holds.write {m : Mem} (hU : Holds h (c :: U))
    (hm : Mem.Within (c.addr + 16) (c.addr + c.size) h.mem m) :
    Holds { h with mem := m } (c :: U) ∧ Keeps U h { h with mem := m } := by
  obtain ⟨xs, ys, base, sent, B, hs, hc, hperm⟩ := hU.exists_shape
  have hmem : c ∈ xs ++ c :: ys := List.mem_append_right _ List.mem_cons_self
  obtain ⟨hxs, hpos, hys⟩ := Tiles.split.mp hs.tags.tiles
  have hw : Mem.Within (c.addr + 8) (c.addr + c.size + 8) h.mem m := hm.mono (by omega) (by omega)
  obtain ⟨htags, hrings, hkeeps⟩ := @Shape.retag h base sent xs ys B c.addr (c.addr + c.size) m [c] [c] hs
    (List.forall_mem_singleton.mpr hc) hxs hys (Tiles.singleton_iff.mpr ⟨rfl, hpos, rfl⟩) hw
    (List.forall_mem_singleton.mpr (hs.tags.sized c hmem))
    (List.forall_mem_singleton.mpr ((hm.load_eq (Or.inl (by omega))).trans (hs.tags.csize c hmem)))
    (List.forall_mem_singleton.mpr ((hm.load_eq (Or.inr (Nat.le_refl _))).trans (hs.tags.psize c hmem)))
  refine ⟨Shape.holds ⟨htags, hrings, hs.binned, hs.apart, hs.limits.congr rfl⟩ hc hperm, hkeeps.mono fun d hd => ?_⟩
  exact (mem_usedOf.mp (hperm.symm.subset hd)).1

/-- What `realloc` does to the used chunk `c` when it is to have the size `n`. -/
def Moved (c : Chunk) (U : List Chunk) (n : Nat) (h : Heap) (q : Nat) (h' : Heap) : Prop :=
  Keeps U h h' ∧ ∃ c', q = c'.addr + 16 ∧ c'.used = true ∧ c'.size = n ∧ Holds h' (c' :: U) ∧
    ∀ i, i + 16 < n → i + 16 < c.size → h'.mem (q + i) = h.mem (c.addr + 16 + i)

/-- What `realloc` leaves when it returns NULL. -/
def Failed (c : Chunk) (U : List Chunk) (h : Heap) (q : Nat) (h' : Heap) : Prop :=
  q = 0 ∧ Holds h' (c :: U) ∧ Keeps (c :: U) h h'

theorem wp_copyRealloc {n : Nat} (hr : Range h.brkMin h.brkMax) (hU : Holds h (c :: U)) (hn : Sized n) :
    WP (copyRealloc (c.addr + 16) n c.size) h (fun q h' => Moved c U n h q h' ∨
      Failed c U h q h' ∧ (MMAP_THRESHOLD ≤ n ∨ ∃ i, binIndexUp n = some i ∧ NoBin h i)) fun _ _ => False := by
  have hmalloc : WP (malloc (BitVec.ofNat 64 (n - OVERHEAD))) h (fun p h' => Keeps (c :: U) h h' ∧
      ((p = 0 ∧ Holds h' (c :: U) ∧ (MMAP_THRESHOLD ≤ n ∨ ∃ i, binIndexUp n = some i ∧ NoBin h i)) ∨
        ∃ c', p = c'.addr + 16 ∧ c'.used = true ∧ c'.size = n ∧ Holds h' (c' :: c :: U))) fun _ _ => False := by
    rcases Nat.lt_or_ge n MMAP_THRESHOLD with hlt | hge
    · rw [malloc_some (adjustSize_readjust hn hlt)]
      refine (wp_mallocAdjusted hr hU hn).mono (fun p h' ⟨hk, hcase⟩ => ⟨hk, ?_⟩) fun _ _ => id
      rcases hcase with ⟨hp, hU', hreason⟩ | hcase
      · exact Or.inl ⟨hp, hU', hreason.imp_right And.left⟩
      · exact Or.inr hcase
    · cases hadj : adjustSize (BitVec.ofNat 64 (n - OVERHEAD)).toNat with
      | none =>
        rw [malloc_none hadj]
        exact WP.of_pure ⟨Keeps.refl _ _, Or.inl ⟨rfl, hU, Or.inl hge⟩⟩
      | some m =>
        rw [malloc_some hadj, adjustSize_large hn hge m hadj, mallocAdjusted]
        exact WP.ite (fun _ => WP.of_pure ⟨Keeps.refl _ _, Or.inl ⟨rfl, hU, Or.inl hge⟩⟩)
          fun hno => absurd hge hno
  unfold copyRealloc
  refine WP.seq hmalloc (fun _ _ h => h) ?_
  rintro p h₁ ⟨hk₁, ⟨rfl, hU₁, hreason⟩ | ⟨c', rfl, hc', hsize, hU₁⟩⟩
  · exact WP.ite (fun _ => WP.of_pure (Or.inr ⟨⟨rfl, hU₁, hk₁⟩, hreason⟩)) fun hne => absurd rfl hne
  refine WP.ite (fun h0 => absurd h0 (by omega)) fun _ => ?_
  refine WP.bind (WP.of_modify ?_)
  generalize hlen : (if n < c.size then n else c.size) - OVERHEAD = len
  have hle : len ≤ n - 16 ∧ len ≤ c.size - 16 ∧ ∀ i, i + 16 < n → i + 16 < c.size → i < len := by
    rw [← hlen, OVERHEAD]
    split
    · exact ⟨by omega, by omega, fun i => by omega⟩
    · exact ⟨by omega, by omega, fun i => by omega⟩
  have hcsize := hn.1
  have hcopy : Mem.Within (c'.addr + 16) (c'.addr + c'.size) h₁.mem
      (h₁.mem.copy (c'.addr + 16) (c.addr + 16) len) :=
    (Mem.Within.copy _ _ _ _).mono (Nat.le_refl _) (by omega)
  obtain ⟨hU₂, hk₂⟩ := hU₁.write hcopy
  obtain ⟨cs, hI, hperm⟩ := hU₂
  have hU₂' : Holds _ (c :: c' :: U) := ⟨cs, hI, hperm.trans (List.Perm.swap ..)⟩
  refine WP.seq (wp_free hU₂') (fun _ _ h => h) ?_
  rintro _ h₃ ⟨hU₃, hk₃⟩
  refine WP.of_pure (Or.inl ⟨?_, c', rfl, hc', hsize, hU₃, fun i hin hic => ?_⟩)
  · refine (hk₁.mono fun d hd => List.mem_cons_of_mem c hd).trans ((hk₂.mono fun d hd => ?_).trans
      (hk₃.mono fun d hd => List.mem_cons_of_mem c' hd))
    exact List.mem_cons_of_mem c hd
  · have hi := hle.2.2 i hin hic
    rw [hk₃.data c' List.mem_cons_self _ (by omega) (by omega)]
    show h₁.mem.copy _ _ _ _ = _
    rw [Mem.copy_apply hi]
    exact hk₁.data c List.mem_cons_self _ (by omega) (by omega)

/-- A block is cut, and the rest is released. -/
theorem wp_shrink {a n n₁ : Nat} (hs : Shape h base (xs ++ ⟨a, n₁, true⟩ :: ys) sent B)
    (hperm : (usedOf (xs ++ ys)).Perm U) (h32 : 32 ≤ n) (hmod : n % 32 = 0) (hlt : n < n₁) :
    WP (do
      modify fun h => h.setPsize (a + n) (withInuse n)
      modify fun h => h.setCsize a (withInuse n)
      modify fun h => h.setPsize (a + n₁) (withInuse (n₁ - n))
      modify fun h => h.setCsize (a + n) (withInuse (n₁ - n))
      mergeChunk (a + n)
      return chunkToMem a) h (Moved ⟨a, n₁, true⟩ U n h) fun _ _ => False := by
  have hmem : (⟨a, n₁, true⟩ : Chunk) ∈ xs ++ ⟨a, n₁, true⟩ :: ys :=
    List.mem_append_right _ List.mem_cons_self
  have hmod₁ : n₁ % 32 = 0 := hs.tags.sized _ hmem
  have hlt₁ : n₁ < 2 ^ 64 := (hs.tags.sized_of_mem hmem).2.2
  refine WP.bind (WP.of_modify ?_)
  refine WP.bind (WP.of_modify ?_)
  refine WP.bind (WP.of_modify ?_)
  refine WP.bind (WP.of_modify ?_)
  rw [withInuse_eq hmod, withInuse_eq (show (n₁ - n) % 32 = 0 by omega)]
  have hcut := @cut_shrink a n n₁ (n + 1) (n₁ - n + 1) h h32 (by omega) (by omega) (by omega)
  revert hcut
  generalize (((h.setPsize (a + n) (n + 1)).setCsize a (n + 1)).setPsize (a + n₁)
    (n₁ - n + 1)).setCsize (a + n) (n₁ - n + 1) = g
  intro hcut
  rw [show n₁ - n + 1 = n₁ - n + true.toNat from rfl] at hcut
  obtain ⟨htags, hrings, hbinned, hlimits, hkeeps⟩ := hs.cut true h32 (by omega) hmod hcut
  have hap := (apart_used rfl).mp hs.apart
  have hs' : Shape g base ((xs ++ [⟨a, n, true⟩]) ++ ⟨a + n, n₁ - n, true⟩ :: ys) sent B := by
    rw [List.append_assoc]
    exact ⟨htags, hrings, hbinned, (apart_used rfl).mpr ⟨hap.1, (@apart_used [] _ _ rfl).mpr
      ⟨List.isChain_nil, hap.2⟩⟩, hlimits⟩
  have hmerge := wp_mergeChunk hs' rfl
  refine WP.seq hmerge (fun _ _ h => h) ?_
  rintro _ h' ⟨⟨cs', B', hs'', hused⟩, hk⟩
  rw [List.append_assoc, List.singleton_append] at hused hk
  have hall : ∀ d ∈ (⟨a, n, true⟩ : Chunk) :: U, d ∈ ⟨a, n, true⟩ :: (xs ++ ys) ∧
      d ∈ usedOf (xs ++ ⟨a, n, true⟩ :: ys) := by
    intro d hd
    have hd' := (hperm.symm.cons _).subset hd
    refine ⟨?_, (perm_around rfl xs ys).symm.subset hd'⟩
    exact (List.mem_cons.mp hd').elim (fun he => he ▸ List.mem_cons_self)
      fun hd => List.mem_cons_of_mem _ (mem_usedOf.mp hd).1
  have hkept : Keeps (⟨a, n, true⟩ :: U) h h' :=
    (hkeeps.mono fun d hd => (hall d hd).1).trans (hk.mono fun d hd => (hall d hd).2)
  refine WP.of_pure ⟨hkept.mono fun d hd => List.mem_cons_of_mem _ hd, ⟨a, n, true⟩, rfl, rfl, rfl,
    ⟨cs', Or.inr ⟨base, sent, B', hs''⟩, ?_⟩, fun i hin _ => ?_⟩
  · rw [hused]
    exact (perm_around rfl xs ys).trans (hperm.cons _)
  · refine hkept.data ⟨a, n, true⟩ List.mem_cons_self _ ?_ ?_
    · show a + 16 ≤ a + 16 + i
      omega
    · show a + 16 + i < a + n
      omega

/-- The free chunk after a block is taken in, and what is too much is cut off. -/
theorem wp_enlarge {a n n₁ i : Nat} {d : Chunk}
    (hs : Shape h base (xs ++ ⟨a, n₁, true⟩ :: d :: ys) sent B) (hf : d.used = false)
    (hi : binIndex d.size = some i) (hperm : (usedOf (xs ++ ys)).Perm U) (hn : Sized n)
    (hle : n ≤ n₁ + d.size) :
    WP (do
      unbin d.addr i
      let next := (← get).nextChunk d.addr
      modify fun h => h.setPsize next (withInuse (n₁ + d.size))
      modify fun h => h.setCsize a (withInuse (n₁ + d.size))
      trim a n
      return chunkToMem a) h (Moved ⟨a, n₁, true⟩ U n h) fun _ _ => False := by
  have hmem : (⟨a, n₁, true⟩ : Chunk) ∈ xs ++ ⟨a, n₁, true⟩ :: d :: ys :=
    List.mem_append_right _ List.mem_cons_self
  have hd : d ∈ xs ++ ⟨a, n₁, true⟩ :: d :: ys :=
    List.mem_append_right _ (List.mem_cons_of_mem _ List.mem_cons_self)
  have hmod₁ : n₁ % 32 = 0 := hs.tags.sized _ hmem
  obtain ⟨hd32, hdmod, -⟩ := hs.tags.sized_of_mem hd
  have hdend := (hs.tags.bounds hd).2.2.1
  have hsent := hs.tags.lt
  obtain ⟨hxs, hpos, hrest⟩ := Tiles.split.mp hs.tags.tiles
  have hxs : ChunksTile base xs a := hxs
  have hpos : 0 < n₁ := hpos
  have hda : d.addr = a + n₁ := hrest.1
  have hys : ChunksTile (a + n₁ + d.size) ys sent := hrest.2.2
  rw [List.append_cons] at hs
  have hap := (apart_free hf).mp hs.apart
  refine WP.seq (hs.take hf hi) (fun _ _ h => h) ?_
  rintro _ h₁ ⟨⟨B₁, hs₁⟩, hk₁⟩
  have hd₁ : { d with used := true } ∈ (xs ++ [⟨a, n₁, true⟩]) ++ { d with used := true } :: ys :=
    List.mem_append_right _ List.mem_cons_self
  have hnext : h₁.nextChunk d.addr = a + n₁ + d.size := by
    rw [← hda]
    exact (hs₁.tags.nextChunk_eq hd₁ :)
  refine WP.bind (WP.of_get ?_)
  refine WP.bind (WP.of_modify ?_)
  refine WP.bind (WP.of_modify ?_)
  simp only [hnext, withInuse_eq (show (n₁ + d.size) % 32 = 0 by omega)]
  have horder : (h₁.setPsize (a + n₁ + d.size) (n₁ + d.size + 1)).setCsize a (n₁ + d.size + 1) =
      (h₁.setCsize a (n₁ + d.size + 1)).setPsize (a + (n₁ + d.size)) (n₁ + d.size + 1) := by
    rw [← Nat.add_assoc]
    exact Heap.setWord_comm _ (by omega)
  rw [horder]
  have htagged := @tagged_tags a (n₁ + d.size) (n₁ + d.size + 1) h₁ (by omega) (by omega)
  revert htagged
  generalize (h₁.setCsize a (n₁ + d.size + 1)).setPsize (a + (n₁ + d.size)) (n₁ + d.size + 1) = g
  intro htagged
  have heq := htagged.eq
  have hw := htagged.within
  have hc := htagged.csize
  have hp := htagged.psize
  rw [← Nat.add_assoc] at hw
  rw [heq] at hc hp
  have hs₁' : Shape h₁ base (xs ++ ([⟨a, n₁, true⟩, { d with used := true }] ++ ys)) sent B₁ := by
    rw [List.append_assoc] at hs₁
    exact hs₁
  have htile : ChunksTile a [⟨a, n₁ + d.size, true⟩] (a + n₁ + d.size) :=
    Tiles.singleton_iff.mpr ⟨rfl, Nat.add_pos_left hpos _, (Nat.add_assoc ..).symm⟩
  obtain ⟨htags, hrings, hkeeps⟩ := @Shape.retag h₁ base sent xs ys B₁ a (a + n₁ + d.size) g.mem
    [⟨a, n₁, true⟩, { d with used := true }] [⟨a, n₁ + d.size, true⟩] hs₁' (by simp) hxs hys htile hw
    (List.forall_mem_singleton.mpr (show (n₁ + d.size) % 32 = 0 by omega))
    (List.forall_mem_singleton.mpr hc) (List.forall_mem_singleton.mpr hp)
  rw [← heq] at htags hrings hkeeps
  have hs₂ : Shape g base (xs ++ ⟨a, n₁ + d.size, true⟩ :: ys) sent B₁ := by
    refine ⟨htags, hrings, ?_, (apart_used rfl).mpr ⟨((apart_used rfl).mp hap.1.1).1, hap.2.1⟩,
      hs₁.limits.congr (by rw [heq]; rfl)⟩
    exact @Binned.replace xs ys [⟨a, n₁, true⟩, { d with used := true }] B₁ [⟨a, n₁ + d.size, true⟩]
      hs₁'.binned (by simp) (by simp)
  have htrim := wp_trim_holds hs₂ hap.2.2 hn hle hperm
  refine WP.seq htrim (fun _ _ h => h) ?_
  rintro _ h₂ ⟨hU, hk₂⟩
  refine WP.of_pure ⟨?_, ⟨a, n, true⟩, rfl, rfl, rfl, hU, fun j _ hj => ?_⟩
  · refine (hk₁.mono fun e he => ?_).trans ((hkeeps.mono fun e he => ?_).trans
      (hk₂.mono fun e he => List.mem_cons_of_mem _ he))
    · have he' := hperm.symm.subset he
      rw [usedOf_append] at he' ⊢
      rw [usedOf_append, List.append_assoc]
      rcases List.mem_append.mp he' with he' | he'
      · exact List.mem_append_left _ he'
      · exact List.mem_append_right _ (List.mem_append_right _ he')
    · exact (mem_usedOf.mp (hperm.symm.subset he)).1
  · have hj : j + 16 < n₁ := hj
    show h₂.mem (a + 16 + j) = h.mem (a + 16 + j)
    rw [hk₂.data ⟨a, n, true⟩ List.mem_cons_self (a + 16 + j) (show a + 16 ≤ a + 16 + j by omega)
      (show a + 16 + j < a + n by omega), htagged.data _ (by omega) (by omega)]
    refine hk₁.data ⟨a, n₁, true⟩ ?_ (a + 16 + j) (show a + 16 ≤ a + 16 + j by omega)
      (show a + 16 + j < a + n₁ by omega)
    exact mem_usedOf.mpr ⟨List.mem_append_left _ (List.mem_append_right _ List.mem_cons_self), rfl⟩

/-- A block is to become smaller but stays too large for the table. -/
def Overruns (n size : Nat) : Prop := TABLE_END ≤ n ∧ n < size

/-- The branch of `realloc` for a smaller size. -/
def smaller (a n n₁ : Nat) : M Nat := do
  let i ← lookup (binIndexUp n)
  let j ← lookup (binIndex n₁)
  if ← (if i < j then testBin i else pure false) then copyRealloc (a + 16) n n₁
  else
    modify fun h => h.setPsize (a + n) (withInuse n)
    modify fun h => h.setCsize a (withInuse n)
    modify fun h => h.setPsize (a + n₁) (withInuse (n₁ - n))
    modify fun h => h.setCsize (a + n) (withInuse (n₁ - n))
    mergeChunk (a + n)
    return chunkToMem a

/-- The branch of `realloc` for a larger size, with `nsize` bytes free behind the chunk. -/
def larger (a n n₁ nsize : Nat) : M Nat := do
  if n₁ + nsize ≥ n then
    let i ← lookup (binIndex nsize)
    modify (lockBin i)
    if ¬(← get).inuse (a + n₁) then
      unbin (a + n₁) i
      let next := (← get).nextChunk (a + n₁)
      modify fun h => h.setPsize next (withInuse (n₁ + nsize))
      modify fun h => h.setCsize a (withInuse (n₁ + nsize))
      trim a n
      return chunkToMem a
    else copyRealloc (a + 16) n n₁
  else copyRealloc (a + 16) n n₁

/-- A block of the new size is there, or NULL is returned and `P` holds. -/
def Ends (c : Chunk) (U : List Chunk) (n : Nat) (h : Heap) (P : Prop) (q : Nat) (h' : Heap) : Prop :=
  Moved c U n h q h' ∨ Failed c U h q h' ∧ P

theorem wp_smaller {a n n₁ : Nat} (hs : Shape h base (xs ++ ⟨a, n₁, true⟩ :: ys) sent B)
    (hperm : (usedOf (xs ++ ys)).Perm U) (hn : Sized n) (hlt : n < n₁) (hno : ¬Overruns n n₁) {P : Prop}
    (hcopy : WP (copyRealloc (a + 16) n n₁) h (Ends ⟨a, n₁, true⟩ U n h
      (MMAP_THRESHOLD ≤ n ∨ ∃ i, binIndexUp n = some i ∧ NoBin h i)) fun _ _ => False) :
    WP (smaller a n n₁) h (Ends ⟨a, n₁, true⟩ U n h P) fun _ _ => False := by
  have hmem : (⟨a, n₁, true⟩ : Chunk) ∈ xs ++ ⟨a, n₁, true⟩ :: ys :=
    List.mem_append_right _ List.mem_cons_self
  have hsz : Sized n₁ := (hs.tags.sized_of_mem hmem :)
  obtain ⟨i, hi, -, hsmall⟩ := binIndexUp_some hn (Nat.lt_of_not_le fun hge => hno ⟨hge, hlt⟩)
  obtain ⟨j, hj, hj64⟩ := binIndex_some hsz
  refine WP.bind (wp_lookup hi ?_)
  refine WP.bind (wp_lookup hj ?_)
  have htest : WP (if i < j then testBin i else pure false) h
      (fun b h' => h' = h ∧ (b = true → i < j ∧ h.binmap.getLsbD i = true)) fun _ _ => False := by
    refine WP.ite (fun hij => wp_testBin (by omega) ⟨rfl, fun hb => ⟨hij, hb⟩⟩) fun _ => WP.of_pure ⟨rfl, ?_⟩
    intro hb
    cases hb
  refine WP.seq htest (fun _ _ h => h) ?_
  rintro b h' ⟨rfl, hset⟩
  refine WP.ite (fun hb => ?_) fun _ => ?_
  · -- the bin has a chunk, so that the copy finds room
    obtain ⟨hij, hset⟩ := hset hb
    refine hcopy.mono (fun q h' hcase => hcase.imp_right fun ⟨_, hreason⟩ => ?_) fun _ _ => id
    rcases hreason with hlarge | ⟨i', hi', hno⟩
    · exact absurd (hsmall (by omega)) (Nat.not_lt.mpr hlarge)
    · obtain rfl : i = i' := Option.some.inj (hi.symm.trans hi')
      obtain ⟨xs', d, ys', hcs, -, hhead, -⟩ := hs.first_of_bin hset
      have hd := hs.chunk_ne_anchor (hcs ▸ List.mem_append_right xs' List.mem_cons_self) i
      rcases hno i (Nat.le_refl i) (by omega) with h0 | h0
      · exact absurd (hhead.symm.trans h0) hd.1
      · exact absurd (hhead.symm.trans h0) hd.2
  · exact (wp_shrink hs hperm hn.1 hn.2.1 hlt).mono (fun _ _ => Or.inl) fun _ _ => id

theorem wp_larger {a n n₁ : Nat} (hs : Shape h base (xs ++ ⟨a, n₁, true⟩ :: ys) sent B)
    (hperm : (usedOf (xs ++ ys)).Perm U) (hn : Sized n) (hlt : n₁ < n) {P : Prop}
    (hcopy : WP (copyRealloc (a + 16) n n₁) h (Ends ⟨a, n₁, true⟩ U n h P) fun _ _ => False) :
    WP (larger a n n₁ (freeFirst ys)) h (Ends ⟨a, n₁, true⟩ U n h P) fun _ _ => False := by
  refine WP.ite (fun hfit => ?_) fun _ => hcopy
  cases ys with
  | nil =>
    have : n₁ + 0 ≥ n := hfit
    omega
  | cons d ys =>
    have hfirst : freeFirst (d :: ys) = if d.used then 0 else d.size := rfl
    by_cases hu : d.used = true
    · rw [hfirst, if_pos hu] at hfit
      omega
    rw [hfirst, if_neg hu] at hfit ⊢
    have hf : d.used = false := by simpa using hu
    have hd : d ∈ xs ++ ⟨a, n₁, true⟩ :: d :: ys :=
      List.mem_append_right _ (List.mem_cons_of_mem _ List.mem_cons_self)
    have hda : d.addr = a + n₁ := (Tiles.split.mp hs.tags.tiles).2.2.1
    obtain ⟨i, hi, -⟩ := binIndex_some (hs.tags.sized_of_mem hd)
    refine WP.bind (wp_lookup hi ?_)
    refine WP.bind (WP.of_modify ?_)
    refine WP.bind (WP.of_get ?_)
    have hs' := hs.lockBin i
    have hinuse : ¬(lockBin i h).inuse (a + n₁) := by
      rw [← hda]
      exact fun hin => hu ((hs'.tags.inuse_iff hd).mp hin)
    rw [if_pos hinuse]
    have hperm' : (usedOf (xs ++ ys)).Perm U := by
      rwa [usedOf_append, usedOf_cons_free hf, ← usedOf_append] at hperm
    have henl := wp_enlarge hs' hf hi hperm' hn hfit
    rw [hda] at henl
    refine henl.mono (fun q h' ⟨hk, c', hq, hu', hsz', hU', hdata⟩ => Or.inl ?_) fun _ _ => id
    refine ⟨(Keeps.of_eq (breaks_lockBin i h) (mem_lockBin i h)).trans hk, c', hq, hu', hsz', hU', ?_⟩
    intro k hk hk'
    rw [hdata k hk hk', mem_lockBin]

theorem wp_reallocAdjusted {n : Nat} (hr : Range h.brkMin h.brkMax) (hU : Holds h (c :: U)) (hn : Sized n)
    (hno : ¬Overruns n c.size) :
    WP (reallocAdjusted (c.addr + 16) n) h (fun q h' => Moved c U n h q h' ∨
      Failed c U h q h' ∧ c.size < n) fun _ _ => False := by
  have hcopy := wp_copyRealloc hr hU hn
  obtain ⟨xs, ys, base, sent, B, hs, hc, hperm⟩ := hU.exists_shape
  obtain ⟨a, n₁, used⟩ := c
  obtain rfl : used = true := hc
  have hmem : (⟨a, n₁, true⟩ : Chunk) ∈ xs ++ ⟨a, n₁, true⟩ :: ys :=
    List.mem_append_right _ List.mem_cons_self
  have hsize : h.chunkSize a = n₁ := (hs.tags.chunkSize_eq hmem :)
  have hnext : h.nextChunk a = a + n₁ := (hs.tags.nextChunk_eq hmem :)
  have hfoot : h.psize (a + n₁) = h.csize a :=
    ((hs.tags.psize _ hmem :).trans (hs.tags.csize _ hmem :).symm :)
  have hself : memToChunk (a + 16) = a := Nat.add_sub_cancel ..
  show WP (reallocAdjusted (a + 16) n) h (Ends ⟨a, n₁, true⟩ U n h (n₁ < n)) _
  unfold reallocAdjusted
  refine WP.bind (WP.of_get ?_)
  simp only [hself, hsize, hnext, hfoot]
  refine WP.ite (fun hsame => ?_) fun hdiff => ?_
  · obtain rfl : n = n₁ := by
      have hmod := hn.2.1
      have hmod₁ : n₁ % 32 = 0 := hs.tags.sized _ hmem
      have := hsame.2
      unfold DONTCARE at this
      omega
    exact WP.of_pure (Or.inl ⟨Keeps.refl _ _, ⟨a, n, true⟩, rfl, rfl, rfl, hU, fun _ _ _ => rfl⟩)
  rw [if_neg (not_not.mpr rfl)]
  refine WP.ite (fun hlt => wp_smaller hs hperm hn hlt hno hcopy) fun hge => ?_
  have hlt : n₁ < n := by
    unfold DONTCARE at hdiff
    omega
  have hns : (if h.inuse (a + n₁) then 0 else h.chunkSize (a + n₁)) = freeFirst ys := by
    have ht := hs.tags
    obtain ⟨hxs, hpos, -⟩ := Tiles.split.mp ht.tiles
    rw [List.append_cons] at ht
    exact csize_eq ht (Tiles.append.mpr ⟨_, hxs, Tiles.singleton_iff.mpr ⟨rfl, hpos, rfl⟩⟩)
  rw [hns]
  refine wp_larger hs hperm hn hlt (hcopy.mono (fun _ _ hcase => ?_) fun _ _ => id)
  exact hcase.imp_right fun hf => ⟨hf.1, hlt⟩

theorem wp_reallocAdjusted_overruns {n : Nat} (hU : Holds h (c :: U)) (hn : Sized n)
    (hover : Overruns n c.size) :
    WP (reallocAdjusted (c.addr + 16) n) h (fun _ _ => False) fun e h' => e = .table ∧ h' = h := by
  obtain ⟨xs, ys, base, sent, B, hs, hc, hperm⟩ := hU.exists_shape
  have hmem : c ∈ xs ++ c :: ys := List.mem_append_right _ List.mem_cons_self
  have hself : memToChunk (c.addr + 16) = c.addr := Nat.add_sub_cancel ..
  have hfoot : h.psize (c.addr + c.size) = h.csize c.addr :=
    (hs.tags.psize c hmem).trans (hs.tags.csize c hmem).symm
  have hmod := hn.2.1
  have hmod' := hs.tags.sized c hmem
  obtain ⟨hge, hlt⟩ := hover
  unfold reallocAdjusted
  refine WP.bind (WP.of_get ?_)
  simp only [hself, hs.tags.chunkSize_eq hmem, hs.tags.nextChunk_eq hmem, hfoot]
  refine WP.ite (fun hsame => ?_) fun _ => ?_
  · have := hsame.2
    unfold DONTCARE at this
    omega
  rw [if_neg (not_not.mpr rfl)]
  refine WP.ite (fun _ => ?_) fun hnot => absurd hlt hnot
  rw [binIndexUp_none hn hge]
  exact WP.bind (WP.of_throw ⟨rfl, rfl⟩)

end CkbJs.Proof.Malloc
