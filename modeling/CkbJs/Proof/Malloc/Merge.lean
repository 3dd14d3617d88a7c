import CkbJs.Proof.Malloc.Chunks

/-!
# Splitting and merging

`wp_trim` is `trim`: a used chunk is cut, and what it loses becomes a free chunk.
`wp_mergeChunk` is `__bin_chunk`: a used chunk becomes free, joined with its free
neighbours, which `takePrev` and `takeNext` have taken out of their bins
(`wp_takePrev`, `wp_takeNext`). Whether a neighbour is free is read off the words
between two chunks (`psize_eq`, `csize_eq`).
-/

namespace CkbJs.Proof.Malloc

open CkbJs.Impl.Malloc CkbJs.Spec.Malloc

attribute [local irreducible] WP

variable {h : Heap} {base sent : Nat} {xs ys : List Chunk} {B : Nat → List Nat}

theorem wp_lookup {x : Option Nat} {i : Nat} {Q : Nat → Heap → Prop} {R : Stop → Heap → Prop}
    (hx : x = some i) (hQ : Q i h) : WP (lookup x) h Q R := by
  subst hx
  exact WP.of_pure hQ

theorem withInuse_eq {n : Nat} (hn : n % 32 = 0) : withInuse n = n + 1 := by
  simp only [withInuse]
  omega

theorem sub64_eq {a b : Nat} (hab : b ≤ a) (ha : a < 2 ^ 64) : sub64 a b = a - b := by
  simp only [sub64]
  omega

/-! ## Cutting a chunk -/

/-- From `h` to `g`, the tags are written that cut the chunk at `a` after `n` of its `n₁` bytes,
into one with the tag `t` and one with the tag `u`. -/
structure Cut (h g : Heap) (a n n₁ t u : Nat) : Prop where
  eq : g = { h with mem := g.mem }
  within : Mem.Within (a + 8) (a + n₁ + 8) h.mem g.mem
  csize : g.csize a = t
  psize : g.psize (a + n) = t
  csize_rest : g.csize (a + n) = u
  psize_rest : g.psize (a + n₁) = u
  data : ∀ x, a + 16 ≤ x → x < a + n → g.mem x = h.mem x

section Cut

variable {a n n₁ t u : Nat}

/-- The writes of `trim`. -/
theorem cut_trim (h : Heap) (hn : 32 ≤ n) (hle : n + 32 ≤ n₁) (ht : t < 2 ^ 64) (hu : u < 2 ^ 64) :
    Cut h ((((h.setPsize (a + n) t).setCsize (a + n) u).setPsize (a + n₁) u).setCsize a t) a n n₁ t u where
  eq := rfl
  within := by
    refine Mem.Within.trans ?_ ((Mem.Within.store _ _ _ _).mono (by omega) (by omega))
    refine Mem.Within.trans ?_ ((Mem.Within.store _ _ _ _).mono (by omega) (by omega))
    refine Mem.Within.trans ?_ ((Mem.Within.store _ _ _ _).mono (by omega) (by omega))
    exact (Mem.Within.store _ _ _ _).mono (by omega) (by omega)
  csize := Heap.word_setWord_self _ ht
  psize := by
    refine (Heap.word_setWord_sep _ (by omega)).trans ?_
    refine (Heap.word_setWord_sep _ (by omega)).trans ?_
    refine (Heap.word_setWord_sep _ (by omega)).trans ?_
    exact Heap.word_setWord_self _ ht
  csize_rest := by
    refine (Heap.word_setWord_sep _ (by omega)).trans ?_
    refine (Heap.word_setWord_sep _ (by omega)).trans ?_
    exact Heap.word_setWord_self _ hu
  psize_rest := by
    refine (Heap.word_setWord_sep _ (by omega)).trans ?_
    exact Heap.word_setWord_self _ hu
  data x hx hx' := by
    refine (Mem.store_of_not (by omega)).trans ?_
    refine (Mem.store_of_not (by omega)).trans ?_
    refine (Mem.store_of_not (by omega)).trans ?_
    exact Mem.store_of_not (by omega)

/-- The writes of `realloc` when it makes a block smaller: those of `trim`, in another order. -/
theorem cut_shrink (h : Heap) (hn : 32 ≤ n) (hle : n + 32 ≤ n₁) (ht : t < 2 ^ 64) (hu : u < 2 ^ 64) :
    Cut h ((((h.setPsize (a + n) t).setCsize a t).setPsize (a + n₁) u).setCsize (a + n) u) a n n₁ t u := by
  have horder : (((h.setPsize (a + n) t).setCsize a t).setPsize (a + n₁) u).setCsize (a + n) u =
      (((h.setPsize (a + n) t).setCsize (a + n) u).setPsize (a + n₁) u).setCsize a t := by
    unfold Heap.setCsize Heap.setPsize
    rw [Heap.setWord_comm _ (show a + n + 8 + 8 ≤ a + n₁ ∨ _ by omega)]
    rw [Heap.setWord_comm (h.setWord (a + n) t) (show a + n + 8 + 8 ≤ a + 8 ∨ a + 8 + 8 ≤ a + n + 8 by omega)]
    rw [Heap.setWord_comm _ (show a + n₁ + 8 ≤ a + 8 ∨ a + 8 + 8 ≤ a + n₁ by omega)]
  rw [horder]
  exact cut_trim h hn hle ht hu

/-- The parts of the shape after a cut, whether the rest is to be used or free. -/
theorem Shape.cut {g : Heap} (hs : Shape h base (xs ++ ⟨a, n₁, true⟩ :: ys) sent B) (used : Bool)
    (hn : 32 ≤ n) (hle : n + 32 ≤ n₁) (hmod : n % 32 = 0)
    (hc : Cut h g a n n₁ (n + 1) (n₁ - n + used.toNat)) :
    Tags g base (xs ++ ⟨a, n, true⟩ :: ⟨a + n, n₁ - n, used⟩ :: ys) sent ∧ Rings g B ∧
      Binned (xs ++ ⟨a, n, true⟩ :: ⟨a + n, n₁ - n, true⟩ :: ys) B ∧ Limits g base sent ∧
      Keeps (⟨a, n, true⟩ :: (xs ++ ys)) h g := by
  have hmem : (⟨a, n₁, true⟩ : Chunk) ∈ xs ++ ⟨a, n₁, true⟩ :: ys :=
    List.mem_append_right _ List.mem_cons_self
  have hmod₁ : n₁ % 32 = 0 := hs.tags.sized _ hmem
  obtain ⟨hxs, -, hys⟩ := Tiles.split.mp hs.tags.tiles
  have htiles : ChunksTile a [⟨a, n, true⟩, ⟨a + n, n₁ - n, used⟩] (a + n₁) :=
    ⟨rfl, show 0 < n by omega, rfl, show 0 < n₁ - n by omega, show a + n + (n₁ - n) = a + n₁ by omega⟩
  have heq := hc.eq
  have hcs := hc.csize
  have hps := hc.psize
  have hcr := hc.csize_rest
  have hpr := hc.psize_rest
  rw [show a + n₁ = a + n + (n₁ - n) by omega] at hpr
  rw [heq] at hcs hps hcr hpr
  obtain ⟨htags, hrings, hkeeps⟩ := @Shape.retag h base sent xs ys B a (a + n₁) g.mem
    [⟨a, n₁, true⟩] [⟨a, n, true⟩, ⟨a + n, n₁ - n, used⟩] hs (by simp) hxs hys htiles hc.within
    (by simp only [List.forall_mem_cons, List.not_mem_nil, false_implies, implies_true, and_true]; omega)
    (by simpa only [List.forall_mem_cons, List.not_mem_nil, false_implies, implies_true, and_true]
      using ⟨hcs, hcr⟩)
    (by simpa only [List.forall_mem_cons, List.not_mem_nil, false_implies, implies_true, and_true]
      using ⟨hps, hpr⟩)
  rw [← heq] at htags hrings hkeeps
  refine ⟨htags, hrings, ?_, hs.limits.congr (by rw [heq]; rfl), hkeeps.brkMin, hkeeps.brkMax,
    fun c hc' x hx hx' => ?_⟩
  · exact @Binned.replace xs ys [⟨a, n₁, true⟩] B [⟨a, n, true⟩, ⟨a + n, n₁ - n, true⟩] hs.binned
      (by simp) (by simp)
  · rcases List.mem_cons.mp hc' with rfl | hc'
    · exact hc.data x hx hx'
    · exact hkeeps.data c hc' x hx hx'

end Cut

/-! ## `trim` -/

theorem wp_trim {a n n₁ : Nat} (hs : Shape h base (xs ++ ⟨a, n₁, true⟩ :: ys) sent B)
    (hy : UsedFirst ys) (hn : 32 ≤ n) (hmod : n % 32 = 0) (hle : n ≤ n₁) :
    WP (trim a n) h (fun _ h' =>
      (∃ zs B', (∀ z ∈ zs, z.used = false) ∧ Shape h' base (xs ++ ⟨a, n, true⟩ :: (zs ++ ys)) sent B') ∧
        Keeps (⟨a, n, true⟩ :: usedOf (xs ++ ys)) h h') fun _ _ => False := by
  have hmem : (⟨a, n₁, true⟩ : Chunk) ∈ xs ++ ⟨a, n₁, true⟩ :: ys :=
    List.mem_append_right _ List.mem_cons_self
  have hlt : n₁ < 2 ^ 64 := (hs.tags.sized_of_mem hmem).2.2
  have h32 : 32 ≤ n₁ := (hs.tags.sized_of_mem hmem).1
  have hmod₁ : n₁ % 32 = 0 := hs.tags.sized _ hmem
  have hsize : h.chunkSize a = n₁ := (hs.tags.chunkSize_eq hmem :)
  have hnext : h.nextChunk a = a + n₁ := (hs.tags.nextChunk_eq hmem :)
  have hfew : sub64 n₁ DONTCARE = n₁ - 16 := sub64_eq (by unfold DONTCARE; omega) hlt
  have hrest : sub64 n₁ n = n₁ - n := sub64_eq hle hlt
  unfold trim
  refine WP.bind (WP.of_get ?_)
  simp only [hsize, hnext, hfew, hrest, withInuse_eq hmod]
  refine WP.ite (fun hsame => ?_) fun hcut => ?_
  · obtain rfl : n = n₁ := by omega
    exact WP.of_pure ⟨⟨[], B, by simp, hs⟩, Keeps.refl _ _⟩
  · obtain ⟨i, hi, -⟩ := binIndex_some (⟨by omega, by omega, by omega⟩ : Sized (n₁ - n))
    refine WP.bind (WP.of_modify ?_)
    refine WP.bind (WP.of_modify ?_)
    refine WP.bind (WP.of_modify ?_)
    refine WP.bind (WP.of_modify ?_)
    refine WP.bind (wp_lookup hi ?_)
    refine WP.bind (WP.of_modify ?_)
    have hc : Cut h _ a n n₁ (n + 1) (n₁ - n) := cut_trim h hn (by omega) (by omega) (by omega)
    revert hc
    generalize (((h.setPsize (a + n) (n + 1)).setCsize (a + n) (n₁ - n)).setPsize (a + n₁)
      (n₁ - n)).setCsize a (n + 1) = g
    intro hc
    rw [show n₁ - n = n₁ - n + false.toNat from rfl] at hc
    obtain ⟨htags, hrings, hbinned, hlimits, hkeeps⟩ := hs.cut false hn (by omega) hmod hc
    have hap := (apart_used rfl).mp hs.apart
    have hput := @wp_put (lockBin i g) base sent (xs ++ [⟨a, n, true⟩]) ys B (a + n) (n₁ - n) i
      (by
        rw [List.append_assoc]
        exact htags.congr fun w _ => congrArg (fun m : Mem => m.load w 8) (mem_lockBin i g))
      (hrings.lockBin i)
      (by
        rw [List.append_assoc]
        exact hbinned)
      (by
        refine (apart_free rfl).mpr ⟨⟨(apart_used rfl).mpr ⟨hap.1, List.isChain_nil⟩, ?_⟩, hap.2, hy⟩
        simp [UsedLast])
      (hlimits.congr (breaks_lockBin i g)) hi (head_lockBin i g)
    refine hput.mono (fun _ h' ⟨⟨B', hs'⟩, hk'⟩ => ⟨⟨[⟨a + n, n₁ - n, false⟩], B', by simp, ?_⟩, ?_⟩)
      fun _ _ => id
    · rwa [List.append_assoc] at hs'
    · refine (hkeeps.mono fun c hc => ?_).trans
        ((Keeps.of_eq (breaks_lockBin i g) (mem_lockBin i g)).trans (hk'.mono fun c hc => ?_))
      · exact (List.mem_cons.mp hc).elim (fun he => he ▸ List.mem_cons_self)
          fun hc => List.mem_cons_of_mem _ (mem_usedOf.mp hc).1
      · rw [usedOf_append, usedOf_append, usedOf_cons_used rfl, List.append_assoc]
        rw [usedOf_append] at hc
        exact List.perm_middle.symm.subset hc

/-! ## The words between two chunks -/

/-- The size of a free chunk at the end. -/
def freeLast (xs : List Chunk) : Nat :=
  match xs.getLast? with
  | some c => if c.used then 0 else c.size
  | none => 0

/-- The size of a free chunk at the front. -/
def freeFirst (ys : List Chunk) : Nat :=
  match ys.head? with
  | some c => if c.used then 0 else c.size
  | none => 0

theorem psize_eq {c : Chunk} (ht : Tags h base (xs ++ c :: ys) sent) :
    (if h.psize c.addr % 2 = 1 then 0 else withoutInuse (h.psize c.addr)) = freeLast xs := by
  obtain ⟨hxs, -, -⟩ := Tiles.split.mp ht.tiles
  rcases List.eq_nil_or_concat xs with rfl | ⟨xs', p, rfl⟩
  · have hb : base = c.addr := hxs
    rw [← hb, ht.first]
    rfl
  · rw [List.concat_eq_append] at ht hxs ⊢
    have hp : p ∈ (xs' ++ [p]) ++ c :: ys :=
      List.mem_append_left _ (List.mem_append_right _ List.mem_cons_self)
    obtain ⟨-, -, hend⟩ := Tiles.split.mp hxs
    have hend : p.addr + p.size = c.addr := hend
    have hsz := ht.sized p hp
    rw [← hend, ht.psize p hp, tag_half hsz]
    simp only [freeLast, List.getLast?_append, List.getLast?_singleton, Option.some_or]
    exact if_congr (tag_odd hsz) rfl rfl

theorem csize_eq {b : Nat} (ht : Tags h base (xs ++ ys) sent) (hxs : ChunksTile base xs b) :
    (if h.inuse b then 0 else h.chunkSize b) = freeFirst ys := by
  obtain ⟨b', hxs', hys⟩ := Tiles.append.mp ht.tiles
  obtain rfl := hxs.end_eq hxs'
  cases ys with
  | nil =>
    have hb : b = sent := hys
    rw [hb, if_pos (show h.inuse sent by unfold Heap.inuse; rw [ht.last])]
    rfl
  | cons d ys =>
    have hd : d ∈ xs ++ d :: ys := List.mem_append_right _ List.mem_cons_self
    obtain rfl : d.addr = b := hys.1
    simp only [freeFirst, List.head?_cons]
    exact if_congr (ht.inuse_iff hd) rfl (ht.chunkSize_eq hd)

/-! ## `__bin_chunk` -/

/-- A free chunk has no data to keep. -/
theorem Keeps.around {d : Chunk} {i : Nat} {h' : Heap} (hk : Keeps (usedOf (xs ++ ys)) (lockBin i h) h')
    (hd : d.used = false) : Keeps (usedOf (xs ++ d :: ys)) h h' := by
  refine (Keeps.of_eq (breaks_lockBin i h) (mem_lockBin i h)).trans (hk.mono fun e he => ?_)
  obtain ⟨he, hu⟩ := mem_usedOf.mp he
  refine mem_usedOf.mpr ⟨(eq_or_mem_around he).resolve_left ?_, hu⟩
  rintro rfl
  exact Bool.false_ne_true (hd.symm.trans hu)

/-- The chunk on the left, if it is free, is taken out of its bin. -/
theorem wp_takePrev {c : Chunk} (hs : Shape h base (xs ++ c :: ys) sent B) (size : Nat) :
    WP (takePrev c.addr size (freeLast xs)) h (fun r h' =>
      (∃ xs' mid B', Shape h' base (xs' ++ (mid ++ c :: ys)) sent B' ∧ (∀ d ∈ mid, d.used = true) ∧
        UsedLast xs' ∧ ChunksTile r.1 mid c.addr ∧ r.2 = size + (c.addr - r.1) ∧ usedOf xs' = usedOf xs) ∧
      Keeps (usedOf (xs ++ c :: ys)) h h') fun _ _ => False := by
  have hstay (hl : UsedLast xs) (h' : Heap) (hs' : Shape h' base (xs ++ c :: ys) sent B)
      (hk : Keeps (usedOf (xs ++ c :: ys)) h h') :
      (∃ xs' mid B', Shape h' base (xs' ++ (mid ++ c :: ys)) sent B' ∧ (∀ d ∈ mid, d.used = true) ∧
        UsedLast xs' ∧ ChunksTile c.addr mid c.addr ∧ size = size + (c.addr - c.addr) ∧
        usedOf xs' = usedOf xs) ∧ Keeps (usedOf (xs ++ c :: ys)) h h' :=
    ⟨⟨xs, [], B, hs', by simp, hl, rfl, by omega, rfl⟩, hk⟩
  have hpsize := psize_eq hs.tags
  unfold takePrev
  rcases List.eq_nil_or_concat xs with rfl | ⟨xs, p, rfl⟩
  · rw [if_neg (by simp [freeLast])]
    exact WP.of_pure (hstay (by simp [UsedLast]) h hs (Keeps.refl _ _))
  · rw [List.concat_eq_append] at hs hpsize hstay ⊢
    have hp : p ∈ (xs ++ [p]) ++ c :: ys :=
      List.mem_append_left _ (List.mem_append_right _ List.mem_cons_self)
    have hsz := hs.tags.sized_of_mem hp
    have hlast : freeLast (xs ++ [p]) = if p.used then 0 else p.size := by
      simp only [freeLast, List.getLast?_append, List.getLast?_singleton, Option.some_or]
    by_cases hu : p.used = true
    · rw [hlast, if_pos hu, if_neg (by simp)]
      refine WP.of_pure (hstay ?_ h hs (Keeps.refl _ _))
      simp [UsedLast, hu]
    · have hf : p.used = false := by simpa using hu
      rw [hlast, if_neg hu] at hpsize ⊢
      have h0 : p.size ≠ 0 := by
        have := hsz.1
        omega
      obtain ⟨i, hi, -⟩ := binIndex_some hsz
      have hend : p.addr + p.size = c.addr :=
        (Tiles.split.mp (Tiles.split.mp hs.tags.tiles).1).2.2
      rw [if_pos h0]
      refine WP.bind (wp_lookup hi ?_)
      refine WP.bind (WP.of_modify ?_)
      refine WP.bind (WP.of_get ?_)
      have hs' := hs.lockBin i
      have hpar : (lockBin i h).psize c.addr % 2 ≠ 1 := by
        rw [← hend, hs'.tags.psize p hp]
        exact fun ho => hu ((tag_odd hsz.2.1).mp ho)
      have hprev : (lockBin i h).prevChunk c.addr = p.addr := by
        rw [Heap.prevChunk, ← hend, hs'.tags.psize p hp, tag_half hsz.2.1]
        omega
      rw [if_pos hpar, hprev]
      rw [List.append_assoc] at hs'
      have hlt : p.size < 2 ^ 64 := hsz.2.2
      refine WP.seq (hs'.take hf hi) (fun _ _ h => h) fun _ h' ⟨⟨B', hs''⟩, hk⟩ => WP.of_pure
        ⟨⟨xs, [{ p with used := true }], B', hs'', by simp, ?_, ?_, ?_, ?_⟩, ?_⟩
      · have hap := hs.apart
        rw [List.append_assoc] at hap
        exact ((apart_free hf).mp hap).1.2
      · exact Tiles.singleton_iff.mpr ⟨rfl, Nat.pos_of_ne_zero h0, hend⟩
      · show size + p.size = size + (c.addr - p.addr)
        omega
      · rw [usedOf_append, usedOf_cons_free hf]
        simp [usedOf]
      · rw [List.append_assoc]
        exact hk.around hf

/-- The chunk on the right, if it is free, is taken out of its bin. -/
theorem wp_takeNext {b : Nat} (hs : Shape h base (xs ++ ys) sent B) (hxs : ChunksTile base xs b)
    (size : Nat) :
    WP (takeNext b size (freeFirst ys)) h (fun r h' =>
      (∃ mid ys' B', Shape h' base (xs ++ (mid ++ ys')) sent B' ∧ (∀ d ∈ mid, d.used = true) ∧
        UsedFirst ys' ∧ ChunksTile b mid r.1 ∧ r.2 = size + (r.1 - b) ∧ usedOf ys' = usedOf ys) ∧
      Keeps (usedOf (xs ++ ys)) h h') fun _ _ => False := by
  unfold takeNext
  cases ys with
  | nil =>
    rw [if_neg (by simp [freeFirst])]
    exact WP.of_pure ⟨⟨[], [], B, hs, by simp, by simp [UsedFirst], rfl, by omega, rfl⟩, Keeps.refl _ _⟩
  | cons d ys =>
    have hd : d ∈ xs ++ d :: ys := List.mem_append_right _ List.mem_cons_self
    have hsz := hs.tags.sized_of_mem hd
    have hfirst : freeFirst (d :: ys) = if d.used then 0 else d.size := rfl
    by_cases hu : d.used = true
    · rw [hfirst, if_pos hu, if_neg (by simp)]
      refine WP.of_pure ⟨⟨[], d :: ys, B, hs, by simp, ?_, rfl, by omega, rfl⟩, Keeps.refl _ _⟩
      simp [UsedFirst, hu]
    · have hf : d.used = false := by simpa using hu
      have h0 : d.size ≠ 0 := by
        have := hsz.1
        omega
      obtain ⟨i, hi, -⟩ := binIndex_some hsz
      obtain rfl : d.addr = b := (Tiles.split.mp hs.tags.tiles).1.end_eq hxs
      rw [hfirst, if_neg hu, if_pos h0]
      refine WP.bind (wp_lookup hi ?_)
      refine WP.bind (WP.of_modify ?_)
      refine WP.bind (WP.of_get ?_)
      have hs' := hs.lockBin i
      rw [if_pos (fun h => hu ((hs'.tags.inuse_iff hd).mp h))]
      refine WP.seq (hs'.take hf hi) (fun _ _ h => h) fun _ h' ⟨⟨B', hs''⟩, hk⟩ =>
        WP.bind (WP.of_get (WP.of_pure
          ⟨⟨[{ d with used := true }], ys, B', hs'', by simp, ?_, ?_, ?_, ?_⟩, ?_⟩))
      · exact ((apart_free hf).mp hs.apart).2.2
      · have hd' : { d with used := true } ∈ xs ++ { d with used := true } :: ys :=
          List.mem_append_right _ List.mem_cons_self
        rw [show h'.nextChunk d.addr = d.addr + d.size from (hs''.tags.nextChunk_eq hd' :)]
        exact Tiles.singleton_iff.mpr ⟨rfl, Nat.pos_of_ne_zero h0, rfl⟩
      · have hd' : { d with used := true } ∈ xs ++ { d with used := true } :: ys :=
          List.mem_append_right _ List.mem_cons_self
        rw [show h'.nextChunk d.addr = d.addr + d.size from (hs''.tags.nextChunk_eq hd' :)]
        show size + d.size = size + (d.addr + d.size - d.addr)
        omega
      · exact (usedOf_cons_free hf ys).symm
      · exact hk.around hf

/-- The used chunks from `a` to `b` become one free chunk. -/
theorem wp_join {a b i : Nat} {mid : List Chunk} (hs : Shape h base (xs ++ (mid ++ ys)) sent B)
    (hu : ∀ c ∈ mid, c.used = true) (hmid : ChunksTile a mid b) (hab : a < b) (hx : UsedLast xs)
    (hy : UsedFirst ys) (hi : binIndex (b - a) = some i) :
    WP (do
      modify (lockBin i)
      modify fun h => h.setCsize a (b - a)
      modify fun h => h.setPsize b (b - a)
      binChunk a i) h (fun _ h' =>
        (∃ B', Shape h' base (xs ++ ⟨a, b - a, false⟩ :: ys) sent B') ∧ Keeps (usedOf (xs ++ ys)) h h')
      fun _ _ => False := by
  obtain ⟨a', hxs, hrest⟩ := Tiles.append.mp hs.tags.tiles
  obtain ⟨b', hmid', hys⟩ := Tiles.append.mp hrest
  obtain ⟨rfl, rfl⟩ : a' = a ∧ b' = b := by
    cases mid with
    | nil =>
      have : a = b := hmid
      omega
    | cons c mid =>
      obtain rfl : a = a' := hmid.1.symm.trans hmid'.1
      exact ⟨rfl, hmid'.end_eq hmid⟩
  have hmod := tiles_mod hmid fun c hc => hs.tags.sized c (List.mem_append_right _ (List.mem_append_left _ hc))
  have hle := hys.le
  have hlt := hs.tags.lt
  refine WP.bind (WP.of_modify ?_)
  refine WP.bind (WP.of_modify ?_)
  refine WP.bind (WP.of_modify ?_)
  have hs' := hs.lockBin i
  have h0 := head_lockBin i h
  have hk := @Keeps.of_eq (usedOf (xs ++ ys)) h (lockBin i h) (breaks_lockBin i h) (mem_lockBin i h)
  revert hs' h0 hk
  generalize lockBin i h = g
  intro hs' h0 hk
  have hb : a' + (b' - a') = b' := Nat.add_sub_cancel' (Nat.le_of_lt hab)
  have htagged := @tagged_tags a' (b' - a') (b' - a') g (by omega) (by omega)
  rw [hb] at htagged
  revert htagged
  generalize (g.setCsize a' (b' - a')).setPsize b' (b' - a') = g'
  intro htagged
  have heq := htagged.eq
  have hw := htagged.within
  have hc := htagged.csize
  have hp := htagged.psize
  rw [hb] at hw
  rw [heq] at hc hp
  obtain ⟨htags, hrings, hkeeps⟩ := @Shape.retag g base sent xs ys B a' b' g'.mem mid
    [⟨a', b' - a', false⟩] hs' hu hxs hys
    (Tiles.singleton_iff.mpr ⟨rfl, Nat.sub_pos_of_lt hab, Nat.add_sub_cancel' (Nat.le_of_lt hab)⟩) hw
    (by rw [List.forall_mem_singleton]; show (b' - a') % 32 = 0; omega)
    (by rw [List.forall_mem_singleton]; exact hc) (by rw [List.forall_mem_singleton]; exact hp)
  rw [← heq] at htags hrings hkeeps
  have hap : Apart xs ∧ Apart ys := by
    have h₁ := List.isChain_append.mp hs.apart
    exact ⟨h₁.1, (List.isChain_append.mp h₁.2.1).2.1⟩
  refine (wp_put htags hrings ?_ ((apart_free rfl).mpr ⟨⟨hap.1, hx⟩, hap.2, hy⟩)
    (hs'.limits.congr (by rw [heq]; rfl)) hi (by rw [heq]; exact h0)).mono (fun _ h' ⟨hs'', hk'⟩ => ?_)
    fun _ _ => id
  · exact @Binned.replace xs ys mid B [⟨a', b' - a', true⟩] hs.binned hu (by simp)
  · exact ⟨hs'', hk.trans ((hkeeps.mono fun d hd => (mem_usedOf.mp hd).1).trans hk')⟩

theorem wp_mergeChunk {c : Chunk} (hs : Shape h base (xs ++ c :: ys) sent B) (hc : c.used = true) :
    WP (mergeChunk c.addr) h (fun _ h' =>
      (∃ cs' B', Shape h' base cs' sent B' ∧ usedOf cs' = usedOf (xs ++ ys)) ∧
        Keeps (usedOf (xs ++ ys)) h h') fun _ _ => False := by
  have hmem : c ∈ xs ++ c :: ys := List.mem_append_right _ List.mem_cons_self
  have hsize := hs.tags.chunkSize_eq hmem
  have hnext := hs.tags.nextChunk_eq hmem
  have hpos := (hs.tags.tiles.mem hmem).2.1
  unfold mergeChunk
  refine WP.bind (WP.of_get ?_)
  have hsub : ∀ d ∈ usedOf (xs ++ ys), d ∈ usedOf (xs ++ c :: ys) := fun d hd =>
    mem_usedOf.mpr ⟨mem_around (mem_usedOf.mp hd).1, (mem_usedOf.mp hd).2⟩
  have hn : (if h.inuse (c.addr + c.size) then 0 else h.chunkSize (c.addr + c.size)) = freeFirst ys := by
    have ht := hs.tags
    rw [List.append_cons] at ht
    exact csize_eq ht (Tiles.append.mpr
      ⟨_, (Tiles.split.mp hs.tags.tiles).1, Tiles.singleton_iff.mpr ⟨rfl, hpos, rfl⟩⟩)
  simp only [hsize, hnext, psize_eq hs.tags, hn]
  rw [if_neg (by rw [hs.tags.psize c hmem, hs.tags.csize c hmem]; exact not_not.mpr rfl)]
  refine WP.seq (wp_takePrev hs c.size) (fun _ _ h => h) ?_
  rintro ⟨a, size⟩ h₁ ⟨⟨xs', left, B₁, hs₁, hleft, hlast, htl, hsz, hused₁⟩, hk₁⟩
  have hs₁' : Shape h₁ base ((xs' ++ (left ++ [c])) ++ ys) sent B₁ := by
    rw [List.append_assoc, List.append_assoc]
    exact hs₁
  have hleft' : ChunksTile a (left ++ [c]) (c.addr + c.size) :=
    Tiles.append.mpr ⟨_, htl, Tiles.singleton_iff.mpr ⟨rfl, hpos, rfl⟩⟩
  have hend : ChunksTile base (xs' ++ (left ++ [c])) (c.addr + c.size) := by
    have ht := hs₁.tags.tiles
    rw [← List.append_assoc] at ht
    rw [← List.append_assoc]
    exact Tiles.append.mpr ⟨_, (Tiles.split.mp ht).1, Tiles.singleton_iff.mpr ⟨rfl, hpos, rfl⟩⟩
  refine WP.seq (wp_takeNext hs₁' hend size) (fun _ _ h => h) ?_
  rintro ⟨b, size'⟩ h₂ ⟨⟨right, ys', B₂, hs₂, hright, hfirst, htr, hsz', hused₂⟩, hk₂⟩
  have hmid : ChunksTile a ((left ++ [c]) ++ right) b := Tiles.append.mpr ⟨_, hleft', htr⟩
  have hs₂' : Shape h₂ base (xs' ++ (((left ++ [c]) ++ right) ++ ys')) sent B₂ := by
    rw [List.append_assoc (left ++ [c]), ← List.append_assoc xs']
    exact hs₂
  have hmidUsed : ∀ d ∈ (left ++ [c]) ++ right, d.used = true := by
    intro d hd
    rcases List.mem_append.mp hd with hd | hd
    · rcases List.mem_append.mp hd with hd | hd
      · exact hleft d hd
      · exact List.mem_singleton.mp hd ▸ hc
    · exact hright d hd
  have hmod := tiles_mod hmid fun d hd =>
    hs₂'.tags.sized d (List.mem_append_right _ (List.mem_append_left _ hd))
  have hle₁ := htl.le
  have hle₂ := htr.le
  have hsent : b ≤ sent := by
    obtain ⟨e, he, hrest⟩ := Tiles.append.mp hs₂.tags.tiles
    obtain rfl := hend.end_eq he
    obtain ⟨e', he', hys⟩ := Tiles.append.mp hrest
    obtain rfl := htr.end_eq he'
    exact hys.le
  have hlt := hs₂.tags.lt
  have hsize' : size' = b - a := by
    have : a ≤ c.addr := hle₁
    have : c.addr + c.size ≤ b := hle₂
    have : size = c.size + (c.addr - a) := hsz
    have : size' = size + (b - (c.addr + c.size)) := hsz'
    omega
  have hab : a < b := by
    have : a ≤ c.addr := hle₁
    have : c.addr + c.size ≤ b := hle₂
    omega
  subst hsize'
  obtain ⟨i, hi, -⟩ := binIndex_some (⟨by omega, by omega, by omega⟩ : Sized (b - a))
  refine WP.bind (wp_lookup hi ?_)
  refine (wp_join hs₂' hmidUsed hmid hab hlast hfirst hi).mono (fun _ h₃ ⟨⟨B₃, hs₃⟩, hk₃⟩ => ?_) fun _ _ => id
  have hused : usedOf (xs' ++ ys') = usedOf (xs ++ ys) := by
    rw [usedOf_append, usedOf_append, hused₁, hused₂]
  refine ⟨⟨_, B₃, hs₃, ?_⟩, ?_⟩
  · rw [usedOf_append, usedOf_cons_free rfl, ← usedOf_append, hused]
  · rw [hused] at hk₃
    refine (hk₁.mono hsub).trans ((hk₂.mono fun d hd => ?_).trans hk₃)
    rw [usedOf_append, usedOf_append, hused₁]
    rw [usedOf_append] at hd
    rcases List.mem_append.mp hd with hd | hd
    · exact List.mem_append_left _ (List.mem_append_left _ hd)
    · exact List.mem_append_right _ hd

end CkbJs.Proof.Malloc
