import CkbJs.Proof.Malloc.Bins
import CkbJs.Proof.Malloc.Sizes
import CkbJs.Spec.Malloc

/-!
# Chunks

`Shape h base cs sent B`: the heap `h` consists of the chunks `cs`, from `base` to the
sentinel at `sent`, with the free ones in the bins `B`. Its parts are the tags
(`Tags`), the rings, which chunks are in which bin (`Binned`), and where the heap ends
(`Limits`); an operation that has set the tags of a free chunk but has not put it
into its bin yet has a shape for neither, but has all the parts.

`Tags.replace` replaces some chunks by others on the same ground. `Shape.take` is
`unbin`, `put` is `bin_chunk`; both keep the data of all used chunks (`Keeps`).
-/

namespace CkbJs.Proof.Malloc

open CkbJs.Impl.Malloc CkbJs.Spec.Malloc

attribute [local irreducible] WP

abbrev ChunksTile := Tiles Chunk.addr Chunk.size

theorem mem_around {α : Type*} {xs ys : List α} {c d : α} (hd : d ∈ xs ++ ys) : d ∈ xs ++ c :: ys :=
  ((List.sublist_cons_self c ys).append_left xs).subset hd

theorem eq_or_mem_around {α : Type*} {xs ys : List α} {c d : α} (hd : d ∈ xs ++ c :: ys) :
    d = c ∨ d ∈ xs ++ ys := by
  rcases List.mem_append.mp hd with hd | hd
  · exact Or.inr (List.mem_append_left _ hd)
  · exact (List.mem_cons.mp hd).imp_right (List.mem_append_right _)

/-! ## Used chunks -/

def usedOf (cs : List Chunk) : List Chunk := cs.filter (·.used)

@[simp] theorem mem_usedOf {cs : List Chunk} {c : Chunk} : c ∈ usedOf cs ↔ c ∈ cs ∧ c.used = true :=
  List.mem_filter

@[simp] theorem usedOf_append (xs ys : List Chunk) : usedOf (xs ++ ys) = usedOf xs ++ usedOf ys :=
  List.filter_append ..

theorem usedOf_cons_used {c : Chunk} (hc : c.used = true) (cs : List Chunk) :
    usedOf (c :: cs) = c :: usedOf cs := List.filter_cons_of_pos hc

theorem usedOf_cons_free {c : Chunk} (hc : c.used = false) (cs : List Chunk) :
    usedOf (c :: cs) = usedOf cs := List.filter_cons_of_neg (by simp [hc])

/-- From `h` to `h'`, the range is the same, and so is the data of the chunks `D`. -/
structure Keeps (D : List Chunk) (h h' : Heap) : Prop where
  brkMin : h'.brkMin = h.brkMin
  brkMax : h'.brkMax = h.brkMax
  data : ∀ c ∈ D, ∀ x, c.addr + 16 ≤ x → x < c.addr + c.size → h'.mem x = h.mem x

namespace Keeps

variable {D D' : List Chunk} {h h' h'' : Heap}

theorem refl (D : List Chunk) (h : Heap) : Keeps D h h := ⟨rfl, rfl, fun _ _ _ _ _ => rfl⟩

theorem trans (hk : Keeps D h h') (hk' : Keeps D h' h'') : Keeps D h h'' :=
  ⟨hk'.brkMin.trans hk.brkMin, hk'.brkMax.trans hk.brkMax,
    fun c hc x hx hx' => (hk'.data c hc x hx hx').trans (hk.data c hc x hx hx')⟩

theorem mono (hk : Keeps D h h') (hsub : ∀ c ∈ D', c ∈ D) : Keeps D' h h' :=
  ⟨hk.brkMin, hk.brkMax, fun c hc => hk.data c (hsub c hc)⟩

/-- A step that changes neither the range nor the memory. -/
theorem of_eq (hb : h'.breaks = h.breaks) (hm : h'.mem = h.mem) : Keeps D h h' := by
  simp only [Heap.breaks, Prod.mk.injEq] at hb
  exact ⟨hb.2.1, hb.2.2.1, fun c _ x _ _ => by rw [hm]⟩

end Keeps

/-! ## Neighbours -/

/-- The last chunk, if there is one, is used. -/
def UsedLast (xs : List Chunk) : Prop := ∀ c ∈ xs.getLast?, c.used = true

/-- The first chunk, if there is one, is used. -/
def UsedFirst (xs : List Chunk) : Prop := ∀ c ∈ xs.head?, c.used = true

theorem apart_used {xs ys : List Chunk} {c : Chunk} (hc : c.used = true) :
    Apart (xs ++ c :: ys) ↔ Apart xs ∧ Apart ys := by
  unfold Apart
  rw [List.isChain_append, List.isChain_cons]
  constructor
  · rintro ⟨hx, ⟨-, hy⟩, -⟩
    exact ⟨hx, hy⟩
  · rintro ⟨hx, hy⟩
    refine ⟨hx, ⟨fun d _ => Or.inl hc, hy⟩, fun d _ e he => Or.inr ?_⟩
    obtain rfl : c = e := by simpa using he
    exact hc

theorem apart_free {xs ys : List Chunk} {c : Chunk} (hc : c.used = false) :
    Apart (xs ++ c :: ys) ↔ (Apart xs ∧ UsedLast xs) ∧ Apart ys ∧ UsedFirst ys := by
  unfold Apart
  rw [List.isChain_append, List.isChain_cons]
  constructor
  · rintro ⟨hx, ⟨hcy, hy⟩, hxc⟩
    refine ⟨⟨hx, fun d hd => ?_⟩, hy, fun d hd => ?_⟩
    · rcases hxc d hd c (by simp) with h | h
      · exact h
      · rw [hc] at h
        cases h
    · rcases hcy d hd with h | h
      · rw [hc] at h
        cases h
      · exact h
  · rintro ⟨⟨hx, hxl⟩, hy, hyf⟩
    exact ⟨hx, ⟨fun d hd => Or.inr (hyf d hd), hy⟩, fun d hd e _ => Or.inl (hxl d hd)⟩

/-! ## Tags -/

structure Tags (h : Heap) (base : Nat) (cs : List Chunk) (sent : Nat) : Prop where
  tiles : ChunksTile base cs sent
  sized : ∀ c ∈ cs, c.size % 32 = 0
  aligned : base % 32 = 16
  lt : sent < 2 ^ 64
  csize : ∀ c ∈ cs, h.csize c.addr = c.tag
  psize : ∀ c ∈ cs, h.psize (c.addr + c.size) = c.tag
  first : h.psize base = 1
  last : h.csize sent = 1

theorem tiles_mod {a b : Nat} {cs : List Chunk} (h : ChunksTile a cs b)
    (hsized : ∀ c ∈ cs, c.size % 32 = 0) : b % 32 = a % 32 := by
  induction cs generalizing a with
  | nil => exact congrArg (· % 32) (Eq.symm h)
  | cons c cs ih =>
    have := ih h.2.2 fun d hd => hsized d (List.mem_cons_of_mem c hd)
    have := hsized c List.mem_cons_self
    omega

theorem tag_half {c : Chunk} (hc : c.size % 32 = 0) : withoutInuse c.tag = c.size := by
  have := Bool.toNat_le c.used
  simp only [withoutInuse, Chunk.tag]
  omega

theorem tag_odd {c : Chunk} (hc : c.size % 32 = 0) : c.tag % 2 = 1 ↔ c.used = true := by
  simp only [Chunk.tag]
  cases c.used with
  | true =>
    simp only [Bool.toNat_true, iff_true]
    omega
  | false =>
    simp only [Bool.toNat_false, Bool.false_eq_true, iff_false]
    omega

namespace Tags

variable {h h' : Heap} {base sent : Nat} {cs xs ys mid mid' : List Chunk} {c : Chunk}

theorem bounds (ht : Tags h base cs sent) (hc : c ∈ cs) :
    base ≤ c.addr ∧ 32 ≤ c.size ∧ c.addr + c.size ≤ sent ∧ c.addr % 32 = 16 := by
  obtain ⟨hlo, hpos, hhi⟩ := ht.tiles.mem hc
  have hmod := ht.sized c hc
  obtain ⟨l₁, l₂, rfl⟩ := List.append_of_mem hc
  have haddr := tiles_mod (Tiles.split.mp ht.tiles).1 fun d hd => ht.sized d (List.mem_append_left _ hd)
  have := ht.aligned
  omega

theorem sized_of_mem (ht : Tags h base cs sent) (hc : c ∈ cs) : Sized c.size := by
  obtain ⟨-, h32, hhi, -⟩ := ht.bounds hc
  have := ht.lt
  exact ⟨h32, ht.sized c hc, by omega⟩

theorem chunkSize_eq (ht : Tags h base cs sent) (hc : c ∈ cs) : h.chunkSize c.addr = c.size := by
  rw [Heap.chunkSize, ht.csize c hc, tag_half (ht.sized c hc)]

theorem nextChunk_eq (ht : Tags h base cs sent) (hc : c ∈ cs) :
    h.nextChunk c.addr = c.addr + c.size := by
  rw [Heap.nextChunk, ht.chunkSize_eq hc]

theorem inuse_iff (ht : Tags h base cs sent) (hc : c ∈ cs) : h.inuse c.addr ↔ c.used = true := by
  rw [Heap.inuse, ht.csize c hc, tag_odd (ht.sized c hc)]

/-- Two chunks are the same or lie apart. -/
theorem apart (ht : Tags h base cs sent) {d : Chunk} (hc : c ∈ cs) (hd : d ∈ cs) :
    c = d ∨ c.addr + c.size ≤ d.addr ∨ d.addr + d.size ≤ c.addr := ht.tiles.apart hc hd

/-- Tags are kept where the header words are. -/
theorem congr (ht : Tags h base cs sent)
    (hw : ∀ w, w % 32 = 16 ∨ w % 32 = 24 → h'.word w = h.word w) : Tags h' base cs sent where
  tiles := ht.tiles
  sized := ht.sized
  aligned := ht.aligned
  lt := ht.lt
  csize c hc := by
    have := (ht.bounds hc).2.2.2
    rw [← ht.csize c hc]
    exact hw _ (by omega)
  psize c hc := by
    have := (ht.bounds hc).2.2.2
    have := ht.sized c hc
    rw [← ht.psize c hc]
    exact hw _ (by omega)
  first := (hw _ (Or.inl ht.aligned)).trans ht.first
  last := by
    have := tiles_mod ht.tiles ht.sized
    have := ht.aligned
    rw [← ht.last]
    exact hw _ (by omega)

/-- The chunks `mid`, from `a` to `b`, are replaced by `mid'`, by writes that reach from the
`csize` of `mid` to the `psize` after it. -/
theorem replace {a b : Nat} {m : Mem} (ht : Tags h base (xs ++ (mid ++ ys)) sent)
    (hxs : ChunksTile base xs a) (hys : ChunksTile b ys sent) (hmid : ChunksTile a mid' b)
    (hm : Mem.Within (a + 8) (b + 8) h.mem m) (hsized : ∀ c ∈ mid', c.size % 32 = 0)
    (hcsize : ∀ c ∈ mid', { h with mem := m }.csize c.addr = c.tag)
    (hpsize : ∀ c ∈ mid', { h with mem := m }.psize (c.addr + c.size) = c.tag) :
    Tags { h with mem := m } base (xs ++ (mid' ++ ys)) sent := by
  have hx {c : Chunk} (hc : c ∈ xs) : c ∈ xs ++ (mid ++ ys) := List.mem_append_left _ hc
  have hy {c : Chunk} (hc : c ∈ ys) : c ∈ xs ++ (mid ++ ys) :=
    List.mem_append_right _ (List.mem_append_right _ hc)
  have hle := hxs.le
  have hle' := hys.le
  refine ⟨Tiles.append.mpr ⟨a, hxs, Tiles.append.mpr ⟨b, hmid, hys⟩⟩, fun c hc => ?_, ht.aligned, ht.lt,
    fun c hc => ?_, fun c hc => ?_, ?_, ?_⟩
  · rcases List.mem_append.mp hc with hc | hc
    · exact ht.sized c (hx hc)
    rcases List.mem_append.mp hc with hc | hc
    · exact hsized c hc
    · exact ht.sized c (hy hc)
  · rcases List.mem_append.mp hc with hc | hc
    · have := (hxs.mem hc).2.2
      have := ht.bounds (hx hc)
      exact (hm.load_eq (by omega)).trans (ht.csize c (hx hc))
    rcases List.mem_append.mp hc with hc | hc
    · exact hcsize c hc
    · have := (hys.mem hc).1
      exact (hm.load_eq (by omega)).trans (ht.csize c (hy hc))
  · rcases List.mem_append.mp hc with hc | hc
    · have := (hxs.mem hc).2.2
      exact (hm.load_eq (by omega)).trans (ht.psize c (hx hc))
    rcases List.mem_append.mp hc with hc | hc
    · exact hpsize c hc
    · have := (hys.mem hc).1
      have := ht.bounds (hy hc)
      exact (hm.load_eq (by omega)).trans (ht.psize c (hy hc))
  · exact (hm.load_eq (by omega)).trans ht.first
  · exact (hm.load_eq (by omega)).trans ht.last

end Tags

/-! ## Which chunk is in which bin -/

def Binned (cs : List Chunk) (B : Nat → List Nat) : Prop :=
  ∀ i a, a ∈ B i ↔ ∃ c ∈ cs, c.used = false ∧ c.addr = a ∧ binIndex c.size = some i

namespace Binned

variable {cs cs' xs ys mid : List Chunk} {B : Nat → List Nat} {c : Chunk} {i : Nat}

theorem congr (hb : Binned cs B) (h : ∀ c, c.used = false → (c ∈ cs ↔ c ∈ cs')) : Binned cs' B := by
  intro i a
  rw [hb i a]
  constructor
  · rintro ⟨c, hc, hf, hrest⟩
    exact ⟨c, (h c hf).mp hc, hf, hrest⟩
  · rintro ⟨c, hc, hf, hrest⟩
    exact ⟨c, (h c hf).mpr hc, hf, hrest⟩

/-- Used chunks are in no bin. -/
theorem replace {mid' : List Chunk} (hb : Binned (xs ++ (mid ++ ys)) B)
    (hmid : ∀ c ∈ mid, c.used = true) (hmid' : ∀ c ∈ mid', c.used = true) :
    Binned (xs ++ (mid' ++ ys)) B := by
  refine hb.congr fun c hf => ?_
  have h : c ∉ mid := fun hc => by rw [hmid c hc] at hf; cases hf
  have h' : c ∉ mid' := fun hc => by rw [hmid' c hc] at hf; cases hf
  simp only [List.mem_append, h, h', false_or]

/-- Binned chunks lie outside the used ones. -/
theorem outside {a b base sent : Nat} (hb : Binned (xs ++ (mid ++ ys)) B)
    (hmid : ∀ c ∈ mid, c.used = true) (hxs : ChunksTile base xs a) (hys : ChunksTile b ys sent)
    (hsized : ∀ c ∈ xs, c.size % 32 = 0) : ∀ i, ∀ x ∈ B i, x + 32 ≤ a ∨ b ≤ x := by
  intro i x hx
  obtain ⟨c, hc, hf, rfl, -⟩ := (hb i x).mp hx
  rcases List.mem_append.mp hc with hc | hc
  · have := hxs.mem hc
    have := hsized c hc
    exact Or.inl (by omega)
  rcases List.mem_append.mp hc with hc | hc
  · rw [hmid c hc] at hf
    cases hf
  · exact Or.inr (hys.mem hc).1

theorem take {base sent : Nat} (hb : Binned (xs ++ c :: ys) B)
    (ht : ChunksTile base (xs ++ c :: ys) sent) (hc : c.used = false) (hi : binIndex c.size = some i)
    {l₁ l₂ : List Nat} (hB : B i = l₁ ++ c.addr :: l₂) (hnd : (B i).Nodup) :
    Binned (xs ++ { c with used := true } :: ys) (Function.update B i (l₁ ++ l₂)) := by
  have hmem : c ∈ xs ++ c :: ys := List.mem_append_right _ List.mem_cons_self
  have hne {d : Chunk} (hd : d ∈ xs ++ ys) : d.addr ≠ c.addr := by
    intro he
    have hnodup := ht.nodup
    rw [← ht.eq_of_addr (mem_around hd) hmem he] at hnodup
    exact (List.nodup_cons.mp (List.nodup_middle.mp hnodup)).1 hd
  have hfree {d : Chunk} (hf : d.used = false) :
      d ∈ xs ++ { c with used := true } :: ys ↔ d ∈ xs ++ ys := by
    have : d ≠ { c with used := true } := by
      rintro rfl
      cases hf
    simp [this]
  intro j a
  have hold : a ∈ Function.update B i (l₁ ++ l₂) j ↔ a ∈ B j ∧ (a ≠ c.addr) := by
    by_cases hji : j = i
    · subst hji
      rw [Function.update_self, hB]
      rw [hB] at hnd
      refine ⟨fun ha => ⟨mem_around ha, ?_⟩, fun ⟨ha, hne⟩ => (eq_or_mem_around ha).resolve_left hne⟩
      rintro rfl
      exact (List.nodup_cons.mp (List.nodup_middle.mp hnd)).1 ha
    · rw [Function.update_of_ne hji]
      refine ⟨fun ha => ⟨ha, ?_⟩, fun h => h.1⟩
      rintro rfl
      obtain ⟨d, hd, -, hda, hdj⟩ := (hb j c.addr).mp ha
      rw [ht.eq_of_addr hd hmem hda, hi] at hdj
      exact hji (Option.some.inj hdj).symm
  rw [hold, hb j a]
  constructor
  · rintro ⟨⟨d, hd, hf, rfl, hdj⟩, hda⟩
    refine ⟨d, (hfree hf).mpr ((eq_or_mem_around hd).resolve_left ?_), hf, rfl, hdj⟩
    rintro rfl
    exact hda rfl
  · rintro ⟨d, hd, hf, rfl, hdj⟩
    have hd' := (hfree hf).mp hd
    exact ⟨⟨d, mem_around hd', hf, rfl, hdj⟩, hne hd'⟩

theorem put {a n : Nat} (hb : Binned (xs ++ ⟨a, n, true⟩ :: ys) B) (hi : binIndex n = some i) :
    Binned (xs ++ ⟨a, n, false⟩ :: ys) (Function.update B i (B i ++ [a])) := by
  have hold (d : Chunk) (hf : d.used = false) : d ∈ xs ++ ⟨a, n, true⟩ :: ys ↔ d ∈ xs ++ ys := by
    have : d ≠ ⟨a, n, true⟩ := by
      rintro rfl
      cases hf
    simp [this]
  intro j x
  have hnew : x ∈ Function.update B i (B i ++ [a]) j ↔ x ∈ B j ∨ j = i ∧ x = a := by
    by_cases hji : j = i
    · subst hji
      rw [Function.update_self, List.mem_append, List.mem_singleton]
      simp
    · rw [Function.update_of_ne hji]
      simp [hji]
  rw [hnew, hb j x]
  constructor
  · rintro (⟨d, hd, hf, hrest⟩ | ⟨rfl, rfl⟩)
    · exact ⟨d, mem_around ((hold d hf).mp hd), hf, hrest⟩
    · exact ⟨⟨x, n, false⟩, List.mem_append_right _ List.mem_cons_self, rfl, rfl, hi⟩
  · rintro ⟨d, hd, hf, hda, hdj⟩
    rcases eq_or_mem_around hd with rfl | hd
    · rw [hi] at hdj
      exact Or.inr ⟨(Option.some.inj hdj).symm, hda.symm⟩
    · exact Or.inl ⟨d, (hold d hf).mpr hd, hf, hda, hdj⟩

end Binned

/-! ## The shape of a heap -/

/-- The heap ends where `expand_heap` and `_sbrk` say, inside the range. -/
structure Limits (h : Heap) (base sent : Nat) : Prop where
  lt : base < sent
  heapEnd : h.heapEnd = sent + 16
  programBreak : h.programBreak = sent + 16
  max : sent + 16 ≤ h.brkMax
  min : h.brkMin ≤ base

theorem Limits.congr {h h' : Heap} {base sent : Nat} (hl : Limits h base sent)
    (hb : h'.breaks = h.breaks) : Limits h' base sent := by
  simp only [Heap.breaks, Prod.mk.injEq] at hb
  obtain ⟨hpb, hmin, hmax, hend⟩ := hb
  exact ⟨hl.lt, hend.trans hl.heapEnd, hpb.trans hl.programBreak, hmax ▸ hl.max, hmin ▸ hl.min⟩

structure Shape (h : Heap) (base : Nat) (cs : List Chunk) (sent : Nat) (B : Nat → List Nat) : Prop where
  tags : Tags h base cs sent
  rings : Rings h B
  binned : Binned cs B
  apart : Apart cs
  limits : Limits h base sent

/-- Links are no header words. -/
theorem word_of_links {h h' : Heap} {F : List Nat} (hF : ∀ a ∈ F, a % 32 = 16)
    (hm : ∀ x, (∀ a ∈ F, x < a + 16 ∨ a + 32 ≤ x) → h'.mem x = h.mem x) {w : Nat}
    (hw : w % 32 = 16 ∨ w % 32 = 24) : h'.word w = h.word w := by
  refine Mem.load_congr fun x hx hx' => hm x fun a ha => ?_
  have := hF a ha
  omega

/-- Links of free chunks are no data. -/
theorem data_of_links {h h' : Heap} {F : List Nat} {base sent : Nat} {cs : List Chunk}
    (ht : Tags h base cs sent) (hF : ∀ a ∈ F, ∃ c ∈ cs, c.used = false ∧ c.addr = a)
    (hm : ∀ x, (∀ a ∈ F, x < a + 16 ∨ a + 32 ≤ x) → h'.mem x = h.mem x) :
    ∀ c ∈ usedOf cs, ∀ x, c.addr + 16 ≤ x → x < c.addr + c.size → h'.mem x = h.mem x := by
  intro c hc x hx hx'
  obtain ⟨hc, hu⟩ := mem_usedOf.mp hc
  refine hm x fun a ha => ?_
  obtain ⟨d, hd, hf, rfl⟩ := hF a ha
  have := ht.bounds hd
  rcases ht.apart hc hd with rfl | h | h
  · rw [hu] at hf
    cases hf
  · omega
  · omega

variable {h : Heap} {base sent : Nat} {xs ys : List Chunk} {B : Nat → List Nat}

/-- Header writes at the chunks from `a` to `b` keep the data of the others. -/
theorem keeps_within {m : Mem} {a b : Nat} (hxs : ChunksTile base xs a) (hys : ChunksTile b ys sent)
    (hm : Mem.Within (a + 8) (b + 8) h.mem m) : Keeps (xs ++ ys) h { h with mem := m } := by
  refine ⟨rfl, rfl, fun c hc x hx hx' => hm x ?_⟩
  rcases List.mem_append.mp hc with hc | hc
  · have := (hxs.mem hc).2.2
    omega
  · have := (hys.mem hc).1
    omega

/-- From `h` to `g`, the two tags of a chunk are written. -/
structure Tagged (h g : Heap) (a size tag : Nat) : Prop where
  eq : g = { h with mem := g.mem }
  within : Mem.Within (a + 8) (a + size + 8) h.mem g.mem
  csize : g.csize a = tag
  psize : g.psize (a + size) = tag
  data : ∀ x, a + 16 ≤ x → x < a + size → g.mem x = h.mem x

theorem tagged_tags {a size tag : Nat} (h : Heap) (hsize : 16 ≤ size) (ht : tag < 2 ^ 64) :
    Tagged h ((h.setCsize a tag).setPsize (a + size) tag) a size tag where
  eq := rfl
  within := ((Mem.Within.store _ _ _ _).mono (by omega) (by omega)).trans
    ((Mem.Within.store _ _ _ _).mono (by omega) (by omega))
  csize := (Heap.word_setWord_sep _ (by omega)).trans (Heap.word_setWord_self _ ht)
  psize := Heap.word_setWord_self _ ht
  data _ _ _ := (Mem.store_of_not (by omega)).trans (Mem.store_of_not (by omega))

/-- Used chunks are replaced by others on the same ground. -/
theorem Shape.retag {a b : Nat} {m : Mem} {mid mid' : List Chunk}
    (hs : Shape h base (xs ++ (mid ++ ys)) sent B) (hu : ∀ c ∈ mid, c.used = true)
    (hxs : ChunksTile base xs a) (hys : ChunksTile b ys sent) (hmid : ChunksTile a mid' b)
    (hm : Mem.Within (a + 8) (b + 8) h.mem m) (hsized : ∀ c ∈ mid', c.size % 32 = 0)
    (hcsize : ∀ c ∈ mid', { h with mem := m }.csize c.addr = c.tag)
    (hpsize : ∀ c ∈ mid', { h with mem := m }.psize (c.addr + c.size) = c.tag) :
    Tags { h with mem := m } base (xs ++ (mid' ++ ys)) sent ∧ Rings { h with mem := m } B ∧
      Keeps (xs ++ ys) h { h with mem := m } := by
  refine ⟨hs.tags.replace hxs hys hmid hm hsized hcsize hpsize,
    hs.rings.within hm (fun i x hx => ?_) rfl rfl rfl, keeps_within hxs hys hm⟩
  have := hs.binned.outside hu hxs hys (fun c hc => hs.tags.sized c (List.mem_append_left _ hc)) i x hx
  omega

theorem Shape.lockBin {cs : List Chunk} (hs : Shape h base cs sent B) (i : Nat) :
    Shape (lockBin i h) base cs sent B where
  tags := hs.tags.congr fun w _ => congrArg (fun m : Mem => m.load w 8) (mem_lockBin i h)
  rings := hs.rings.lockBin i
  binned := hs.binned
  apart := hs.apart
  limits := hs.limits.congr (breaks_lockBin i h)

theorem tag_used_lt {c : Chunk} (hc : Sized c.size) : { c with used := true }.tag < 2 ^ 64 := by
  obtain ⟨-, hmod, hlt⟩ := hc
  simp only [Chunk.tag, Bool.toNat_true]
  omega

/-- `markUsed` writes the two tags of a used chunk. -/
theorem Tags.markUsed_eq {cs : List Chunk} {c : Chunk} (ht : Tags h base cs sent) (hc : c ∈ cs)
    (hf : c.used = false) :
    markUsed c.addr h = (h.setCsize c.addr { c with used := true }.tag).setPsize (c.addr + c.size)
      { c with used := true }.tag := by
  obtain ⟨-, h32, -, hmod⟩ := ht.bounds hc
  have hlt := tag_used_lt (ht.sized_of_mem hc)
  have hsz := ht.sized c hc
  have htag : withInuse c.tag = { c with used := true }.tag := by
    simp only [withInuse, Chunk.tag, hf, Bool.toNat_false, Bool.toNat_true]
    omega
  have hn : (h.setCsize c.addr (withInuse (h.csize c.addr))).nextChunk c.addr = c.addr + c.size := by
    have hw : withInuse (h.csize c.addr) < 2 ^ 64 := by
      rwa [ht.csize c hc, htag]
    rw [Heap.nextChunk, Heap.chunkSize, Heap.csize, Heap.setCsize, Heap.word_setWord_self _ hw,
      withoutInuse_withInuse, ht.csize c hc, tag_half hsz]
  have hp : (h.setCsize c.addr (withInuse (h.csize c.addr))).psize (c.addr + c.size) = c.tag := by
    rw [← ht.psize c hc]
    exact Heap.word_setWord_sep _ (by omega)
  simp only [markUsed]
  rw [hn, hp, ht.csize c hc, htag]

/-- `unbin`: a free chunk leaves its bin and is used. -/
theorem Shape.take {c : Chunk} {i : Nat} (hs : Shape h base (xs ++ c :: ys) sent B)
    (hc : c.used = false) (hi : binIndex c.size = some i) :
    WP (unbin c.addr i) h (fun _ h' =>
      (∃ B', Shape h' base (xs ++ { c with used := true } :: ys) sent B') ∧
        Keeps (usedOf (xs ++ ys)) h h') fun _ _ => False := by
  have hmem : c ∈ xs ++ c :: ys := List.mem_append_right _ List.mem_cons_self
  have hbin : c.addr ∈ B i := (hs.binned i c.addr).mpr ⟨c, hmem, hc, rfl, hi⟩
  obtain ⟨l₁, l₂, hB⟩ := List.append_of_mem hbin
  refine wp_unbin (hs.rings.lt_of_mem hbin) ?_
  -- the links
  generalize hg : unlink c.addr i h = g
  have hmg (x : Nat) (hx : ∀ a ∈ B i, x < a + 16 ∨ a + 32 ≤ x) : g.mem x = h.mem x :=
    hg ▸ hs.rings.mem_unlink hB hx
  have hrg : Rings g (Function.update B i (l₁ ++ l₂)) := hg ▸ hs.rings.unlink hB
  have hbg : g.breaks = h.breaks := hg ▸ Rings.breaks_unlink ..
  have htg : Tags g base (xs ++ c :: ys) sent :=
    hs.tags.congr fun w hw => word_of_links (fun a ha => (hs.rings.chunk i a ha).1) hmg hw
  have hbinned := hs.binned.take hs.tags.tiles hc hi hB (hs.rings.nodup i)
  have hkg : Keeps (usedOf (xs ++ c :: ys)) h g := by
    have hb := hbg
    simp only [Heap.breaks, Prod.mk.injEq] at hb
    refine ⟨hb.2.1, hb.2.2.1, data_of_links hs.tags (fun a ha => ?_) hmg⟩
    obtain ⟨d, hd, hf, hda, -⟩ := (hs.binned i a).mp ha
    exact ⟨d, hd, hf, hda⟩
  -- the tags
  obtain ⟨hxs, hpos, hys⟩ := Tiles.split.mp hs.tags.tiles
  obtain ⟨-, h32, -, hmod⟩ := hs.tags.bounds hmem
  have hsz := hs.tags.sized c hmem
  rw [htg.markUsed_eq hmem hc]
  have htags := @tagged_tags c.addr c.size _ g (by omega) (tag_used_lt (hs.tags.sized_of_mem hmem))
  have hw := htags.within
  have hused : ∀ d ∈ [{ c with used := true }], d.used = true := by
    rintro d hd
    rw [List.mem_singleton.mp hd]
  refine ⟨⟨_, ?_, ?_, hbinned, ?_, hs.limits.congr hbg⟩, ?_⟩
  · refine @Tags.replace g base sent xs ys [c] [{ c with used := true }] _ _ _ htg hxs hys
      (Tiles.singleton_iff.mpr ⟨rfl, hpos, rfl⟩) hw ?_ ?_ ?_
    · rintro d hd
      rw [List.mem_singleton.mp hd]
      exact hsz
    · rintro d hd
      rw [List.mem_singleton.mp hd]
      exact htags.csize
    · rintro d hd
      rw [List.mem_singleton.mp hd]
      exact htags.psize
  · refine hrg.within hw (fun j x hx => ?_) rfl rfl rfl
    have hout : x + 32 ≤ c.addr ∨ c.addr + c.size ≤ x :=
      @Binned.outside xs ys [{ c with used := true }] _ _ _ _ _ hbinned hused hxs hys
        (fun d hd => hs.tags.sized d (List.mem_append_left _ hd)) j x hx
    omega
  · obtain ⟨hx, hy⟩ := (apart_free hc).mp hs.apart
    exact (apart_used rfl).mpr ⟨hx.1, hy.1⟩
  · refine (hkg.mono fun d hd => ?_).trans ((keeps_within hxs hys hw).mono fun d hd => (mem_usedOf.mp hd).1)
    obtain ⟨hd, hu⟩ := mem_usedOf.mp hd
    exact mem_usedOf.mpr ⟨mem_around hd, hu⟩

/-- `bin_chunk`: a chunk whose tags say that it is free goes into its bin. -/
theorem wp_put {a n i : Nat} (ht : Tags h base (xs ++ ⟨a, n, false⟩ :: ys) sent) (hr : Rings h B)
    (hb : Binned (xs ++ ⟨a, n, true⟩ :: ys) B) (hap : Apart (xs ++ ⟨a, n, false⟩ :: ys))
    (hl : Limits h base sent) (hi : binIndex n = some i) (h0 : h.head i ≠ 0) :
    WP (binChunk a i) h (fun _ h' =>
      (∃ B', Shape h' base (xs ++ ⟨a, n, false⟩ :: ys) sent B') ∧ Keeps (usedOf (xs ++ ys)) h h')
      fun _ _ => False := by
  have hmem : (⟨a, n, false⟩ : Chunk) ∈ xs ++ ⟨a, n, false⟩ :: ys :=
    List.mem_append_right _ List.mem_cons_self
  obtain ⟨-, h32, hle, hmod⟩ : base ≤ a ∧ 32 ≤ n ∧ a + n ≤ sent ∧ a % 32 = 16 := ht.bounds hmem
  have hlt := ht.lt
  obtain ⟨i', hi', hi64⟩ := binIndex_some (ht.sized_of_mem hmem)
  obtain rfl : i = i' := Option.some.inj (hi.symm.trans hi')
  have hsub {d : Chunk} (hd : d ∈ xs ++ ⟨a, n, true⟩ :: ys) (hf : d.used = false) :
      d ∈ xs ++ ⟨a, n, false⟩ :: ys ∧ d.addr ≠ a := by
    have hd' : d ∈ xs ++ ys := by
      refine (eq_or_mem_around hd).resolve_left ?_
      rintro rfl
      cases hf
    have hd'' : d ∈ xs ++ ⟨a, n, false⟩ :: ys := mem_around hd'
    refine ⟨hd'', fun he => ?_⟩
    have hnodup := ht.tiles.nodup
    rw [← ht.tiles.eq_of_addr hd'' hmem he] at hnodup
    exact (List.nodup_cons.mp (List.nodup_middle.mp hnodup)).1 hd'
  have hout (j : Nat) : a ∉ B j := by
    intro hj
    obtain ⟨d, hd, hf, hda, -⟩ := (hb j a).mp hj
    exact (hsub hd hf).2 hda
  refine wp_binChunk hi64 ?_
  have hm (x : Nat) (hx : ∀ b ∈ a :: B i, x < b + 16 ∨ b + 32 ≤ x) : (link a i h).mem x = h.mem x :=
    hr.mem_link hi64 h0 hmod (by omega) (hout i) hx
  have hF : ∀ b ∈ a :: B i, ∃ c ∈ xs ++ ⟨a, n, false⟩ :: ys, c.used = false ∧ c.addr = b := by
    intro b hb'
    rcases List.mem_cons.mp hb' with rfl | hb'
    · exact ⟨_, hmem, rfl, rfl⟩
    · obtain ⟨d, hd, hf, hda, -⟩ := (hb i b).mp hb'
      exact ⟨d, (hsub hd hf).1, hf, hda⟩
  refine ⟨⟨_, ht.congr fun w hw => ?_, hr.put hi64 h0 hmod (by omega) hout, hb.put hi, hap,
    hl.congr (Rings.breaks_link ..)⟩, ?_⟩
  · refine word_of_links (fun b hb' => ?_) hm hw
    obtain ⟨c, hc, -, rfl⟩ := hF b hb'
    exact (ht.bounds hc).2.2.2
  · have hbr := Rings.breaks_link a i h
    simp only [Heap.breaks, Prod.mk.injEq] at hbr
    refine ⟨hbr.2.1, hbr.2.2.1, fun d hd => data_of_links ht hF hm d ?_⟩
    obtain ⟨hd, hu⟩ := mem_usedOf.mp hd
    exact mem_usedOf.mpr ⟨mem_around hd, hu⟩

end CkbJs.Proof.Malloc
