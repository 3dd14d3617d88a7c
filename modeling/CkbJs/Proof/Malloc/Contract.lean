import CkbJs.Proof.Malloc.Realloc

/-!
# The contract of the allocator

`Good`: the used chunks of the heap are those of the live blocks (`chunkOf`). A call that
does not overrun the table keeps this and does what it owes (`Good.malloc`, `Good.realloc`,
`Good.free`), and so every reachable state is good. From this follow the contract
(`contract_of_range`) and when a call is total (`total_iff`).
-/

namespace CkbJs.Proof.Malloc

open CkbJs.Impl.Malloc CkbJs.Spec.Malloc

attribute [local irreducible] WP

/-- The chunk of a block. -/
def chunkOf (b : Block) : Chunk := ⟨memToChunk b.ptr, (adjustSize b.len).getD 0, true⟩

structure Good (min max : Nat) (s : State) : Prop where
  holds : Holds s.heap (s.live.map chunkOf)
  block : ∀ b ∈ s.live, 16 ≤ b.ptr ∧ b.len < 2 ^ 64 ∧ adjustSize b.len = some (chunkOf b).size
  brkMin : s.heap.brkMin = min
  brkMax : s.heap.brkMax = max

theorem Holds.pairwise {h : Heap} {U : List Chunk} (hU : Holds h U) :
    U.Pairwise fun c d => c.addr + c.size ≤ d.addr ∨ d.addr + d.size ≤ c.addr := by
  obtain ⟨cs, hI, hperm⟩ := hU
  have hcs : (usedOf cs).Pairwise fun c d => c.addr + c.size ≤ d.addr ∨ d.addr + d.size ≤ c.addr := by
    rcases hI with ⟨-, rfl⟩ | ⟨base, sent, B, hs⟩
    · exact List.Pairwise.nil
    · exact (hs.tags.tiles.pairwise.sublist List.filter_sublist).imp Or.inl
  exact (hperm.pairwise_iff fun h => h.symm).mp hcs

/-- What the heap says of a used chunk. -/
theorem Holds.chunk {h : Heap} {U : List Chunk} {c : Chunk} (hU : Holds h U) (hc : c ∈ U) :
    h.chunkSize c.addr = c.size ∧ Sized c.size ∧ h.brkMin ≤ c.addr ∧ c.addr + c.size ≤ h.brkMax ∧
      c.addr % 32 = 16 := by
  obtain ⟨cs, hI, hperm⟩ := hU
  obtain ⟨hc, -⟩ := mem_usedOf.mp (hperm.symm.subset hc)
  rcases hI with ⟨-, rfl⟩ | ⟨base, sent, B, hs⟩
  · cases hc
  · obtain ⟨hlo, -, hhi, hmod⟩ := hs.tags.bounds hc
    have := hs.limits.min
    have := hs.limits.max
    exact ⟨hs.tags.chunkSize_eq hc, hs.tags.sized_of_mem hc, by omega, by omega, hmod⟩

theorem Holds.of_perm {h : Heap} {U U' : List Chunk} (hU : Holds h U) (hp : U.Perm U') : Holds h U' := by
  obtain ⟨cs, hI, hperm⟩ := hU
  exact ⟨cs, hI, hperm.trans hp⟩

namespace Good

variable {min max : Nat} {s : State} {b : Block} {h' : Heap}

theorem start (mem : Mem) (min max : Nat) : Good min max (start mem min max) := by
  have hr : Rings (mallocConfig mem min max) fun _ => [] := by
    refine ⟨fun _ _ h0 => absurd rfl h0, fun _ _ => rfl, fun i => ?_, fun _ => List.nodup_nil,
      fun _ _ _ ha => absurd ha List.not_mem_nil, fun _ _ ha => absurd ha List.not_mem_nil⟩
    simp [mallocConfig]
  refine ⟨⟨[], Or.inl ⟨⟨rfl, hr, rfl, fun h0 => absurd rfl h0, ?_⟩, rfl⟩, List.Perm.refl _⟩,
    fun b hb => absurd hb List.not_mem_nil, rfl, rfl⟩
  show 0 + 0x38000 < 2 ^ 64
  omega

theorem addr (hg : Good min max s) (hb : b ∈ s.live) : (chunkOf b).addr + 16 = b.ptr := by
  have := (hg.block b hb).1
  simp only [chunkOf, memToChunk, OVERHEAD]
  omega

theorem chunk (hg : Good min max s) (hb : b ∈ s.live) :
    s.heap.chunkSize (memToChunk b.ptr) = (chunkOf b).size ∧ Sized (chunkOf b).size ∧
      min ≤ (chunkOf b).addr ∧ (chunkOf b).addr + (chunkOf b).size ≤ max ∧ (chunkOf b).addr % 32 = 16 := by
  have hmem : chunkOf b ∈ s.live.map chunkOf := List.mem_map_of_mem hb
  rw [← hg.brkMin, ← hg.brkMax]
  exact (hg.holds.chunk hmem :)

theorem usable (hg : Good min max s) (hb : b ∈ s.live) : b.usable s.heap = (chunkOf b).size - 16 := by
  rw [Block.usable, (hg.chunk hb).1]
  rfl

theorem long (hg : Good min max s) (hb : b ∈ s.live) : b.len + 16 ≤ (chunkOf b).size :=
  (adjustSize_some (hg.block b hb).2.1 (hg.block b hb).2.2).2

theorem unchanged {D : List Chunk} (hg : Good min max s) (hk : Keeps D s.heap h') (hb : b ∈ s.live)
    (hD : chunkOf b ∈ D) : Unchanged s.heap h' b := by
  intro i hi
  rw [hg.usable hb] at hi
  have := hg.addr hb
  exact hk.data _ hD _ (by omega) (by omega)

/-- A pointer is of one block: what is left when it is released. -/
theorem filter_ptr (hg : Good min max s) (hb : b ∈ s.live) :
    s.live.Perm (b :: s.live.filter (·.ptr ≠ b.ptr)) := by
  obtain ⟨l₁, l₂, hl⟩ := List.append_of_mem hb
  have hpw := hg.holds.pairwise
  rw [List.pairwise_map, hl] at hpw
  have hne {d : Block} (hd : d ∈ l₁ ++ l₂) : d.ptr ≠ b.ptr := by
    have hd' : d ∈ s.live := hl ▸ mem_around hd
    have hapart := (List.perm_middle.pairwise_iff fun h => h.symm).mp hpw
    have := (List.pairwise_cons.mp hapart).1 d hd
    have h₁ := hg.addr hb
    have h₂ := hg.addr hd'
    have h₃ := (hg.chunk hb).2.1.1
    have h₄ := (hg.chunk hd').2.1.1
    omega
  have hfilter : s.live.filter (·.ptr ≠ b.ptr) = l₁ ++ l₂ := by
    rw [hl, List.filter_append, List.filter_cons_of_neg (by simp), ← List.filter_append]
    exact List.filter_eq_self.mpr fun d hd => by simpa using hne hd
  rw [hfilter, hl]
  exact List.perm_middle

/-- The blocks of a good state are in order. -/
theorem blocks (hg : Good min max s) : Blocks min max s where
  disjoint := by
    have hpw := hg.holds.pairwise
    rw [List.pairwise_map] at hpw
    refine hpw.imp_of_mem fun {b c} hb hc h => ?_
    have := hg.addr hb
    have := hg.addr hc
    have := (hg.chunk hb).2.1.1
    have := (hg.chunk hc).2.1.1
    rw [hg.usable hb, hg.usable hc]
    omega
  aligned b hb := by
    have := hg.addr hb
    have := (hg.chunk hb).2.2.2.2
    omega
  inside b hb := by
    have := hg.addr hb
    obtain ⟨-, ⟨h32, -⟩, hlo, hhi, -⟩ := hg.chunk hb
    rw [hg.usable hb]
    omega
  long b hb := by
    have := hg.long hb
    have := (hg.chunk hb).2.1.1
    rw [hg.usable hb]
    omega

/-! ## The calls -/

/-- A new block in the place of some chunks. -/
theorem add {live : List Block} {c : Chunk} {n : BitVec 64} (hU : Holds h' (c :: live.map chunkOf))
    (hblock : ∀ b ∈ live, 16 ≤ b.ptr ∧ b.len < 2 ^ 64 ∧ adjustSize b.len = some (chunkOf b).size)
    (hmin : h'.brkMin = min) (hmax : h'.brkMax = max) (hc : c.used = true)
    (hn : adjustSize n.toNat = some c.size) : Good min max ⟨h', ⟨c.addr + 16, n.toNat⟩ :: live⟩ := by
  obtain ⟨a, size, used⟩ := c
  obtain rfl : used = true := hc
  have hn : adjustSize n.toNat = some size := hn
  have hchunk : chunkOf ⟨a + 16, n.toNat⟩ = ⟨a, size, true⟩ := by
    simp only [chunkOf, hn, Option.getD_some, memToChunk, OVERHEAD, Nat.add_sub_cancel]
  refine ⟨?_, List.forall_mem_cons.mpr ⟨⟨Nat.le_add_left .., n.isLt, ?_⟩, hblock⟩, hmin, hmax⟩
  · rw [List.map_cons, hchunk]
    exact hU
  · rw [hchunk]
    exact hn

theorem malloc (hr : Range min max) (hg : Good min max s) (n : BitVec 64) :
    WP (Impl.Malloc.malloc n) s.heap (fun r h' => Good min max ⟨h', (Call.malloc n).after s.live r⟩ ∧
      (∀ b ∈ s.live, Unchanged s.heap h' b) ∧
      (r = 0 → ∀ m, adjustSize n.toNat = some m → 0 < min → NoRoom s.heap m)) fun _ _ => False := by
  have hr' : Range s.heap.brkMin s.heap.brkMax := hg.brkMin ▸ hg.brkMax ▸ hr
  cases hadj : adjustSize n.toNat with
  | none =>
    rw [malloc_none hadj]
    refine WP.of_pure ⟨hg, fun b hb => fun _ _ => rfl, fun _ m hm => ?_⟩
    cases hm
  | some m =>
    rw [malloc_some hadj]
    refine (wp_mallocAdjusted hr' hg.holds (adjustSize_some n.isLt hadj).1).mono (fun r h' ⟨hk, hcase⟩ => ?_)
      fun _ _ => id
    have hmin : h'.brkMin = min := hk.brkMin.trans hg.brkMin
    have hmax : h'.brkMax = max := hk.brkMax.trans hg.brkMax
    refine ⟨?_, fun b hb => hg.unchanged hk hb (List.mem_map_of_mem hb), ?_⟩
    · rcases hcase with ⟨rfl, hU, -⟩ | ⟨c, rfl, hc, hsize, hU⟩
      · exact ⟨hU, hg.block, hmin, hmax⟩
      · have hadj' : adjustSize n.toNat = some c.size := hsize ▸ hadj
        simp only [Call.after, if_neg (show c.addr + 16 ≠ 0 by omega)]
        exact add hU hg.block hmin hmax hc hadj'
    · intro h0 m' hm' hpos
      obtain rfl : m = m' := Option.some.inj hm'
      rcases hcase with ⟨-, -, hreason⟩ | ⟨c, hc, -⟩
      · exact hreason.imp_right fun h => ⟨h.1, h.2 (by rw [hg.brkMin]; exact hpos)⟩
      · omega

theorem free (hg : Good min max s) {p : Nat} (hl : Legal s (.free p)) :
    WP (Call.free p).run s.heap (fun r h' => r = 0 ∧ Good min max ⟨h', (Call.free p).after s.live r⟩ ∧
      ∀ b ∈ s.live, b.ptr ≠ p → Unchanged s.heap h' b) fun _ _ => False := by
  have hafter (r : Nat) : (Call.free p).after s.live r = s.live.filter (·.ptr ≠ p) := rfl
  by_cases h0 : p = 0
  · subst h0
    have hall : s.live.filter (·.ptr ≠ 0) = s.live := List.filter_eq_self.mpr fun b hb => by
      have := (hg.block b hb).1
      simp only [ne_eq, decide_not, Bool.not_eq_true', decide_eq_false_iff_not]
      omega
    have hrun : (Call.free 0).run.run s.heap = (pure 0 : M Nat).run s.heap := rfl
    refine WP.of_run hrun (WP.of_pure ⟨rfl, ?_, fun _ _ _ _ _ => rfl⟩)
    rw [hafter, hall]
    exact hg
  · obtain ⟨b, hb, rfl⟩ := hl.resolve_left h0
    have hperm := (hg.filter_ptr hb).map chunkOf
    have hU := hg.holds.of_perm hperm
    have haddr := hg.addr hb
    rw [List.map_cons] at hU
    have hfree := wp_free hU
    rw [haddr] at hfree
    refine WP.seq hfree (fun _ _ h => h) ?_
    rintro _ h' ⟨hU', hk⟩
    refine WP.of_pure ⟨rfl, ⟨hU', fun d hd => hg.block d (List.mem_filter.mp hd).1,
      hk.brkMin.trans hg.brkMin, hk.brkMax.trans hg.brkMax⟩, fun d hd hne => hg.unchanged hk hd ?_⟩
    exact List.mem_map_of_mem (List.mem_filter.mpr ⟨hd, by simpa using hne⟩)

/-- `realloc` of a live block, unless it overruns the table. -/
theorem realloc (hr : Range min max) (hg : Good min max s) (hb : b ∈ s.live) (n : BitVec 64)
    (hno : ¬LargeShrink s (.realloc b.ptr n)) :
    WP (Impl.Malloc.realloc b.ptr n) s.heap (fun r h' =>
      Good min max ⟨h', (Call.realloc b.ptr n).after s.live r⟩ ∧
      (∀ d ∈ s.live, d.ptr ≠ b.ptr → Unchanged s.heap h' d) ∧
      (r ≠ 0 → ∀ i < n.toNat, i < b.usable s.heap → h'.mem (r + i) = s.heap.mem (b.ptr + i)) ∧
      (r = 0 → (∀ d ∈ s.live, Unchanged s.heap h' d) ∧ ¬Shrinks s b n)) fun _ _ => False := by
  have hr' : Range s.heap.brkMin s.heap.brkMax := hg.brkMin ▸ hg.brkMax ▸ hr
  obtain ⟨hptr, hlen, hadjb⟩ := hg.block b hb
  have hsize := (hg.chunk hb).1
  have haddr := hg.addr hb
  rw [Impl.Malloc.realloc, if_neg (by omega)]
  cases hadj : adjustSize n.toNat with
  | none =>
    refine WP.of_pure ⟨hg, fun _ _ _ _ _ => rfl, fun h => absurd rfl h, fun _ => ⟨fun _ _ _ _ => rfl, ?_⟩⟩
    rintro (hle | ⟨m, hm, -⟩)
    · obtain ⟨m, hm, -⟩ := adjustSize_mono hlen hadjb hle
      exact absurd (hadj.symm.trans hm) (Option.some_ne_none m).symm
    · exact absurd (hadj.symm.trans hm) (Option.some_ne_none m).symm
  | some m =>
    obtain ⟨hsz, hnm⟩ := adjustSize_some n.isLt hadj
    have hperm := hg.filter_ptr hb
    have hU := hg.holds.of_perm (hperm.map chunkOf)
    rw [List.map_cons] at hU
    have hover : ¬Overruns m (chunkOf b).size := fun ⟨hge, hlt⟩ =>
      hno ⟨b.ptr, n, m, rfl, by omega, hadj, hge, hsize ▸ hlt⟩
    have hwp := wp_reallocAdjusted hr' hU hsz hover
    rw [haddr] at hwp
    rw [Option.elim_some]
    refine hwp.mono (fun q h' hcase => ?_) fun _ _ => id
    rcases hcase with ⟨hk, c, rfl, hc, hcs, hU', hdata⟩ | ⟨⟨rfl, hU', hk⟩, hlt⟩
    · refine ⟨?_, fun d hd hne => hg.unchanged hk hd (List.mem_map_of_mem (List.mem_filter.mpr ⟨hd, by simpa using hne⟩)),
        fun _ i hi hi' => ?_, fun h0 => absurd h0 (by omega)⟩
      · have hadj' : adjustSize n.toNat = some c.size := hcs ▸ hadj
        simp only [Call.after, if_neg (show c.addr + 16 ≠ 0 by omega)]
        exact add hU' (fun d hd => hg.block d (List.mem_filter.mp hd).1) (hk.brkMin.trans hg.brkMin)
          (hk.brkMax.trans hg.brkMax) hc hadj'
      · rw [hg.usable hb] at hi'
        have := hdata i (by unfold OVERHEAD at hnm; omega) (by omega)
        rwa [haddr] at this
    · have hk' : Keeps (s.live.map chunkOf) s.heap h' := hk.perm (hperm.map chunkOf)
      refine ⟨⟨hU'.of_perm (hperm.map chunkOf).symm, hg.block, hk.brkMin.trans hg.brkMin,
        hk.brkMax.trans hg.brkMax⟩, fun d hd _ => hg.unchanged hk' hd (List.mem_map_of_mem hd),
        fun h => absurd rfl h, fun _ => ⟨fun d hd => hg.unchanged hk' hd (List.mem_map_of_mem hd), ?_⟩⟩
      rintro (hle | ⟨m', hm', hle⟩)
      · obtain ⟨m', hm', hle'⟩ := adjustSize_mono hlen hadjb hle
        obtain rfl : m = m' := Option.some.inj (hadj.symm.trans hm')
        omega
      · obtain rfl : m = m' := Option.some.inj (hadj.symm.trans hm')
        omega

/-- What a call does from a good state, when it does not overrun the table. -/
structure Done (min max : Nat) (s : State) (c : Call) (r : Nat) (h' : Heap) : Prop where
  good : Good min max ⟨h', c.after s.live r⟩
  others : ∀ b ∈ s.live, b.ptr ≠ c.arg → Unchanged s.heap h' b
  kept : ∀ p n, c = .realloc p n → r ≠ 0 → ∀ b ∈ s.live, b.ptr = p →
    ∀ i < n.toNat, i < b.usable s.heap → h'.mem (r + i) = s.heap.mem (p + i)
  failed : (∀ p, c ≠ .free p) → r = 0 → (∀ b ∈ s.live, Unchanged s.heap h' b) ∧
    ∀ p n, c = .realloc p n → ∀ b ∈ s.live, b.ptr = p → ¬Shrinks s b n
  noMemory : ∀ n, c = .malloc n → r = 0 → 0 < min →
    ∀ m, adjustSize n.toNat = some m → NoRoom s.heap m

theorem ptr_ne_zero (hg : Good min max s) (hb : b ∈ s.live) : b.ptr ≠ 0 := by
  have := (hg.block b hb).1
  omega

theorem call (hr : Range min max) (hg : Good min max s) {c : Call} (hl : Legal s c)
    (hno : ¬LargeShrink s c) : WP c.run s.heap (Done min max s c) fun _ _ => False := by
  cases c with
  | malloc n =>
    have hwp := hg.malloc hr n
    refine hwp.mono (fun r h' ⟨hgood, hsame, hnull⟩ => ?_) fun _ _ => id
    refine ⟨hgood, fun b hb _ => hsame b hb, fun p n he => ?_, fun _ _ => ⟨hsame, fun p n he => ?_⟩, ?_⟩
    · cases he
    · cases he
    · intro n' he h0 hpos m hm
      obtain rfl : n = n' := Call.malloc.inj he
      exact hnull h0 m hm hpos
  | free p =>
    have hwp := hg.free hl
    refine hwp.mono (fun r h' ⟨_, hgood, hsame⟩ => ?_) fun _ _ => id
    refine ⟨hgood, hsame, fun p n he => ?_, fun hnot => absurd rfl (hnot p), fun n he => ?_⟩
    · cases he
    · cases he
  | realloc p n =>
    by_cases h0 : p = 0
    · -- `realloc` of NULL is `malloc`
      subst h0
      have hwp := hg.malloc hr n
      have hall : s.live.filter (·.ptr ≠ 0) = s.live := List.filter_eq_self.mpr fun b hb => by
        simpa using hg.ptr_ne_zero hb
      refine hwp.mono (fun r h' ⟨hgood, hsame, _⟩ => ?_) fun _ _ => id
      have hafter : (Call.realloc 0 n).after s.live r = (Call.malloc n).after s.live r := by
        simp only [Call.after, hall]
      have hnone {b : Block} (hb : b ∈ s.live) {p : Nat} {k : BitVec 64}
          (he : Call.realloc 0 n = .realloc p k) (hp : b.ptr = p) : False := by
        obtain ⟨rfl, -⟩ := Call.realloc.inj he
        exact hg.ptr_ne_zero hb hp
      refine ⟨hafter ▸ hgood, fun b hb _ => hsame b hb, fun p k he _ b hb hp => (hnone hb he hp).elim,
        fun _ _ => ⟨hsame, fun p k he b hb hp => (hnone hb he hp).elim⟩, fun k he => ?_⟩
      cases he
    · obtain ⟨b, hb, rfl⟩ := hl.resolve_left h0
      have hwp := hg.realloc hr hb n hno
      have hsame {d : Block} (hd : d ∈ s.live) (hp : d.ptr = b.ptr) : d = b := by
        rcases List.mem_cons.mp ((hg.filter_ptr hb).subset hd) with he | hd
        · exact he
        · exact absurd hp (by simpa using (List.mem_filter.mp hd).2)
      refine hwp.mono (fun r h' ⟨hgood, hothers, hkept, hfail⟩ => ?_) fun _ _ => id
      refine ⟨hgood, hothers, ?_, ?_, fun k he => ?_⟩
      · intro p k he hr0 d hd hp i hi hi'
        obtain ⟨rfl, rfl⟩ := Call.realloc.inj he
        obtain rfl := hsame hd hp
        exact hkept hr0 i hi hi'
      · intro _ hr0
        refine ⟨(hfail hr0).1, ?_⟩
        intro p k he d hd hp
        obtain ⟨rfl, rfl⟩ := Call.realloc.inj he
        obtain rfl := hsame hd hp
        exact (hfail hr0).2
      · cases he

/-- A call that overruns the table does not end. -/
theorem overruns (hg : Good min max s) {c : Call} (hl : Legal s c) (hover : LargeShrink s c) :
    WP c.run s.heap (fun _ _ => False) fun e h' => e = .table ∧ h' = s.heap := by
  obtain ⟨p, n, m, rfl, h0, hadj, hge, hlt⟩ := hover
  obtain ⟨b, hb, rfl⟩ := hl.resolve_left h0
  have hU := hg.holds.of_perm ((hg.filter_ptr hb).map chunkOf)
  rw [List.map_cons] at hU
  rw [(hg.chunk hb).1] at hlt
  have hwp := wp_reallocAdjusted_overruns hU (adjustSize_some n.isLt hadj).1 ⟨hge, hlt⟩
  rw [hg.addr hb] at hwp
  have hrun : (Call.realloc b.ptr n).run = reallocAdjusted b.ptr m := by
    rw [Call.run, Impl.Malloc.realloc, if_neg h0, hadj, Option.elim_some]
  rwa [hrun]

/-- The client writes a byte of its own. -/
theorem write (hg : Good min max s) (hb : b ∈ s.live) {i : Nat} (hi : i < b.len) (v : Byte) :
    Good min max { s with heap := { s.heap with mem := Function.update s.heap.mem (b.ptr + i) v } } := by
  have hperm := (hg.filter_ptr hb).map chunkOf
  have hU := hg.holds.of_perm hperm
  rw [List.map_cons] at hU
  have haddr := hg.addr hb
  have hlong := hg.long hb
  have hw : Mem.Within ((chunkOf b).addr + 16) ((chunkOf b).addr + (chunkOf b).size) s.heap.mem
      (Function.update s.heap.mem (b.ptr + i) v) := by
    intro x hx
    exact Function.update_of_ne (by omega) ..
  have hU' := (hU.write hw).1
  exact ⟨hU'.of_perm hperm.symm, hg.block, hg.brkMin, hg.brkMax⟩

/-- One step keeps a state good. -/
theorem step (hr : Range min max) {L : State → Call → Prop} (hL : ∀ s c, L s c → Legal s c)
    (hg : Good min max s) {s' : State} (h : Step L s s') : Good min max s' := by
  cases h with
  | @call c r h hc hrun =>
    have hl := hL s c hc
    by_cases hover : LargeShrink s c
    · exact ((hg.overruns hl hover).ok hrun).elim
    · exact ((hg.call hr hl hover).ok hrun).good
  | write v hb hi => exact hg.write hb hi v

theorem of_reachable (hr : Range min max) {L : State → Call → Prop} (hL : ∀ s c, L s c → Legal s c)
    {mem : Mem} (h : Reachable L mem min max s) : Good min max s := by
  induction h with
  | refl => exact start mem min max
  | tail _ hstep ih => exact ih.step hr hL hstep

end Good

/-- A small request never overruns the table. -/
theorem not_largeShrink {s : State} {c : Call} (h : Small s c) : ¬LargeShrink s c := by
  rintro ⟨p, n, m, rfl, h0, hadj, hge, -⟩
  have hlt := h.resolve_left h0 m hadj
  simp only [MMAP_THRESHOLD, SIZE_ALIGN] at hlt hge
  omega

/-! ## Runs

Where the contract fails, a run of the model shows it. -/

/-- The state after some calls, all of which the discipline allows. -/
def play (L : State → Call → Prop) [∀ s c, Decidable (L s c)] : List Call → State → Option State
  | [], s => some s
  | c :: cs, s =>
    if L s c then
      match c.run.run s.heap with
      | .ok r h => play L cs ⟨h, c.after s.live r⟩
      | .error _ _ => none
    else none

theorem play_sound {L : State → Call → Prop} [∀ s c, Decidable (L s c)] {cs : List Call} {s t : State}
    (h : play L cs s = some t) : Relation.ReflTransGen (Step L) s t := by
  induction cs generalizing s with
  | nil => exact Option.some.inj h ▸ Relation.ReflTransGen.refl
  | cons c cs ih =>
    rw [play] at h
    by_cases hL : L s c
    · rw [if_pos hL] at h
      split at h
      · exact Relation.ReflTransGen.head (Step.call hL ‹_›) (ih h)
      · cases h
    · rw [if_neg hL] at h
      cases h

theorem exists_of_play {L : State → Call → Prop} [∀ s c, Decidable (L s c)] {cs : List Call} {mem : Mem}
    {min max : Nat} {P : State → Prop} [DecidablePred P]
    (h : (play L cs (start mem min max)).any (fun s => P s) = true) :
    ∃ s, Reachable L mem min max s ∧ P s := by
  cases hplay : play L cs (start mem min max) with
  | none =>
    rw [hplay] at h
    cases h
  | some s =>
    rw [hplay] at h
    exact ⟨s, play_sound hplay, of_decide_eq_true h⟩

/-- What a call returns, or why it stops. -/
def outcome (x : M Nat) (h : Heap) : Except Stop Nat :=
  match x.run h with
  | .ok r _ => .ok r
  | .error e _ => .error e

/-! ## The contract -/

theorem contract_of_range {min max : Nat} (hr : Range min max) (hpos : 0 < min) : Contract min max := by
  intro mem s hreach
  have hg := Good.of_reachable hr (fun _ _ h => And.left h) hreach
  refine ⟨hg.blocks, fun c hl hsmall => ?_⟩
  obtain ⟨r, h', hrun, hd⟩ := (hg.call hr hl (not_largeShrink hsmall)).exists_ok
  refine ⟨r, h', hrun, hd.others, ?_, fun hc h0 => (hd.failed hc h0).1,
    fun n hc h0 m hm => hd.noMemory n hc h0 hpos m hm⟩
  intro p n hc hr0 b hb hp i hi
  have hlong := (hg.blocks.long b hb).1
  have hmin := Nat.lt_min.mp hi
  exact hd.kept p n hc hr0 b hb hp i hmin.2 (Nat.lt_of_lt_of_le hmin.1 hlong)

theorem contract_ckb : Contract 0x10000 0x300000 :=
  contract_of_range ⟨by decide, by decide⟩ (by decide)

/-- A break of 0 is no break: where the range begins with it, the first `malloc` fails, and
where the range ends with it, the second `malloc` begins the heap again. -/
theorem not_contract : ¬Contract 0 0x300000 ∧ ¬Contract (2 ^ 64 - 4096) (2 ^ 64 - 1) := by
  constructor
  · intro hc
    obtain ⟨-, hcall⟩ := hc (fun _ => 0) _ Relation.ReflTransGen.refl
    obtain ⟨r, h', hrun, hf⟩ := hcall (.malloc 1) (Or.inl rfl) trivial
    have hout : outcome (Call.malloc 1).run (start (fun _ => 0) 0 0x300000).heap = .ok 0 := by
      decide +kernel
    obtain rfl : r = 0 := by
      rw [outcome, hrun] at hout
      exact Except.ok.inj hout
    rcases hf.noMemory 1 rfl rfl 32 (by decide +kernel) with hlarge | ⟨-, hbreak⟩
    · exact absurd hlarge (by decide)
    · exact absurd hbreak (by decide +kernel)
  · intro hc
    obtain ⟨s, hreach, hsame⟩ := @exists_of_play (fun s c => Legal s c ∧ Small s c) _
      [.malloc 4040, .malloc 4040] (fun _ => 0) (2 ^ 64 - 4096) (2 ^ 64 - 1)
      (fun s => s.live.map (fun b => (b.ptr, b.usable s.heap)) =
        [(2 ^ 64 - 4064, 4048), (2 ^ 64 - 4064, 4048)]) _ (by decide +kernel)
    have hpw := (hc _ s hreach).1.disjoint
    have hpw : (s.live.map fun b => (b.ptr, b.usable s.heap)).Pairwise
        fun x y => x.1 + x.2 ≤ y.1 ∨ y.1 + y.2 ≤ x.1 := List.pairwise_map.mpr hpw
    rw [hsame, List.pairwise_pair] at hpw
    exact absurd hpw (by decide)

/-! ## Total calls -/

theorem total_iff {min max : Nat} (hr : Range min max) (mem : Mem) (s : State) (c : Call)
    (hreach : Reachable Legal mem min max s) (hl : Legal s c) : Total s c ↔ ¬LargeShrink s c := by
  have hg := Good.of_reachable hr (fun _ _ => id) hreach
  constructor
  · rintro ⟨r, h', hrun, -⟩ hover
    exact (hg.overruns hl hover).ok hrun
  · intro hno
    obtain ⟨r, h', hrun, hd⟩ := (hg.call hr hl hno).exists_ok
    refine ⟨r, h', hrun, fun p n hc b hb hp hshrinks => ?_⟩
    have hr0 : r ≠ 0 := by
      intro h0
      have hfree : ∀ q, c ≠ .free q := by
        rintro q rfl
        cases hc
      exact (hd.failed hfree h0).2 p n hc b hb hp hshrinks
    refine ⟨hr0, fun i hi => hd.kept p n hc hr0 b hb hp i hi ?_⟩
    have hlong := (hg.blocks.long b hb).1
    rcases hshrinks with hle | ⟨m, hm, hle⟩
    · omega
    · have hnm := (adjustSize_some n.isLt hm).2
      simp only [Block.usable, OVERHEAD] at hnm ⊢
      omega

/-- A block that has grown in place to 500000 bytes is made smaller, inside the table. -/
theorem total_iff_realloc : ∃ s, Reachable Legal (fun _ => 0) 0x10000 0x300000 s ∧
    (∃ b ∈ s.live, b.ptr = 65568 ∧ b.len = 500000) ∧ Total s (.realloc 65568 262160) := by
  obtain ⟨s, hreach, hlive⟩ := @exists_of_play Legal _
    [.malloc 200000, .malloc 200000, .malloc 200000, .free 266240, .free 466944, .realloc 65568 500000]
    (fun _ => 0) 0x10000 0x300000 (fun s => ∃ b ∈ s.live, b.ptr = 65568 ∧ b.len = 500000) _
    (by decide +kernel)
  have hl : Legal s (.realloc 65568 262160) := by
    obtain ⟨b, hb, hptr, -⟩ := hlive
    exact Or.inr ⟨b, hb, hptr⟩
  have hsmall : ¬LargeShrink s (.realloc 65568 262160) := by
    rintro ⟨p, n, m, hc, -, hadj, hge, -⟩
    cases hc
    have hm : 262176 = m := Option.some.inj ((show adjustSize _ = some 262176 by decide).symm.trans hadj)
    rw [← hm] at hge
    exact absurd hge (by decide)
  exact ⟨s, hreach, hlive, (total_iff ⟨by decide, by decide⟩ _ s _ hreach hl).mpr hsmall⟩

/-- A block that has grown in place to 500000 bytes is made smaller. -/
theorem not_total : ¬∀ mem s c, Reachable Legal mem 0x10000 0x300000 s → Legal s c → Total s c := by
  intro htotal
  obtain ⟨s, hreach, hl, hout⟩ := @exists_of_play Legal _
    [.malloc 200000, .malloc 200000, .malloc 200000, .free 266240, .free 466944, .realloc 65568 500000]
    (fun _ => 0) 0x10000 0x300000
    (fun s => Legal s (.realloc 65568 300000) ∧
      outcome (Call.realloc 65568 300000).run s.heap = .error .table) _ (by decide +kernel)
  obtain ⟨r, h', hrun, -⟩ := htotal _ s _ hreach hl
  rw [outcome, hrun] at hout
  cases hout

end CkbJs.Proof.Malloc
