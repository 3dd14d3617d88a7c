import CkbJs.Proof.Malloc.Contract

/-!
# The order of the heap

A good state is in order (`Good.ordered`): its chunks, tags, rings and the map of bins are
those of its shape, its used chunks are the live blocks, and with no live block there is
one free chunk. The scan of the bins ends at its first bit (`Good.scanBreaks`).
-/

namespace CkbJs.Proof.Malloc

open CkbJs.Impl.Malloc CkbJs.Spec.Malloc

variable {h : Heap} {base sent : Nat} {cs : List Chunk} {B : Nat → List Nat}

/-- Free chunks that are apart are at most one. -/
theorem eq_singleton_of_apart (ha : Apart cs) (hfree : ∀ c ∈ cs, c.used = false) (hne : cs ≠ []) :
    ∃ c, cs = [c] ∧ c.used = false := by
  obtain ⟨c, cs, rfl⟩ := List.exists_cons_of_ne_nil hne
  have hc := hfree c List.mem_cons_self
  cases cs with
  | nil => exact ⟨c, rfl, hc⟩
  | cons d cs =>
    have hd := hfree d (List.mem_cons_of_mem c List.mem_cons_self)
    rcases ha.rel with h | h
    · exact absurd (h.symm.trans hc) (by decide)
    · exact absurd (h.symm.trans hd) (by decide)

/-- A heap in shape consists of its chunks. -/
theorem Shape.consists (hs : Shape h base cs sent B) : Consists h base cs sent B where
  tiles := hs.tags.tiles
  sized c hc := ⟨(hs.tags.tiles.mem hc).2.1, hs.tags.sized c hc⟩
  csize := hs.tags.csize
  psize := hs.tags.psize
  sentinel := ⟨hs.tags.last, hs.limits.heapEnd⟩
  binned := hs.binned
  nodup := hs.rings.nodup
  ring i hi := by
    by_cases h0 : h.head i = 0
    · exact Or.inr ⟨h0, hs.rings.empty i h0⟩
    · exact Or.inl ⟨h0, hs.rings.ring i hi h0⟩
  binmap := hs.rings.bit
  apart := hs.apart

theorem Shape.ne_nil (hs : Shape h base cs sent B) : cs ≠ [] := by
  rintro rfl
  have heq : base = sent := hs.tags.tiles
  have := hs.limits.lt
  omega

theorem Inv.scanBreaks (hI : Inv h cs) : ScanBreaks h := by
  intro i hi mask hne
  obtain ⟨-, hset⟩ := firstSet_spec hne
  generalize firstSet mask = j at hset ⊢
  have hmask : mask = h.binmap &&& -(1#64 <<< i) := rfl
  rw [hmask, getLsbD_mask _ hi, Bool.and_eq_true] at hset
  obtain ⟨base, sent, B, hs⟩ := hI.first_of_bin hset.1
  obtain ⟨xs, c, ys, hcs, -, hhead, -⟩ := hs.first_of_bin hset.1
  rw [hhead]
  exact hs.chunk_ne_anchor (hcs ▸ List.mem_append_right xs List.mem_cons_self) j

namespace Good

variable {min max : Nat} {s : State}

theorem scanBreaks (hg : Good min max s) : ScanBreaks s.heap := by
  obtain ⟨cs, hI, -⟩ := hg.holds
  exact hI.scanBreaks

theorem ordered (hg : Good min max s) : Ordered s := by
  obtain ⟨cs, hI, hperm⟩ := hg.holds
  have hno : usedOf cs = [] → s.live = [] := fun h0 =>
    List.map_eq_nil_iff.mp (List.nil_perm.mp (h0 ▸ hperm))
  have hInv := hI
  rcases hI with ⟨hf, rfl⟩ | ⟨base, sent, B, hs⟩
  · have hbits (j : Nat) : s.heap.binmap.getLsbD j = false := by
      have := hf.rings.bit j
      simpa using this
    refine Or.inl ⟨hf.heapEnd, hno rfl, ?_, fun i => hInv.noBin fun j _ => hbits j⟩
    exact BitVec.eq_of_getLsbD_eq fun j _ => by rw [hbits]; simp
  · refine Or.inr ⟨base, cs, sent, B, hs.consists, fun p => ⟨?_, ?_⟩, fun h0 => ?_⟩
    · rintro ⟨b, hb, rfl⟩
      obtain ⟨hc, hu⟩ := mem_usedOf.mp (hperm.symm.subset (List.mem_map_of_mem hb))
      exact ⟨chunkOf b, hc, hu, hg.addr hb⟩
    · rintro ⟨c, hc, hu, rfl⟩
      obtain ⟨b, hb, rfl⟩ := List.mem_map.mp (hperm.subset (mem_usedOf.mpr ⟨hc, hu⟩))
      exact ⟨b, hb, (hg.addr hb).symm⟩
    · rw [h0, List.map_nil] at hperm
      have hnone := List.perm_nil.mp hperm
      refine eq_singleton_of_apart hs.apart (fun c hc => ?_) hs.ne_nil
      by_contra hu
      exact List.not_mem_nil (hnone ▸ mem_usedOf.mpr ⟨hc, by simpa using hu⟩)

end Good

theorem staysOrdered_of_range {min max : Nat} (hr : Range min max) : StaysOrdered min max := by
  intro mem s hreach
  have hg := Good.of_reachable hr (fun _ _ h => And.left h) hreach
  refine ⟨hg.ordered, hg.scanBreaks, fun c hl hsmall => ?_⟩
  obtain ⟨r, h', hrun, -⟩ := (hg.call hr hl (not_largeShrink hsmall)).exists_ok
  exact ⟨r, h', hrun⟩

theorem staysOrdered_ckb : StaysOrdered 0x10000 0x300000 :=
  staysOrdered_of_range ⟨by decide, by decide⟩

/-- The first chunk of a bin does not start inside a live block. -/
theorem head_outside {s : State} {p i : Nat} (ho : Ordered s) (hp : p ∈ s.live.map (·.ptr)) (hi : i < 64)
    (h0 : s.heap.head i ≠ 0) (hne : s.heap.head i ≠ binToChunk i) :
    s.heap.head i < memToChunk p ∨ s.heap.nextChunk (memToChunk p) ≤ s.heap.head i := by
  obtain ⟨b, hb, rfl⟩ := List.mem_map.mp hp
  rcases ho with ⟨-, hnone, -⟩ | ⟨base, cs, sent, B, hcs, hlive, -⟩
  · exact absurd hb (hnone ▸ List.not_mem_nil)
  obtain ⟨c, hc, hu, hptr⟩ := (hlive b.ptr).mp ⟨b, hb, rfl⟩
  have hself : memToChunk b.ptr = c.addr := by
    rw [← hptr]
    exact Nat.add_sub_cancel ..
  have hring := ((hcs.ring i hi).resolve_right fun h => h0 h.1).2
  have hhead := hring.next_mem
  rw [Heap.next_binToChunk] at hhead
  obtain ⟨d, hd, hf, haddr, -⟩ := (hcs.binned i _).mp ((List.mem_cons.mp hhead).resolve_left hne)
  have hsize : s.heap.chunkSize c.addr = c.size := by
    rw [Heap.chunkSize, hcs.csize c hc]
    exact tag_half (hcs.sized c hc).2
  rw [hself, Heap.nextChunk, hsize, ← haddr]
  rcases hcs.tiles.apart hc hd with rfl | hle | hle
  · exact absurd (hu.symm.trans hf) (by decide)
  · exact Or.inr hle
  · have := (hcs.tiles.mem hd).2.1
    omega

/-- Where the break wraps to 0 the heap begins again, below the chunks of the first one. -/
theorem not_staysOrdered : ¬StaysOrdered (2 ^ 64 - 4096) (2 ^ 64 - 1) := by
  intro hstays
  obtain ⟨s, hreach, hhead, hlive, hnext⟩ := @exists_of_play (fun s c => Legal s c ∧ Small s c) _
    [.malloc 100, .malloc 4040] (fun _ => 0) (2 ^ 64 - 4096) (2 ^ 64 - 1)
    (fun s => s.heap.head 39 = 2 ^ 64 - 3952 ∧ 2 ^ 64 - 4064 ∈ s.live.map (·.ptr) ∧
      s.heap.nextChunk (2 ^ 64 - 4080) = 2 ^ 64 - 16) _ (by decide +kernel)
  have hout := head_outside (hstays _ s hreach).1 hlive (i := 39) (by decide) (by rw [hhead]; decide)
    (by rw [hhead]; decide)
  have hself : memToChunk (2 ^ 64 - 4064) = 2 ^ 64 - 4080 := by decide
  rw [hself, hnext, hhead] at hout
  exact absurd hout (by decide)

end CkbJs.Proof.Malloc
