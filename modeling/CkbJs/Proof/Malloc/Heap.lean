import CkbJs.Impl.Malloc

/-!
# Words, chunk headers and links

Read-over-write rules for the heap. A `Node` is what a link points to: a chunk,
whose links are words of it, or the anchor of a bin, whose links are its head and
tail (`next_setNext` and its like). `Heap.breaks` is the part of the heap that the
operations on chunks leave alone.
-/

namespace CkbJs.Impl.Malloc

open CkbJs

/-! ## Words -/

@[simp] theorem withoutInuse_withInuse (n : Nat) : withoutInuse (withInuse n) = withoutInuse n := by
  simp only [withInuse, withoutInuse]
  omega

namespace Heap

variable (h : Heap)

theorem word_setWord_self {a v : Nat} (hv : v < 2 ^ 64) : (h.setWord a v).word a = v := by
  rw [word, setWord, Mem.load_store_self]
  exact Nat.mod_eq_of_lt hv

theorem word_setWord_sep {a b v : Nat} (hab : b + 8 ≤ a ∨ a + 8 ≤ b) :
    (h.setWord a v).word b = h.word b := Mem.load_store_sep hab

theorem setWord_comm {a b v w : Nat} (hab : b + 8 ≤ a ∨ a + 8 ≤ b) :
    (h.setWord a v).setWord b w = (h.setWord b w).setWord a v := by
  unfold setWord
  dsimp only
  rw [Mem.store_comm h.mem hab]

/-- The variables of `_sbrk` and `expand_heap`. -/
def breaks : Nat × Nat × Nat × Nat := (h.programBreak, h.brkMin, h.brkMax, h.heapEnd)

end Heap

/-! ## Links -/

/-- What a link points to: a chunk or an anchor. -/
def Node (p : Nat) : Prop := (p % 2 = 1 ∨ p % 32 = 16) ∧ p < 2 ^ 64

theorem node_binToChunk {i : Nat} (h : i < 64) : Node (binToChunk i) := by
  unfold Node binToChunk
  omega

theorem Node.ne_zero {p : Nat} (h : Node p) : p ≠ 0 := by
  unfold Node at h
  omega

theorem binToChunk_inj {i j : Nat} (h : binToChunk i = binToChunk j) : i = j := by
  unfold binToChunk at h
  omega

namespace Heap

variable (h : Heap) {p q v i : Nat}

@[simp] theorem next_binToChunk (i : Nat) : h.next (binToChunk i) = h.head i := by
  rw [next, if_pos (by unfold binToChunk; omega), show binToChunk i / 2 = i by unfold binToChunk; omega]

@[simp] theorem prev_binToChunk (i : Nat) : h.prev (binToChunk i) = h.tail i := by
  rw [prev, if_pos (by unfold binToChunk; omega), show binToChunk i / 2 = i by unfold binToChunk; omega]

theorem next_anchor (hp : p % 2 = 1) : h.next p = h.head (p / 2) := if_pos hp

theorem next_chunk (hp : p % 32 = 16) : h.next p = h.word (p + 16) := if_neg (by omega)

theorem prev_anchor (hp : p % 2 = 1) : h.prev p = h.tail (p / 2) := if_pos hp

theorem prev_chunk (hp : p % 32 = 16) : h.prev p = h.word (p + 24) := if_neg (by omega)

theorem setNext_anchor (hp : p % 2 = 1) :
    h.setNext p v = { h with head := Function.update h.head (p / 2) v } := if_pos hp

theorem setNext_chunk (hp : p % 32 = 16) : h.setNext p v = h.setWord (p + 16) v := if_neg (by omega)

theorem setPrev_anchor (hp : p % 2 = 1) :
    h.setPrev p v = { h with tail := Function.update h.tail (p / 2) v } := if_pos hp

theorem setPrev_chunk (hp : p % 32 = 16) : h.setPrev p v = h.setWord (p + 24) v := if_neg (by omega)

theorem next_setNext (hp : Node p) (hq : Node q) (hv : v < 2 ^ 64) :
    (h.setNext p v).next q = if q = p then v else h.next q := by
  rcases hp.1 with hp | hp <;> rcases hq.1 with hq | hq
  · rw [h.setNext_anchor hp, next_anchor _ hq, next_anchor _ hq]
    show Function.update h.head (p / 2) v (q / 2) = _
    rw [Function.update_apply]
    exact if_congr (by omega) rfl rfl
  · rw [h.setNext_anchor hp, next_chunk _ hq, next_chunk _ hq, if_neg (by omega)]
    rfl
  · rw [h.setNext_chunk hp, next_anchor _ hq, next_anchor _ hq, if_neg (by omega)]
    rfl
  · rw [h.setNext_chunk hp, next_chunk _ hq, next_chunk _ hq]
    split
    · subst q
      exact word_setWord_self h hv
    · exact word_setWord_sep h (by omega)

theorem prev_setPrev (hp : Node p) (hq : Node q) (hv : v < 2 ^ 64) :
    (h.setPrev p v).prev q = if q = p then v else h.prev q := by
  rcases hp.1 with hp | hp <;> rcases hq.1 with hq | hq
  · rw [h.setPrev_anchor hp, prev_anchor _ hq, prev_anchor _ hq]
    show Function.update h.tail (p / 2) v (q / 2) = _
    rw [Function.update_apply]
    exact if_congr (by omega) rfl rfl
  · rw [h.setPrev_anchor hp, prev_chunk _ hq, prev_chunk _ hq, if_neg (by omega)]
    rfl
  · rw [h.setPrev_chunk hp, prev_anchor _ hq, prev_anchor _ hq, if_neg (by omega)]
    rfl
  · rw [h.setPrev_chunk hp, prev_chunk _ hq, prev_chunk _ hq]
    split
    · subst q
      exact word_setWord_self h hv
    · exact word_setWord_sep h (by omega)

theorem prev_setNext (hp : Node p) (hq : Node q) : (h.setNext p v).prev q = h.prev q := by
  rcases hp.1 with hp | hp
  · rw [h.setNext_anchor hp]
    rfl
  · rw [h.setNext_chunk hp]
    rcases hq.1 with hq | hq
    · rw [prev_anchor _ hq, prev_anchor _ hq]
      rfl
    · rw [prev_chunk _ hq, prev_chunk _ hq]
      exact word_setWord_sep h (by omega)

theorem next_setPrev (hp : Node p) (hq : Node q) : (h.setPrev p v).next q = h.next q := by
  rcases hp.1 with hp | hp
  · rw [h.setPrev_anchor hp]
    rfl
  · rw [h.setPrev_chunk hp]
    rcases hq.1 with hq | hq
    · rw [next_anchor _ hq, next_anchor _ hq]
      rfl
    · rw [next_chunk _ hq, next_chunk _ hq]
      exact word_setWord_sep h (by omega)

/-- Only the links of a chunk are in the memory. -/
theorem mem_setNext (hp : Node p) {x : Nat} (hx : p % 32 = 16 → x < p + 16 ∨ p + 32 ≤ x) :
    (h.setNext p v).mem x = h.mem x := by
  rcases hp.1 with hp | hp
  · rw [h.setNext_anchor hp]
  · rw [h.setNext_chunk hp]
    have := hx hp
    exact Mem.store_of_not (by omega)

theorem mem_setPrev (hp : Node p) {x : Nat} (hx : p % 32 = 16 → x < p + 16 ∨ p + 32 ≤ x) :
    (h.setPrev p v).mem x = h.mem x := by
  rcases hp.1 with hp | hp
  · rw [h.setPrev_anchor hp]
  · rw [h.setPrev_chunk hp]
    have := hx hp
    exact Mem.store_of_not (by omega)

@[simp] theorem breaks_setNext (p v : Nat) : (h.setNext p v).breaks = h.breaks := by
  unfold setNext
  split <;> rfl

@[simp] theorem breaks_setPrev (p v : Nat) : (h.setPrev p v).breaks = h.breaks := by
  unfold setPrev
  split <;> rfl

@[simp] theorem binmap_setNext (p v : Nat) : (h.setNext p v).binmap = h.binmap := by
  unfold setNext
  split <;> rfl

@[simp] theorem binmap_setPrev (p v : Nat) : (h.setPrev p v).binmap = h.binmap := by
  unfold setPrev
  split <;> rfl

end Heap

/-! ## The bits of the map -/

theorem getLsbD_set (b : BitVec 64) {i j : Nat} (hi : i < 64) :
    (b ||| 1#64 <<< i).getLsbD j = (b.getLsbD j || decide (j = i)) := by
  rw [BitVec.getLsbD_or, BitVec.getLsbD_shiftLeft, BitVec.getLsbD_one]
  by_cases h : j = i
  · subst h
    simp [hi]
  · simp [h]
    omega

theorem getLsbD_clear (b : BitVec 64) {i j : Nat} (hi : i < 64) :
    (b &&& ~~~(1#64 <<< i)).getLsbD j = (b.getLsbD j && decide (j ≠ i)) := by
  rw [BitVec.getLsbD_and, BitVec.getLsbD_not, BitVec.getLsbD_shiftLeft, BitVec.getLsbD_one]
  by_cases hj : j < 64
  · by_cases h : j = i
    · subst h
      simp [hi]
    · simp [h, hj]
      omega
  · simp [BitVec.getLsbD_of_ge b j (by omega)]

/-- The mask with which `malloc` starts its scan. -/
theorem getLsbD_mask (b : BitVec 64) {i j : Nat} (hi : i < 64) :
    (b &&& -(1#64 <<< i)).getLsbD j = (b.getLsbD j && decide (i ≤ j)) := by
  have hneg : ∀ i : Fin 64, -(1#64 <<< i.val) = BitVec.allOnes 64 <<< i.val := by decide
  rw [hneg ⟨i, hi⟩, BitVec.getLsbD_and, BitVec.getLsbD_shiftLeft, BitVec.getLsbD_allOnes]
  by_cases hj : j < 64
  · by_cases h : i ≤ j
    · simp [h, hj]
      omega
    · simp [h, hj]
  · simp [BitVec.getLsbD_of_ge b j (by omega)]

theorem firstSet_spec {x : BitVec 64} (h : x ≠ 0) : firstSet x < 64 ∧ x.getLsbD (firstSet x) = true := by
  obtain ⟨i, hi, hb⟩ : ∃ i < 64, x.getLsbD i = true := by
    by_contra hno
    refine h (BitVec.eq_of_getLsbD_eq fun i hi => ?_)
    rw [show (0 : BitVec 64).getLsbD i = false from BitVec.getLsbD_zero]
    exact Bool.eq_false_iff.mpr fun hb => hno ⟨i, hi, hb⟩
  have hlt : firstSet x < (List.range 64).length :=
    List.findIdx_lt_length_of_exists ⟨i, List.mem_range.mpr hi, hb⟩
  refine ⟨by simpa using hlt, ?_⟩
  have hget : x.getLsbD ((List.range 64).get ⟨firstSet x, hlt⟩) = true :=
    @List.findIdx_getElem Nat (fun i => x.getLsbD i) (List.range 64) hlt
  rwa [List.get_eq_getElem, List.getElem_range] at hget

end CkbJs.Impl.Malloc
