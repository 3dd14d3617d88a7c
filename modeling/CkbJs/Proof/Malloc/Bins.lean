import CkbJs.Framework.Ring
import CkbJs.Framework.WP
import CkbJs.Proof.Malloc.Heap

/-!
# Bins

`Rings h B`: each bin `i` is a ring of the chunks `B i`, and its bit in the map says
whether it has any. `Rings.lockBin`, `Rings.unlink` (the links of `unbin`) and
`Rings.put` (`bin_chunk`) are what the three operations on bins do to it; each of them
changes only links of chunks in the bin (`mem_unlink`, `mem_link`), and `Rings.within`
keeps the rings of a heap of which other bytes change.
-/

namespace CkbJs.Proof.Malloc

open CkbJs.Impl.Malloc

-- a program is taken apart by the rules of `WP`, never by evaluating it
attribute [local irreducible] WP

structure Rings (h : Heap) (B : Nat → List Nat) : Prop where
  ring : ∀ i < 64, h.head i ≠ 0 → Ring h.next h.prev (binToChunk i) (B i)
  empty : ∀ i, h.head i = 0 → B i = []
  bit : ∀ i, h.binmap.getLsbD i = true ↔ B i ≠ []
  nodup : ∀ i, (B i).Nodup
  disjoint : ∀ i j a, a ∈ B i → a ∈ B j → i = j
  chunk : ∀ i, ∀ a ∈ B i, a % 32 = 16 ∧ a < 2 ^ 64

namespace Rings

variable {h : Heap} {B : Nat → List Nat} {i j : Nat}

theorem node (hr : Rings h B) (hi : i < 64) {a : Nat} (ha : a ∈ binToChunk i :: B i) : Node a := by
  rcases List.mem_cons.mp ha with rfl | ha
  · exact node_binToChunk hi
  · exact ⟨Or.inr (hr.chunk i a ha).1, (hr.chunk i a ha).2⟩

theorem binToChunk_notMem (hr : Rings h B) (i j : Nat) : binToChunk i ∉ B j := by
  intro hmem
  have := (hr.chunk j _ hmem).1
  unfold binToChunk at this
  omega

theorem nodup_cons (hr : Rings h B) (i : Nat) : (binToChunk i :: B i).Nodup :=
  List.nodup_cons.mpr ⟨hr.binToChunk_notMem i i, hr.nodup i⟩

/-- The nodes of two bins are different. -/
theorem ne_of_ne (hr : Rings h B) (hij : i ≠ j) {x y : Nat} (hx : x ∈ binToChunk i :: B i)
    (hy : y ∈ binToChunk j :: B j) : x ≠ y := by
  rintro rfl
  rcases List.mem_cons.mp hx with rfl | hx
  · rcases List.mem_cons.mp hy with he | hy
    · exact hij (binToChunk_inj he)
    · exact hr.binToChunk_notMem i j hy
  · rcases List.mem_cons.mp hy with rfl | hy
    · exact hr.binToChunk_notMem j i hx
    · exact hij (hr.disjoint i j x hx hy)

theorem lt_of_mem (hr : Rings h B) {a : Nat} (ha : a ∈ B i) : i < 64 := by
  refine Nat.lt_of_not_le fun hge => ?_
  have hb := (hr.bit i).mpr (List.ne_nil_of_mem ha)
  rw [BitVec.getLsbD_of_ge h.binmap i hge] at hb
  cases hb

theorem head_ne_zero (hr : Rings h B) {a : Nat} (ha : a ∈ B i) : h.head i ≠ 0 := by
  intro h0
  rw [hr.empty i h0] at ha
  cases ha

/-- The head of a bin that has chunks is the first of them. -/
theorem head_eq (hr : Rings h B) {a : Nat} {l : List Nat} (hB : B i = a :: l) : h.head i = a := by
  have ha : a ∈ B i := hB ▸ List.mem_cons_self
  have hring := hr.ring i (hr.lt_of_mem ha) (hr.head_ne_zero ha)
  rw [hB] at hring
  rw [← Heap.next_binToChunk]
  exact hring.next_eq

/-- Rings whose links are not among the bytes that change. -/
theorem within (hr : Rings h B) {h' : Heap} {lo hi : Nat} (hm : Mem.Within lo hi h.mem h'.mem)
    (hout : ∀ i, ∀ a ∈ B i, a + 32 ≤ lo ∨ hi ≤ a + 16) (hhead : h'.head = h.head) (htail : h'.tail = h.tail)
    (hmap : h'.binmap = h.binmap) : Rings h' B where
  ring := by
    intro i hi h0
    rw [hhead] at h0
    refine (hr.ring i hi h0).congr (fun x hx => ?_) fun x hx => ?_
    · rcases List.mem_cons.mp hx with rfl | hx
      · rw [Heap.next_binToChunk, Heap.next_binToChunk, hhead]
      · have hc := (hr.chunk i x hx).1
        have := hout i x hx
        rw [Heap.next_chunk _ hc, Heap.next_chunk _ hc]
        exact hm.load_eq (by omega)
    · rcases List.mem_cons.mp hx with rfl | hx
      · rw [Heap.prev_binToChunk, Heap.prev_binToChunk, htail]
      · have hc := (hr.chunk i x hx).1
        have := hout i x hx
        rw [Heap.prev_chunk _ hc, Heap.prev_chunk _ hc]
        exact hm.load_eq (by omega)
  empty i h0 := hr.empty i (hhead ▸ h0)
  bit i := hmap ▸ hr.bit i
  nodup := hr.nodup
  disjoint := hr.disjoint
  chunk := hr.chunk

end Rings

/-! ## `lock_bin` -/

@[simp] theorem mem_lockBin (i : Nat) (h : Heap) : (lockBin i h).mem = h.mem := by
  unfold lockBin
  split <;> rfl

@[simp] theorem breaks_lockBin (i : Nat) (h : Heap) : (lockBin i h).breaks = h.breaks := by
  unfold lockBin
  split <;> rfl

theorem lockBin_of_ne {i : Nat} {h : Heap} (h0 : h.head i ≠ 0) : lockBin i h = h := if_neg h0

theorem head_lockBin (i : Nat) (h : Heap) : (lockBin i h).head i ≠ 0 := by
  unfold lockBin
  split
  · show Function.update h.head i (binToChunk i) i ≠ 0
    rw [Function.update_self]
    unfold binToChunk
    omega
  · assumption

/-- A bin that is used for the first time is an empty ring. -/
theorem Rings.lockBin {h : Heap} {B : Nat → List Nat} (hr : Rings h B) (i : Nat) :
    Rings (lockBin i h) B := by
  by_cases h0 : h.head i = 0
  · have hlock : Impl.Malloc.lockBin i h = { h with
        head := Function.update h.head i (binToChunk i)
        tail := Function.update h.tail i (binToChunk i) } := if_pos h0
    rw [hlock]
    refine ⟨fun j hj hne => ?_, fun j hj => ?_, hr.bit, hr.nodup, hr.disjoint, hr.chunk⟩
    · by_cases hij : j = i
      · subst j
        rw [hr.empty i h0, Ring.nil_iff, Heap.next_binToChunk, Heap.prev_binToChunk]
        exact ⟨Function.update_self .., Function.update_self ..⟩
      · change Function.update h.head i (binToChunk i) j ≠ 0 at hne
        rw [Function.update_of_ne hij] at hne
        refine (hr.ring j hj hne).congr (fun x hx => ?_) fun x hx => ?_
        · rcases List.mem_cons.mp hx with rfl | hx
          · rw [Heap.next_binToChunk, Heap.next_binToChunk]
            exact Function.update_of_ne hij ..
          · have hc := (hr.chunk j x hx).1
            rw [Heap.next_chunk _ hc, Heap.next_chunk _ hc]
            rfl
        · rcases List.mem_cons.mp hx with rfl | hx
          · rw [Heap.prev_binToChunk, Heap.prev_binToChunk]
            exact Function.update_of_ne hij ..
          · have hc := (hr.chunk j x hx).1
            rw [Heap.prev_chunk _ hc, Heap.prev_chunk _ hc]
            rfl
    · by_cases hij : j = i
      · exact hij ▸ hr.empty i h0
      · change Function.update h.head i (binToChunk i) j = 0 at hj
        rw [Function.update_of_ne hij] at hj
        exact hr.empty j hj
  · rwa [lockBin_of_ne h0]

/-! ## The links of `unbin` -/

/-- The first part of `unbin`: the bit and the links. -/
def unlink (c i : Nat) (h : Heap) : Heap :=
  let h := if h.prev c = h.next c then { h with binmap := h.binmap &&& ~~~(1#64 <<< i) } else h
  let h := h.setNext (h.prev c) (h.next c)
  h.setPrev (h.next c) (h.prev c)

/-- The second part of `unbin`: the tags. -/
def markUsed (c : Nat) (h : Heap) : Heap :=
  let h := h.setCsize c (withInuse (h.csize c))
  h.setPsize (h.nextChunk c) (withInuse (h.psize (h.nextChunk c)))

theorem wp_unbin {c i : Nat} {h : Heap} {Q : Unit → Heap → Prop} {R : Stop → Heap → Prop}
    (hi : i < 64) (hQ : Q () (markUsed c (unlink c i h))) : WP (unbin c i) h Q R := by
  have hrun : (unbin c i).run h = .ok () (markUsed c (unlink c i h)) := by
    by_cases hc : h.prev c = h.next c
    · simp [unbin, bit, unlink, markUsed, hi, hc]
    · simp [unbin, unlink, markUsed, hc]
  unfold WP
  rwa [hrun]

namespace Rings

variable {h : Heap} {B : Nat → List Nat} {i j c : Nat} {l₁ l₂ : List Nat}

/-- The neighbours of a chunk in a bin are nodes of it, other than the chunk. -/
theorem neighbours (hr : Rings h B) (hB : B i = l₁ ++ c :: l₂) :
    (h.prev c ∈ binToChunk i :: B i ∧ h.prev c ≠ c) ∧ h.next c ∈ binToChunk i :: B i ∧ h.next c ≠ c := by
  have hc : c ∈ B i := hB ▸ List.mem_append_right _ List.mem_cons_self
  have hring := hr.ring i (hr.lt_of_mem hc) (hr.head_ne_zero hc)
  have hnd := hr.nodup_cons i
  rw [hB] at hring hnd ⊢
  obtain ⟨hp, hn⟩ := hring.neighbours_mem
  obtain ⟨hb, hnd⟩ := List.nodup_cons.mp hnd
  obtain ⟨-, hnd₂, hdisj⟩ := List.nodup_append.mp hnd
  refine ⟨⟨?_, fun he => ?_⟩, ?_, fun he => ?_⟩
  · rw [← List.cons_append]
    exact List.mem_append_left _ hp
  · rw [he] at hp
    rcases List.mem_cons.mp hp with rfl | hp
    · exact hb (List.mem_append_right _ List.mem_cons_self)
    · exact hdisj c hp c List.mem_cons_self rfl
  · rcases List.mem_append.mp hn with hn | hn
    · exact List.mem_cons_of_mem _ (List.mem_append_right _ (List.mem_cons_of_mem c hn))
    · exact List.mem_singleton.mp hn ▸ List.mem_cons_self
  · rw [he] at hn
    rcases List.mem_append.mp hn with hn | hn
    · exact (List.nodup_cons.mp hnd₂).1 hn
    · exact hb (List.mem_singleton.mp hn ▸ List.mem_append_right _ List.mem_cons_self)

/-- The heap after `unlink`: the bit of the map does not show in the links. -/
theorem unlink_eq (hr : Rings h B) (hB : B i = l₁ ++ c :: l₂) :
    ∃ g : Heap, g.next = h.next ∧ g.prev = h.prev ∧ g.mem = h.mem ∧
      unlink c i h = (g.setNext (h.prev c) (h.next c)).setPrev (h.next c) (h.prev c) := by
  have hc : c ∈ B i := hB ▸ List.mem_append_right _ List.mem_cons_self
  have hi := hr.lt_of_mem hc
  obtain ⟨⟨hp, hpc⟩, hn, hnc⟩ := hr.neighbours hB
  have hcn := hr.node hi (List.mem_cons_of_mem _ hc)
  have hpn := hr.node hi hp
  have hnn := hr.node hi hn
  unfold unlink
  generalize hg : (if h.prev c = h.next c then { h with binmap := h.binmap &&& ~~~(1#64 <<< i) } else h) = g
  have hgn : g.next = h.next := by rw [← hg]; split <;> rfl
  have hgp : g.prev = h.prev := by rw [← hg]; split <;> rfl
  refine ⟨g, hgn, hgp, by rw [← hg]; split <;> rfl, ?_⟩
  simp only [hgn, hgp]
  have hnext : (g.setNext (h.prev c) (h.next c)).next c = h.next c := by
    rw [g.next_setNext hpn hcn hnn.2, if_neg (Ne.symm hpc), hgn]
  have hprev : (g.setNext (h.prev c) (h.next c)).prev c = h.prev c := by
    rw [g.prev_setNext hpn hcn, hgp]
  rw [hnext, hprev]

/-- The links after `unlink`. -/
theorem links_unlink (hr : Rings h B) (hB : B i = l₁ ++ c :: l₂) {q : Nat} (hq : Node q) :
    (unlink c i h).next q = (if q = h.prev c then h.next c else h.next q) ∧
      (unlink c i h).prev q = (if q = h.next c then h.prev c else h.prev q) := by
  have hi := hr.lt_of_mem (hB ▸ List.mem_append_right _ List.mem_cons_self : c ∈ B i)
  obtain ⟨⟨hp, -⟩, hn, -⟩ := hr.neighbours hB
  have hpn := hr.node hi hp
  have hnn := hr.node hi hn
  obtain ⟨g, hgn, hgp, -, hg⟩ := hr.unlink_eq hB
  rw [hg, Heap.next_setPrev _ hnn hq, g.next_setNext hpn hq hnn.2, Heap.prev_setPrev _ hnn hq hpn.2,
    g.prev_setNext hpn hq, hgn, hgp]
  exact ⟨rfl, rfl⟩

theorem mem_unlink (hr : Rings h B) (hB : B i = l₁ ++ c :: l₂) {x : Nat}
    (hx : ∀ a ∈ B i, x < a + 16 ∨ a + 32 ≤ x) : (unlink c i h).mem x = h.mem x := by
  have hi := hr.lt_of_mem (hB ▸ List.mem_append_right _ List.mem_cons_self : c ∈ B i)
  obtain ⟨⟨hp, -⟩, hn, -⟩ := hr.neighbours hB
  have hpn := hr.node hi hp
  have hnn := hr.node hi hn
  have hout {y : Nat} (hy : y ∈ binToChunk i :: B i) (h16 : y % 32 = 16) : x < y + 16 ∨ y + 32 ≤ x := by
    rcases List.mem_cons.mp hy with rfl | hy
    · unfold binToChunk at h16
      omega
    · exact hx y hy
  obtain ⟨g, -, -, hgm, hg⟩ := hr.unlink_eq hB
  rw [hg, Heap.mem_setPrev _ hnn (hout hn), Heap.mem_setNext _ hpn (hout hp), hgm]

@[simp] theorem breaks_unlink (c i : Nat) (h : Heap) : (Malloc.unlink c i h).breaks = h.breaks := by
  simp only [Malloc.unlink, Heap.breaks_setPrev, Heap.breaks_setNext]
  split <;> rfl

theorem binmap_unlink (c i : Nat) (h : Heap) : (Malloc.unlink c i h).binmap =
    if h.prev c = h.next c then h.binmap &&& ~~~(1#64 <<< i) else h.binmap := by
  simp only [Malloc.unlink, Heap.binmap_setPrev, Heap.binmap_setNext]
  split <;> rfl

/-- A bin in use whose links are as they were is still a ring. -/
theorem ring_congr (hr : Rings h B) {h' : Heap} (hj : j < 64)
    (hkept : ∀ x ∈ binToChunk j :: B j, h'.next x = h.next x ∧ h'.prev x = h.prev x) (hj0 : h'.head j ≠ 0) :
    Ring h'.next h'.prev (binToChunk j) (B j) := by
  have hj0' : h.head j ≠ 0 := by
    rwa [← Heap.next_binToChunk, (hkept _ List.mem_cons_self).1, Heap.next_binToChunk] at hj0
  exact (hr.ring j hj hj0').congr (fun x hx => (hkept x hx).1) fun x hx => (hkept x hx).2

/-- A chunk that is left was there. -/
theorem mem_of_mem_unlinked (hB : B i = l₁ ++ c :: l₂) {a : Nat}
    (ha : a ∈ Function.update B i (l₁ ++ l₂) j) : a ∈ B j := by
  by_cases hij : j = i
  · subst j
    rw [Function.update_self] at ha
    rw [hB]
    rcases List.mem_append.mp ha with ha | ha
    · exact List.mem_append_left _ ha
    · exact List.mem_append_right _ (List.mem_cons_of_mem c ha)
  · rwa [Function.update_of_ne hij] at ha

/-- The ring of the bin, without the chunk. -/
theorem ring_unlink_self (hr : Rings h B) (hB : B i = l₁ ++ c :: l₂) :
    Ring (unlink c i h).next (unlink c i h).prev (binToChunk i) (l₁ ++ l₂) := by
  have hc : c ∈ B i := hB ▸ List.mem_append_right _ List.mem_cons_self
  have hi := hr.lt_of_mem hc
  have hring := hr.ring i hi (hr.head_ne_zero hc)
  have hnd := hr.nodup_cons i
  obtain ⟨⟨hp, -⟩, hn, -⟩ := hr.neighbours hB
  have hpn := hr.node hi hp
  have hnn := hr.node hi hn
  rw [hB] at hring hnd hp hn
  refine hring.remove hnd ?_ ?_ (fun x hx hne => ?_) fun x hx hne => ?_
  · rw [(hr.links_unlink hB hpn).1, if_pos rfl]
  · rw [(hr.links_unlink hB hnn).2, if_pos rfl]
  · rw [(hr.links_unlink hB (hr.node hi (hB ▸ hx))).1, if_neg hne]
  · rw [(hr.links_unlink hB (hr.node hi (hB ▸ hx))).2, if_neg hne]

/-- The ring of another bin. -/
theorem ring_unlink_of_ne (hr : Rings h B) (hB : B i = l₁ ++ c :: l₂) (hij : j ≠ i) (hj : j < 64)
    (h0 : (unlink c i h).head j ≠ 0) :
    Ring (unlink c i h).next (unlink c i h).prev (binToChunk j) (B j) := by
  obtain ⟨⟨hp, -⟩, hn, -⟩ := hr.neighbours hB
  have hother {x : Nat} (hx : x ∈ binToChunk j :: B j) : x ≠ h.prev c ∧ x ≠ h.next c :=
    ⟨hr.ne_of_ne hij hx hp, hr.ne_of_ne hij hx hn⟩
  refine hr.ring_congr hj (fun x hx => ⟨?_, ?_⟩) h0
  · rw [(hr.links_unlink hB (hr.node hj hx)).1, if_neg (hother hx).1]
  · rw [(hr.links_unlink hB (hr.node hj hx)).2, if_neg (hother hx).2]

/-- A head that is 0 after the step was 0 before. -/
theorem head_unlink_ne_zero (hr : Rings h B) (hB : B i = l₁ ++ c :: l₂) {a : Nat} (ha : a ∈ B j) :
    (unlink c i h).head j ≠ 0 := by
  intro h0
  have hc : c ∈ B i := hB ▸ List.mem_append_right _ List.mem_cons_self
  rw [← Heap.next_binToChunk, (hr.links_unlink hB (node_binToChunk (hr.lt_of_mem ha))).1] at h0
  split at h0
  · exact (hr.node (hr.lt_of_mem hc) (hr.neighbours hB).2.1).ne_zero h0
  · exact hr.head_ne_zero ha ((Heap.next_binToChunk h j).symm.trans h0)

/-- The map loses the bit of a bin that has become empty. -/
theorem bit_unlink (hr : Rings h B) (hB : B i = l₁ ++ c :: l₂) (j : Nat) :
    (unlink c i h).binmap.getLsbD j = true ↔ Function.update B i (l₁ ++ l₂) j ≠ [] := by
  have hc : c ∈ B i := hB ▸ List.mem_append_right _ List.mem_cons_self
  have hi := hr.lt_of_mem hc
  have hiff : h.prev c = h.next c ↔ l₁ ++ l₂ = [] := by
    have hring := hr.ring i hi (hr.head_ne_zero hc)
    have hnd := hr.nodup_cons i
    rw [hB] at hring hnd
    exact hring.prev_eq_next_iff hnd
  rw [binmap_unlink]
  by_cases hij : j = i
  · subst j
    rw [Function.update_self]
    split
    · rw [getLsbD_clear _ hi, hiff.mp ‹_›]
      simp
    · rename_i hne
      rw [hr.bit i]
      exact ⟨fun _ => fun hnil => hne (hiff.mpr hnil), fun _ => List.ne_nil_of_mem hc⟩
  · rw [Function.update_of_ne hij, ← hr.bit j]
    split
    · rw [getLsbD_clear _ hi]
      simp [hij]
    · rfl

/-- What the links of `unbin` do to the bins. -/
theorem unlink (hr : Rings h B) (hB : B i = l₁ ++ c :: l₂) :
    Rings (unlink c i h) (Function.update B i (l₁ ++ l₂)) where
  ring := by
    intro j hj h0
    by_cases hij : j = i
    · subst j
      rw [Function.update_self]
      exact hr.ring_unlink_self hB
    · rw [Function.update_of_ne hij]
      exact hr.ring_unlink_of_ne hB hij hj h0
  empty := by
    intro j h0
    by_contra hne
    obtain ⟨a, ha⟩ := List.exists_mem_of_ne_nil _ hne
    exact hr.head_unlink_ne_zero hB (mem_of_mem_unlinked hB ha) h0
  bit := hr.bit_unlink hB
  nodup := by
    intro j
    by_cases hij : j = i
    · subst j
      rw [Function.update_self]
      have := hr.nodup i
      rw [hB] at this
      exact this.sublist (List.Sublist.append_left (List.sublist_cons_self c l₂) l₁)
    · rw [Function.update_of_ne hij]
      exact hr.nodup j
  disjoint j k a haj hak := hr.disjoint j k a (mem_of_mem_unlinked hB haj) (mem_of_mem_unlinked hB hak)
  chunk j a ha := hr.chunk j a (mem_of_mem_unlinked hB ha)

end Rings

/-! ## `bin_chunk` -/

/-- What `bin_chunk` does to the heap. -/
def link (self i : Nat) (h : Heap) : Heap :=
  let h := h.setNext self (binToChunk i)
  let h := h.setPrev self (h.tail i)
  let h := h.setPrev (h.next self) self
  let h := h.setNext (h.prev self) self
  if h.prev self = binToChunk i then { h with binmap := h.binmap ||| 1#64 <<< i } else h

theorem wp_binChunk {a i : Nat} {h : Heap} {Q : Unit → Heap → Prop} {R : Stop → Heap → Prop}
    (hi : i < 64) (hQ : Q () (link a i h)) : WP (binChunk a i) h Q R := by
  have hrun : (binChunk a i).run h = .ok () (link a i h) := by
    unfold binChunk link bit
    simp only [EStateM.run_bind, EStateM.run_modify, EStateM.run_get, if_pos hi]
    split
    · rfl
    · rfl
  unfold WP
  rwa [hrun]

namespace Rings

variable {h : Heap} {B : Nat → List Nat} {i a : Nat}

/-- The tail of a bin in use is a node of it. -/
theorem tail_mem (hr : Rings h B) (hi : i < 64) (h0 : h.head i ≠ 0) :
    h.tail i ∈ binToChunk i :: B i := by
  rw [← Heap.prev_binToChunk]
  exact (hr.ring i hi h0).prev_mem

/-- The heap after the links of `bin_chunk`. -/
theorem link_eq (hr : Rings h B) (hi : i < 64) (h0 : h.head i ≠ 0) (ha : a % 32 = 16)
    (hlt : a < 2 ^ 64) (hout : a ∉ B i) :
    let h' := (((h.setNext a (binToChunk i)).setPrev a (h.tail i)).setPrev (binToChunk i) a).setNext
      (h.tail i) a
    link a i h =
      if h.tail i = binToChunk i then { h' with binmap := h'.binmap ||| 1#64 <<< i } else h' := by
  have han : Node a := ⟨Or.inr ha, hlt⟩
  have hbn := node_binToChunk hi
  have ht := hr.tail_mem hi h0
  have htn := hr.node hi ht
  have hab : a ≠ binToChunk i := by
    unfold binToChunk
    omega
  have hat : a ≠ h.tail i := by
    rintro he
    rw [← he] at ht
    rcases List.mem_cons.mp ht with he | ht
    · exact hab he
    · exact hout ht
  have htail : (h.setNext a (binToChunk i)).tail i = h.tail i := by
    rw [h.setNext_chunk ha]
    rfl
  intro h'
  simp only [link, htail]
  have hnext : ((h.setNext a (binToChunk i)).setPrev a (h.tail i)).next a = binToChunk i := by
    rw [Heap.next_setPrev _ han han, h.next_setNext han han hbn.2, if_pos rfl]
  have hprev : (((h.setNext a (binToChunk i)).setPrev a (h.tail i)).setPrev (binToChunk i) a).prev a
      = h.tail i := by
    rw [Heap.prev_setPrev _ hbn han hlt, if_neg hab, Heap.prev_setPrev _ han han htn.2, if_pos rfl]
  have hprev' : h'.prev a = h.tail i := by
    rw [Heap.prev_setNext _ htn han, hprev]
  rw [hnext, hprev]
  change (if h'.prev a = binToChunk i then _ else _) = _
  rw [hprev']

/-- The tail of a bin in use is the bin itself where it is empty. -/
theorem tail_eq_iff (hr : Rings h B) (hi : i < 64) (h0 : h.head i ≠ 0) :
    h.tail i = binToChunk i ↔ B i = [] := by
  constructor
  · intro he
    rcases List.eq_nil_or_concat (B i) with hB | ⟨l, x, hB⟩
    · exact hB
    · rw [List.concat_eq_append] at hB
      have hring := hr.ring i hi h0
      rw [hB] at hring
      have hx : x ∈ B i := hB ▸ List.mem_append_right _ List.mem_cons_self
      rw [← Heap.prev_binToChunk, hring.prev_eq] at he
      exact absurd (he ▸ hx) (hr.binToChunk_notMem i i)
  · intro hB
    have ht := hr.tail_mem hi h0
    rw [hB] at ht
    exact List.mem_singleton.mp ht

theorem binmap_link (hr : Rings h B) (hi : i < 64) (h0 : h.head i ≠ 0) (ha : a % 32 = 16)
    (hlt : a < 2 ^ 64) (hout : a ∉ B i) : (link a i h).binmap =
      if h.tail i = binToChunk i then h.binmap ||| 1#64 <<< i else h.binmap := by
  rw [hr.link_eq hi h0 ha hlt hout]
  split
  · simp only [Heap.binmap_setNext, Heap.binmap_setPrev]
  · simp only [Heap.binmap_setNext, Heap.binmap_setPrev]

/-- The links after `bin_chunk`. -/
theorem links_link (hr : Rings h B) (hi : i < 64) (h0 : h.head i ≠ 0) (ha : a % 32 = 16)
    (hlt : a < 2 ^ 64) (hout : a ∉ B i) {q : Nat} (hq : Node q) :
    (link a i h).next q =
        (if q = h.tail i then a else if q = a then binToChunk i else h.next q) ∧
      (link a i h).prev q =
        (if q = binToChunk i then a else if q = a then h.tail i else h.prev q) := by
  have han : Node a := ⟨Or.inr ha, hlt⟩
  have hbn := node_binToChunk hi
  have htn := hr.node hi (hr.tail_mem hi h0)
  rw [hr.link_eq hi h0 ha hlt hout]
  generalize hg : ((h.setNext a (binToChunk i)).setPrev a (h.tail i)).setPrev (binToChunk i) a = g
  have hnext : g.next q = if q = a then binToChunk i else h.next q := by
    rw [← hg, Heap.next_setPrev _ hbn hq, Heap.next_setPrev _ han hq, h.next_setNext han hq hbn.2]
  have hprev : g.prev q = if q = binToChunk i then a else if q = a then h.tail i else h.prev q := by
    rw [← hg, Heap.prev_setPrev _ hbn hq hlt, Heap.prev_setPrev _ han hq htn.2, h.prev_setNext han hq]
  have hn : (g.setNext (h.tail i) a).next q =
      if q = h.tail i then a else if q = a then binToChunk i else h.next q := by
    rw [g.next_setNext htn hq hlt, hnext]
  have hp : (g.setNext (h.tail i) a).prev q =
      if q = binToChunk i then a else if q = a then h.tail i else h.prev q := by
    rw [g.prev_setNext htn hq, hprev]
  constructor
  · rw [← hn]
    split <;> rfl
  · rw [← hp]
    split <;> rfl

theorem mem_link (hr : Rings h B) (hi : i < 64) (h0 : h.head i ≠ 0) (ha : a % 32 = 16)
    (hlt : a < 2 ^ 64) (hout : a ∉ B i) {x : Nat} (hx : ∀ b ∈ a :: B i, x < b + 16 ∨ b + 32 ≤ x) :
    (link a i h).mem x = h.mem x := by
  have han : Node a := ⟨Or.inr ha, hlt⟩
  have hbn := node_binToChunk hi
  have ht := hr.tail_mem hi h0
  have htn := hr.node hi ht
  have hnot : binToChunk i % 32 ≠ 16 := by
    unfold binToChunk
    omega
  have htx : h.tail i % 32 = 16 → x < h.tail i + 16 ∨ h.tail i + 32 ≤ x := by
    intro h16
    rcases List.mem_cons.mp ht with he | ht
    · exact absurd (he ▸ h16) hnot
    · exact hx _ (List.mem_cons_of_mem a ht)
  have hax : a % 32 = 16 → x < a + 16 ∨ a + 32 ≤ x := fun _ => hx a List.mem_cons_self
  have hmem : ((((h.setNext a (binToChunk i)).setPrev a (h.tail i)).setPrev (binToChunk i) a).setNext
      (h.tail i) a).mem x = h.mem x := by
    rw [Heap.mem_setNext _ htn htx, Heap.mem_setPrev _ hbn fun h16 => absurd h16 hnot,
      Heap.mem_setPrev _ han hax, Heap.mem_setNext _ han hax]
  rw [hr.link_eq hi h0 ha hlt hout, ← hmem]
  split <;> rfl

@[simp] theorem breaks_link (a i : Nat) (h : Heap) : (link a i h).breaks = h.breaks := by
  simp only [link]
  split
  · show Heap.breaks (Heap.setNext _ _ _) = _
    simp only [Heap.breaks_setPrev, Heap.breaks_setNext]
  · simp only [Heap.breaks_setPrev, Heap.breaks_setNext]

/-- The chunks of the bins with `a` put into bin `i`. -/
def putChunk (B : Nat → List Nat) (i a : Nat) : Nat → List Nat := Function.update B i (B i ++ [a])

theorem mem_putChunk {x : Nat} : x ∈ putChunk B i a j ↔ x ∈ B j ∨ j = i ∧ x = a := by
  unfold putChunk
  by_cases hij : j = i
  · subst j
    rw [Function.update_self, List.mem_append, List.mem_singleton]
    simp
  · rw [Function.update_of_ne hij]
    simp [hij]

theorem ne_of_mem_node (ha : a % 32 = 16) (hout : ∀ j, a ∉ B j) {x : Nat} (hx : x ∈ binToChunk j :: B j) :
    x ≠ a := by
  rintro rfl
  rcases List.mem_cons.mp hx with he | hx
  · unfold binToChunk at he
    omega
  · exact hout j hx

/-- The ring of the bin, with the chunk before the bin itself. -/
theorem ring_put_self (hr : Rings h B) (hi : i < 64) (h0 : h.head i ≠ 0) (ha : a % 32 = 16)
    (hlt : a < 2 ^ 64) (hout : ∀ j, a ∉ B j) :
    Ring (link a i h).next (link a i h).prev (binToChunk i) (B i ++ [a]) := by
  have han : Node a := ⟨Or.inr ha, hlt⟩
  have hbn := node_binToChunk hi
  have ht := hr.tail_mem hi h0
  have htn := hr.node hi ht
  have hab : a ≠ binToChunk i := (ne_of_mem_node ha hout List.mem_cons_self).symm
  have hlinks {q : Nat} (hq : Node q) := hr.links_link hi h0 ha hlt (hout i) hq
  rw [← Heap.prev_binToChunk] at ht htn hlinks
  refine (hr.ring i hi h0).insert (hr.nodup_cons i) ?_ ?_ ?_ ?_ (fun x hx hne => ?_) fun x hx => ?_
  · rw [(hlinks han).1, if_neg (Ne.symm (ne_of_mem_node ha hout ht)), if_pos rfl]
  · rw [(hlinks han).2, if_neg hab, if_pos rfl]
  · rw [(hlinks htn).1, if_pos rfl]
  · rw [(hlinks hbn).2, if_pos rfl]
  · rw [(hlinks (hr.node hi hx)).1, if_neg hne, if_neg (ne_of_mem_node ha hout hx)]
  · have hx' : x ∈ binToChunk i :: B i := List.mem_cons_of_mem _ hx
    have hxb : x ≠ binToChunk i := by
      rintro rfl
      exact hr.binToChunk_notMem i i hx
    rw [(hlinks (hr.node hi hx')).2, if_neg hxb, if_neg (ne_of_mem_node ha hout hx')]

/-- The ring of another bin. -/
theorem ring_put_of_ne (hr : Rings h B) (hi : i < 64) (h0 : h.head i ≠ 0) (ha : a % 32 = 16)
    (hlt : a < 2 ^ 64) (hout : ∀ j, a ∉ B j) (hij : j ≠ i) (hj : j < 64) (hj0 : (link a i h).head j ≠ 0) :
    Ring (link a i h).next (link a i h).prev (binToChunk j) (B j) := by
  have hlinks {q : Nat} (hq : Node q) := hr.links_link hi h0 ha hlt (hout i) hq
  have hother {x : Nat} (hx : x ∈ binToChunk j :: B j) : x ≠ h.tail i ∧ x ≠ binToChunk i :=
    ⟨hr.ne_of_ne hij hx (hr.tail_mem hi h0), hr.ne_of_ne hij hx List.mem_cons_self⟩
  refine hr.ring_congr hj (fun x hx => ⟨?_, ?_⟩) hj0
  · rw [(hlinks (hr.node hj hx)).1, if_neg (hother hx).1, if_neg (ne_of_mem_node ha hout hx)]
  · rw [(hlinks (hr.node hj hx)).2, if_neg (hother hx).2, if_neg (ne_of_mem_node ha hout hx)]

/-- A head that is 0 after the step was 0 before. -/
theorem head_put_ne_zero (hr : Rings h B) (hi : i < 64) (h0 : h.head i ≠ 0) (ha : a % 32 = 16)
    (hlt : a < 2 ^ 64) (hout : ∀ j, a ∉ B j) {x : Nat} (hx : x ∈ putChunk B i a j) :
    (link a i h).head j ≠ 0 := by
  intro hj0
  have hj : j < 64 := by
    rcases mem_putChunk.mp hx with hx | ⟨rfl, -⟩
    · exact hr.lt_of_mem hx
    · exact hi
  rw [← Heap.next_binToChunk, (hr.links_link hi h0 ha hlt (hout i) (node_binToChunk hj)).1] at hj0
  split at hj0
  · exact Node.ne_zero ⟨Or.inr ha, hlt⟩ hj0
  rw [if_neg (ne_of_mem_node ha hout List.mem_cons_self), Heap.next_binToChunk] at hj0
  rcases mem_putChunk.mp hx with hx | ⟨rfl, -⟩
  · exact hr.head_ne_zero hx hj0
  · exact h0 hj0

/-- The map has the bit of the bin, and the others as before. -/
theorem bit_put (hr : Rings h B) (hi : i < 64) (h0 : h.head i ≠ 0) (ha : a % 32 = 16)
    (hlt : a < 2 ^ 64) (hout : a ∉ B i) (j : Nat) :
    (link a i h).binmap.getLsbD j = true ↔ putChunk B i a j ≠ [] := by
  rw [hr.binmap_link hi h0 ha hlt hout]
  unfold putChunk
  by_cases hij : j = i
  · subst j
    rw [Function.update_self]
    split
    · rw [getLsbD_set _ hi]
      simp
    · rename_i hne
      rw [hr.bit i]
      exact ⟨fun _ => by simp, fun _ hB => hne ((hr.tail_eq_iff hi h0).mpr hB)⟩
  · rw [Function.update_of_ne hij, ← hr.bit j]
    split
    · rw [getLsbD_set _ hi]
      simp [hij]
    · rfl

/-- What `bin_chunk` does to the bins. -/
theorem put (hr : Rings h B) (hi : i < 64) (h0 : h.head i ≠ 0) (ha : a % 32 = 16)
    (hlt : a < 2 ^ 64) (hout : ∀ j, a ∉ B j) : Rings (link a i h) (putChunk B i a) where
  ring := by
    intro j hj hj0
    by_cases hij : j = i
    · subst j
      rw [putChunk, Function.update_self]
      exact hr.ring_put_self hi h0 ha hlt hout
    · rw [putChunk, Function.update_of_ne hij]
      exact hr.ring_put_of_ne hi h0 ha hlt hout hij hj hj0
  empty := by
    intro j hj0
    by_contra hne
    obtain ⟨x, hx⟩ := List.exists_mem_of_ne_nil _ hne
    exact hr.head_put_ne_zero hi h0 ha hlt hout hx hj0
  bit := hr.bit_put hi h0 ha hlt (hout i)
  nodup := by
    intro j
    unfold putChunk
    by_cases hij : j = i
    · subst j
      rw [Function.update_self]
      refine List.nodup_append.mpr ⟨hr.nodup i, List.nodup_singleton a, fun x hx y hy => ?_⟩
      rw [List.mem_singleton.mp hy]
      exact ne_of_mem_node ha hout (List.mem_cons_of_mem _ hx)
    · rw [Function.update_of_ne hij]
      exact hr.nodup j
  disjoint := by
    intro j k x hxj hxk
    rcases mem_putChunk.mp hxj with hxj' | ⟨hji, hxa⟩
    · rcases mem_putChunk.mp hxk with hxk' | ⟨-, rfl⟩
      · exact hr.disjoint j k x hxj' hxk'
      · exact absurd hxj' (hout j)
    · rcases mem_putChunk.mp hxk with hxk' | ⟨hki, -⟩
      · exact absurd (hxa ▸ hxk') (hout k)
      · rw [hji, hki]
  chunk := by
    intro j x hx
    rcases mem_putChunk.mp hx with hx | ⟨-, rfl⟩
    · exact hr.chunk j x hx
    · exact ⟨ha, hlt⟩

end Rings

end CkbJs.Proof.Malloc
