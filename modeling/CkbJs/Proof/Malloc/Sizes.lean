import CkbJs.Impl.Malloc

/-!
# Sizes and size classes

A request is adjusted to a chunk size (`adjustSize_some`), and a chunk size that
is asked for again stays (`adjustSize_readjust`). `classOf` is the size class of a
number of units, without the bounds of the table: `binIndex_eq` and
`binIndexUp_eq` are the two index functions in its terms, and `classOf` is monotone,
so that a chunk from a bin at or above `binIndexUp n` is large enough (`le_of_bin`).
-/

namespace CkbJs.Proof.Malloc

open CkbJs.Impl.Malloc

/-- A chunk size. -/
def Sized (n : Nat) : Prop := 32 ≤ n ∧ n % 32 = 0 ∧ n < 2 ^ 64

theorem adjustSize_some {n m : Nat} (hn : n < 2 ^ 64) (h : adjustSize n = some m) :
    Sized m ∧ n + OVERHEAD ≤ m := by
  unfold adjustSize at h
  by_cases hlarge : sub64 n 1 > INT64_MAX - SIZE_ALIGN - PAGE_SIZE
  · rw [if_pos hlarge] at h
    by_cases h0 : n = 0
    · rw [if_neg (not_not.mpr h0), Option.some.injEq] at h
      simp only [Sized, SIZE_ALIGN, OVERHEAD] at h ⊢
      omega
    · rw [if_pos h0] at h
      cases h
  · rw [if_neg hlarge, Option.some.injEq] at h
    simp only [Sized, sub64, INT64_MAX, SIZE_ALIGN, PAGE_SIZE, OVERHEAD] at h hlarge ⊢
    omega

/-- A smaller request has a smaller chunk. -/
theorem adjustSize_mono {n k c : Nat} (hk : k < 2 ^ 64) (hc : adjustSize k = some c) (hle : n ≤ k) :
    ∃ m, adjustSize n = some m ∧ m ≤ c := by
  have hsized := (adjustSize_some hk hc).1.1
  unfold adjustSize at hc ⊢
  by_cases h0 : n = 0
  · subst h0
    rw [if_pos (by decide), if_neg (not_not.mpr rfl)]
    exact ⟨_, rfl, hsized⟩
  · by_cases hlarge : sub64 k 1 > INT64_MAX - SIZE_ALIGN - PAGE_SIZE
    · rw [if_pos hlarge, if_pos (by omega)] at hc
      cases hc
    · rw [if_neg hlarge, Option.some.injEq] at hc
      have hsmall : ¬sub64 n 1 > INT64_MAX - SIZE_ALIGN - PAGE_SIZE := by
        simp only [sub64] at hlarge ⊢
        omega
      rw [if_neg hsmall]
      refine ⟨_, rfl, hc ▸ ?_⟩
      simp only [OVERHEAD, SIZE_ALIGN]
      omega

theorem adjustSize_readjust {n : Nat} (hn : Sized n) (hlt : n < MMAP_THRESHOLD) :
    adjustSize (BitVec.ofNat 64 (n - OVERHEAD)).toNat = some n := by
  obtain ⟨h32, hmod, -⟩ := hn
  simp only [MMAP_THRESHOLD, SIZE_ALIGN] at hlt
  simp only [BitVec.toNat_ofNat, adjustSize, sub64, INT64_MAX, SIZE_ALIGN, PAGE_SIZE, OVERHEAD]
  rw [Nat.mod_eq_of_lt (a := n - 16) (by omega), if_neg (by omega), Option.some.injEq]
  omega

theorem pageUp_eq {n : Nat} (h : n + 4095 < 2 ^ 64) : pageUp n = (n + 4095) / 4096 * 4096 := by
  simp only [pageUp, sub64, PAGE_SIZE]
  omega

/-- A chunk size that no `malloc` gives is not asked for again with success. -/
theorem adjustSize_large {n : Nat} (hn : Sized n) (hge : MMAP_THRESHOLD ≤ n) :
    ∀ m, adjustSize (BitVec.ofNat 64 (n - OVERHEAD)).toNat = some m → m = n := by
  obtain ⟨h32, hmod, hlt⟩ := hn
  intro m hm
  simp only [MMAP_THRESHOLD, SIZE_ALIGN] at hge
  have hn' : (BitVec.ofNat 64 (n - OVERHEAD)).toNat = n - 16 := by
    simp only [BitVec.toNat_ofNat, OVERHEAD]
    omega
  rw [hn'] at hm
  unfold adjustSize at hm
  by_cases hlarge : sub64 (n - 16) 1 > INT64_MAX - SIZE_ALIGN - PAGE_SIZE
  · rw [if_pos hlarge, if_pos (by omega)] at hm
    cases hm
  · rw [if_neg hlarge, Option.some.injEq] at hm
    simp only [SIZE_ALIGN, OVERHEAD] at hm
    omega

/-! ## Size classes -/

/-- The class of a size of `x + 1` units. -/
def classOf (x : Nat) : Nat :=
  if x ≤ 32 then x
  else if x < 512 then binTab.getD (x / 8 - 4) 0
  else if x > 0x1c00 then 63
  else binTab.getD (x / 128 - 4) 0 + 16

theorem binTab_bounds : ∀ i < 60, 32 ≤ binTab.getD i 0 ∧ binTab.getD i 0 ≤ 47 := by decide

theorem binTab_mono {i j : Nat} (hij : i ≤ j) (hj : j < 60) : binTab.getD i 0 ≤ binTab.getD j 0 := by
  have step : ∀ i < 59, binTab.getD i 0 ≤ binTab.getD (i + 1) 0 := by decide
  induction j, hij using Nat.le_induction with
  | base => exact Nat.le_refl _
  | succ j hij ih => exact (ih (by omega)).trans (step j (by omega))

theorem binTab_getElem? {i : Nat} (h : i < 60) : binTab[i]? = some (binTab.getD i 0) := by
  rw [List.getD_eq_getElem?_getD, List.getElem?_eq_getElem h]
  rfl

theorem classOf_units {x : Nat} (h : x ≤ 32) : classOf x = x := if_pos h

theorem classOf_eighths {x : Nat} (h : 32 < x) (h' : x < 512) :
    classOf x = binTab.getD (x / 8 - 4) 0 := by
  rw [classOf, if_neg (by omega), if_pos h']

theorem classOf_128ths {x : Nat} (h : 512 ≤ x) (h' : x ≤ 0x1c00) :
    classOf x = binTab.getD (x / 128 - 4) 0 + 16 := by
  rw [classOf, if_neg (by omega), if_neg (by omega), if_neg (by omega)]

theorem classOf_rest {x : Nat} (h : 0x1c00 < x) : classOf x = 63 := by
  rw [classOf, if_neg (by omega), if_neg (by omega), if_pos h]

theorem classOf_le (x : Nat) : classOf x ≤ 63 := by
  rcases Nat.lt_or_ge 32 x with h₁ | h₁
  · rcases Nat.lt_or_ge x 512 with h₂ | h₂
    · have := binTab_bounds (x / 8 - 4) (by omega)
      rw [classOf_eighths h₁ h₂]
      omega
    · rcases Nat.lt_or_ge 0x1c00 x with h₃ | h₃
      · exact (classOf_rest h₃).le
      · have := binTab_bounds (x / 128 - 4) (by omega)
        rw [classOf_128ths h₂ h₃]
        omega
  · rw [classOf_units h₁]
    omega

/-- Only the ends of the four ranges need the bounds of the table. -/
theorem classOf_mono {x y : Nat} (h : x ≤ y) : classOf x ≤ classOf y := by
  rcases Nat.lt_or_ge 0x1c00 y with hy | hy
  · rw [classOf_rest hy]
    exact classOf_le x
  rcases Nat.lt_or_ge y 512 with hy' | hy'
  · rcases Nat.lt_or_ge 32 x with hx | hx
    · rw [classOf_eighths hx (by omega), classOf_eighths (by omega) hy']
      exact binTab_mono (by omega) (by omega)
    · rw [classOf_units hx]
      rcases Nat.lt_or_ge 32 y with hy'' | hy''
      · have := binTab_bounds (y / 8 - 4) (by omega)
        rw [classOf_eighths hy'' hy']
        omega
      · rw [classOf_units hy'']
        exact h
  · have hty := binTab_bounds (y / 128 - 4) (by omega)
    rw [classOf_128ths hy' hy]
    rcases Nat.lt_or_ge 32 x with hx | hx
    · rcases Nat.lt_or_ge x 512 with hx' | hx'
      · have := binTab_bounds (x / 8 - 4) (by omega)
        rw [classOf_eighths hx hx']
        omega
      · rw [classOf_128ths hx' (by omega)]
        exact Nat.add_le_add_right (binTab_mono (by omega) (by omega)) 16
    · rw [classOf_units hx]
      omega

theorem binIndex_eq {s : Nat} (hs : Sized s) : binIndex s = some (classOf (s / 32 - 1)) := by
  obtain ⟨h32, -, hlt⟩ := hs
  have hx : sub64 (s / SIZE_ALIGN) 1 = s / 32 - 1 := by
    simp only [sub64, SIZE_ALIGN]
    omega
  simp only [binIndex, classOf, hx]
  split
  · rfl
  split
  · exact binTab_getElem? (by omega)
  split
  · rfl
  · rw [binTab_getElem? (by omega)]
    rfl

/-- From this size on, `binIndexUp` reads past the end of the table. -/
def TABLE_END : Nat := 8194 * 32

/-- `binIndexUp` is the first class whose chunks are all large enough. -/
theorem binIndexUp_eq {n : Nat} (hn : Sized n) (hlt : n < TABLE_END) :
    binIndexUp n = some (if n / 32 - 1 ≤ 32 then n / 32 - 1 else classOf (n / 32 - 2) + 1) := by
  obtain ⟨h32, -, -⟩ := hn
  simp only [TABLE_END] at hlt
  have hx : sub64 (n / SIZE_ALIGN) 1 = n / 32 - 1 := by
    simp only [sub64, SIZE_ALIGN]
    omega
  simp only [binIndexUp, hx]
  split
  · rfl
  rename_i hgt
  rw [show n / 32 - 1 - 1 = n / 32 - 2 by omega]
  split
  · rw [binTab_getElem? (by omega), Option.map_some, Option.some.injEq]
    rcases Nat.lt_or_ge 32 (n / 32 - 2) with h | h
    · rw [classOf_eighths h ‹_›]
    · rw [show n / 32 - 2 = 32 by omega]
      rfl
  · rw [binTab_getElem? (by omega), Option.map_some, Option.some.injEq]
    rcases Nat.lt_or_ge 0x1c00 (n / 32 - 2) with h | h
    · -- the last eight entries are those of the last class
      have hlast : ∀ i < 60, 52 ≤ i → binTab.getD i 0 = 47 := by decide
      rw [classOf_rest h, hlast _ (by omega) (by omega)]
    · rw [classOf_128ths (by omega) h]

theorem binIndexUp_none {n : Nat} (hn : Sized n) (hge : TABLE_END ≤ n) : binIndexUp n = none := by
  obtain ⟨h32, -, hlt⟩ := hn
  simp only [TABLE_END] at hge
  have hx : sub64 (n / SIZE_ALIGN) 1 = n / 32 - 1 := by
    simp only [sub64, SIZE_ALIGN]
    omega
  have hlen : binTab.length = 60 := rfl
  simp only [binIndexUp, hx]
  rw [if_neg (by omega), if_neg (by omega), List.getElem?_eq_none (by omega), Option.map_none]

theorem binIndex_some {s : Nat} (hs : Sized s) : ∃ i, binIndex s = some i ∧ i < 64 :=
  ⟨_, binIndex_eq hs, Nat.lt_succ_of_le (classOf_le _)⟩

/-- The index is at most 64, and only a size below the threshold has one below 63. -/
theorem binIndexUp_some {n : Nat} (hn : Sized n) (hlt : n < TABLE_END) : ∃ i, binIndexUp n = some i ∧
    (n < MMAP_THRESHOLD → i < 64) ∧ (i < 63 → n < MMAP_THRESHOLD) := by
  refine ⟨_, binIndexUp_eq hn hlt, fun hsmall => ?_, fun hi => ?_⟩
  · simp only [MMAP_THRESHOLD, SIZE_ALIGN] at hsmall
    split
    · omega
    · have : classOf (n / 32 - 2) ≤ 62 := (classOf_mono (by omega : n / 32 - 2 ≤ 7165)).trans (by decide)
      omega
  · simp only [MMAP_THRESHOLD, SIZE_ALIGN]
    refine Nat.lt_of_not_le fun hge => ?_
    rw [if_neg (by omega)] at hi
    have : 62 ≤ classOf (n / 32 - 2) :=
      (by decide : 62 ≤ classOf 7166).trans (classOf_mono (by omega : 7166 ≤ n / 32 - 2))
    omega

theorem le_of_bin {n s i j : Nat} (hn : Sized n) (hs : Sized s) (hlt : n < TABLE_END)
    (hi : binIndexUp n = some i) (hj : binIndex s = some j) (hij : i ≤ j) : n ≤ s := by
  rw [binIndexUp_eq hn hlt, Option.some.injEq] at hi
  rw [binIndex_eq hs, Option.some.injEq] at hj
  obtain ⟨hn32, hnmod, -⟩ := hn
  obtain ⟨hs32, hsmod, -⟩ := hs
  refine Nat.le_of_not_lt fun hsn => ?_
  split at hi
  · have := classOf_units (by omega : s / 32 - 1 ≤ 32)
    omega
  · have := classOf_mono (by omega : s / 32 - 1 ≤ n / 32 - 2)
    omega

theorem lt_tableEnd {n : Nat} (h : n < MMAP_THRESHOLD) : n < TABLE_END := by
  simp only [MMAP_THRESHOLD, SIZE_ALIGN, TABLE_END] at h ⊢
  omega

end CkbJs.Proof.Malloc
