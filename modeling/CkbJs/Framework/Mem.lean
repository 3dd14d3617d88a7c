import Mathlib.Data.Nat.Basic
import Mathlib.Tactic.Ring

/-!
# Byte memory

A memory gives a byte for every address. Words are little-endian: `load`
reads `n` bytes as a number, `store` writes a number's low `n` bytes, `copy`
is `memcpy`. `load_store_self` and `load_store_sep` are the read-over-write
rules, `load_congr` is locality, and `Within lo hi m m'` says that two memories
differ only in `[lo, hi)`. `Holds m a bs` says that the byte string
`bs` is at address `a`; `leBytes n v` is the `n`-byte string of a number, and
a memory that holds it loads it back (`Holds.load`).
-/

namespace CkbJs

abbrev Byte := UInt8

/-- A memory: a byte for every address. -/
abbrev Mem := Nat → Byte

namespace Mem

/-- The `n` bytes at `a`, as a little-endian number. -/
def load (m : Mem) (a : Nat) : Nat → Nat
  | 0 => 0
  | n + 1 => (m a).toNat + 256 * load m (a + 1) n

/-- The low `n` bytes of `v`, stored at `a`. -/
def store (m : Mem) (a n v : Nat) : Mem := fun x =>
  if a ≤ x ∧ x < a + n then UInt8.ofNat (v / 256 ^ (x - a)) else m x

/-- The `n` bytes at `src`, copied to `dst`. -/
def copy (m : Mem) (dst src n : Nat) : Mem := fun x =>
  if dst ≤ x ∧ x < dst + n then m (src + (x - dst)) else m x

theorem load_congr {m m' : Mem} {a n : Nat} (h : ∀ x, a ≤ x → x < a + n → m x = m' x) :
    m.load a n = m'.load a n := by
  induction n generalizing a with
  | zero => rfl
  | succ n ih =>
    simp only [load]
    rw [h a (Nat.le_refl _) (by omega), ih fun x h₁ h₂ => h x (by omega) (by omega)]

theorem load_lt (m : Mem) (a n : Nat) : m.load a n < 256 ^ n := by
  induction n generalizing a with
  | zero => simp [load]
  | succ n ih =>
    have := ih (a + 1)
    have := (m a).toNat_lt
    simp only [load, Nat.pow_succ]
    omega

theorem store_of_not {m : Mem} {a n v x : Nat} (h : x < a ∨ a + n ≤ x) : m.store a n v x = m x :=
  if_neg (by omega)

theorem load_store_sep {m : Mem} {a n b k v : Nat} (h : b + k ≤ a ∨ a + n ≤ b) :
    (m.store a n v).load b k = m.load b k :=
  load_congr fun _ _ _ => store_of_not (by omega)

/-- The order of two stores that do not overlap does not matter. -/
theorem store_comm (m : Mem) {a n v b k w : Nat} (h : b + k ≤ a ∨ a + n ≤ b) :
    (m.store a n v).store b k w = (m.store b k w).store a n v := by
  funext x
  unfold store
  by_cases ha : a ≤ x ∧ x < a + n
  · have hb : ¬(b ≤ x ∧ x < b + k) := by omega
    rw [if_neg hb, if_pos ha, if_pos ha]
  · rw [if_neg ha, if_neg ha]

/-- A memory whose bytes at `a` are those of `v` loads `v`. -/
theorem load_of_bytes {m : Mem} {a n v : Nat} (h : ∀ i < n, m (a + i) = UInt8.ofNat (v / 256 ^ i)) :
    m.load a n = v % 256 ^ n := by
  induction n generalizing a v with
  | zero => simp [load, Nat.mod_one]
  | succ n ih =>
    have h0 := h 0 (by omega)
    have hs : m.load (a + 1) n = v / 256 % 256 ^ n := ih fun i hi => by
      rw [show a + 1 + i = a + (i + 1) by omega, h (i + 1) (by omega), Nat.pow_succ',
        Nat.div_div_eq_div_mul]
    simp only [Nat.add_zero, Nat.pow_zero, Nat.div_one] at h0
    have hb : (UInt8.ofNat v).toNat = v % 256 := UInt8.toNat_ofNat' ..
    rw [load, hs, h0, hb, Nat.pow_succ', Nat.mod_mul]

theorem load_store_self (m : Mem) (a n v : Nat) : (m.store a n v).load a n = v % 256 ^ n :=
  load_of_bytes fun i hi => by
    simp only [store, show a ≤ a + i ∧ a + i < a + n from ⟨by omega, by omega⟩, and_self, if_true,
      Nat.add_sub_cancel_left]

theorem copy_of_not {m : Mem} {dst src n x : Nat} (h : x < dst ∨ dst + n ≤ x) :
    m.copy dst src n x = m x :=
  if_neg (by omega)

theorem copy_apply {m : Mem} {dst src n i : Nat} (h : i < n) :
    m.copy dst src n (dst + i) = m (src + i) := by
  simp only [copy, show dst ≤ dst + i ∧ dst + i < dst + n from ⟨by omega, by omega⟩, and_self,
    if_true, Nat.add_sub_cancel_left]

/-- The two memories differ only in `[lo, hi)`. -/
def Within (lo hi : Nat) (m m' : Mem) : Prop := ∀ x, x < lo ∨ hi ≤ x → m' x = m x

namespace Within

variable {lo hi lo' hi' a n : Nat} {m m' m'' : Mem}

theorem trans (h : Within lo hi m m') (h' : Within lo hi m' m'') : Within lo hi m m'' :=
  fun x hx => (h' x hx).trans (h x hx)

theorem mono (h : Within lo hi m m') (hlo : lo' ≤ lo) (hhi : hi ≤ hi') : Within lo' hi' m m' :=
  fun x hx => h x (by omega)

theorem store (m : Mem) (a n v : Nat) : Within a (a + n) m (m.store a n v) :=
  fun _ hx => store_of_not hx

theorem copy (m : Mem) (dst src n : Nat) : Within dst (dst + n) m (m.copy dst src n) :=
  fun _ hx => copy_of_not hx

/-- What lies outside loads the same. -/
theorem load_eq (h : Within lo hi m m') (ha : a + n ≤ lo ∨ hi ≤ a) : m'.load a n = m.load a n :=
  load_congr fun x _ _ => h x (by omega)

end Within

/-! ## Byte strings in memory -/

/-- The byte string `bs` is at `a`. -/
def Holds (m : Mem) (a : Nat) (bs : List Byte) : Prop :=
  ∀ i (h : i < bs.length), m (a + i) = bs[i]

/-- The `n` bytes at `a`. -/
def bytes (m : Mem) (a n : Nat) : List Byte := (List.range n).map fun i => m (a + i)

@[simp] theorem length_bytes (m : Mem) (a n : Nat) : (m.bytes a n).length = n := by simp [bytes]

theorem Holds.nil (m : Mem) (a : Nat) : m.Holds a [] := fun _ h => absurd h (Nat.not_lt_zero _)

theorem holds_append {m : Mem} {a : Nat} {xs ys : List Byte} :
    m.Holds a (xs ++ ys) ↔ m.Holds a xs ∧ m.Holds (a + xs.length) ys := by
  constructor
  · intro h
    refine ⟨fun i hi => ?_, fun i hi => ?_⟩
    · rw [h i (by simp; omega), List.getElem_append_left hi]
    · rw [Nat.add_assoc, h (xs.length + i) (by simp; omega), List.getElem_append_right (by omega)]
      simp
  · rintro ⟨hx, hy⟩ i hi
    by_cases hlt : i < xs.length
    · rw [List.getElem_append_left hlt, hx i hlt]
    · have hi' : i - xs.length < ys.length := by simp at hi; omega
      rw [List.getElem_append_right (by omega), ← hy _ hi',
        show a + xs.length + (i - xs.length) = a + i by omega]

theorem holds_cons {m : Mem} {a : Nat} {b : Byte} {bs : List Byte} :
    m.Holds a (b :: bs) ↔ m a = b ∧ m.Holds (a + 1) bs := by
  rw [← List.singleton_append, holds_append]
  constructor
  · rintro ⟨h, hs⟩; exact ⟨h 0 (by simp), hs⟩
  · rintro ⟨h, hs⟩
    refine ⟨fun i hi => ?_, hs⟩
    obtain rfl : i = 0 := by simp at hi; omega
    exact h

/-- The bytes of a string a memory holds. -/
theorem Holds.bytes_eq {m : Mem} {a : Nat} {bs : List Byte} (h : m.Holds a bs) :
    m.bytes a bs.length = bs :=
  List.ext_getElem (by simp) fun i h₁ h₂ => by
    simp only [bytes, List.getElem_map, List.getElem_range]
    exact h i h₂

/-- A part of a string a memory holds. -/
theorem Holds.slice {m : Mem} {a : Nat} {bs : List Byte} (h : m.Holds a bs) (pos n : Nat) :
    m.Holds (a + pos) ((bs.drop pos).take n) := by
  intro i hi
  rw [List.length_take, List.length_drop] at hi
  rw [List.getElem_take, List.getElem_drop, Nat.add_assoc]
  exact h (pos + i) (by omega)

/-- The number of a little-endian string. -/
def number : List Byte → Nat
  | [] => 0
  | b :: bs => b.toNat + 256 * number bs

theorem Holds.load_eq_number {m : Mem} {a : Nat} {bs : List Byte} (h : m.Holds a bs) :
    m.load a bs.length = number bs := by
  induction bs generalizing a with
  | nil => rfl
  | cons b bs ih =>
    rw [holds_cons] at h
    rw [List.length_cons, load, number, h.1, ih h.2]

/-- The byte string `bs`, stored at `a`. -/
def write (m : Mem) (a : Nat) (bs : List Byte) : Mem := fun x =>
  if a ≤ x ∧ x < a + bs.length then bs.getD (x - a) 0 else m x

theorem holds_write (m : Mem) (a : Nat) (bs : List Byte) : (m.write a bs).Holds a bs := by
  intro i hi
  rw [write, if_pos ⟨by omega, by omega⟩, Nat.add_sub_cancel_left]
  rw [List.getD_eq_getElem?_getD, List.getElem?_eq_getElem hi]
  rfl

theorem write_of_not {m : Mem} {a x : Nat} {bs : List Byte} (h : x < a ∨ a + bs.length ≤ x) :
    m.write a bs x = m x :=
  if_neg (by omega)

/-- The memory that holds `bs` at `a` and zeros elsewhere. -/
def ofBytes (a : Nat) (bs : List Byte) : Mem := fun x => if a ≤ x then bs.getD (x - a) 0 else 0

theorem holds_ofBytes (a : Nat) (bs : List Byte) : (ofBytes a bs).Holds a bs := by
  intro i hi
  rw [ofBytes, if_pos (Nat.le_add_right a i), Nat.add_sub_cancel_left]
  simp [hi]

/-- The `n`-byte little-endian string of `v`. -/
def leBytes (n v : Nat) : List Byte := (List.range n).map fun i => UInt8.ofNat (v / 256 ^ i)

@[simp] theorem length_leBytes (n v : Nat) : (leBytes n v).length = n := by simp [leBytes]

theorem leBytes_succ (n v : Nat) : leBytes (n + 1) v = UInt8.ofNat v :: leBytes n (v / 256) := by
  simp only [leBytes, List.range_succ_eq_map, List.map_cons, List.map_map, Nat.pow_zero, Nat.div_one]
  refine congrArg _ (List.map_congr_left fun i _ => ?_)
  simp only [Function.comp_apply, Nat.succ_eq_add_one, Nat.pow_succ', Nat.div_div_eq_div_mul]

theorem number_leBytes (n v : Nat) : number (leBytes n v) = v % 256 ^ n := by
  induction n generalizing v with
  | zero => simp [leBytes, number, Nat.mod_one]
  | succ n ih =>
    rw [leBytes_succ, number, ih, Nat.pow_succ', Nat.mod_mul]
    simp [UInt8.toNat_ofNat']

/-- A memory that holds the string of `v` loads `v`. -/
theorem Holds.load {m : Mem} {a n v : Nat} (h : m.Holds a (leBytes n v)) (hv : v < 256 ^ n) :
    m.load a n = v := by
  rw [load_of_bytes (v := v) fun i hi => ?_, Nat.mod_eq_of_lt hv]
  rw [h i (by simpa using hi)]
  simp [leBytes]

end Mem

end CkbJs
