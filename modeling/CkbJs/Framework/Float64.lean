import Mathlib.Data.Int.Basic
import Mathlib.Data.Nat.Log
import Mathlib.Tactic.Ring

/-!
# Doubles as their bits

A double is its 64 bits (`Float64.sign`, `expo`, `frac`); no runtime
floating-point number is involved. `Float64.Denotes d x` says that `d` is
finite and is exactly the integer `x`: its value is the significand times
`2 ^ (expo - 1075)`, stated without fractions. `trunc_of_denotes` is the fact
conversions rest on: truncation of a double that denotes `x` is `x`.
`ofNat` is the double nearest a natural number, exact below `2 ^ 53`
(`denotes_ofNat`).
-/

namespace CkbJs

/-- The bits of a double. -/
abbrev Float64 := BitVec 64

namespace Float64

/-- Whether the sign bit is set. -/
def sign (d : Float64) : Bool := decide (2 ^ 63 ≤ d.toNat)

/-- The biased exponent. -/
def expo (d : Float64) : Nat := d.toNat / 2 ^ 52 % 2 ^ 11

/-- The 52 stored bits of the significand. -/
def frac (d : Float64) : Nat := d.toNat % 2 ^ 52

/-- The significand, with its implicit bit. -/
def mant (d : Float64) : Nat := if d.expo = 0 then d.frac else d.frac + 2 ^ 52

/-- `n`, negated if the sign bit is set. -/
def signed (d : Float64) (n : Nat) : Int := if d.sign then -(n : Int) else n

/-- Truncation towards zero of a finite double. -/
def trunc (d : Float64) : Int :=
  d.signed <|
    if 1075 ≤ d.expo then d.mant * 2 ^ (d.expo - 1075) else d.mant / 2 ^ (1075 - max d.expo 1)

/-- The double is finite and equal to the integer `x`. -/
def Denotes (d : Float64) (x : Int) : Prop :=
  d.expo < 2047 ∧ x = d.signed x.natAbs ∧
    if 1075 ≤ d.expo then d.mant * 2 ^ (d.expo - 1075) = x.natAbs
    else d.mant = x.natAbs * 2 ^ (1075 - max d.expo 1)

theorem frac_lt (d : Float64) : d.frac < 2 ^ 52 := Nat.mod_lt _ (by decide)

theorem mant_lt (d : Float64) : d.mant < 2 ^ 53 := by
  have := d.frac_lt
  unfold mant
  split <;> omega

/-- The exponent of a double that denotes an integer below `2 ^ k` in
absolute value. -/
theorem expo_lt_of_denotes {d : Float64} {x : Int} {k : Nat} (h : d.Denotes x)
    (hx : x.natAbs < 2 ^ k) (hk : 52 ≤ k) : d.expo < 1023 + k := by
  obtain ⟨-, -, hv⟩ := h
  by_cases he : 1075 ≤ d.expo
  · have hm : 2 ^ 52 ≤ d.mant := by simp only [mant, show d.expo ≠ 0 by omega, if_false]; omega
    rw [if_pos he] at hv
    have hlt : 2 ^ (52 + (d.expo - 1075)) < 2 ^ k := by
      calc 2 ^ (52 + (d.expo - 1075)) = 2 ^ 52 * 2 ^ (d.expo - 1075) := by rw [Nat.pow_add]
        _ ≤ d.mant * 2 ^ (d.expo - 1075) := Nat.mul_le_mul_right _ hm
        _ < 2 ^ k := by rw [hv]; exact hx
    have := (Nat.pow_lt_pow_iff_right (by decide : 1 < 2)).mp hlt
    omega
  · omega

/-- Truncation of a double that denotes an integer is that integer. -/
theorem trunc_of_denotes {d : Float64} {x : Int} (h : d.Denotes x) : d.trunc = x := by
  obtain ⟨-, hs, hv⟩ := h
  rw [hs, trunc]
  congr 1
  split at hv
  · rename_i he
    rw [if_pos he, hv]
  · rename_i he
    rw [if_neg he, hv]
    exact Nat.mul_div_cancel _ (Nat.pow_pos (by decide))

/-! ## The double of a natural number -/

/-- The significand of a number with more than 53 bits, rounded to nearest,
ties to even. -/
def roundMant (n : Nat) : Nat :=
  let half := 2 ^ (n.log2 - 53)
  let q := n / (2 * half)
  let r := n % (2 * half)
  if half < r ∨ (r = half ∧ q % 2 = 1) then q + 1 else q

/-- The double of a natural number. -/
def ofNat (n : Nat) : Float64 :=
  if n = 0 then 0
  else
    let m := if n.log2 ≤ 52 then n * 2 ^ (52 - n.log2) else roundMant n
    BitVec.ofNat 64 ((1023 + n.log2) * 2 ^ 52 + (m - 2 ^ 52))

/-- The double of an integer. -/
def ofInt (x : Int) : Float64 := if x < 0 then ofNat x.natAbs ||| 1 <<< 63 else ofNat x.natAbs

/-- A number below `2 ^ 53`, shifted so that its leading bit is bit 52. -/
theorem shifted_bounds {n : Nat} (h0 : n ≠ 0) (hn : n < 2 ^ 53) :
    n.log2 < 53 ∧ 2 ^ 52 ≤ n * 2 ^ (52 - n.log2) ∧ n * 2 ^ (52 - n.log2) < 2 ^ 53 := by
  have hk : n.log2 < 53 := (Nat.log2_lt h0).mpr hn
  have hlo : 2 ^ n.log2 ≤ n := Nat.log2_self_le h0
  have hhi : n < 2 ^ (n.log2 + 1) := Nat.lt_log2_self
  refine ⟨hk, ?_, ?_⟩
  · calc 2 ^ 52 = 2 ^ n.log2 * 2 ^ (52 - n.log2) := by rw [← Nat.pow_add]; congr 1; omega
      _ ≤ n * 2 ^ (52 - n.log2) := Nat.mul_le_mul_right _ hlo
  · calc n * 2 ^ (52 - n.log2) < 2 ^ (n.log2 + 1) * 2 ^ (52 - n.log2) :=
          Nat.mul_lt_mul_of_pos_right hhi (Nat.pow_pos (by decide))
      _ = 2 ^ 53 := by rw [← Nat.pow_add]; congr 1; omega

theorem toNat_ofNat {n : Nat} (h0 : n ≠ 0) (hn : n < 2 ^ 53) :
    (ofNat n).toNat = (1023 + n.log2) * 2 ^ 52 + (n * 2 ^ (52 - n.log2) - 2 ^ 52) := by
  obtain ⟨hk, hlo, hhi⟩ := shifted_bounds h0 hn
  rw [ofNat, if_neg h0, if_pos (by omega), BitVec.toNat_ofNat]
  exact Nat.mod_eq_of_lt (by omega)

theorem expo_ofNat {n : Nat} (h0 : n ≠ 0) (hn : n < 2 ^ 53) : (ofNat n).expo = 1023 + n.log2 := by
  obtain ⟨hk, hlo, hhi⟩ := shifted_bounds h0 hn
  rw [expo, toNat_ofNat h0 hn]
  omega

theorem sign_ofNat {n : Nat} (hn : n < 2 ^ 53) : (ofNat n).sign = false := by
  by_cases h0 : n = 0
  · subst h0; decide
  · obtain ⟨hk, hlo, hhi⟩ := shifted_bounds h0 hn
    rw [sign, toNat_ofNat h0 hn]
    exact decide_eq_false (by omega)

/-- The double of `n` denotes `n`. -/
theorem denotes_ofNat {n : Nat} (hn : n < 2 ^ 53) : (ofNat n).Denotes n := by
  by_cases h0 : n = 0
  · subst h0
    refine ⟨by decide, by decide, ?_⟩
    rw [if_neg (by decide), Int.natAbs_natCast, Nat.zero_mul]; rfl
  obtain ⟨hk, hlo, hhi⟩ := shifted_bounds h0 hn
  have he := expo_ofNat h0 hn
  have hm : (ofNat n).mant = n * 2 ^ (52 - n.log2) := by
    rw [mant, he, if_neg (by omega), frac, toNat_ofNat h0 hn]
    omega
  refine ⟨by omega, by rw [signed, sign_ofNat hn]; simp, ?_⟩
  rw [hm, he, Int.natAbs_natCast]
  split
  · rw [show 1023 + n.log2 - 1075 = 0 by omega, show 52 - n.log2 = 0 by omega]; simp
  · rw [show 1075 - max (1023 + n.log2) 1 = 52 - n.log2 by omega]

end Float64

end CkbJs
