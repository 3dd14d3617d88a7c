import CkbJs.Impl.JSValue

/-!
# What the conversions of JS values give

`JS_ToInt64` of a Number gives the Number where it is an integer of at most
62 bits (`toInt64Free_of_isNumber`), and always a 64-bit integer
(`toInt64Free_range`); it has no value on a BigInt. `JS_NewInt64` and
`JS_NewUint32` make the Number they are given.
-/

namespace CkbJs.Proof

open CkbJs.Impl

variable {E : Engine} {v : JSValue}

theorem toInt64Free_float64 (d : Float64) :
    toInt64Free E (.float64 d) = some (float64ToInt64 d) := rfl

/-- A conversion that goes through a Number fails on a BigInt. -/
theorem toInt64Free_bigInt (x : Int) : toInt64Free E (.bigInt x) = none := rfl

/-- `JS_ToInt64` of an integer. -/
theorem toInt64Free_of_isNumber {x : Int} (h : IsNumber v x) (hx : x.natAbs < 2 ^ 62) :
    toInt64Free E v = some x := by
  cases h with
  | int h => exact congrArg some h
  | @float64 d _ h =>
    have he : d.expo < 1023 + 62 := Float64.expo_lt_of_denotes h hx (by decide)
    rw [toInt64Free_float64, float64ToInt64, if_pos (by omega), Float64.trunc_of_denotes h]

/-! ## The range of a conversion -/

theorem signed_natAbs (d : Float64) (n : Nat) : (d.signed n).natAbs = n := by
  unfold Float64.signed
  split <;> simp

/-- Truncation of a double with a small exponent. -/
theorem natAbs_trunc_lt {d : Float64} {k : Nat} (h : d.expo < 1023 + k) (hk : 52 ≤ k) :
    d.trunc.natAbs < 2 ^ k := by
  have hm := d.mant_lt
  rw [Float64.trunc, signed_natAbs]
  split
  · calc d.mant * 2 ^ (d.expo - 1075) < 2 ^ 53 * 2 ^ (d.expo - 1075) :=
          Nat.mul_lt_mul_of_pos_right hm (Nat.pow_pos (by decide))
      _ = 2 ^ (53 + (d.expo - 1075)) := (Nat.pow_add ..).symm
      _ ≤ 2 ^ k := Nat.pow_le_pow_right (by decide) (by omega)
  · rename_i he
    have hp : 2 ^ 1 ≤ 2 ^ (1075 - max d.expo 1) := Nat.pow_le_pow_right (by decide) (by omega)
    have hk : 2 ^ 52 ≤ 2 ^ k := Nat.pow_le_pow_right (by decide) hk
    have hd : d.mant / 2 ^ (1075 - max d.expo 1) ≤ d.mant / 2 ^ 1 := Nat.div_le_div_left hp (by decide)
    omega

theorem bmod_range (x : Int) : -2 ^ 63 ≤ x.bmod (2 ^ 64) ∧ x.bmod (2 ^ 64) < 2 ^ 63 :=
  ⟨Int.le_bmod (by decide), Int.bmod_lt (by decide)⟩

theorem float64ToInt64_range (d : Float64) : -2 ^ 63 ≤ float64ToInt64 d ∧ float64ToInt64 d < 2 ^ 63 := by
  unfold float64ToInt64
  split
  · have := natAbs_trunc_lt (d := d) (k := 63) (by omega) (by decide)
    omega
  · split
    · exact bmod_range _
    · decide

theorem immediate_range {r : Int} (h : immediate 64 float64ToInt64 v = some r) :
    -2 ^ 63 ≤ r ∧ r < 2 ^ 63 := by
  cases v with
  | int i =>
    obtain rfl := Option.some.inj h
    have := i.toInt_lt
    have := i.le_toInt
    omega
  | bool b => obtain rfl := Option.some.inj h; cases b <;> decide
  | null => obtain rfl := Option.some.inj h; decide
  | undefined => obtain rfl := Option.some.inj h; decide
  | float64 d => obtain rfl := Option.some.inj h; exact float64ToInt64_range d
  | bigFloat x => obtain rfl := Option.some.inj h; exact bmod_range _
  | bigInt | bigDecimal | string | symbol | object | exception => nomatch h

/-- `JS_ToInt64` gives a 64-bit integer. -/
theorem toInt64Free_range {r : Int} (h : toInt64Free E v = some r) : -2 ^ 63 ≤ r ∧ r < 2 ^ 63 := by
  unfold toInt64Free at h
  split at h
  · rename_i hi
    exact immediate_range (hi.trans h)
  · exact immediate_range h

/-! ## The remainder modulo 2³² -/

/-- A double that denotes an integer, shifted as `JS_ToInt32Free` does it. -/
theorem shifted_of_denotes {d : Float64} {x : Int} (h : d.Denotes x) (he : 1043 ≤ d.expo) :
    d.mant * 2 ^ (d.expo + 32 - 1023 - 52) = x.natAbs * 2 ^ 32 := by
  obtain ⟨-, -, hv⟩ := h
  split at hv
  · rw [show d.expo + 32 - 1023 - 52 = d.expo - 1075 + 32 by omega, Nat.pow_add, ← Nat.mul_assoc, hv]
  · rw [hv, Nat.mul_assoc, ← Nat.pow_add,
      show 1075 - max d.expo 1 + (d.expo + 32 - 1023 - 52) = 32 by omega]

theorem signed_emod (d : Float64) {m n : Nat} (h : (m : Int) % 2 ^ 32 = n % 2 ^ 32) :
    d.signed m % 2 ^ 32 = d.signed n % 2 ^ 32 := by
  unfold Float64.signed
  split
  · omega
  · exact h

/-- `JS_ToInt32` of a double that is an integer is that integer modulo 2³². -/
theorem float64ToInt32_emod {d : Float64} {x : Int} (h : d.Denotes x) :
    float64ToInt32 d % 2 ^ 32 = x % 2 ^ 32 := by
  unfold float64ToInt32
  split
  · rw [Float64.trunc_of_denotes h]
  rename_i he
  have hmant : d.frac + 2 ^ 52 = d.mant := by rw [Float64.mant, if_neg (by omega)]
  have hx : x = d.signed x.natAbs := h.2.1
  split
  · -- the low 32 bits of the significand, shifted
    dsimp only
    have hbmod (y : Int) : y.bmod (2 ^ 32) % 2 ^ 32 = y % 2 ^ 32 := Int.bmod_emod
    rw [hmant, shifted_of_denotes h (by omega), hbmod]
    conv_rhs => rw [hx]
    exact signed_emod d (by omega)
  · -- the low 32 bits are 0
    have hv : d.mant * 2 ^ (d.expo - 1075) = x.natAbs := by
      have := h.2.2
      rwa [if_pos (by omega)] at this
    have hdvd : 2 ^ 32 ∣ x.natAbs := by
      rw [← hv, show d.expo - 1075 = 32 + (d.expo - 1107) by omega, Nat.pow_add]
      exact Nat.dvd_mul_left_of_dvd (Nat.dvd_mul_right ..) _
    omega

theorem toInt32Free_of_isNumber {x : Int} (h : IsNumber v x) :
    ∃ r, toInt32Free E v = some r ∧ r % 2 ^ 32 = x % 2 ^ 32 := by
  cases h with
  | int h => exact ⟨_, rfl, by rw [h]⟩
  | float64 h => exact ⟨_, rfl, float64ToInt32_emod h⟩

/-! ## New values -/

theorem isNumber_newInt64 {n : Nat} (h : n < 2 ^ 53) : IsNumber (newInt64 n) n := by
  unfold newInt64
  split
  · rename_i hb
    exact .int ((BitVec.toInt_ofInt ..).trans hb)
  · rw [Float64.ofInt, if_neg (by omega)]
    exact .float64 (Float64.denotes_ofNat h)

theorem newUint32_ne_exception (n : Nat) : newUint32 n ≠ .exception := by
  unfold newUint32
  split
  · exact JSValue.noConfusion
  · exact JSValue.noConfusion

theorem isNumber_newUint32 {n : Nat} (h : n < 2 ^ 32) : IsNumber (newUint32 n) n := by
  unfold newUint32
  split
  · have hlt : 2 * (BitVec.ofNat 32 n).toNat < 2 ^ 32 := by rw [BitVec.toNat_ofNat]; omega
    refine .int ?_
    rw [BitVec.toInt_eq_toNat_of_lt hlt, BitVec.toNat_ofNat, Nat.mod_eq_of_lt h]
  · exact .float64 (Float64.denotes_ofNat (by omega))

end CkbJs.Proof
