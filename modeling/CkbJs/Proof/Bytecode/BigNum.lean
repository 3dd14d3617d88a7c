import CkbJs.Proof.Bytecode.Atoms

/-!
# Big numbers

The mantissa of a number is written without its low zero bytes, and that of a
decimal number without its low zero digits and with two digits in a byte, so
that a byte may have digits of two limbs. `Halves` is what is left of the
digits while they are read; `sends_writeBigNum` is the result.
-/

namespace CkbJs.Proof.Bytecode

open CkbJs.Codec CkbJs.Impl.Bytecode CkbJs.Spec.Bytecode

variable {w : BCWriter} {newAtom : JSString → JSAtom} {t : BCReader}

/-! ## Sign and exponent -/

theorem expnOfCode_expnCode (expn : Int) : expnOfCode (expnCode expn) = expn := by
  unfold expnOfCode expnCode
  split
  · simp [*]
  · split
    · simp [*]
    · split
      · simp [*]
      · split <;> split <;> omega

theorem sign_expnCode (e : Int) (sign : Bool) :
    (2 * e + sign.toNat) / 2 = e ∧ decide ((2 * e + sign.toNat) % 2 = 1) = sign := by
  cases sign with
  | false =>
    simp only [Bool.toNat_false, decide_eq_false_iff_not]
    omega
  | true =>
    simp only [Bool.toNat_true, decide_eq_true_eq]
    omega

theorem toInt_ofInt_of_range {e : Int} (h : ¬(e < -2 ^ 31 ∨ e > 2 ^ 31 - 1)) : (Int32.ofInt e).toInt = e :=
  Int32.toInt_ofInt_of_le (by omega) (by omega)

/-! ## Binary mantissas -/

theorem low_byte_eq_zero_iff (v : UInt64) : v &&& 0xff = 0 ↔ v.toNat % 256 = 0 := by
  have h : (0xff : UInt64).toNat = 2 ^ 8 - 1 := rfl
  rw [← UInt64.toNat_inj, UInt64.toNat_and, h, Nat.and_two_pow_sub_one_eq_mod, UInt64.toNat_zero]

theorem stripBytes_spec {n : Nat} {v : UInt64} (hv : v.toNat < 256 ^ n) (h0 : v ≠ 0) :
    0 < (stripBytes n v).1 ∧ (stripBytes n v).1 ≤ n ∧ (stripBytes n v).2.toNat < 256 ^ (stripBytes n v).1 ∧
      v.toNat = (stripBytes n v).2.toNat * 256 ^ (n - (stripBytes n v).1) := by
  induction n generalizing v with
  | zero => exact absurd (UInt64.toNat_inj.1 (by simpa using hv)) h0
  | succ n ih =>
    rw [stripBytes]
    split
    · rename_i hlow
      have hmod := (low_byte_eq_zero_iff v).1 hlow
      have hdiv : (v >>> 8).toNat = v.toNat / 256 := by simp [Nat.shiftRight_eq_div_pow]
      have hne : v >>> 8 ≠ 0 := fun hc => h0 <| UInt64.toNat_inj.1 <| by
        have := congrArg UInt64.toNat hc
        rw [hdiv, UInt64.toNat_zero] at this
        rw [UInt64.toNat_zero]
        omega
      obtain ⟨h₁, h₂, h₃, h₄⟩ := ih (v := v >>> 8) (by rw [hdiv, Nat.div_lt_iff_lt_mul (by decide)]; exact hv) hne
      refine ⟨h₁, by omega, h₃, ?_⟩
      have hpow : 256 ^ (n + 1 - (stripBytes n (v >>> 8)).1) = 256 ^ (n - (stripBytes n (v >>> 8)).1) * 256 := by
        rw [← Nat.pow_succ]
        congr 1
        omega
      rw [hdiv] at h₄
      rw [hpow, ← Nat.mul_assoc, ← h₄]
      omega
    · refine ⟨Nat.succ_pos n, Nat.le_refl _, hv, ?_⟩
      simp

theorem sends_putLimbs (limbs : List UInt64) :
    Sends (sink w newAtom t) (limbs.forM bcPutU64) (readN bcGetU64 limbs.length) limbs := by
  have h : Sends (sink w newAtom t) (limbs.forM bcPutU64) (readN bcGetU64 limbs.length) (limbs.map id) :=
    Sends.forM fun v _ => sends_putU64 v
  rwa [List.map_id] at h

theorem sends_binary {v : UInt64} (h0 : v ≠ 0) (limbs : List UInt64) :
    Sends (sink w newAtom t)
      (do
        dbufPut (Mem.leBytes (stripBytes 8 v).1 (stripBytes 8 v).2.toNat)
        limbs.forM bcPutU64)
      (getBinaryLimbs (limbs.length * 8 + (stripBytes 8 v).1)) (v :: limbs) := by
  obtain ⟨h₁, h₂, h₃, h₄⟩ := stripBytes_spec (n := 8) v.toNat_lt h0
  generalize stripBytes 8 v = p at h₁ h₂ h₃ h₄ ⊢
  obtain ⟨n1, v'⟩ := p
  dsimp only at h₁ h₂ h₃ h₄ ⊢
  have hl : (limbs.length * 8 + n1 + 7) / 8 = limbs.length + 1 := by omega
  unfold getBinaryLimbs
  rw [hl]
  rcases Nat.lt_or_ge n1 8 with hn | hn
  · have hmod : (limbs.length * 8 + n1) % 8 = n1 := by omega
    rw [hmod, if_pos (by omega)]
    refine (sends_dbufPut (reads_getBuf _ (Mem.length_leBytes ..))).bind fun _ => ?_
    have hval : UInt64.ofNat (Mem.number (Mem.leBytes n1 v'.toNat)) <<< UInt64.ofNat ((8 - n1) * 8) = v := by
      rw [Mem.number_leBytes, Nat.mod_eq_of_lt h₃, UInt64.ofNat_toNat]
      refine UInt64.toNat_inj.1 ?_
      have hs : (UInt64.ofNat ((8 - n1) * 8)).toNat % 64 = 8 * (8 - n1) := by
        rw [UInt64.toNat_ofNat']
        omega
      have hpow : 2 ^ (8 * (8 - n1)) = 256 ^ (8 - n1) := Nat.pow_mul 2 8 (8 - n1)
      rw [UInt64.toNat_shiftLeft, hs, Nat.shiftLeft_eq, hpow, ← h₄, Nat.mod_eq_of_lt v.toNat_lt]
    rw [bind_pure_comp]
    refine (sends_putLimbs limbs).map ?_
    rw [hval]
  · have hn : n1 = 8 := by omega
    subst hn
    have hv : v' = v := UInt64.toNat_inj.1 (by simpa using h₄.symm)
    have hmod : (limbs.length * 8 + 8) % 8 = 0 := by omega
    rw [hmod, if_neg (by simp), hv]
    exact sends_putLimbs (v :: limbs)

/-! ## Decimal mantissas -/

theorem stripDigits_spec {n : Nat} {v : UInt64} (hv : v.toNat < 10 ^ n) (h0 : v ≠ 0) :
    0 < (stripDigits n v).1 ∧ (stripDigits n v).1 ≤ n ∧ (stripDigits n v).2.toNat < 10 ^ (stripDigits n v).1 ∧
      v.toNat = (stripDigits n v).2.toNat * 10 ^ (n - (stripDigits n v).1) := by
  induction n generalizing v with
  | zero => exact absurd (UInt64.toNat_inj.1 (by simpa using hv)) h0
  | succ n ih =>
    have hmod : (v % 10).toNat = v.toNat % 10 := UInt64.toNat_mod ..
    have hdiv : (v / 10).toNat = v.toNat / 10 := UInt64.toNat_div ..
    rw [stripDigits]
    split
    · rename_i hlow
      rw [hlow, UInt64.toNat_zero] at hmod
      have hne : v / 10 ≠ 0 := fun hc => h0 <| UInt64.toNat_inj.1 <| by
        rw [hc, UInt64.toNat_zero] at hdiv
        rw [UInt64.toNat_zero]
        omega
      obtain ⟨h₁, h₂, h₃, h₄⟩ := ih (v := v / 10) (by rw [hdiv, Nat.div_lt_iff_lt_mul (by decide)]; exact hv) hne
      refine ⟨h₁, by omega, h₃, ?_⟩
      have hpow : 10 ^ (n + 1 - (stripDigits n (v / 10)).1) = 10 ^ (n - (stripDigits n (v / 10)).1) * 10 := by
        rw [← Nat.pow_succ]
        congr 1
        omega
      rw [hdiv] at h₄
      rw [hpow, ← Nat.mul_assoc, ← h₄]
      omega
    · refine ⟨Nat.succ_pos n, Nat.le_refl _, hv, ?_⟩
      simp

/-- The digits `ds` that are left: in the half of a byte, and in the bytes `bs`. -/
inductive Halves : Option UInt8 → List UInt8 → List Byte → Prop where
  | whole (ds : List UInt8) : Halves none ds (packDigits ds)
  | half (d : UInt8) (ds : List UInt8) : Halves (some d) (d :: ds) (packDigits ds)
  | filler (d : UInt8) : Halves (some d) [] []

theorem halves_of_digits (d d' : Fin 10) :
    (UInt8.ofNat d.val ||| UInt8.ofNat d'.val <<< 4) &&& 0xf = UInt8.ofNat d.val ∧
      (UInt8.ofNat d.val ||| UInt8.ofNat d'.val <<< 4) >>> 4 = UInt8.ofNat d'.val := by
  revert d d'
  decide +kernel

theorem low_half_of_digit (d : Fin 10) : UInt8.ofNat d.val &&& 0xf = UInt8.ofNat d.val := by
  revert d
  decide +kernel

theorem reads_getDigit {half : Option UInt8} {d : UInt8} {ds : List UInt8} {bs : List Byte}
    (h : Halves half (d :: ds) bs) (hd : ∀ x ∈ d :: ds, x.toNat < 10) :
    ∃ bs₁ bs₂ half', bs = bs₁ ++ bs₂ ∧ Reads (getDigit half) bs₁ (d, half') ∧ Halves half' ds bs₂ := by
  have hlt : d.toNat < 10 := hd d List.mem_cons_self
  have hle : ¬d ≥ 10 := fun hc => absurd (UInt8.le_iff_toNat_le.1 hc) (by simpa using hlt)
  have hd' : UInt8.ofNat d.toNat = d := UInt8.ofNat_toNat
  match h with
  | .half _ _ =>
    refine ⟨[], packDigits ds, none, rfl, ?_, .whole ds⟩
    refine (Reads.of_pure (d, none)).bind ?_
    rw [if_neg hle]
    exact .of_pure _
  | .whole _ =>
    match ds with
    | [] =>
      refine ⟨[d], [], some (d >>> 4), rfl, ?_, .filler _⟩
      have hlow := low_half_of_digit ⟨d.toNat, hlt⟩
      rw [hd'] at hlow
      refine ((reads_u8 d).bind_pure rfl).bind_nil ?_
      rw [hlow, if_neg hle]
      exact .of_pure _
    | d₁ :: ds =>
      obtain ⟨hlow, hhigh⟩ := halves_of_digits ⟨d.toNat, hlt⟩ ⟨d₁.toNat, hd d₁ (by simp)⟩
      rw [hd', UInt8.ofNat_toNat] at hlow hhigh
      refine ⟨[d ||| d₁ <<< 4], packDigits ds, some d₁, rfl, ?_, .half d₁ ds⟩
      refine ((reads_u8 _).bind_pure rfl).bind_nil ?_
      rw [hlow, hhigh, if_neg hle]
      exact .of_pure _

theorem limbDigits_lt {n : Nat} {v : UInt64} {x : UInt8} (hx : x ∈ limbDigits n v) : x.toNat < 10 := by
  induction n generalizing v with
  | zero => simp [limbDigits] at hx
  | succ n ih =>
    rcases List.mem_cons.1 hx with rfl | hx
    · have hmod : (v % 10).toNat = v.toNat % 10 := UInt64.toNat_mod ..
      rw [UInt64.toNat_toUInt8, hmod]
      omega
    · exact ih hx

/-- The digits of one limb are read into their places. -/
theorem reads_getLimb {n j : Nat} {u v : UInt64} {half : Option UInt8} {ds : List UInt8} {bs : List Byte}
    (hj : j + n ≤ 19) (hu : u.toNat < 10 ^ n) (hv : v.toNat < 10 ^ j)
    (h : Halves half (limbDigits n u ++ ds) bs) (hd : ∀ x ∈ ds, x.toNat < 10) :
    ∃ bs₁ bs₂ half', bs = bs₁ ++ bs₂ ∧
      Reads (getLimb n j v half) bs₁ (UInt64.ofNat (v.toNat + u.toNat * 10 ^ j), half') ∧ Halves half' ds bs₂ := by
  induction n generalizing j u v half bs with
  | zero =>
    refine ⟨[], bs, half, rfl, ?_, h⟩
    have hu0 : u.toNat = 0 := by simpa using hu
    rw [hu0, Nat.zero_mul, Nat.add_zero, UInt64.ofNat_toNat]
    exact .of_pure _
  | succ n ih =>
    have hmod : (u % 10).toNat = u.toNat % 10 := UInt64.toNat_mod ..
    have hdiv : (u / 10).toNat = u.toNat / 10 := UInt64.toNat_div ..
    have hdigit : (u % 10).toUInt8.toNat = u.toNat % 10 := by
      rw [UInt64.toNat_toUInt8, hmod]
      omega
    obtain ⟨bs₁, bs₂, half₁, rfl, hr₁, h₁⟩ := reads_getDigit h fun x hx => by
      rcases List.mem_append.1 (show x ∈ limbDigits (n + 1) u ++ ds from hx) with hx | hx
      · exact limbDigits_lt hx
      · exact hd x hx
    -- the next digit goes to place `j`
    have hpow : 10 ^ j ≤ 10 ^ 18 := Nat.pow_le_pow_right (by decide) (by omega)
    have hnext : 10 ^ (j + 1) = 10 * 10 ^ j := Nat.pow_succ'
    have hle : u.toNat % 10 * 10 ^ j ≤ 9 * 10 ^ j := Nat.mul_le_mul_right _ (by omega)
    have hplace : (v + UInt64.ofNat (10 ^ j) * (u % 10).toUInt8.toUInt64).toNat =
        v.toNat + u.toNat % 10 * 10 ^ j := by
      rw [UInt64.toNat_add, UInt64.toNat_mul, UInt64.toNat_ofNat', UInt8.toNat_toUInt64, hdigit,
        Nat.mod_eq_of_lt (a := 10 ^ j) (by omega), Nat.mul_comm (10 ^ j),
        Nat.mod_eq_of_lt (a := u.toNat % 10 * 10 ^ j) (by omega), Nat.mod_eq_of_lt (by omega)]
    have hsplit : u.toNat * 10 ^ j = u.toNat % 10 * 10 ^ j + u.toNat / 10 * 10 ^ (j + 1) := by
      rw [hnext, ← Nat.mul_assoc, ← Nat.add_mul, Nat.mul_comm _ 10, Nat.mod_add_div]
    obtain ⟨bs₃, bs₄, half₂, rfl, hr₂, h₂⟩ := ih (j := j + 1) (u := u / 10)
      (v := v + UInt64.ofNat (10 ^ j) * (u % 10).toUInt8.toUInt64) (by omega)
      (by rw [hdiv, Nat.div_lt_iff_lt_mul (by decide)]; exact hu) (by rw [hplace, hnext]; omega) h₁
    refine ⟨bs₁ ++ bs₃, bs₄, half₂, (List.append_assoc ..).symm, ?_, h₂⟩
    rw [hplace, hdiv, Nat.add_assoc, ← hsplit] at hr₂
    exact hr₁.bind hr₂

/-- The first limb has only the digits from place `j` on. -/
theorem reads_getLimbs {j : Nat} {u v : UInt64} {limbs : List UInt64} {half : Option UInt8} {bs : List Byte}
    (hj : j ≤ 19) (hu : u.toNat < 10 ^ (19 - j)) (hv : v.toNat = u.toNat * 10 ^ j)
    (hlimbs : ∀ v ∈ limbs, v.toNat < 10 ^ 19)
    (h : Halves half (limbDigits (19 - j) u ++ limbs.flatMap (limbDigits 19)) bs) :
    ∃ bs₁ bs₂, bs = bs₁ ++ bs₂ ∧ Reads (getLimbs (limbs.length + 1) j half) bs₁ (v :: limbs) ∧
      ∃ half', Halves half' [] bs₂ := by
  induction limbs generalizing j u v half bs with
  | nil =>
    obtain ⟨bs₁, bs₂, half', hbs, hr, h'⟩ := reads_getLimb (v := 0) (j := j) (by omega) hu
      (by simp) h (by simp)
    refine ⟨bs₁, bs₂, hbs, ?_, half', h'⟩
    rw [UInt64.toNat_zero, Nat.zero_add, ← hv, UInt64.ofNat_toNat] at hr
    exact hr.bind_nil (.of_pure _)
  | cons v₁ limbs ih =>
    obtain ⟨bs₁, bs₂, half₁, rfl, hr₁, h₁⟩ := reads_getLimb (v := 0) (j := j) (by omega) hu
      (by simp) h fun x hx => by
        obtain ⟨v, -, hx⟩ := List.mem_flatMap.1 hx
        exact limbDigits_lt hx
    rw [UInt64.toNat_zero, Nat.zero_add, ← hv, UInt64.ofNat_toNat] at hr₁
    obtain ⟨bs₃, bs₄, rfl, hr₂, h₂⟩ := ih (j := 0) (u := v₁) (v := v₁) (Nat.zero_le _)
      (hlimbs v₁ List.mem_cons_self) (by simp) (fun v hv => hlimbs v (List.mem_cons_of_mem _ hv)) h₁
    exact ⟨bs₁ ++ bs₃, bs₄, (List.append_assoc ..).symm, hr₁.bind (hr₂.bind_pure rfl), h₂⟩

/-- The last half of a byte may be left over, but no byte. -/
theorem Halves.eq_nil {half : Option UInt8} {bs : List Byte} (h : Halves half [] bs) : bs = [] := by
  cases h <;> rfl

theorem reads_decimal {v : UInt64} (h0 : v ≠ 0) (hv : v.toNat < 10 ^ 19) {limbs : List UInt64}
    (hlimbs : ∀ v ∈ limbs, v.toNat < 10 ^ 19) :
    Reads (getDecimalLimbs ((limbs.length + 1) * 19 - (19 - (stripDigits 19 v).1)))
      (packDigits (limbDigits (stripDigits 19 v).1 (stripDigits 19 v).2 ++ limbs.flatMap (limbDigits 19)))
      (v :: limbs) := by
  obtain ⟨h₁, h₂, h₃, h₄⟩ := stripDigits_spec hv h0
  generalize stripDigits 19 v = p at h₁ h₂ h₃ h₄ ⊢
  obtain ⟨n1, u⟩ := p
  dsimp only at h₁ h₂ h₃ h₄ ⊢
  have hn1 : 19 - (19 - n1) = n1 := by omega
  have hh : Halves none (limbDigits (19 - (19 - n1)) u ++ limbs.flatMap (limbDigits 19))
      (packDigits (limbDigits n1 u ++ limbs.flatMap (limbDigits 19))) := by
    rw [hn1]
    exact .whole _
  obtain ⟨bs₁, bs₂, hbs, hr, half', hnil⟩ :=
    reads_getLimbs (j := 19 - n1) (by omega) (by rwa [hn1]) h₄ hlimbs hh
  rw [hnil.eq_nil, List.append_nil] at hbs
  rw [hbs, getDecimalLimbs]
  have hl : ((limbs.length + 1) * 19 - (19 - n1) + LIMB_DIGITS - 1) / LIMB_DIGITS = limbs.length + 1 := by
    rw [LIMB_DIGITS]
    omega
  have hj : (if ((limbs.length + 1) * 19 - (19 - n1)) % LIMB_DIGITS ≠ 0 then
      LIMB_DIGITS - ((limbs.length + 1) * 19 - (19 - n1)) % LIMB_DIGITS else 0) = 19 - n1 := by
    rw [LIMB_DIGITS]
    split <;> omega
  simp only [hl, hj]
  exact hr

/-! ## The number -/

theorem sends_writeMantissa {tag : BigTag} {sign : Bool} {expn : Int} {tab : List UInt64}
    (h : Normalized tag ⟨sign, expn, tab⟩) (hne : tab ≠ []) :
    Sends (sink w newAtom t) (writeMantissa tag tab) (readMantissa tag sign expn) (.big tag ⟨sign, expn, tab⟩) := by
  have hexpn : expn ≠ BF_EXP_ZERO ∧ expn ≠ BF_EXP_INF ∧ expn ≠ BF_EXP_NAN := by
    have := mt h.tab_iff.2 hne
    rwa [not_or, not_or] at this
  obtain ⟨v, limbs, rfl⟩ := List.exists_cons_of_ne_nil hne
  have h0 : v ≠ 0 := h.head v rfl
  have hdrop : (v :: limbs).dropWhile (fun v => decide (v = 0)) = v :: limbs := by
    rw [List.dropWhile_cons, if_neg (by simpa using h0)]
  have hlen : ∀ n, 0 < n → ¬n > 2 ^ 31 - 1 → UInt32.ofNat n ≠ 0 ∧ (UInt32.ofNat n).toNat = n := by
    intro n hn hlt
    have hval : (UInt32.ofNat n).toNat = n := UInt32.toNat_ofNat_of_lt' (Nat.lt_of_le_of_lt (not_lt.1 hlt) (by decide))
    refine ⟨fun hc => ?_, hval⟩
    rw [hc, UInt32.toNat_zero] at hval
    omega
  unfold writeMantissa readMantissa
  rw [hdrop, if_pos hexpn]
  refine .ite (fun htag => ?_) fun htag => ?_
  · obtain ⟨hpos, -⟩ := stripBytes_spec (n := 8) v.toNat_lt h0
    refine .ite (fun _ => .of_throw _) fun hmax => ?_
    obtain ⟨hnz, hval⟩ := hlen _ (by omega) hmax
    refine (sends_putLeb128 _).bind fun _ => ?_
    rw [if_neg hnz, hval, getTab, if_pos htag, bind_pure_comp]
    exact (sends_binary h0 limbs).map rfl
  · have hdec := h.decimal (not_not.1 htag)
    obtain ⟨hpos, -⟩ := stripDigits_spec (hdec v List.mem_cons_self) h0
    refine .ite (fun _ => .of_throw _) fun hmax => ?_
    rw [List.length_cons] at hmax ⊢
    have hlen0 : 0 < (limbs.length + 1) * LIMB_DIGITS - (LIMB_DIGITS - (stripDigits LIMB_DIGITS v).1) := by
      rw [LIMB_DIGITS] at hpos ⊢
      omega
    obtain ⟨hnz, hval⟩ := hlen _ hlen0 hmax
    refine (sends_putLeb128 _).bind fun _ => ?_
    rw [if_neg hnz, hval, getTab, if_neg htag, bind_pure_comp]
    refine Sends.map (sends_dbufPut ?_) rfl
    exact reads_decimal h0 (hdec v List.mem_cons_self) fun v hv => hdec v (List.mem_cons_of_mem _ hv)

theorem sends_writeBigNum {g : Byte → RM JSValue} {tag : BigTag} {a : BfNum}
    (hg : g tag.toBCTag.toByte = readBigNum tag) (h : Normalized tag a) :
    Sends (sink w newAtom t) (writeBigNum tag a) (bcGetU8 >>= g) (.big tag a) := by
  obtain ⟨sign, expn, tab⟩ := a
  obtain ⟨hhalf, hsign⟩ := sign_expnCode (expnCode expn) sign
  refine (sends_putU8 _).bind fun _ => ?_
  rw [hg]
  refine .ite (fun _ => .of_throw _) fun hrange => ?_
  refine (sends_putSleb128 _).bind fun _ => ?_
  rw [toInt_ofInt_of_range hrange, hhalf, hsign, expnOfCode_expnCode]
  refine .ite (fun hnil => ?_) fun hne => sends_writeMantissa h hne
  have hspecial := h.tab_iff.1 hnil
  have hread : readMantissa tag sign expn = pure (.big tag ⟨sign, expn, tab⟩) := by
    rw [readMantissa, if_neg, show tab = [] from hnil]
    rintro ⟨h₁, h₂, h₃⟩
    exact hspecial.elim h₁ fun h => h.elim h₂ h₃
  rw [hread]
  exact .of_pure _ _

end CkbJs.Proof.Bytecode
