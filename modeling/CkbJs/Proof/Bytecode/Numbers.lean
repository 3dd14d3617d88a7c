import CkbJs.Impl.Bytecode.Reader

/-!
# The numbers of the binary format

What the writer appends for a number, the reader reads as that number: bytes,
little-endian words, `reads_leb128` for numbers in groups of seven bits and
`reads_sleb128` for signed ones, whose sign is moved to the lowest bit.
`Packed` follows the flags through the calls of `bc_set_flags`.
-/

namespace CkbJs.Proof.Bytecode

open CkbJs.Codec CkbJs.Impl.Bytecode

/-! ## Bytes and words -/

theorem run_getBuf {n : Nat} {i : Input Byte} (h : n ≤ i.rest.length) :
    (bcGetBuf n).run i = .ok ⟨i.rest.take n, List.length_take_of_le h⟩ ⟨i.rest.drop n, i.pos + n⟩ := by
  unfold bcGetBuf
  rw [EStateM.run_bind]
  show (dite (n ≤ i.rest.length) _ _ : RM _).run i = _
  rw [dif_pos h]
  rfl

theorem run_getBuf_of_short {n : Nat} {i : Input Byte} (h : ¬n ≤ i.rest.length) :
    (bcGetBuf n).run i = .error .readAfterEnd i := by
  unfold bcGetBuf
  rw [EStateM.run_bind]
  show (dite (n ≤ i.rest.length) _ _ : RM _).run i = _
  rw [dif_neg h]
  rfl

theorem reads_getBuf (bs : List Byte) {n : Nat} (h : bs.length = n) : Reads (bcGetBuf n) bs ⟨bs, h⟩ := by
  intro rest pos
  subst h
  have hle : bs.length ≤ (bs ++ rest).length := by simp
  rw [run_getBuf (i := ⟨bs ++ rest, pos⟩) hle]
  simp

theorem reads_u8 (v : UInt8) : Reads bcGetU8 [v] v :=
  (reads_getBuf [v] rfl).bind_pure (by simp [Mem.number])

theorem reads_u16 (v : UInt16) : Reads bcGetU16 (Mem.leBytes 2 v.toNat) v := by
  refine (reads_getBuf (Mem.leBytes 2 v.toNat) (Mem.length_leBytes ..)).bind_pure ?_
  rw [Mem.number_leBytes, Nat.mod_eq_of_lt (b := 256 ^ 2) v.toNat_lt, UInt16.ofNat_toNat]

theorem reads_u64 (v : UInt64) : Reads bcGetU64 (Mem.leBytes 8 v.toNat) v := by
  refine (reads_getBuf (Mem.leBytes 8 v.toNat) (Mem.length_leBytes ..)).bind_pure ?_
  rw [Mem.number_leBytes, Nat.mod_eq_of_lt (b := 256 ^ 8) v.toNat_lt, UInt64.ofNat_toNat]

/-! ## Groups of seven bits -/

theorem toNat_shiftRight_seven (v : UInt32) : (v >>> 7).toNat = v.toNat / 128 := by
  simp [Nat.shiftRight_eq_div_pow]

theorem toNat_low (v : UInt32) : (v &&& 0x7f).toNat = v.toNat % 128 := by
  have : (0x7f : UInt32).toNat = 2 ^ 7 - 1 := rfl
  rw [UInt32.toNat_and, this, Nat.and_two_pow_sub_one_eq_mod]

theorem toNat_more (v : UInt32) : ((v &&& 0x7f) ||| 0x80).toUInt8.toNat = v.toNat % 128 + 128 := by
  have h : (0x80 : UInt32).toNat = 2 ^ 7 * 1 := rfl
  have hlt := Nat.mod_lt v.toNat (by decide : 0 < 128)
  rw [UInt32.toNat_toUInt8, UInt32.toNat_or, toNat_low, h, Nat.or_comm,
    ← Nat.two_pow_add_eq_or_of_lt (by omega)]
  omega

theorem toNat_last {v : UInt32} (h : v.toNat < 128) : (v &&& 0x7f).toUInt8.toNat = v.toNat := by
  rw [UInt32.toNat_toUInt8, toNat_low]
  omega

theorem high_eq_zero_iff (a : UInt8) : a &&& 0x80 = 0 ↔ a.toNat < 128 := by
  have h : ∀ a : Fin 256, UInt8.ofNat a.val &&& 0x80 = 0 ↔ a.val < 128 := by decide +kernel
  have := h ⟨a.toNat, a.toNat_lt⟩
  rwa [UInt8.ofNat_toNat] at this

/-- The group that a byte adds to the number. -/
theorem toNat_group (a : UInt8) {acc : UInt32} {i : Nat} (hi : i < 5) (hacc : acc.toNat < 2 ^ (7 * i))
    (ha : a.toNat % 128 * 2 ^ (7 * i) < 2 ^ 32) :
    (acc ||| ((a.toUInt32 &&& 0x7f) <<< (UInt32.ofNat i * 7))).toNat =
      acc.toNat + a.toNat % 128 * 2 ^ (7 * i) := by
  have hs : (UInt32.ofNat i * 7).toNat % 32 = 7 * i := by
    rw [UInt32.toNat_mul, UInt32.toNat_ofNat']
    simp only [UInt32.reduceToNat]
    omega
  rw [UInt32.toNat_or, UInt32.toNat_shiftLeft, hs, toNat_low, UInt8.toNat_toUInt32, Nat.shiftLeft_eq,
    Nat.mod_eq_of_lt ha, Nat.or_comm, Nat.mul_comm, ← Nat.two_pow_add_eq_or_of_lt hacc, Nat.add_comm]

theorem reads_getLeb128 {n i : Nat} (hn : 0 < n) (hi : i + n = 5) {v acc : UInt32}
    (hv : v.toNat < 2 ^ (7 * n)) (hv' : v.toNat * 2 ^ (7 * i) < 2 ^ 32) (hacc : acc.toNat < 2 ^ (7 * i)) :
    Reads (getLeb128 n (UInt32.ofNat i) acc) (leb128 n v)
      (UInt32.ofNat (acc.toNat + v.toNat * 2 ^ (7 * i))) := by
  induction n generalizing i v acc with
  | zero => omega
  | succ n ih =>
    have hpow : 2 ^ (7 * (i + 1)) = 128 * 2 ^ (7 * i) := by rw [Nat.mul_add, Nat.pow_add, Nat.mul_comm]
    have hsplit : v.toNat * 2 ^ (7 * i) = v.toNat % 128 * 2 ^ (7 * i) + v.toNat / 128 * 2 ^ (7 * (i + 1)) := by
      rw [hpow, ← Nat.mul_assoc, ← Nat.add_mul, Nat.mul_comm _ 128, Nat.mod_add_div]
    rw [getLeb128]
    simp only [leb128]
    split
    · -- another byte follows
      rename_i hmore
      have hbyte := toNat_more v
      have hdiv : v.toNat / 128 ≠ 0 := fun h0 => hmore <| UInt32.toNat_inj.1 <| by
        rw [toNat_shiftRight_seven, h0]
        rfl
      have hmod : (v.toNat % 128 + 128) % 128 = v.toNat % 128 := by omega
      have hgroup := toNat_group ((v &&& 0x7f) ||| 0x80).toUInt8 (i := i) (by omega) hacc
        (by rw [hbyte, hmod]; omega)
      rw [hbyte, hmod] at hgroup
      have hn' : n ≠ 0 := by
        rintro rfl
        omega
      rw [← List.singleton_append]
      refine (reads_u8 _).bind ?_
      have hhigh : ¬((v &&& 0x7f) ||| 0x80).toUInt8 &&& 0x80 = 0 := by
        rw [high_eq_zero_iff, hbyte]
        omega
      rw [if_neg hhigh]
      have hnext : UInt32.ofNat i + 1 = UInt32.ofNat (i + 1) := by simp
      have hlt : v.toNat % 128 * 2 ^ (7 * i) ≤ 127 * 2 ^ (7 * i) := Nat.mul_le_mul_right _ (by omega)
      rw [hnext]
      have := ih (i := i + 1) (v := v >>> 7) (by omega) (by omega)
        (by rw [toNat_shiftRight_seven, Nat.div_lt_iff_lt_mul (by decide), ← Nat.pow_add 2 (7 * n) 7]; exact hv)
        (by rw [toNat_shiftRight_seven]; omega) (by rw [hgroup, hpow]; omega)
      rwa [hgroup, toNat_shiftRight_seven, Nat.add_assoc, ← hsplit] at this
    · -- the last byte
      rename_i hlast
      have hv7 : v.toNat < 128 := by
        have := congrArg UInt32.toNat (not_not.1 hlast)
        rw [toNat_shiftRight_seven] at this
        simp only [UInt32.toNat_zero] at this
        omega
      have hbyte := toNat_last hv7
      have hgroup := toNat_group (v &&& 0x7f).toUInt8 (i := i) (by omega) hacc
        (by rw [hbyte, Nat.mod_eq_of_lt hv7]; exact hv')
      rw [hbyte, Nat.mod_eq_of_lt hv7] at hgroup
      refine (reads_u8 _).bind_nil ?_
      rw [if_pos ((high_eq_zero_iff _).2 (hbyte ▸ hv7)), ← hgroup, UInt32.ofNat_toNat]
      exact .of_pure _

theorem reads_leb128 (v : UInt32) : Reads bcGetLeb128 (leb128 5 v) v := by
  have hv := v.toNat_lt
  have h : Reads (getLeb128 5 (UInt32.ofNat 0) 0) (leb128 5 v) (UInt32.ofNat (0 + v.toNat * 2 ^ (7 * 0))) :=
    reads_getLeb128 (by decide) rfl (by omega) (by omega) (by decide)
  rw [Nat.zero_add, Nat.mul_zero, Nat.pow_zero, Nat.mul_one, UInt32.ofNat_toNat] at h
  exact h

/-! ## Signed numbers -/

theorem toNat_and_one (v : UInt32) : (v &&& 1).toNat = v.toNat % 2 := by
  rw [UInt32.toNat_and, UInt32.toNat_one, Nat.and_one_is_mod]

theorem toNat_shiftRight_one (v : UInt32) : (v >>> 1).toNat = v.toNat / 2 := by
  simp [Nat.shiftRight_eq_div_pow]

theorem toNat_twice (v : UInt32) : ((2 : UInt32) * v).toNat = 2 * v.toNat % 2 ^ 32 := by
  rw [UInt32.toNat_mul]
  rfl

/-- The sign is in the lowest bit, and the other bits are inverted if it is set. -/
theorem zigzag (v : UInt32) :
    ((((2 : UInt32) * v) ^^^ -(v >>> 31)) >>> 1) ^^^ -((((2 : UInt32) * v) ^^^ -(v >>> 31)) &&& 1) = v := by
  have hv := v.toNat_lt
  have hsign : (v >>> 31).toNat = v.toNat / 2 ^ 31 := by simp [Nat.shiftRight_eq_div_pow]
  by_cases hneg : v.toNat < 2 ^ 31
  · have h0 : v >>> 31 = 0 := UInt32.toNat_inj.1 (by rw [hsign, UInt32.toNat_zero]; omega)
    have hlow : ((2 : UInt32) * v) &&& 1 = 0 :=
      UInt32.toNat_inj.1 (by rw [toNat_and_one, toNat_twice, UInt32.toNat_zero]; omega)
    rw [h0, UInt32.neg_zero, UInt32.xor_zero, hlow, UInt32.neg_zero, UInt32.xor_zero]
    exact UInt32.toNat_inj.1 (by rw [toNat_shiftRight_one, toNat_twice]; omega)
  · have h1 : v >>> 31 = 1 := UInt32.toNat_inj.1 (by rw [hsign, UInt32.toNat_one]; omega)
    have hnot : ((2 : UInt32) * v ^^^ -1).toNat = 2 ^ 32 - 1 - (2 * v.toNat - 2 ^ 32) := by
      rw [UInt32.xor_neg_one, UInt32.toNat_not, toNat_twice]
      have : UInt32.size = 2 ^ 32 := rfl
      omega
    have hlow : ((2 : UInt32) * v ^^^ -1) &&& 1 = 1 :=
      UInt32.toNat_inj.1 (by rw [toNat_and_one, hnot, UInt32.toNat_one]; omega)
    rw [h1, hlow, UInt32.xor_neg_one]
    refine UInt32.toNat_inj.1 ?_
    rw [UInt32.toNat_not, toNat_shiftRight_one, hnot]
    have : UInt32.size = 2 ^ 32 := rfl
    omega

theorem reads_sleb128 (v : Int32) :
    Reads bcGetSleb128 (leb128 5 (((2 : UInt32) * v.toUInt32) ^^^ -(v.toUInt32 >>> 31))) v := by
  refine (reads_leb128 _).bind_pure ?_
  rw [zigzag]
  exact Int32.toInt32_toUInt32 v

/-! ## Flags -/

/-- A sequence of calls of `bc_set_flags`, each with its value and its width. -/
def setAll (fields : List (Nat × Nat)) (s : Nat × Nat) : Nat × Nat :=
  fields.foldl (fun s f => bcSetFlags f.1 f.2 s) s

theorem bcSetFlags_eq {s : Nat × Nat} (hs : s.1 < 2 ^ s.2) (val n : Nat) :
    bcSetFlags val n s = (s.1 + val * 2 ^ s.2, s.2 + n) := by
  rw [bcSetFlags, Nat.shiftLeft_eq, Nat.or_comm, Nat.mul_comm, ← Nat.two_pow_add_eq_or_of_lt hs, Nat.add_comm]

theorem add_mul_two_pow_lt {x val i n : Nat} (hx : x < 2 ^ i) (hval : val < 2 ^ n) :
    x + val * 2 ^ i < 2 ^ (i + n) := by
  have : (val + 1) * 2 ^ i ≤ 2 ^ n * 2 ^ i := Nat.mul_le_mul_right _ hval
  rw [Nat.add_mul, Nat.one_mul, ← Nat.pow_add, Nat.add_comm n] at this
  omega

/-- The flags that are set keep what was there. -/
theorem setAll_spec (fields : List (Nat × Nat)) {s : Nat × Nat} (hs : s.1 < 2 ^ s.2)
    (h : ∀ f ∈ fields, f.1 < 2 ^ f.2) :
    (setAll fields s).2 = s.2 + (fields.map Prod.snd).sum ∧ (setAll fields s).1 < 2 ^ (setAll fields s).2 ∧
      (setAll fields s).1 % 2 ^ s.2 = s.1 := by
  induction fields generalizing s with
  | nil => exact ⟨rfl, hs, Nat.mod_eq_of_lt hs⟩
  | cons f fields ih =>
    obtain ⟨val, n⟩ := f
    have hval : val < 2 ^ n := h (val, n) List.mem_cons_self
    obtain ⟨h₁, h₂, h₃⟩ := ih (s := (s.1 + val * 2 ^ s.2, s.2 + n)) (add_mul_two_pow_lt hs hval)
      fun g hg => h g (List.mem_cons_of_mem _ hg)
    have hcons : setAll ((val, n) :: fields) s = setAll fields (s.1 + val * 2 ^ s.2, s.2 + n) := by
      rw [setAll, List.foldl_cons, bcSetFlags_eq hs, setAll]
    rw [hcons]
    refine ⟨by rw [h₁, List.map_cons, List.sum_cons, Nat.add_assoc], h₂, ?_⟩
    have hdvd : 2 ^ s.2 ∣ 2 ^ (s.2 + n) := Nat.pow_dvd_pow 2 (Nat.le_add_right _ _)
    rw [← Nat.mod_mod_of_dvd _ hdvd, h₃, Nat.add_mul_mod_self_right, Nat.mod_eq_of_lt hs]

theorem setAll_lt {fields : List (Nat × Nat)} (h : ∀ f ∈ fields, f.1 < 2 ^ f.2) :
    (setAll fields (0, 0)).1 < 2 ^ (fields.map Prod.snd).sum := by
  obtain ⟨h₁, h₂, -⟩ := setAll_spec fields (s := (0, 0)) (by decide) h
  rwa [h₁, Nat.zero_add] at h₂

/-- Each field is read back from its place. -/
theorem getFlags_setAll (pre : List (Nat × Nat)) {post : List (Nat × Nat)} {val n : Nat}
    (h : ∀ f ∈ pre ++ (val, n) :: post, f.1 < 2 ^ f.2) :
    bcGetFlags (setAll (pre ++ (val, n) :: post) (0, 0)).1 (pre.map Prod.snd).sum n = val := by
  have hval : val < 2 ^ n := h (val, n) (by simp)
  obtain ⟨h₁, h₂, -⟩ := setAll_spec pre (s := (0, 0)) (by decide)
    fun f hf => h f (List.mem_append_left _ hf)
  rw [Nat.zero_add] at h₁
  have hsplit : setAll (pre ++ (val, n) :: post) (0, 0) =
      setAll post ((setAll pre (0, 0)).1 + val * 2 ^ (pre.map Prod.snd).sum, (pre.map Prod.snd).sum + n) := by
    have := bcSetFlags_eq h₂ val n
    rw [h₁] at this
    rw [setAll, List.foldl_append, List.foldl_cons, ← setAll]
    exact congrArg (setAll post) this
  rw [h₁] at h₂
  obtain ⟨-, -, h₃⟩ := setAll_spec post
    (s := ((setAll pre (0, 0)).1 + val * 2 ^ (pre.map Prod.snd).sum, (pre.map Prod.snd).sum + n))
    (add_mul_two_pow_lt h₂ hval) fun f hf => h f (by simp [hf])
  rw [bcGetFlags, Nat.one_shiftLeft, Nat.and_two_pow_sub_one_eq_mod, Nat.shiftRight_eq_div_pow,
    ← Nat.mod_mul_right_div_self, ← Nat.pow_add, hsplit, h₃, Nat.add_mul_div_right _ _ (Nat.two_pow_pos _),
    Nat.div_eq_of_lt h₂, Nat.zero_add]

theorem getFlag_setAll (pre : List (Nat × Nat)) {post : List (Nat × Nat)} {b : Bool}
    (h : ∀ f ∈ pre ++ (b.toNat, 1) :: post, f.1 < 2 ^ f.2) :
    bcGetFlag (setAll (pre ++ (b.toNat, 1) :: post) (0, 0)).1 (pre.map Prod.snd).sum = b := by
  rw [bcGetFlag, getFlags_setAll pre h]
  cases b <;> rfl

end CkbJs.Proof.Bytecode
