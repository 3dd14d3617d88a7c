import CkbJs.Proof.Bytecode.Numbers
import CkbJs.Spec.Bytecode
import Mathlib.Data.List.Nodup
import Mathlib.Data.Nat.Bitwise
import Mathlib.Data.List.Perm.Subperm

/-!
# The atoms of a file

The writer numbers the atoms as it meets them, in two tables that it keeps
inverse to each other (`Indexed`). There are fewer atoms than an index can
count (`index_lt`), so an index is never taken for a predefined atom or for a
number, and the reader finds the atom of each index in the table of the file:
`sends_putAtom` for the atoms of records, `sends_writeFunctionBytecode` for those
in byte code.
-/

namespace CkbJs.Proof.Bytecode

open CkbJs.Codec CkbJs.Impl.Bytecode CkbJs.Spec.Bytecode

variable {w : BCWriter} {newAtom : JSString → JSAtom} {t : BCReader} {s s' : BCWriterState} {a u : JSAtom}

/-! ## Atoms as numbers -/

theorem atomIsTaggedInt_iff (a : JSAtom) : atomIsTaggedInt a = true ↔ 2 ^ 31 ≤ a.toNat := by
  have ha := a.toNat_lt
  have htag : JS_ATOM_TAG_INT.toNat = 2 ^ 31 := rfl
  have hand : (a &&& JS_ATOM_TAG_INT).toNat = (a.toNat.testBit 31).toNat * 2 ^ 31 := by
    rw [UInt32.toNat_and, htag, Nat.and_two_pow]
  rw [atomIsTaggedInt, bne_iff_ne, Ne, ← UInt32.toNat_inj, hand, Nat.toNat_testBit, UInt32.toNat_zero]
  omega

theorem atomIsTaggedInt_eq_false (a : JSAtom) : atomIsTaggedInt a = false ↔ a.toNat < 2 ^ 31 := by
  rw [← Bool.not_eq_true, atomIsTaggedInt_iff]
  omega

theorem firstAtom_bounds (allowBytecode : Bool) :
    0 < (firstAtom allowBytecode).toNat ∧ (firstAtom allowBytecode).toNat < 2 ^ 31 := by
  cases allowBytecode <;> decide

/-- An atom that goes into the table. -/
def Tabled (w : BCWriter) (a : JSAtom) : Prop :=
  (firstAtom w.allowBytecode).toNat ≤ a.toNat ∧ a.toNat < 2 ^ 31

theorem not_tabled_iff : (a < firstAtom w.allowBytecode ∨ atomIsTaggedInt a = true) ↔ ¬Tabled w a := by
  rw [atomIsTaggedInt_iff, Tabled, UInt32.lt_iff_toNat_lt]
  omega

theorem relocAtom_of_tabled (h : Tabled w a) : relocAtom w newAtom a = newAtom (w.atomArray a) :=
  if_neg fun hc => not_tabled_iff.1 hc h

theorem relocAtom_of_not_tabled (h : ¬Tabled w a) : relocAtom w newAtom a = a :=
  if_pos (not_tabled_iff.2 h)

/-! ## The table -/

/-- The index of the atom in place `i` of the table. -/
def indexOf (w : BCWriter) (i : Nat) : UInt32 := UInt32.ofNat i + firstAtom w.allowBytecode

/-- The two tables are inverse to each other. -/
structure Indexed (w : BCWriter) (s : BCWriterState) : Prop where
  nodup : s.idxToAtom.Nodup
  tabled : ∀ a ∈ s.idxToAtom, Tabled w a
  index : ∀ a, Tabled w a → s.atomToIdx (a - firstAtom w.allowBytecode) ≠ 0 →
    ∃ i, s.idxToAtom[i]? = some a ∧ s.atomToIdx (a - firstAtom w.allowBytecode) = indexOf w i
  complete : ∀ a ∈ s.idxToAtom, s.atomToIdx (a - firstAtom w.allowBytecode) ≠ 0

/-- The atoms are distinct numbers from the first one on. -/
theorem length_le_of_nodup {l : List JSAtom} (hnd : l.Nodup) (ht : ∀ a ∈ l, Tabled w a) :
    l.length + (firstAtom w.allowBytecode).toNat ≤ 2 ^ 31 := by
  have hlt := (firstAtom_bounds w.allowBytecode).2
  have hmap : (l.map UInt32.toNat).Nodup := hnd.map fun _ _ h => UInt32.toNat_inj.1 h
  have hsub : ∀ n ∈ l.map UInt32.toNat,
      n ∈ List.range' (firstAtom w.allowBytecode).toNat (2 ^ 31 - (firstAtom w.allowBytecode).toNat) := by
    intro n hn
    obtain ⟨a, ha, rfl⟩ := List.mem_map.1 hn
    have := ht a ha
    rw [Tabled] at this
    rw [List.mem_range'_1]
    omega
  have := (List.subperm_of_subset hmap hsub).length_le
  rw [List.length_map, List.length_range'] at this
  omega

theorem toNat_indexOf {i : Nat} (h : i + (firstAtom w.allowBytecode).toNat < 2 ^ 31) :
    (indexOf w i).toNat = i + (firstAtom w.allowBytecode).toNat := by
  rw [indexOf, UInt32.toNat_add, UInt32.toNat_ofNat']
  omega

/-- An index is in the table's range, and it gives the place back. -/
theorem tabled_indexOf {i : Nat} (h : i + (firstAtom w.allowBytecode).toNat < 2 ^ 31) :
    Tabled w (indexOf w i) ∧ (indexOf w i - firstAtom w.allowBytecode).toNat = i := by
  have hi := toNat_indexOf h
  refine ⟨⟨by omega, by omega⟩, ?_⟩
  rw [UInt32.toNat_sub_of_le _ _ (UInt32.le_iff_toNat_le.2 (by omega)), hi]
  omega

theorem sub_firstAtom_inj {b : JSAtom} (ha : Tabled w a) (hb : Tabled w b)
    (h : a - firstAtom w.allowBytecode = b - firstAtom w.allowBytecode) : a = b := by
  have := congrArg UInt32.toNat h
  rw [UInt32.toNat_sub_of_le _ _ (UInt32.le_iff_toNat_le.2 ha.1),
    UInt32.toNat_sub_of_le _ _ (UInt32.le_iff_toNat_le.2 hb.1)] at this
  exact UInt32.toNat_inj.1 (by have := ha.1; have := hb.1; omega)

theorem indexOf_ne_zero {i : Nat} (h : i + (firstAtom w.allowBytecode).toNat < 2 ^ 31) : indexOf w i ≠ 0 := by
  intro h0
  have := toNat_indexOf h
  have := (firstAtom_bounds w.allowBytecode).1
  rw [h0, UInt32.toNat_zero] at *
  omega

theorem Indexed.index_lt (h : Indexed w s) {i : Nat} (hi : i < s.idxToAtom.length) :
    i + (firstAtom w.allowBytecode).toNat < 2 ^ 31 := by
  have := length_le_of_nodup h.nodup h.tabled
  omega

/-- A new atom gets the next index. -/
theorem Indexed.add (h : Indexed w s) (ha : Tabled w a)
    (h0 : s.atomToIdx (a - firstAtom w.allowBytecode) = 0) :
    s.idxToAtom.length + (firstAtom w.allowBytecode).toNat < 2 ^ 31 ∧
      Indexed w { s with
        idxToAtom := s.idxToAtom ++ [a]
        atomToIdx := Function.update s.atomToIdx (a - firstAtom w.allowBytecode)
          (indexOf w s.idxToAtom.length) } := by
  have hnew : a ∉ s.idxToAtom := fun hc => h.complete a hc h0
  have hnd : (s.idxToAtom ++ [a]).Nodup := by
    rw [List.nodup_append]
    exact ⟨h.nodup, List.nodup_singleton a, fun b hb c hc => by
      rw [List.mem_singleton] at hc
      rintro rfl
      exact hnew (hc ▸ hb)⟩
  have ht : ∀ b ∈ s.idxToAtom ++ [a], Tabled w b := by
    intro b hb
    rcases List.mem_append.1 hb with hb | hb
    · exact h.tabled b hb
    · rwa [List.mem_singleton.1 hb]
  have hlen := length_le_of_nodup hnd ht
  rw [List.length_append, List.length_singleton] at hlen
  have hlt : s.idxToAtom.length + (firstAtom w.allowBytecode).toNat < 2 ^ 31 := by omega
  refine ⟨hlt, hnd, ht, fun b hb hne => ?_, fun b hb => ?_⟩
  · rcases eq_or_ne b a with rfl | hba
    · exact ⟨s.idxToAtom.length, by simp, by simp⟩
    · have hsub : b - firstAtom w.allowBytecode ≠ a - firstAtom w.allowBytecode :=
        fun hc => hba (sub_firstAtom_inj hb ha hc)
      have hold : ∀ v, Function.update s.atomToIdx (a - firstAtom w.allowBytecode) v
          (b - firstAtom w.allowBytecode) = s.atomToIdx (b - firstAtom w.allowBytecode) :=
        fun v => Function.update_of_ne hsub v s.atomToIdx
      obtain ⟨i, hi, hidx⟩ := h.index b hb (hold _ ▸ hne)
      refine ⟨i, ?_, (hold _).trans hidx⟩
      rw [List.getElem?_append_left (List.getElem?_eq_some_iff.1 hi).1, hi]
  · show Function.update _ _ _ _ ≠ _
    rcases eq_or_ne b a with rfl | hba
    · rw [Function.update_self]
      exact indexOf_ne_zero hlt
    · have hb' : b ∈ s.idxToAtom := (List.mem_append.1 hb).resolve_right fun hc => hba (List.mem_singleton.1 hc)
      rw [Function.update_of_ne fun hc => hba (sub_firstAtom_inj (h.tabled b hb') ha hc)]
      exact h.complete b hb'

/-! ## What is sent -/

/-- The reader's table begins with the atoms of the writer's. -/
def Fits (w : BCWriter) (newAtom : JSString → JSAtom) (t : BCReader) (s : BCWriterState) : Prop :=
  t.allowBytecode = w.allowBytecode ∧ s.idxToAtom.map (fun a => newAtom (w.atomArray a)) <+: t.idxToAtom

/-- A writer with its table, and a reader with the table of the file. -/
def sink (w : BCWriter) (newAtom : JSString → JSAtom) (t : BCReader) : Sink BCWriterState Byte where
  out := BCWriterState.dbuf
  Good := Indexed w
  Fits := Fits w newAtom t

theorem Fits.mono (h : s.idxToAtom <+: s'.idxToAtom) (hf : Fits w newAtom t s') : Fits w newAtom t s :=
  ⟨hf.1, (h.map _).trans hf.2⟩

theorem sends_dbufPut {γ : Type} {bs : List Byte} {r : RM γ} {b : γ} (h : Reads r bs b) :
    Sends (sink w newAtom t) (dbufPut bs) r b := by
  rintro s _ _ hs ⟨⟩
  exact ⟨⟨hs.nodup, hs.tabled, hs.index, hs.complete⟩, id, bs, rfl, fun _ => h⟩

theorem sends_putU8 (v : UInt8) : Sends (sink w newAtom t) (bcPutU8 v) bcGetU8 v :=
  sends_dbufPut (reads_u8 v)

theorem sends_putU16 (v : UInt16) : Sends (sink w newAtom t) (bcPutU16 v) bcGetU16 v :=
  sends_dbufPut (reads_u16 v)

theorem sends_putU64 (v : UInt64) : Sends (sink w newAtom t) (bcPutU64 v) bcGetU64 v :=
  sends_dbufPut (reads_u64 v)

theorem sends_putLeb128 (v : UInt32) : Sends (sink w newAtom t) (bcPutLeb128 v) bcGetLeb128 v :=
  sends_dbufPut (reads_leb128 v)

theorem sends_putSleb128 (v : Int32) : Sends (sink w newAtom t) (bcPutSleb128 v) bcGetSleb128 v :=
  sends_dbufPut (reads_sleb128 v)

theorem sends_putLeb128Int (v : Int32) : Sends (sink w newAtom t) (bcPutLeb128 v.toUInt32) bcGetLeb128Int v :=
  (sends_putLeb128 v.toUInt32).map (Int32.toInt32_toUInt32 v)

theorem sends_putLeb128U16 (v : UInt16) : Sends (sink w newAtom t) (bcPutLeb128 v.toUInt32) bcGetLeb128U16 v :=
  (sends_putLeb128 v.toUInt32).map (UInt16.toUInt16_toUInt32 v)

theorem sends_putCount {n : Nat} (h : n < 2 ^ 31) :
    Sends (sink w newAtom t) (bcPutLeb128 (UInt32.ofNat n)) bcGetCount n := by
  have hn : (UInt32.ofNat n).toNat = n := UInt32.toNat_ofNat_of_lt' (Nat.lt_trans h (by decide))
  refine sends_dbufPut ((reads_leb128 _).bind_nil ?_)
  rw [hn, if_pos h]
  exact .of_pure n

/-! ## Atoms -/

/-- The index of an atom, and what the reader finds for it. -/
theorem wp_atomToIdx (newAtom : JSString → JSAtom) (t : BCReader) (hs : Indexed w s) (a : JSAtom) :
    WP (bcAtomToIdx w a) s (fun u s' => Indexed w s' ∧ s'.dbuf = s.dbuf ∧ s.idxToAtom <+: s'.idxToAtom ∧
      atomIsTaggedInt u = atomIsTaggedInt a ∧
      (Fits w newAtom t s' → Reads (bcIdxToAtom t u) [] (relocAtom w newAtom a))) fun _ _ => True := by
  have hfind : ∀ (s' : BCWriterState) (i : Nat), i + (firstAtom w.allowBytecode).toNat < 2 ^ 31 →
      s'.idxToAtom[i]? = some a → Tabled w a → Fits w newAtom t s' →
      Reads (bcIdxToAtom t (indexOf w i)) [] (relocAtom w newAtom a) := by
    intro s' i hi hget ha hfit
    obtain ⟨htab, hsub⟩ := tabled_indexOf hi
    have htab' := mt not_tabled_iff.1 (not_not.2 htab)
    have ht : t.idxToAtom[i]? = some (newAtom (w.atomArray a)) := by
      obtain ⟨rest, hrest⟩ := hfit.2
      have hlen := (List.getElem?_eq_some_iff.1 hget).1
      rw [← hrest, List.getElem?_append_left (by simpa using hlen), List.getElem?_map, hget, Option.map_some]
    rw [relocAtom_of_tabled ha, bcIdxToAtom, hfit.1, if_neg fun hc => htab' hc.symm, hsub, ht]
    exact .of_pure _
  unfold bcAtomToIdx
  refine .ite (fun hout => ?_) fun hin => ?_
  · -- a predefined atom, or a number
    refine .of_pure ⟨hs, rfl, List.prefix_refl _, rfl, fun hfit => ?_⟩
    rw [relocAtom_of_not_tabled (not_tabled_iff.1 hout), bcIdxToAtom, hfit.1, if_pos hout.symm]
    exact .of_pure _
  · have ha : Tabled w a := not_not.1 (mt not_tabled_iff.2 hin)
    have htag := (atomIsTaggedInt_eq_false a).2 ha.2
    refine .bind (.of_get (.ite (fun hidx => ?_) fun hidx => ?_))
    · -- the atom has an index
      obtain ⟨i, hget, hi⟩ := hs.index a ha hidx
      have hlt := hs.index_lt (List.getElem?_eq_some_iff.1 hget).1
      refine .of_pure ⟨hs, rfl, List.prefix_refl _, ?_, fun hfit => hi ▸ hfind s i hlt hget ha hfit⟩
      rw [hi, htag, atomIsTaggedInt_eq_false]
      exact (tabled_indexOf hlt).1.2
    · obtain ⟨hlt, hs'⟩ := hs.add ha (not_not.1 hidx)
      refine .bind (.of_set (.of_pure ⟨hs', rfl, List.prefix_append _ _, ?_, fun hfit => ?_⟩))
      · rw [htag]
        exact (atomIsTaggedInt_eq_false _).2 (tabled_indexOf hlt).1.2
      · exact hfind _ s.idxToAtom.length hlt (by simp) ha hfit

theorem toNat_shiftLeft_one (v : UInt32) : (v <<< 1).toNat = 2 * v.toNat % 2 ^ 32 := by
  rw [UInt32.toNat_shiftLeft, Nat.shiftLeft_eq]
  simp [Nat.mul_comm]

theorem toNat_shiftLeft_one_or (v : UInt32) : ((v <<< 1) ||| 1).toNat = 2 * v.toNat % 2 ^ 32 + 1 := by
  have h : 2 * v.toNat % 2 ^ 32 = 2 ^ 1 * (v.toNat % 2 ^ 31) := by omega
  rw [UInt32.toNat_or, toNat_shiftLeft_one, UInt32.toNat_one, h, ← Nat.two_pow_add_eq_or_of_lt (by decide)]

theorem and_one_eq_zero_iff (v : UInt32) : v &&& 1 = 0 ↔ v.toNat % 2 = 0 := by
  rw [← UInt32.toNat_inj, toNat_and_one, UInt32.toNat_zero]

/-- A tagged integer goes without its tag. -/
theorem atomFromUInt32_of_tagged (h : atomIsTaggedInt a = true) :
    atomFromUInt32 (((atomToUInt32 a <<< 1) ||| 1) >>> 1) = a := by
  have ha := (atomIsTaggedInt_iff a).1 h
  have halt := a.toNat_lt
  have hlow : (atomToUInt32 a).toNat = a.toNat - 2 ^ 31 := by
    have hmask : (~~~JS_ATOM_TAG_INT).toNat = 2 ^ 31 - 1 := rfl
    rw [atomToUInt32, UInt32.toNat_and, hmask, Nat.and_two_pow_sub_one_eq_mod]
    omega
  refine UInt32.toNat_inj.1 ?_
  have hval : (((atomToUInt32 a <<< 1) ||| 1) >>> 1).toNat = a.toNat - 2 ^ 31 := by
    rw [toNat_shiftRight_one, toNat_shiftLeft_one_or, hlow]
    omega
  have htag : JS_ATOM_TAG_INT.toNat = 2 ^ 31 * 1 := rfl
  rw [atomFromUInt32, UInt32.toNat_or, hval, htag, Nat.or_comm, ← Nat.two_pow_add_eq_or_of_lt (by omega)]
  omega

theorem sends_putAtom (a : JSAtom) :
    Sends (sink w newAtom t) (bcPutAtom w a) (bcGetAtom t) (relocAtom w newAtom a) := by
  unfold bcPutAtom
  refine .ite (fun htag => ?_) fun htag => ?_
  · have hodd : ((atomToUInt32 a <<< 1) ||| 1) &&& 1 ≠ 0 := by
      rw [Ne, and_one_eq_zero_iff, toNat_shiftLeft_one_or]
      omega
    refine sends_dbufPut ?_
    rw [relocAtom_of_not_tabled (not_tabled_iff.1 (.inr htag))]
    refine (reads_leb128 _).bind_nil ?_
    rw [if_pos hodd, atomFromUInt32_of_tagged htag]
    exact .of_pure a
  · refine .of_wp fun s hs => ?_
    refine WP.seq (wp_atomToIdx newAtom t hs a) (fun _ _ _ => trivial) ?_
    rintro v s₁ ⟨hs₁, hout, hpre, htag', hread⟩
    have hv : v.toNat < 2 ^ 31 := by
      rw [← atomIsTaggedInt_eq_false, htag']
      exact Bool.eq_false_of_not_eq_true htag
    have heven : ¬(v <<< 1) &&& 1 ≠ 0 := by
      rw [not_not, and_one_eq_zero_iff, toNat_shiftLeft_one]
      omega
    have hhalf : (v <<< 1) >>> 1 = v := by
      refine UInt32.toNat_inj.1 ?_
      rw [toNat_shiftRight_one, toNat_shiftLeft_one]
      omega
    refine .of_modify ⟨⟨hs₁.nodup, hs₁.tabled, hs₁.index, hs₁.complete⟩, Fits.mono hpre, leb128 5 (v <<< 1), ?_,
      fun hfit => ?_⟩
    · show s₁.dbuf ++ _ = _
      rw [hout]
      rfl
    · refine (reads_leb128 _).bind_nil ?_
      rw [if_neg heven, hhalf]
      exact hread hfit

/-! ## Byte code -/

theorem split_take {α : Type} {l r : List α} {k : Nat} (h : r.length = (l.drop k).length) :
    (l.take k ++ r).take k = l.take k ∧ (l.take k ++ r).drop k = r := by
  rw [List.length_drop] at h
  rcases Nat.le_total k l.length with hk | hk
  · have hlen : (l.take k).length = k := by simp [hk]
    exact ⟨List.take_left' hlen, List.drop_left' hlen⟩
  · have hr : r = [] := List.length_eq_zero_iff.1 (by omega)
    rw [hr, List.append_nil, List.take_of_length_le hk]
    exact ⟨List.take_of_length_le hk, List.drop_of_length_le hk⟩

theorem number_leBytes_four (v : UInt32) : UInt32.ofNat (Mem.number (Mem.leBytes 4 v.toNat)) = v := by
  rw [Mem.number_leBytes, Nat.mod_eq_of_lt (b := 256 ^ 4) v.toNat_lt, UInt32.ofNat_toNat]

/-- The reader undoes what the writer does to the atoms of byte code. -/
theorem wp_replaceAtoms (newAtom : JSString → JSAtom) (t : BCReader) {n : Nat} {bc : List Byte}
    (hs : Indexed w s) :
    WP (replaceAtoms .outOfBounds (bcAtomToIdx w) n bc) s (fun bc' s' => Indexed w s' ∧ s'.dbuf = s.dbuf ∧
      s.idxToAtom <+: s'.idxToAtom ∧ bc'.length = bc.length ∧ (Fits w newAtom t s' →
        Reads (replaceAtoms .outOfBounds (bcIdxToAtom t) n bc') [] (relocCode (relocAtom w newAtom) n bc)))
      fun _ _ => True := by
  induction n generalizing bc s with
  | zero => exact .of_pure ⟨hs, rfl, List.prefix_refl _, rfl, fun _ => .of_pure _⟩
  | succ n ih =>
    match bc with
    | [] => exact .of_pure ⟨hs, rfl, List.prefix_refl _, rfl, fun _ => .of_pure _⟩
    | op :: bc =>
      simp only [replaceAtoms, relocCode]
      match hinfo : shortOpcodeInfo op with
      | none => exact .of_throw trivial
      | some info =>
        dsimp only
        refine .ite (fun hatom => ?_) fun hatom => ?_
        · match bc with
          | b0 :: b1 :: b2 :: b3 :: bc =>
            dsimp only
            refine WP.seq (wp_atomToIdx newAtom t hs _) (fun _ _ _ => trivial) ?_
            rintro v s₁ ⟨hs₁, hout₁, hpre₁, -, hread₁⟩
            refine WP.seq (ih hs₁) (fun _ _ _ => trivial) ?_
            rintro rest s₂ ⟨hs₂, hout₂, hpre₂, hlen, hread₂⟩
            have ⟨htake, hdrop⟩ := split_take hlen
            refine .of_pure ⟨hs₂, hout₂.trans hout₁, hpre₁.trans hpre₂, ?_, fun hfit => ?_⟩
            · rw [List.length_drop] at hlen
              simp only [List.length_cons, List.length_append, List.length_take, Mem.length_leBytes, hlen]
              omega
            · have hfour : Mem.leBytes 4 v.toNat = [UInt8.ofNat v.toNat, UInt8.ofNat (v.toNat / 256),
                  UInt8.ofNat (v.toNat / 256 / 256), UInt8.ofNat (v.toNat / 256 / 256 / 256)] := by
                simp only [Mem.leBytes_succ]
                rfl
              have hval := number_leBytes_four v
              rw [if_pos hatom]
              rw [hfour] at hval ⊢
              simp only [List.cons_append, List.nil_append, replaceAtoms, hinfo, hatom, if_true, hval, htake, hdrop]
              exact (hread₁ (Fits.mono hpre₂ hfit)).bind ((hread₂ hfit).bind (.of_pure _))
          | [] | [_] | [_, _] | [_, _, _] => exact .of_throw trivial
        · refine WP.seq (ih hs) (fun _ _ _ => trivial) ?_
          rintro rest s₁ ⟨hs₁, hout, hpre, hlen, hread⟩
          have ⟨htake, hdrop⟩ := split_take hlen
          refine .of_pure ⟨hs₁, hout, hpre, ?_, fun hfit => ?_⟩
          · rw [List.length_drop] at hlen
            simp only [List.length_cons, List.length_append, List.length_take, hlen]
            omega
          · rw [if_neg hatom]
            simp only [replaceAtoms, hinfo, hatom, htake, hdrop]
            exact (hread hfit).bind (.of_pure _)

theorem sends_writeFunctionBytecode (bc : List Byte) :
    Sends (sink w newAtom t) (writeFunctionBytecode w bc) (readFunctionBytecode t bc.length)
      (relocCode (relocAtom w newAtom) bc.length bc) := by
  refine .of_wp fun s hs => WP.seq (wp_replaceAtoms newAtom t hs) (fun _ _ _ => trivial) ?_
  rintro bc' s₁ ⟨hs₁, hout, hpre, hlen, hread⟩
  refine .of_modify ⟨⟨hs₁.nodup, hs₁.tabled, hs₁.index, hs₁.complete⟩, Fits.mono hpre, bc', ?_, fun hfit => ?_⟩
  · show s₁.dbuf ++ bc' = _
    rw [hout]
    rfl
  · exact ((reads_getBuf bc' hlen).adaptExcept _).bind_nil (hread hfit)

/-! ## Strings -/

theorem run_forM_putU16 (us : List UInt16) (s : BCWriterState) :
    (us.forM bcPutU16).run s = .ok ⟨⟩ { s with dbuf := s.dbuf ++ us.flatMap fun u => Mem.leBytes 2 u.toNat } := by
  induction us generalizing s with
  | nil =>
    rw [List.flatMap_nil, List.append_nil]
    rfl
  | cons u us ih =>
    have := ih { s with dbuf := s.dbuf ++ Mem.leBytes 2 u.toNat }
    rw [List.append_assoc] at this
    exact this

theorem unitsOf_flatMap (us : List UInt16) : unitsOf (us.flatMap fun u => Mem.leBytes 2 u.toNat) = us := by
  induction us with
  | nil => rfl
  | cons u us ih =>
    have htwo : Mem.leBytes 2 u.toNat = [UInt8.ofNat u.toNat, UInt8.ofNat (u.toNat / 256)] := by
      simp only [Mem.leBytes_succ]
      rfl
    have hval : UInt16.ofNat (Mem.number (Mem.leBytes 2 u.toNat)) = u := by
      rw [Mem.number_leBytes, Nat.mod_eq_of_lt (b := 256 ^ 2) u.toNat_lt, UInt16.ofNat_toNat]
    rw [htwo] at hval
    rw [List.flatMap_cons, htwo, List.cons_append, List.cons_append, List.nil_append, unitsOf, ih, hval]

theorem length_flatMap_leBytes (us : List UInt16) :
    (us.flatMap fun u => Mem.leBytes 2 u.toNat).length = 2 * us.length := by
  simp [List.length_flatMap, Nat.mul_comm]

/-- The header of a string: its length, and whether it is wide. -/
theorem toNat_header {n : Nat} (hn : n < 2 ^ 31) (wide : Bool) :
    ((UInt32.ofNat n <<< 1) ||| (if wide then 1 else 0)).toNat = 2 * n + wide.toNat := by
  have htoNat : (UInt32.ofNat n).toNat = n := UInt32.toNat_ofNat_of_lt' (Nat.lt_trans hn (by decide))
  cases wide with
  | false =>
    rw [if_neg Bool.false_ne_true, UInt32.or_zero, toNat_shiftLeft_one, htoNat]
    simp only [Bool.toNat_false]
    omega
  | true =>
    rw [if_pos rfl, toNat_shiftLeft_one_or, htoNat]
    simp only [Bool.toNat_true]
    omega

theorem sends_writeString (p : JSString) : Sends (sink w newAtom t) (writeString p) readString p := by
  have hheader := toNat_header p.len_lt p.isWideChar
  refine (sends_putLeb128 _).bind fun _ => ?_
  generalize (UInt32.ofNat p.len <<< 1) ||| (if p.isWideChar then 1 else 0) = v at hheader ⊢
  have hhalf : (v >>> 1).toNat = p.len := by
    rw [toNat_shiftRight_one, hheader]
    have := Bool.toNat_le p.isWideChar
    omega
  match p with
  | .str8 s hs =>
    have heven : v &&& 1 = 0 := by
      rw [and_one_eq_zero_iff, hheader]
      simp [JSString.isWideChar]
    rw [if_neg (not_not.2 heven)]
    exact sends_dbufPut ((reads_getBuf s hhalf.symm).bind_pure rfl)
  | .str16 s hs =>
    have hodd : v &&& 1 ≠ 0 := by
      rw [Ne, and_one_eq_zero_iff, hheader]
      simp [JSString.isWideChar]
    rw [if_pos hodd]
    refine .of_wp fun st hst => ?_
    have hlen : (s.flatMap fun u => Mem.leBytes 2 u.toNat).length = 2 * (v >>> 1).toNat := by
      rw [length_flatMap_leBytes, hhalf, JSString.len]
    rw [WP, run_forM_putU16]
    refine ⟨⟨hst.nodup, hst.tabled, hst.index, hst.complete⟩, id, _, rfl, fun _ => ?_⟩
    refine (reads_getBuf _ hlen).bind_pure ?_
    simp only [unitsOf_flatMap]

end CkbJs.Proof.Bytecode
