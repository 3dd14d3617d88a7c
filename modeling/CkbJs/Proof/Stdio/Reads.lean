import CkbJs.Framework.WP
import CkbJs.Spec.Stdio

/-!
# Reading a stream

An open stream is at a cursor in the content of its file (`At`), and each call moves it like the
cursor, by what it asks for: `fgetc` and `feof` always (`wp_fgetc`, `wp_feof`), `fread` exactly if it
is at the end or its arguments are exact (`wp_fread`, `reads_iff`). So a run of calls is right
exactly if its reads are (`streams_iff_meets`).
-/

namespace CkbJs.Proof.Stdio

open CkbJs.Impl CkbJs.Impl.Stdio CkbJs.Spec.Stdio
open CkbJs.Impl.CellFs (FSFile)

variable {stream : Nat} {file : FSFile} {c : Cursor Byte} {s : Vm}

/-! ## The arithmetic of `fread` -/

/-- `bytes_to_read`, where `left` bytes are left. -/
def bytesToRead (size nitems : BitVec 64) (left : Nat) : Nat :=
  min (size.toNat * nitems.toNat % 2 ^ 32) left

/-- Rounding up is rounding down for whole items only. -/
theorem roundUp_eq_iff {n k : Nat} (hk : 0 < k) : (n + k - 1) / k = n / k ↔ k ∣ n := by
  obtain ⟨q, r, hr, rfl⟩ : ∃ q r, r < k ∧ n = k * q + r :=
    ⟨n / k, n % k, Nat.mod_lt n hk, (Nat.div_add_mod n k).symm⟩
  have hdown : (k * q + r) / k = q := by
    rw [Nat.mul_add_div hk, Nat.div_eq_of_lt hr, Nat.add_zero]
  rw [hdown, Nat.dvd_add_right (Nat.dvd_mul_right k q)]
  cases r with
  | zero =>
    refine iff_of_true ?_ (Nat.dvd_zero k)
    rw [Nat.add_zero, Nat.add_sub_assoc hk, Nat.mul_add_div hk, Nat.div_eq_of_lt (by omega), Nat.add_zero]
  | succ r =>
    refine iff_of_false ?_ (Nat.not_dvd_of_pos_of_lt (Nat.succ_pos r) hr)
    rw [show k * q + (r + 1) + k - 1 = k * q + r + k by omega, Nat.add_div_right _ hk]
    rw [Nat.mul_add_div hk, Nat.div_eq_of_lt (by omega)]
    omega

/-- What `fread` returns is the number of whole items, unless it rounds up or wraps around. -/
theorem items_iff {n size : Nat} (hn : n < 2 ^ 32) (h0 : size % 2 ^ 32 ≠ 0) :
    (n + size % 2 ^ 32 - 1) % 2 ^ 32 / (size % 2 ^ 32) = n / size ↔
      if n + size % 2 ^ 32 ≤ 2 ^ 32 then size ∣ n else n < size := by
  have hsize : 0 < size := by omega
  split
  · rw [Nat.mod_eq_of_lt (by omega : n + size % 2 ^ 32 - 1 < 2 ^ 32)]
    by_cases hlt : size < 2 ^ 32
    · rw [Nat.mod_eq_of_lt hlt]
      exact roundUp_eq_iff hsize
    · -- an item larger than any file
      have hns : n < size := by omega
      rw [Nat.div_eq_of_lt hns, Nat.div_eq_zero_iff_lt (Nat.pos_of_ne_zero h0)]
      constructor
      · intro h
        obtain rfl : n = 0 := by omega
        exact Nat.dvd_zero _
      · intro h
        have := Nat.eq_zero_of_dvd_of_lt h hns
        omega
  · rw [show (n + size % 2 ^ 32 - 1) % 2 ^ 32 = n + size % 2 ^ 32 - 1 - 2 ^ 32 by omega]
    rw [Nat.div_eq_of_lt (by omega), eq_comm, Nat.div_eq_zero_iff_lt hsize]

/-- A read of the right number of bytes returns the right number of items exactly if it is exact. -/
theorem reads_iff {size nitems : BitVec 64} {left : Nat} (hleft : left < 2 ^ 32) :
    Exact size nitems left ↔ size.toNat % 2 ^ 32 ≠ 0 ∧
      bytesToRead size nitems left = min (size.toNat * nitems.toNat) left ∧
      (bytesToRead size nitems left + size.toNat % 2 ^ 32 - 1) % 2 ^ 32 / (size.toNat % 2 ^ 32) =
        min (size.toNat * nitems.toNat) left / size.toNat := by
  have hbytes : bytesToRead size nitems left = min (size.toNat * nitems.toNat) left ↔
      size.toNat * nitems.toNat < 2 ^ 32 ∨ left ≤ size.toNat * nitems.toNat % 2 ^ 32 := by
    unfold bytesToRead
    omega
  unfold Exact
  rw [← hbytes]
  refine and_congr_right fun h0 => and_congr_right fun hn => ?_
  rw [hn]
  exact (items_iff (by omega) h0).symm

/-! ## An open stream -/

/-- The stream is open, at the cursor in its file's content. -/
structure At (stream : Nat) (file : FSFile) (c : Cursor Byte) (s : Vm) : Prop where
  localAccess : s.localAccess = false
  fsAccess : s.fsAccess = true
  files : s.files stream = some ⟨some file, c.pos⟩
  rc : file.rc ≠ 0
  size : file.size = c.items.length
  lt : file.size < 2 ^ 32
  holds : s.mem.Holds file.content c.items

namespace At

theorem offset_eq (h : At stream file c s) : offset stream s = c.pos := by
  rw [offset, h.files]
  rfl

theorem size_eq (h : At stream file c s) : Spec.Stdio.size stream s = c.items.length := by
  rw [Spec.Stdio.size, fileOf, h.files]
  exact h.size

theorem position (h : At stream file c s) : Position stream c.items c.before s where
  inside := by
    rw [h.offset_eq, h.size_eq]
    exact c.pos_le
  prefixed := by
    rw [h.offset_eq]
    rfl

/-- The next bytes, in memory. -/
theorem holds_read (h : At stream file c s) (n : Nat) : s.mem.Holds (file.content + c.pos) (c.read n) :=
  h.holds.slice c.pos n

end At

/-! ## The calls -/

theorem wp_accessed {n : Nat} {Q : Unit → Vm → Prop} {R : Stop → Vm → Prop}
    (hQ : s.localAccess = false → s.fsAccess = true → Q () s)
    (hR : s.localAccess = true ∨ s.fsAccess = false → ∀ e, R e s) : WP (accessed n) s Q R := by
  refine WP.bind (WP.of_get (WP.ite (fun hlocal => ?_) fun hlocal => WP.ite (fun hfs => ?_) fun hfs => ?_))
  · exact WP.of_throw (hR (.inl hlocal) _)
  · exact WP.of_pure (hQ (Bool.eq_false_of_not_eq_true hlocal) hfs)
  · exact WP.of_throw (hR (.inr (Bool.eq_false_of_not_eq_true hfs)) _)

theorem At.accessed {n : Nat} {Q : Unit → Vm → Prop} {R : Stop → Vm → Prop} (h : At stream file c s)
    (hQ : Q () s) : WP (accessed n) s Q R := by
  refine wp_accessed (fun _ _ => hQ) ?_
  rintro (hlocal | hfs)
  · exact nomatch hlocal.symm.trans h.localAccess
  · exact nomatch hfs.symm.trans h.fsAccess

theorem wp_deref {Q : FSFile × Nat → Vm → Prop} {R : Stop → Vm → Prop} (h : At stream file c s)
    (hQ : Q (file, c.pos) s) : WP (deref (some stream)) s Q R := by
  refine WP.bind (WP.of_get ?_)
  rw [Option.bind_some, h.files]
  exact WP.of_pure hQ

/-- The stream after `n` more bytes. -/
def moved (stream : Nat) (file : FSFile) (c : Cursor Byte) (n : Nat) (s : Vm) : Vm :=
  { s with files := Function.update s.files stream (some ⟨some file, (c.pos + n) % 2 ^ 32⟩) }

theorem at_moved (h : At stream file c s) {n : Nat} (hn : n ≤ c.items.length - c.pos) :
    At stream file (c.advance n) (moved stream file c n s) where
  localAccess := h.localAccess
  fsAccess := h.fsAccess
  files := by
    have hsize := h.size
    have hlt := h.lt
    have hle := c.pos_le
    rw [Cursor.pos_advance, Nat.min_eq_left hn, ← Nat.mod_eq_of_lt (by omega : c.pos + n < 2 ^ 32)]
    exact Function.update_self ..
  rc := h.rc
  size := h.size
  lt := h.lt
  holds := h.holds

/-- A change of the memory outside the content. -/
theorem At.withMem (h : At stream file c s) {mem : Mem}
    (hmem : ∀ x, file.content ≤ x → x < file.content + c.items.length → mem x = s.mem x) :
    At stream file c { s with mem := mem } where
  localAccess := h.localAccess
  fsAccess := h.fsAccess
  files := h.files
  rc := h.rc
  size := h.size
  lt := h.lt
  holds i hi := (hmem _ (by omega) (by omega)).trans (h.holds i hi)

theorem wp_setOffset {n : Nat} {Q : Unit → Vm → Prop} {R : Stop → Vm → Prop}
    (hQ : Q () (moved stream file c n s)) :
    WP (setOffset (some stream) file ((c.pos + n) % 2 ^ 32)) s Q R :=
  WP.of_modify hQ

theorem wp_feof {Q : Int → Vm → Prop} {R : Stop → Vm → Prop} (h : At stream file c s)
    (hend : c.pos = c.items.length → Q 1 s) (hnot : c.pos ≠ c.items.length → Q 0 s) :
    WP (feof (some stream)) s Q R := by
  refine WP.bind (h.accessed (WP.bind (wp_deref h ?_)))
  dsimp only
  rw [h.size]
  exact WP.ite hend hnot

theorem wp_fgetc {Q : Int → Vm → Prop} {R : Stop → Vm → Prop} (h : At stream file c s)
    (hend : c.pos = c.items.length → Q (-1) s)
    (hnext : ∀ b : Byte, c.read 1 = [b] → Q b.toNat (moved stream file c 1 s)) :
    WP (fgetc (some stream)) s Q R := by
  refine WP.bind (h.accessed (WP.ite nofun fun _ => WP.bind (wp_deref h ?_)))
  dsimp only
  rw [h.size]
  refine WP.ite (fun hstop => ?_) fun hgo => ?_
  · exact WP.of_pure (hend (hstop.resolve_left h.rc))
  · have hle := c.pos_le
    have hlt : c.pos < c.items.length := by omega
    have hread : c.read 1 = [c.items[c.pos]] := by
      rw [Cursor.read, Cursor.rest, List.drop_eq_getElem_cons hlt]
      rfl
    refine WP.bind (WP.of_get (WP.bind (wp_setOffset (WP.of_pure ?_))))
    rw [h.holds c.pos hlt]
    exact hnext _ hread

theorem wp_mustbevaildfile {Q : Unit → Vm → Prop} {R : Stop → Vm → Prop} (h : At stream file c s)
    (hQ : Q () s) : WP (mustbevaildfile (some stream)) s Q R := by
  refine WP.bind (WP.ite nofun fun _ => WP.bind (wp_deref h ?_))
  refine WP.ite (fun hrc => absurd hrc h.rc) fun _ => WP.of_pure ?_
  exact WP.ite (fun hne => absurd rfl hne) fun _ => WP.of_pure hQ

/-- The stream and the memory after a read of `n` bytes. -/
def readTo (stream : Nat) (file : FSFile) (c : Cursor Byte) (ptr n : Nat) (s : Vm) : Vm :=
  moved stream file c n { s with mem := s.mem.copy ptr (file.content + c.pos) n }

theorem wp_fread {ptr : Nat} {size nitems : BitVec 64} {Q : Nat → Vm → Prop} {R : Stop → Vm → Prop}
    (h : At stream file c s) (hend : c.pos = c.items.length → Q 0 s)
    (hzero : c.pos ≠ c.items.length → size.toNat % 2 ^ 32 = 0 → ∀ s', R .divisionByZero s')
    (hread : c.pos ≠ c.items.length → size.toNat % 2 ^ 32 ≠ 0 →
      let n := bytesToRead size nitems (c.items.length - c.pos)
      Q ((n + size.toNat % 2 ^ 32 - 1) % 2 ^ 32 / (size.toNat % 2 ^ 32)) (readTo stream file c ptr n s)) :
    WP (fread ptr size nitems (some stream)) s Q R := by
  have hsize := h.size
  have hlt := h.lt
  have hle := c.pos_le
  refine WP.bind (h.accessed (WP.bind (wp_mustbevaildfile h (WP.bind (wp_deref h ?_)))))
  dsimp only
  rw [h.size]
  refine WP.ite (fun hpos => WP.of_pure (hend hpos)) fun hpos => ?_
  have hleft : sub32 c.items.length c.pos = c.items.length - c.pos := by
    unfold sub32
    omega
  have hbytes : (if (size.toNat % 2 ^ 32) * (nitems.toNat % 2 ^ 32) % 2 ^ 32 > sub32 c.items.length c.pos then
      sub32 c.items.length c.pos else (size.toNat % 2 ^ 32) * (nitems.toNat % 2 ^ 32) % 2 ^ 32) =
      bytesToRead size nitems (c.items.length - c.pos) := by
    rw [hleft, ← Nat.mul_mod, bytesToRead]
    split <;> omega
  rw [hbytes]
  refine WP.bind (WP.of_modify (WP.bind (wp_setOffset ?_)))
  exact WP.ite (fun h0 => hzero hpos h0 _) fun h0 => WP.of_pure (hread hpos h0)

theorem bytesToRead_le (size nitems : BitVec 64) (left : Nat) :
    bytesToRead size nitems left ≤ min (size.toNat * nitems.toNat) left :=
  min_le_min (Nat.mod_le _ _) (Nat.le_refl _)

theorem at_readTo (h : At stream file c s) {ptr n : Nat} (hn : n ≤ c.items.length - c.pos)
    (hap : ∀ i < n, ptr + i < file.content ∨ file.content + c.items.length ≤ ptr + i) :
    At stream file (c.advance n) (readTo stream file c ptr n s) := by
  refine at_moved (h.withMem fun x hx hx' => Mem.copy_of_not ?_) hn
  by_contra hin
  have := hap (x - ptr) (by omega)
  omega

/-- What a read stores. -/
theorem bytes_readTo (h : At stream file c s) {ptr n : Nat} (hn : n ≤ c.items.length - c.pos) :
    (readTo stream file c ptr n s).mem.bytes ptr n = c.read n := by
  have hlength : (c.read n).length = n := by
    rw [Cursor.length_read, Nat.min_eq_left hn]
  rw [← (h.holds_read n).bytes_eq, hlength]
  refine List.map_congr_left fun i hi => ?_
  exact Mem.copy_apply (List.mem_range.mp hi)

/-! ## Runs -/

/-- After a call that returned `r`: it answers exactly if it fits, and then it has moved the stream
as it is to move the cursor. -/
structure After (stream : Nat) (file : FSFile) (c : Cursor Byte) (call : Call) (s : Vm) (r : Int)
    (s' : Vm) : Prop where
  answers : call.Answers c.items c.before (offset stream s) (offset stream s') r ↔ call.Fits c
  moves : call.Fits c → At stream file (c.advance call.amount) s' ∧
    call.delivered (offset stream s' - offset stream s) r s'.mem = c.read call.amount

theorem after_feof (h : At stream file c s) {r : Int} (hr : r ≠ 0 ↔ c.pos = c.items.length) :
    After stream file c .feof s r s where
  answers := iff_of_true ⟨rfl, hr.trans Cursor.before_eq_iff.symm⟩ trivial
  moves _ := by
    refine ⟨?_, rfl⟩
    show At stream file (c.advance 0) s
    rwa [Cursor.advance_zero]

theorem after_fgetc_end (h : At stream file c s) (hend : c.pos = c.items.length) :
    After stream file c .fgetc s (-1) s where
  answers := by
    refine iff_of_true ⟨?_, by decide, by decide, iff_of_true rfl (Cursor.before_eq_iff.mpr hend)⟩ trivial
    rw [h.offset_eq]
    omega
  moves _ := ⟨(Cursor.advance_of_end hend _).symm ▸ h, (Cursor.read_of_end hend _).symm⟩

theorem after_fgetc_next (h : At stream file c s) {b : Byte} (hread : c.read 1 = [b]) :
    After stream file c .fgetc s b.toNat (moved stream file c 1 s) := by
  have hn : 1 = min 1 (c.items.length - c.pos) := by
    rw [← c.length_read, hread]
    rfl
  have hat := at_moved h (n := 1) (by omega)
  have hb := b.toNat_lt
  refine ⟨iff_of_true ⟨?_, by omega, by omega, iff_of_false (by omega) ?_⟩ trivial, fun _ => ⟨hat, ?_⟩⟩
  · rw [hat.offset_eq, h.offset_eq]
    rfl
  · rw [Cursor.before_eq_iff]
    omega
  · refine Eq.trans ?_ hread.symm
    show (if (b.toNat : Int) = -1 then [] else [UInt8.ofNat (b.toNat : Int).toNat]) = [b]
    rw [if_neg (by omega), Int.toNat_natCast, UInt8.ofNat_toNat]

theorem after_fread_end (h : At stream file c s) (hend : c.pos = c.items.length) (ptr : Nat)
    (size nitems : BitVec 64) : After stream file c (.fread ptr size nitems) s 0 s where
  answers := by
    refine iff_of_true ⟨?_, ?_⟩ (.inl hend)
    · rw [h.offset_eq]
      omega
    · rw [h.offset_eq, hend, Nat.sub_self, Nat.min_zero, Nat.zero_div]
      rfl
  moves _ := by
    refine ⟨(Cursor.advance_of_end hend _).symm ▸ h, ?_⟩
    show s.mem.bytes ptr _ = c.read (size.toNat * nitems.toNat)
    rw [Nat.sub_self, Cursor.read_of_end hend]
    rfl

theorem after_fread_next (h : At stream file c s) (hpos : c.pos ≠ c.items.length) {ptr : Nat}
    {size nitems : BitVec 64} (h0 : size.toNat % 2 ^ 32 ≠ 0)
    (hap : (Call.fread ptr size nitems).Apart file.content c) :
    let n := bytesToRead size nitems (c.items.length - c.pos)
    After stream file c (.fread ptr size nitems) s
      ((n + size.toNat % 2 ^ 32 - 1) % 2 ^ 32 / (size.toNat % 2 ^ 32) : Nat) (readTo stream file c ptr n s) := by
  intro n
  have hle : n ≤ min (size.toNat * nitems.toNat) (c.items.length - c.pos) := bytesToRead_le ..
  have hat : At stream file (c.advance n) (readTo stream file c ptr n s) :=
    at_readTo h (by omega) fun i hi => hap i (by omega)
  have hoff : offset stream (readTo stream file c ptr n s) = c.pos + n := by
    rw [hat.offset_eq, Cursor.pos_advance]
    omega
  have hfits : (Call.fread ptr size nitems).Fits c ↔ Exact size nitems (c.items.length - c.pos) :=
    or_iff_right hpos
  have hexact := @reads_iff size nitems (c.items.length - c.pos) (by have := h.size; have := h.lt; omega)
  refine ⟨?_, fun hf => ?_⟩
  · rw [hfits, hexact, and_iff_right h0]
    show _ ∧ _ ↔ _
    rw [hoff, h.offset_eq, Nat.add_left_cancel_iff, Int.natCast_inj]
  · have hn : n = min (size.toNat * nitems.toNat) (c.items.length - c.pos) := (hexact.mp (hfits.mp hf)).2.1
    refine ⟨?_, ?_⟩
    · rw [hn, Cursor.advance_min] at hat
      rwa [hn]
    · show Mem.bytes _ ptr _ = c.read (size.toNat * nitems.toNat)
      rw [hoff, h.offset_eq, Nat.add_sub_cancel_left, bytes_readTo h (by omega), hn, Cursor.read_min]

/-- The step: a call that does not fit stops or gives a wrong answer, one that fits does neither. -/
theorem wp_call (h : At stream file c s) {call : Call} (hap : call.Apart file.content c) :
    WP (call.run stream) s (fun r s' => After stream file c call s r s') fun _ _ => ¬call.Fits c := by
  cases call with
  | fgetc => exact wp_fgetc h (after_fgetc_end h) fun _ => after_fgetc_next h
  | feof =>
    refine wp_feof h (fun hend => after_feof h ?_) fun hnot => after_feof h ?_
    · exact iff_of_true (by decide) hend
    · exact iff_of_false (by decide) hnot
  | fread ptr size nitems =>
    refine WP.bind (wp_fread h (fun hend => after_fread_end h hend ptr size nitems) ?_ ?_)
    · intro hpos h0 s' hf
      exact (hf.resolve_left hpos).1 h0
    · exact fun hpos h0 => after_fread_next h hpos h0 hap

/-- A run of calls is right exactly if its reads are. -/
theorem streams_iff_meets (h : At stream file c s) {calls : List Call} (hlegal : Legal file.content calls c) :
    Streams stream c.items calls c.before s ↔ Meets calls c := by
  induction calls generalizing c s with
  | nil => exact iff_of_true h.position trivial
  | cons call calls ih =>
    obtain ⟨hap, hlegal⟩ := hlegal
    have hcall := wp_call h hap
    constructor
    · rintro ⟨-, r, s', hrun, hanswers, hrest⟩
      have hafter := hcall.ok hrun
      have hf := hafter.answers.mp hanswers
      obtain ⟨hat, hdelivered⟩ := hafter.moves hf
      rw [hdelivered, ← Cursor.before_advance] at hrest
      exact ⟨hf, (ih hat hlegal).mp hrest⟩
    · rintro ⟨hf, hmeets⟩
      cases hrun : (call.run stream).run s with
      | error e s' => exact absurd hf (hcall.error hrun)
      | ok r s' =>
        have hafter := hcall.ok hrun
        obtain ⟨hat, hdelivered⟩ := hafter.moves hf
        refine ⟨h.position, r, s', hrun, hafter.answers.mpr hf, ?_⟩
        rw [hdelivered, ← Cursor.before_advance]
        exact (ih hat hlegal).mpr hmeets

end CkbJs.Proof.Stdio
