import CkbJs.Spec.CellFs

/-!
# Looking a name up

`strcmp` says whether a C string is at an address (`strcmp_iff`), and reads no
further than the first NUL (`strcmp_reads_le`). The loop over the entries of a
mount finds the first entry of the name (`findEntry_eq`), the loop over the
mounts the first mount that has one.
-/

namespace CkbJs.Proof.CellFs

open CkbJs.Impl CkbJs.Impl.CellFs CkbJs.Spec.CellFs

variable {mem : Mem}

theorem cstringAt_nil {addr : Nat} : CStringAt mem addr [] ↔ mem addr = 0 := by
  unfold CStringAt
  rw [List.nil_append, Mem.holds_cons]
  exact and_iff_left (Mem.Holds.nil _ _)

theorem cstringAt_cons {addr : Nat} {c : Byte} {cs : List Byte} :
    CStringAt mem addr (c :: cs) ↔ mem addr = c ∧ CStringAt mem (addr + 1) cs := by
  unfold CStringAt
  rw [List.cons_append, Mem.holds_cons]

/-- A C string at an address is the only one there. -/
theorem cstringAt_unique {addr : Nat} {s t : List Byte} (hs : 0 ∉ s) (ht : 0 ∉ t)
    (h : CStringAt mem addr s) (h' : CStringAt mem addr t) : s = t := by
  induction s generalizing addr t with
  | nil =>
    cases t with
    | nil => rfl
    | cons c t =>
      rw [cstringAt_nil] at h
      rw [cstringAt_cons] at h'
      exact absurd (h'.1.symm.trans h ▸ List.mem_cons_self) ht
  | cons c s ih =>
    rw [cstringAt_cons] at h
    cases t with
    | nil =>
      rw [cstringAt_nil] at h'
      exact absurd (h.1.symm.trans h' ▸ List.mem_cons_self) hs
    | cons d t =>
      rw [cstringAt_cons] at h'
      rw [List.mem_cons, not_or] at hs ht
      rw [h.1.symm.trans h'.1, ih hs.2 ht.2 h.2 h'.2]

theorem strcmp_iff {s : List Byte} {addr : Nat} :
    (strcmp mem s addr).2 = true ↔ CStringAt mem addr s := by
  induction s generalizing addr with
  | nil =>
    rw [cstringAt_nil]
    simp [strcmp]
  | cons c cs ih =>
    rw [cstringAt_cons, strcmp]
    split
    · rename_i h
      rw [ih]
      exact (and_iff_right h).symm
    · rename_i h
      exact iff_of_false nofun fun hc => h hc.1

/-- `strcmp` reads no byte after a NUL. -/
theorem strcmp_reads_le {s : List Byte} (hs : 0 ∉ s) {addr k : Nat} (hk : mem (addr + k) = 0) :
    (strcmp mem s addr).1 ≤ k + 1 := by
  induction s generalizing addr k with
  | nil => exact Nat.le_add_left 1 k
  | cons c cs ih =>
    rw [List.mem_cons, not_or] at hs
    rw [strcmp]
    split
    · rename_i h
      cases k with
      | zero => exact absurd (h.symm.trans hk) (Ne.symm hs.1)
      | succ k =>
        have hk' : mem (addr + 1 + k) = 0 := by rw [← hk]; congr 1; omega
        exact Nat.succ_le_succ (ih hs.2 hk')
    · exact Nat.le_add_left 1 k

/-- `strcmp` reads past the bytes that agree. -/
theorem strcmp_reads_gt {s : List Byte} {addr : Nat} (h : mem.Holds addr s) (rest : List Byte) :
    s.length < (strcmp mem (s ++ rest) addr).1 := by
  induction s generalizing addr with
  | nil =>
    cases rest with
    | nil => exact Nat.zero_lt_one
    | cons c cs =>
      rw [List.nil_append, strcmp]
      split
      · exact Nat.succ_pos _
      · exact Nat.zero_lt_one
  | cons c cs ih =>
    rw [Mem.holds_cons] at h
    rw [List.cons_append, strcmp, if_pos h.1]
    exact Nat.succ_lt_succ (ih h.2)

/-- A C string ends at or before any NUL. -/
theorem length_le_of_cstringAt {s : List Byte} (hs : 0 ∉ s) {addr k : Nat}
    (h : CStringAt mem addr s) (hk : mem (addr + k) = 0) : s.length ≤ k := by
  refine Nat.le_of_not_lt fun hlt => hs ?_
  rw [← hk, h k (by simp; omega), List.getElem_append_left hlt]
  exact List.getElem_mem hlt

/-! ## The entries of one mount -/

/-- What `findEntry` reads of the name of an entry. -/
def nameRead (mem : Mem) (name : CString) (depth start : Nat) (e : FSEntry) : Access :=
  .name depth (start + e.filename.offset) (strcmp mem name.1 (start + e.filename.offset)).1

theorem findEntry_cons (name : CString) (depth start : Nat) (e : FSEntry) (es : List FSEntry) :
    findEntry mem name depth start (e :: es) =
      if (strcmp mem name.1 (start + e.filename.offset)).2 then
        ([nameRead mem name depth start e], some e)
      else
        (nameRead mem name depth start e :: (findEntry mem name depth start es).1,
          (findEntry mem name depth start es).2) :=
  rfl

/-- The loop over entries is `List.find?`. -/
theorem findEntry_eq (name : CString) (depth start : Nat) (es : List FSEntry) :
    (findEntry mem name depth start es).2 =
      es.find? fun e => (strcmp mem name.1 (start + e.filename.offset)).2 := by
  induction es with
  | nil => rfl
  | cons e es ih =>
    rw [findEntry_cons, List.find?_cons]
    cases (strcmp mem name.1 (start + e.filename.offset)).2 with
    | true => rfl
    | false => exact ih

theorem findEntry_eq_some {name : CString} {depth start : Nat} {es : List FSEntry} {e : FSEntry} :
    (findEntry mem name depth start es).2 = some e ↔ ∃ before after, es = before ++ e :: after ∧
      CStringAt mem (start + e.filename.offset) name.1 ∧
      ∀ e' ∈ before, ¬CStringAt mem (start + e'.filename.offset) name.1 := by
  rw [findEntry_eq, List.find?_eq_some_iff_append]
  constructor
  · rintro ⟨he, before, after, hes, hb⟩
    refine ⟨before, after, hes, strcmp_iff.mp he, fun e' he' hc => ?_⟩
    have := hb e' he'
    simp [strcmp_iff.mpr hc] at this
  · rintro ⟨before, after, hes, he, hb⟩
    refine ⟨strcmp_iff.mpr he, before, after, hes, fun e' he' => ?_⟩
    rw [Bool.not_eq_true']
    exact Bool.eq_false_iff.mpr fun h => hb e' he' (strcmp_iff.mp h)

/-- The loop reads a name for each entry it compares. -/
theorem mem_findEntry {name : CString} {depth start : Nat} {es : List FSEntry} {x : Access}
    (h : x ∈ (findEntry mem name depth start es).1) : ∃ e ∈ es, x = nameRead mem name depth start e := by
  induction es with
  | nil => nomatch h
  | cons e es ih =>
    rw [findEntry_cons] at h
    split at h
    · exact ⟨e, List.mem_cons_self, List.mem_singleton.mp h⟩
    · rcases List.mem_cons.mp h with h | h
      · exact ⟨e, List.mem_cons_self, h⟩
      · obtain ⟨e', he', hx⟩ := ih h
        exact ⟨e', List.mem_cons_of_mem e he', hx⟩

/-- An entry is compared unless an earlier one has the name. -/
theorem compared_of_before {name : CString} {depth start : Nat} {before after : List FSEntry}
    {e : FSEntry} (h : ∀ e' ∈ before, ¬CStringAt mem (start + e'.filename.offset) name.1) :
    nameRead mem name depth start e ∈ (findEntry mem name depth start (before ++ e :: after)).1 := by
  induction before with
  | nil =>
    rw [List.nil_append, findEntry_cons]
    split
    · exact List.mem_singleton_self _
    · exact List.mem_cons_self
  | cons e' before ih =>
    have hne : ¬(strcmp mem name.1 (start + e'.filename.offset)).2 = true :=
      fun hs => h e' List.mem_cons_self (strcmp_iff.mp hs)
    rw [List.cons_append, findEntry_cons, if_neg hne]
    exact List.mem_cons_of_mem _ (ih fun e'' he => h e'' (List.mem_cons_of_mem e' he))

/-! ## The mounts -/

theorem findFile_cons (name : CString) (depth : Nat) (m : Mount) (ms : List Mount) :
    findFile mem name depth (m :: ms) =
      match (findEntry mem name depth m.current.start m.current.files).2 with
      | some e => ((findEntry mem name depth m.current.start m.current.files).1,
          some (depth, m.current.start, e))
      | none => ((findEntry mem name depth m.current.start m.current.files).1 ++
          (findFile mem name (depth + 1) ms).1, (findFile mem name (depth + 1) ms).2) := by
  rw [findFile]
  split <;> rename_i he <;> rw [he]

/-- A read of the loop over the mounts is one of the loop over the entries of
some mount. -/
theorem mem_findFile {name : CString} {depth : Nat} {ms : List Mount} {x : Access}
    (h : x ∈ (findFile mem name depth ms).1) : ∃ i m, ms[i]? = some m ∧
      x ∈ (findEntry mem name (depth + i) m.current.start m.current.files).1 := by
  induction ms generalizing depth with
  | nil => nomatch h
  | cons m ms ih =>
    rw [findFile_cons] at h
    split at h
    · exact ⟨0, m, rfl, h⟩
    · rcases List.mem_append.mp h with h | h
      · exact ⟨0, m, rfl, h⟩
      · obtain ⟨i, m', hm, hx⟩ := ih h
        exact ⟨i + 1, m', hm, by rw [show depth + (i + 1) = depth + 1 + i by omega]; exact hx⟩

/-- The entry found is found in some mount. -/
theorem findFile_some {name : CString} {depth d start : Nat} {ms : List Mount} {e : FSEntry}
    (h : (findFile mem name depth ms).2 = some (d, start, e)) : ∃ i m, ms[i]? = some m ∧
      d = depth + i ∧ start = m.current.start ∧
      (findEntry mem name d start m.current.files).2 = some e := by
  induction ms generalizing depth with
  | nil => nomatch h
  | cons m ms ih =>
    rw [findFile_cons] at h
    split at h
    · rename_i e' he
      cases h
      exact ⟨0, m, rfl, rfl, rfl, he⟩
    · obtain ⟨i, m', hm, hd, hs, he⟩ := ih h
      exact ⟨i + 1, m', hm, by omega, hs, he⟩

end CkbJs.Proof.CellFs
