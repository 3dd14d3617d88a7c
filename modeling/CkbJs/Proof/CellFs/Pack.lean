import CkbJs.Impl.FsLua
import CkbJs.Proof.CellFs.Overlay
import Mathlib.Data.List.Nodup

/-!
# Mounting what was packed

A memory that holds the output of `pack` has the entries of `layout` in its
table (`entries_of_pack`), and at their offsets the names and contents of the
files (`blobs_of_pack`). So `load_fs` mounts it and `get_file` gives back every
file (`mount_pack`).
-/

namespace CkbJs.Proof.CellFs

open CkbJs.Impl CkbJs.Impl.CellFs CkbJs.Impl.FsLua CkbJs.Spec.CellFs

variable {mem : Mem}

/-- How far `pack` moves its offset for a file. -/
def blobLength (f : File) : Nat := f.1.length + 1 + f.2.length + 1

/-- The entries of files whose blobs start at an offset. -/
def layout : List File → Nat → List FSEntry
  | [], _ => []
  | f :: rest, offset =>
    { filename := { offset := offset, length := f.1.length + 1 }
      content := { offset := offset + (f.1.length + 1), length := f.2.length } } ::
      layout rest (offset + blobLength f)

theorem appendInteger_eq_ok {n : Nat} {bs : List Byte} :
    appendInteger n = .ok bs ↔ n < 2 ^ 32 ∧ bs = Mem.leBytes 4 n := by
  unfold appendInteger
  split
  · exact ⟨fun h => ⟨‹_›, by cases h; rfl⟩, fun h => by rw [h.2]⟩
  · exact ⟨nofun, fun h => absurd h.1 ‹_›⟩

theorem appendStringNull_eq_ok {s bs : List Byte} :
    appendStringNull s = .ok bs ↔ 0 ∉ s ∧ bs = s ++ [0] := by
  unfold appendStringNull
  split
  · exact ⟨nofun, fun h => absurd ‹_› h.1⟩
  · exact ⟨fun h => ⟨‹_›, by cases h; rfl⟩, fun h => by rw [h.2]⟩

/-- A successful step of a program, taken apart. -/
theorem bind_eq_ok {ε α β : Type} {x : Except ε α} {f : α → Except ε β} {b : β} :
    x >>= f = .ok b ↔ ∃ a, x = .ok a ∧ f a = .ok b := by
  cases x with
  | error e => exact ⟨nofun, nofun⟩
  | ok a => exact ⟨fun h => ⟨a, rfl, h⟩, fun ⟨a', h, hf⟩ => by cases h; exact hf⟩

theorem load_leBytes {addr n : Nat} (h : mem.Holds addr (Mem.leBytes 4 n)) (hn : n < 2 ^ 32) :
    mem.load addr 4 = n := h.load hn

/-- The entries that a memory with the output of the first loop has. -/
theorem entries_of_packEntries {files : List File} {offset addr : Nat} {bs : List Byte}
    (h : packEntries files offset = .ok bs) (hmem : mem.Holds addr bs) :
    bs.length = 16 * files.length ∧
    (List.range files.length).map (fun i => entryAt mem (addr + 16 * i)) = layout files offset := by
  induction files generalizing offset addr bs with
  | nil =>
    cases h
    exact ⟨rfl, rfl⟩
  | cons f files ih =>
    obtain ⟨name, content⟩ := f
    simp only [packEntries, bind_eq_ok, appendInteger_eq_ok] at h
    obtain ⟨_, ⟨h1, rfl⟩, _, ⟨h2, rfl⟩, _, ⟨h3, rfl⟩, _, ⟨h4, rfl⟩, rest, hrest, hbs⟩ := h
    cases hbs
    simp only [Mem.holds_append, List.length_append, Mem.length_leBytes] at hmem ⊢
    obtain ⟨⟨⟨⟨m1, m2⟩, m3⟩, m4⟩, m5⟩ := hmem
    obtain ⟨hlen, hentries⟩ := ih hrest m5
    refine ⟨by rw [hlen, List.length_cons]; omega, ?_⟩
    rw [List.length_cons, List.range_succ_eq_map, List.map_cons, List.map_map, layout]
    congr 1
    · simp only [entryAt, Nat.mul_zero, Nat.add_zero, load_leBytes m1 h1, load_leBytes m2 h2,
        load_leBytes m3 h3, load_leBytes m4 h4]
    · rw [show offset + blobLength (name, content) = offset + (name.length + 1) + content.length + 1 by
        simp only [blobLength]; omega, ← hentries]
      refine List.map_congr_left fun i _ => ?_
      show entryAt mem (addr + 16 * (i + 1)) = _
      congr 1
      omega

/-- What a mounted file needs: its name and content are at the offsets of its
entry, with the NUL after the content before `bound`. -/
structure Stored (mem : Mem) (start bound : Nat) (e : FSEntry) (f : File) : Prop where
  noNul : 0 ∉ f.1
  name : CStringAt mem (start + e.filename.offset) f.1
  length : e.content.length = f.2.length
  content : mem.Holds (start + e.content.offset) f.2
  nul : mem (start + e.content.offset + f.2.length) = 0
  inside : start + e.content.offset + f.2.length < bound

theorem stored_of_packBlobs {files : List File} {start offset bound : Nat} {bs : List Byte}
    (h : packBlobs files = .ok bs) (hmem : mem.Holds (start + offset) bs)
    (hbound : start + offset + bs.length ≤ bound) :
    List.Forall₂ (Stored mem start bound) (layout files offset) files := by
  induction files generalizing offset bs with
  | nil => exact .nil
  | cons f files ih =>
    obtain ⟨name, content⟩ := f
    simp only [packBlobs, bind_eq_ok, appendStringNull_eq_ok] at h
    obtain ⟨_, ⟨hnul, rfl⟩, rest, hrest, hbs⟩ := h
    cases hbs
    simp only [appendFile, Mem.holds_append, List.length_append, List.length_singleton] at hmem hbound
    obtain ⟨⟨hname, hcontent, h0⟩, hrestmem⟩ := hmem
    have hcaddr : start + (offset + (name.length + 1)) = start + offset + (name.length + 1) := by omega
    have hraddr : start + (offset + blobLength (name, content)) =
        start + offset + (name.length + 1 + (content.length + 1)) := by
      simp only [blobLength]; omega
    refine .cons ⟨hnul, Mem.holds_append.mpr hname, rfl, ?_, ?_, ?_⟩ (ih hrest ?_ ?_)
    · dsimp only
      rw [hcaddr]
      exact hcontent
    · dsimp only
      rw [hcaddr]
      exact h0 0 (by decide)
    · dsimp only
      omega
    · rw [hraddr]
      exact hrestmem
    · rw [hraddr]
      omega

/-! ## Looking a stored name up -/

/-- The lookup finds the stored file of the name, if there is one. -/
theorem findEntry_of_stored {start bound : Nat} {es : List FSEntry} {files : List File}
    (h : List.Forall₂ (Stored mem start bound) es files) (name : CString) (depth : Nat) :
    (findEntry mem name depth start es).2 = none ∧ name.1 ∉ files.map Prod.fst ∨
    ∃ e f, (findEntry mem name depth start es).2 = some e ∧ f ∈ files ∧ f.1 = name.1 ∧
      Stored mem start bound e f := by
  induction h with
  | nil => exact .inl ⟨rfl, nofun⟩
  | @cons e f es files hef _ ih =>
    rw [findEntry_cons]
    by_cases hname : f.1 = name.1
    · have heq : (strcmp mem name.1 (start + e.filename.offset)).2 = true :=
        strcmp_iff.mpr (hname ▸ hef.name)
      rw [if_pos heq]
      exact .inr ⟨e, f, rfl, List.mem_cons_self, hname, hef⟩
    · have hne : ¬(strcmp mem name.1 (start + e.filename.offset)).2 = true := fun hs =>
        hname (cstringAt_unique hef.noNul name.2 hef.name (strcmp_iff.mp hs))
      rw [if_neg hne]
      rcases ih with ⟨hnone, hmem⟩ | ⟨e', f', hsome, hf, hn, hst⟩
      · refine .inl ⟨hnone, ?_⟩
        rw [List.map_cons, List.mem_cons, not_or]
        exact ⟨Ne.symm hname, hmem⟩
      · exact .inr ⟨e', f', hsome, List.mem_cons_of_mem f hf, hn, hst⟩

/-- What a memory that holds the output of `pack` stores. -/
theorem stored_of_pack {files : List File} {bs : List Byte} {buf : Nat} (h : pack files = .ok bs)
    (hmem : mem.Holds buf bs) :
    List.Forall₂ (Stored mem (payload mem buf) (buf + bs.length)) (entries mem buf) files := by
  simp only [pack, bind_eq_ok, appendInteger_eq_ok] at h
  obtain ⟨_, ⟨hn, rfl⟩, es, hes, ps, hps, hbs⟩ := h
  cases hbs
  simp only [Mem.holds_append, List.length_append, Mem.length_leBytes] at hmem ⊢
  obtain ⟨⟨hnum, hemem⟩, hpmem⟩ := hmem
  have hcount : count mem buf = files.length := load_leBytes hnum hn
  obtain ⟨hlen, hentries⟩ := entries_of_packEntries hes hemem
  have hpay : payload mem buf = buf + (4 + es.length) := by
    rw [payload, hcount, hlen, sizeofFSEntry, Nat.add_assoc]
  have hall : entries mem buf = layout files 0 := by
    rw [← hentries, entries, hcount]
    rfl
  rw [hall]
  refine stored_of_packBlobs hps ?_ ?_
  · rw [hpay]
    exact hpmem
  · omega

/-- Packing is lossless: what `pack` writes, `load_fs` mounts, and `get_file`
gives back every file of the table and no other, with a NUL after its content
inside the archive. -/
theorem mount_pack (files : List File) (hnodup : (files.map Prod.fst).Nodup) (bs : List Byte)
    (hpack : pack files = .ok bs) (mem : Mem) (buf : Nat) (hbuf : buf ≠ 0) (hmem : mem.Holds buf bs)
    (alloc : Alloc) (halloc : ∀ t size, alloc t size = true) (s : Fs) (hs : s.mounts = []) :
    ∃ fs, loadFs mem alloc buf bs.length s = (0, fs) ∧
      ∀ (name : CString) (s' : Fs), s'.mounts = fs.mounts →
        (∀ content, (name.1, content) ∈ files → ∃ file,
          (getFile mem alloc name s').1 = (0, some file) ∧ file.size = content.length ∧
          mem.Holds file.content content ∧ mem (file.content + file.size) = 0 ∧
          buf ≤ file.content ∧ file.content + file.size < buf + bs.length) ∧
        (name.1 ∉ files.map Prod.fst → (getFile mem alloc name s').1 = (-1, none)) := by
  obtain rfl : alloc = always := funext fun t => funext fun size => halloc t size
  obtain ⟨fs, m, hload, hmounts, hrep, -⟩ :=
    loadFs_always mem (show (⟨buf, bs.length⟩ : Archive).buf ≠ 0 from hbuf) s
  refine ⟨fs, hload, fun name s' hs' => ?_⟩
  have hms : s'.mounts = [m] := by rw [hs', hmounts, hs]
  have hstored := stored_of_pack hpack hmem
  have hget := getFile_eq mem always name s'
  rw [if_pos rfl, hms, findFile_cons, Represents.findEntry_eq hrep] at hget
  dsimp only at hget
  rcases findEntry_of_stored hstored name 0 with ⟨hnone, hnot⟩ | ⟨e, f, hsome, hf, hn, hst⟩
  · rw [hnone] at hget
    exact ⟨fun content hmem' => absurd (List.mem_map_of_mem (f := Prod.fst) hmem') hnot, fun _ => hget⟩
  · rw [hsome] at hget
    refine ⟨fun content hmem' => ?_, fun hnot => ?_⟩
    · obtain rfl : f = (name.1, content) := List.inj_on_of_nodup_map hnodup hf hmem' hn
      obtain ⟨before, after, hsplit, -⟩ := findEntry_eq_some.mp hsome
      have hne : m.current.files ≠ [] := by rw [hrep.1, hsplit]; simp
      have hstart : m.current.start = payload mem buf := hrep.2 hne
      rw [hstart] at hget
      have hbuf := buf_le_payload mem buf
      refine ⟨_, hget, hst.length, hst.content, ?_, ?_, ?_⟩
      · dsimp only
        rw [hst.length]
        exact hst.nul
      · exact Nat.le_trans hbuf (Nat.le_add_right ..)
      · dsimp only
        rw [hst.length]
        exact hst.inside
    · exact absurd (hn ▸ List.mem_map_of_mem hf) hnot

/-- An archive of the files `a`, of two bytes, and `b`, which is empty. -/
theorem mount_pack_two_files : ∃ bs, pack [([97], [1, 2]), ([98], [])] = .ok bs ∧
    ∃ fs, loadFs (Mem.ofBytes 64 bs) always 64 bs.length Fs.init = (0, fs) ∧
      ∃ file, (getFile (Mem.ofBytes 64 bs) always ⟨[97], by decide⟩ fs).1 = (0, some file) ∧
        file.size = 2 ∧ (Mem.ofBytes 64 bs).Holds file.content [1, 2] := by
  refine ⟨_, rfl, ?_⟩
  obtain ⟨fs, hload, hget⟩ := mount_pack [([97], [1, 2]), ([98], [])] (by decide) _ rfl
    _ 64 (by decide) (Mem.holds_ofBytes 64 _) always (fun _ _ => rfl) Fs.init rfl
  obtain ⟨file, hfile, hsize, hholds, -⟩ := (hget ⟨[97], by decide⟩ fs rfl).1 [1, 2] (by decide)
  exact ⟨fs, hload, file, hfile, hsize, hholds⟩

end CkbJs.Proof.CellFs
