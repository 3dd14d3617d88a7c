import CkbJs.Framework.Runs
import CkbJs.Proof.CellFs.Overlay
import CkbJs.Proof.Stdio.Reads

/-!
# Open streams

No function changes the mounts but `load_fs`, so the lengths of the files that are mounted
are values of a `uint32_t` in every state (`words_of_reachable`), and a stream that has just been
opened is at the start of its file (`at_of_fopen`). `streams_iff` is the main result.
-/

namespace CkbJs.Proof.Stdio

open CkbJs.Impl CkbJs.Impl.Stdio CkbJs.Spec.Stdio CkbJs.Proof.CellFs
open CkbJs.Impl.CellFs (FSFile Fs Alloc Mount)

/-! ## The mounts -/

def Mounted (ms : List Mount) (s : Vm) : Prop := s.fs.mounts = ms

section

variable {ms : List Mount}

theorem keeps_accessed (n : Nat) : Keeps (Mounted ms) (accessed n) :=
  .bind .of_get fun _ => .ite (.of_throw _) (.ite (.of_pure _) (.of_throw _))

theorem keeps_deref (stream : Option Nat) : Keeps (Mounted ms) (deref stream) := by
  refine .bind .of_get fun s => ?_
  split
  · exact .of_pure _
  · exact .of_throw _

theorem keeps_setFile (stream : Nat) (f : Option FILE) : Keeps (Mounted ms) (setFile stream f) :=
  .of_modify fun _ h => h

theorem keeps_setOffset (stream : Option Nat) (file : FSFile) (n : Nat) :
    Keeps (Mounted ms) (setOffset stream file n) := by
  cases stream with
  | none => exact .of_throw _
  | some stream => exact keeps_setFile _ _

theorem keeps_isvalidfile (stream : Option Nat) : Keeps (Mounted ms) (isvalidfile stream) :=
  .ite (.of_pure _) (.bind (keeps_deref _) fun _ => .ite (.of_pure _) (.of_pure _))

theorem keeps_fgetc (stream : Option Nat) : Keeps (Mounted ms) (fgetc stream) := by
  refine .bind (keeps_accessed _) fun _ => .ite (.of_pure _) (.bind (keeps_deref _) fun _ => ?_)
  refine .ite (.of_pure _) (.bind .of_get fun _ => .bind (keeps_setOffset _ _ _) fun _ => ?_)
  exact .of_pure _

theorem keeps_fread (ptr : Nat) (size nitems : BitVec 64) (stream : Option Nat) :
    Keeps (Mounted ms) (fread ptr size nitems stream) := by
  refine .bind (keeps_accessed _) fun _ => .bind ?_ fun _ => .bind (keeps_deref _) fun _ => ?_
  · exact .bind (keeps_isvalidfile _) fun _ => .ite (.of_throw _) (.of_pure _)
  · refine .ite (.of_pure _) (.bind (.of_modify fun _ h => h) fun _ => ?_)
    exact .bind (keeps_setOffset _ _ _) fun _ => .ite (.of_throw _) (.of_pure _)

theorem keeps_feof (stream : Option Nat) : Keeps (Mounted ms) (feof stream) :=
  .bind (keeps_accessed _) fun _ => .bind (keeps_deref _) fun _ => .ite (.of_pure _) (.of_pure _)

theorem keeps_call (stream : Nat) (call : Call) : Keeps (Mounted ms) (call.run stream) := by
  cases call with
  | fgetc => exact keeps_fgetc _
  | fread ptr size nitems => exact .bind (keeps_fread ptr size nitems _) fun _ => .of_pure _
  | feof => exact keeps_feof _

theorem keeps_fclose (stream : Option Nat) : Keeps (Mounted ms) (fclose stream) := by
  refine .bind (keeps_accessed _) fun _ => ?_
  cases stream with
  | none => exact .of_throw _
  | some stream =>
    refine .bind (.bind (keeps_deref _) fun _ => ?_) fun _ => .of_pure _
    exact .bind (keeps_setFile _ _) fun _ => .of_modify fun _ h => h

end

/-! ## Opening -/

/-- The lengths of the files that are mounted are values of a `uint32_t`. -/
def Words (ms : List Mount) : Prop := ∀ m ∈ ms, ∀ e ∈ m.current.files, e.content.length < 2 ^ 32

theorem words_loadFs {mem : Mem} {alloc : Alloc} {buf buflen : Nat} {fs : Fs} (h : Words fs.mounts) :
    Words (CellFs.loadFs mem alloc buf buflen fs).2.mounts := by
  obtain ⟨⟨-, hm⟩ | ⟨-, m, hm, hfiles, -⟩, -⟩ := @loadFs_cases mem alloc ⟨buf, buflen⟩ fs _ _ rfl
  · exact hm.symm ▸ h
  · rw [show (CellFs.loadFs mem alloc buf buflen fs).2.mounts = m :: fs.mounts from hm]
    refine List.forall_mem_cons.mpr ⟨fun e he => ?_, h⟩
    rw [hfiles] at he
    obtain ⟨i, -, rfl⟩ := List.mem_map.mp he
    exact Mem.load_lt mem _ 4

/-- The file that `get_file` gives. -/
theorem getFile_found {mem : Mem} {alloc : Alloc} {path : CString} {fs : Fs} (hw : Words fs.mounts)
    (h : (CellFs.getFile mem alloc path fs).1.1 = 0) :
    ∃ file, (CellFs.getFile mem alloc path fs).1.2 = some file ∧ file.rc ≠ 0 ∧ file.size < 2 ^ 32 := by
  rw [getFile_eq] at h ⊢
  split at h
  · rw [if_pos ‹_›]
    cases hfound : (CellFs.findFile mem path 0 fs.mounts).2 with
    | none =>
      rw [hfound] at h
      exact absurd h (show (-1 : Int) ≠ 0 by decide)
    | some found =>
      obtain ⟨d, start, e⟩ := found
      obtain ⟨i, m, hm, -, -, he⟩ := findFile_some hfound
      obtain ⟨before, after, hsplit, -⟩ := findEntry_eq_some.mp he
      refine ⟨_, rfl, Nat.one_ne_zero, hw m (List.mem_of_getElem? hm) e ?_⟩
      rw [hsplit]
      exact List.mem_append_right _ List.mem_cons_self
  · exact absurd h (by decide)

/-- A stream that has just been opened. -/
structure Opened (stream : Nat) (s : Vm) (file : FSFile) : Prop where
  localAccess : s.localAccess = false
  fsAccess : s.fsAccess = true
  files : s.files stream = some ⟨some file, 0⟩
  rc : file.rc ≠ 0
  lt : file.size < 2 ^ 32

theorem wp_allocfile (alloc : Alloc) (s : Vm) :
    WP (allocfile alloc) s (fun b s' => ∃ fs, fs.mounts = s.fs.mounts ∧
      s' = { s with fs := fs, files := Function.update s.files b (some ⟨none, 0⟩) }) (fun _ _ => True) := by
  refine WP.bind (WP.of_get ?_)
  have hm : (CellFs.malloc alloc sizeofFILE s.fs).2.mounts = s.fs.mounts := (malloc_keeps rfl).1
  revert hm
  generalize CellFs.malloc alloc sizeofFILE s.fs = r
  obtain ⟨r, fs⟩ := r
  intro hm
  refine WP.bind (WP.of_set ?_)
  cases r with
  | none => exact WP.of_throw trivial
  | some b => exact WP.bind (WP.of_modify (WP.of_pure ⟨fs, hm, rfl⟩))

theorem wp_fopen {alloc : Alloc} {path mode : CString} {s : Vm} (hw : Words s.fs.mounts) :
    WP (fopen alloc path mode) s
      (fun r s' => Mounted s.fs.mounts s' ∧ ∀ stream, r = some stream → ∃ file, Opened stream s' file)
      (fun _ _ => True) := by
  refine WP.bind (wp_accessed (fun hlocal hfs => ?_) fun _ _ => trivial)
  refine WP.bind ((wp_allocfile alloc s).mono ?_ fun _ _ _ => trivial)
  rintro b s' ⟨fs, hm, rfl⟩
  refine WP.bind (WP.of_get ?_)
  have hm' : (CellFs.getFile s.mem alloc path fs).2.mounts = s.fs.mounts := (getFile_cases rfl).1.trans hm
  have hfound := @getFile_found s.mem alloc path fs (hm ▸ hw)
  dsimp only
  generalize CellFs.getFile s.mem alloc path fs = r at hm' hfound ⊢
  obtain ⟨⟨ret, found⟩, fs'⟩ := r
  refine WP.bind (WP.of_set (WP.ite (fun hret => ?_) fun hret => ?_))
  · exact WP.of_pure ⟨hm', nofun⟩
  · obtain ⟨file, rfl, hrc, hlt⟩ := hfound (Decidable.not_not.mp hret)
    refine WP.bind (WP.of_modify (WP.of_pure ⟨hm', fun stream hstream => ⟨file, ?_⟩⟩))
    cases hstream
    exact ⟨hlocal, hfs, Function.update_self .., hrc, hlt⟩

/-- A stream that has just been opened is at the start of its file. -/
theorem Opened.at {stream : Nat} {s : Vm} {file : FSFile} (h : Opened stream s file) :
    At stream file (Cursor.start (content stream s)) s := by
  have hcontent : content stream s = s.mem.bytes file.content file.size := by
    rw [content, fileOf, h.files]
    rfl
  refine ⟨h.localAccess, h.fsAccess, h.files, h.rc, ?_, h.lt, ?_⟩
  · rw [hcontent, Cursor.items_start, Mem.length_bytes]
  · rw [hcontent]
    exact holds_bytes _ _ _

theorem Opened.address_eq {stream : Nat} {s : Vm} {file : FSFile} (h : Opened stream s file) :
    address stream s = file.content := by
  rw [address, fileOf, h.files]
  rfl

/-! ## The states that a program reaches -/

/-- A call that ends leaves the mounts. -/
theorem mounts_of_keeps {α : Type} {x : M α} {s s' : Vm} {a : α}
    (hx : Keeps (Mounted s.fs.mounts) x) (h : x.run s = .ok a s') : s'.fs.mounts = s.fs.mounts :=
  (hx s rfl).ok h

theorem words_step {s s' : Vm} (hw : Words s.fs.mounts) (h : Step s s') : Words s'.fs.mounts := by
  cases h with
  | enableLocalAccess | enableFsAccess | write => exact hw
  | loadFs => exact words_loadFs hw
  | getFile => exact (getFile_cases rfl).1.symm ▸ hw
  | fopen hrun => exact ((wp_fopen hw).ok hrun).1.symm ▸ hw
  | fclose hrun => exact mounts_of_keeps (keeps_fclose _) hrun ▸ hw
  | call hrun => exact mounts_of_keeps (keeps_call _ _) hrun ▸ hw

theorem words_of_reachable {mem : Mem} {s : Vm} (h : Reachable mem s) : Words s.fs.mounts := by
  induction h with
  | refl => exact fun _ hm => absurd hm List.not_mem_nil
  | tail _ hstep ih => exact words_step ih hstep

/-- A stream that any program opens delivers its file, whatever calls are made on it, exactly if
each read is at the end of the file or exact. -/
theorem streams_iff {mem : Mem} {s₀ s : Vm} {alloc : Alloc} {path mode : CString} {stream : Nat}
    (hreach : Reachable mem s₀) (hopen : (fopen alloc path mode).run s₀ = .ok (some stream) s)
    {calls : List Call} (hlegal : Legal (address stream s) calls (Cursor.start (content stream s))) :
    Streams stream (content stream s) calls [] s ↔ Meets calls (Cursor.start (content stream s)) := by
  obtain ⟨-, hopened⟩ := (wp_fopen (words_of_reachable hreach)).ok hopen
  obtain ⟨file, hopened⟩ := hopened stream rfl
  rw [hopened.address_eq] at hlegal
  exact streams_iff_meets hopened.at hlegal

/-! ## A file of five bytes -/

/-- An archive of one file, `main.js`, of five bytes. -/
def hello : List Byte :=
  [1, 0, 0, 0, 0, 0, 0, 0, 8, 0, 0, 0, 8, 0, 0, 0, 5, 0, 0, 0] ++ mainFileName.1 ++
    [0, 104, 101, 108, 108, 111, 0]

/-- The archive is mounted. -/
def mounted : Vm :=
  { start (Mem.ofBytes 64 hello) with
    fsAccess := true
    fs := (CellFs.loadFs (Mem.ofBytes 64 hello) CellFs.always 64 34 Fs.init).2 }

theorem reachable_mounted : Reachable (Mem.ofBytes 64 hello) mounted :=
  (Relation.ReflTransGen.refl.tail (.loadFs CellFs.always 64 34)).tail (.enableFsAccess true)

/-- And its file is opened. -/
def opened : Vm := final ((fopen CellFs.always mainFileName .empty).run mounted)

theorem fopen_mounted :
    (fopen CellFs.always mainFileName .empty).run mounted = .ok (some 3) opened := by
  rfl

theorem content_opened : content 3 opened = [104, 101, 108, 108, 111] := by
  rfl

theorem at_opened : ∃ file, Opened 3 opened file := by
  obtain ⟨-, hopened⟩ := (wp_fopen (words_of_reachable reachable_mounted)).ok fopen_mounted
  exact hopened 3 rfl

theorem address_opened : address 3 opened = 92 := by
  rfl

/-- One byte, then two items of two bytes, then the end. -/
theorem streams_hello :
    Streams 3 (content 3 opened) [.fgetc, .fread 1000 2 2, .fread 1000 0 1, .feof] [] opened := by
  refine (streams_iff reachable_mounted fopen_mounted ?_).mpr ?_
  · rw [address_opened, content_opened]
    refine ⟨trivial, fun i _ => ?_, fun i _ => ?_, trivial, trivial⟩
    · exact .inr (show 97 ≤ 1000 + i by omega)
    · exact .inr (show 97 ≤ 1000 + i by omega)
  · rw [content_opened]
    exact ⟨trivial, .inr (by unfold Exact; decide), .inl rfl, trivial, trivial⟩

theorem not_streams_of_not_exact {ptr : Nat} {size nitems : BitVec 64} (hptr : 97 ≤ ptr)
    (h : ¬Exact size nitems 5) : ¬Streams 3 (content 3 opened) [.fread ptr size nitems] [] opened := by
  obtain ⟨file, hopened⟩ := at_opened
  have haddress : file.content = 92 := hopened.address_eq.symm.trans address_opened
  have hiff := @streams_iff_meets 3 file _ _ hopened.at [.fread ptr size nitems] ?_
  · rw [Cursor.items_start, Cursor.before_start] at hiff
    rw [hiff, content_opened]
    rintro ⟨hend | hexact, -⟩
    · exact nomatch hend
    · exact h hexact
  · rw [haddress, content_opened]
    exact ⟨fun i _ => .inr (show 97 ≤ ptr + i by omega), trivial⟩

/-- Two items of four bytes, 2³² bytes, and an item of no bytes. -/
theorem not_streams : Reachable (Mem.ofBytes 64 hello) mounted ∧
    (fopen CellFs.always mainFileName .empty).run mounted = .ok (some 3) opened ∧
    ¬Streams 3 (content 3 opened) [.fread 1000 4 2] [] opened ∧
    ¬Streams 3 (content 3 opened) [.fread 1000 65536 65536] [] opened ∧
    ¬Streams 3 (content 3 opened) [.fread 1000 0 1] [] opened := by
  refine ⟨reachable_mounted, fopen_mounted, ?_, ?_, ?_⟩
  · exact not_streams_of_not_exact (by decide) (by unfold Exact; decide)
  · exact not_streams_of_not_exact (by decide) (by unfold Exact; decide)
  · exact not_streams_of_not_exact (by decide) (by unfold Exact; decide)

end CkbJs.Proof.Stdio
