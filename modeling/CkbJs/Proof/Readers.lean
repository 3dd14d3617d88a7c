import CkbJs.Proof.CellFs.Pack
import CkbJs.Proof.FsLua.Layout
import Mathlib.Data.List.Find
import Mathlib.Data.List.Nodup

/-!
# The two readers of an archive

Where a memory holds an archive, `load_fs` has the entries that `unpack` reads
(`entries_of_table`), with the names and contents of its files (`cstringAt_iff`,
`bytes_content`). So `get_file` returns the first content of a name (`gets_iff`), `unpack`
leaves the last one, and they agree where these are the same (`agrees_iff`).
-/

namespace CkbJs.Proof.Readers

open CkbJs.Impl CkbJs.Impl.CellFs CkbJs.Impl.FsLua CkbJs.Spec.CellFs CkbJs.Spec.FsLua
open CkbJs.Proof.CellFs CkbJs.Proof.FsLua

variable {mem : Mem} {buf : Nat}

/-! ## The table -/

/-- A `uint32_t` of the archive, as the memory has it. -/
theorem load_of_readInteger {archive : List Byte} {pos n : Nat} (hmem : mem.Holds buf archive)
    (h : readInteger archive pos = .ok n) : mem.load (buf + pos) 4 = n := by
  obtain ⟨str, hstr, h⟩ := bind_eq_ok.mp h
  rw [Impl.FsLua.read] at hstr
  split at hstr
  · cases hstr
  split at h
  · cases h
  have hslice : str = slice archive pos 4 := (Except.ok.inj hstr).symm
  have hlen : str.length = 4 := by
    have hle : str.length ≤ 4 := hslice ▸ List.length_take_le ..
    omega
  have hload := (hslice ▸ hmem.slice pos 4 : mem.Holds (buf + pos) str).load_eq_number
  rw [hlen] at hload
  exact hload.trans (Except.ok.inj h)

/-- An entry, as `load_fs` has it. -/
def toEntry (m : Metadatum) : FSEntry :=
  { filename := { offset := m.fileNameOffset, length := m.fileNameLength }
    content := { offset := m.fileContentOffset, length := m.fileContentLength } }

theorem entries_of_readMetadata {archive : List Byte} {n pos : Nat} {metadata : List Metadatum}
    (hmem : mem.Holds buf archive) (h : readMetadata archive n pos = .ok metadata) :
    (List.range n).map (fun i => entryAt mem (buf + pos + 16 * i)) = metadata.map toEntry := by
  induction n generalizing pos metadata with
  | zero =>
    cases h
    rfl
  | succ n ih =>
    simp only [readMetadata, bind_eq_ok] at h
    obtain ⟨nameOffset, h₁, nameLength, h₂, contentOffset, h₃, contentLength, h₄, rest, hrest, h⟩ := h
    cases h
    rw [List.range_succ_eq_map, List.map_cons, List.map_map, List.map_cons, ← ih hrest]
    congr 1
    · rw [Nat.mul_zero, Nat.add_zero, entryAt, Nat.add_assoc, Nat.add_assoc, Nat.add_assoc,
        load_of_readInteger hmem h₁, load_of_readInteger hmem h₂, load_of_readInteger hmem h₃,
        load_of_readInteger hmem h₄]
      rfl
    · refine List.map_congr_left fun i _ => ?_
      show entryAt mem (buf + pos + 16 * (i + 1)) = _
      congr 1
      omega

/-- `load_fs` has the entries and the payload of the archive. -/
theorem entries_of_table (a : StoredArchive) (hmem : mem.Holds buf a.bytes) :
    entries mem buf = a.metadata.map toEntry ∧ payload mem buf = buf + a.blobStart := by
  have htable := a.table
  simp only [readTable, bind_eq_ok] at htable
  obtain ⟨n, hn, metadata, hmetadata, h⟩ := htable
  obtain ⟨rfl, hstart⟩ := Prod.mk.inj (Except.ok.inj h)
  have hcount : count mem buf = n := load_of_readInteger hmem hn
  refine ⟨?_, ?_⟩
  · rw [entries, hcount]
    exact entries_of_readMetadata hmem hmetadata
  · rw [payload, hcount, sizeofFSEntry, ← hstart, Nat.add_assoc]

/-! ## Names and contents -/

theorem exists_nul {str : List Byte} (h : 0 ∈ str) : ∃ rest, str = str.takeWhile (· ≠ 0) ++ [0] ++ rest := by
  induction str with
  | nil => exact absurd h List.not_mem_nil
  | cons c str ih =>
    by_cases hc : c = 0
    · subst hc
      exact ⟨str, rfl⟩
    · obtain ⟨rest, hrest⟩ := ih ((List.mem_cons.mp h).resolve_left (Ne.symm hc))
      refine ⟨rest, ?_⟩
      have htake : (c :: str).takeWhile (· ≠ 0) = c :: str.takeWhile (· ≠ 0) :=
        List.takeWhile_cons_of_pos (decide_eq_true hc)
      rw [htake, List.cons_append, List.cons_append, ← hrest]

theorem zero_notMem_file (a : StoredArchive) (m : Metadatum) : 0 ∉ (a.file m).1 := by
  intro h
  have hne := List.mem_takeWhile_imp h
  exact absurd rfl (of_decide_eq_true hne)

/-- An entry has a name in memory if it is the one of its file. -/
theorem cstringAt_iff (a : StoredArchive) (hmem : mem.Holds buf a.bytes) {m : Metadatum}
    (hm : m ∈ a.metadata) (name : CString) :
    CStringAt mem (buf + a.blobStart + m.fileNameOffset) name.1 ↔ (a.file m).1 = name.1 := by
  have hslice := hmem.slice (a.blobStart + m.fileNameOffset) m.fileNameLength
  obtain ⟨rest, hrest⟩ := exists_nul (a.names m hm).2
  have hat : CStringAt mem (buf + a.blobStart + m.fileNameOffset) (a.file m).1 := by
    rw [← Nat.add_assoc] at hslice
    change mem.Holds _ (slice a.bytes _ _) at hslice
    rw [hrest, Mem.holds_append] at hslice
    exact hslice.1
  constructor
  · exact fun h => cstringAt_unique (zero_notMem_file a m) name.2 hat h
  · exact fun h => h ▸ hat

theorem bytes_content (a : StoredArchive) (hmem : mem.Holds buf a.bytes) {m : Metadatum}
    (hm : m ∈ a.metadata) :
    mem.bytes (buf + a.blobStart + m.fileContentOffset) m.fileContentLength = (a.file m).2 := by
  have hslice := hmem.slice (a.blobStart + m.fileContentOffset) m.fileContentLength
  have hlen : (slice a.bytes (a.blobStart + m.fileContentOffset) m.fileContentLength).length =
      m.fileContentLength := by
    have := a.contents m hm
    rw [slice, List.length_take, List.length_drop]
    omega
  have hbytes := hslice.bytes_eq
  change mem.bytes _ (slice a.bytes _ _).length = slice a.bytes _ _ at hbytes
  rw [hlen, ← Nat.add_assoc] at hbytes
  exact hbytes

/-! ## Looking a name up -/

/-- The first entry of the name, among those that `unpack` reads. -/
theorem findEntry_toEntry (a : StoredArchive) (hmem : mem.Holds buf a.bytes) (name : CString) (depth : Nat) :
    (findEntry mem name depth (payload mem buf) (entries mem buf)).2 =
      (a.metadata.find? fun m => (a.file m).1 = name.1).map toEntry := by
  obtain ⟨hentries, hpayload⟩ := entries_of_table a hmem
  rw [findEntry_eq, hentries, hpayload, List.find?_map]
  refine congrArg _ (List.find?_congr fun m hm => ?_)
  rw [Bool.eq_iff_iff, decide_eq_true_iff]
  exact strcmp_iff.trans (cstringAt_iff a hmem hm name)

/-- `get_file` returns the content of the first file of the name. -/
theorem gets_of_firstContent (a : StoredArchive) {name : CString} {content : List Byte}
    (h : firstContent a.files name.1 = some content) : Gets a.bytes name content := by
  rw [firstContent, StoredArchive.files, List.find?_map, Option.map_map, Option.map_eq_some_iff] at h
  obtain ⟨m, hfind, rfl⟩ := h
  have hm : m ∈ a.metadata := List.mem_of_find?_eq_some hfind
  intro mem buf hbuf hmem alloc halloc s
  obtain rfl : alloc = always := funext fun t => funext fun size => halloc t size
  obtain ⟨fs, mount, hload, hmounts, hrep, -⟩ :=
    loadFs_always mem (show (⟨buf, a.bytes.length⟩ : Archive).buf ≠ 0 from hbuf) s
  have hentry : (findEntry mem name 0 mount.current.start mount.current.files).2 = some (toEntry m) := by
    rw [Represents.findEntry_eq hrep]
    exact (findEntry_toEntry a hmem name 0).trans (congrArg _ hfind)
  have hne : mount.current.files ≠ [] := by
    intro hnil
    rw [hnil] at hentry
    cases hentry
  have hstart : mount.current.start = buf + a.blobStart := (hrep.2 hne).trans (entries_of_table a hmem).2
  have hget : (getFile mem always name fs).1 = (0, some
      { block := fs.nextBlock, filename := name, content := mount.current.start + m.fileContentOffset
        size := m.fileContentLength, rc := 1 }) := by
    rw [getFile_eq, hmounts, findFile_cons, hentry]
    rfl
  refine ⟨fs, _, hload, hget, ?_⟩
  dsimp only
  rw [hstart]
  exact bytes_content a hmem hm

theorem exists_firstContent {files : List File} {name : List Byte} (h : name ∈ files.map Prod.fst) :
    ∃ content, firstContent files name = some content := by
  obtain ⟨f, hf, heq⟩ := List.mem_map.mp h
  cases hfirst : files.find? fun f => f.1 = name with
  | none => exact absurd (decide_eq_true heq) (List.find?_eq_none.mp hfirst f hf)
  | some f => exact ⟨f.2, by rw [firstContent, hfirst]; rfl⟩

theorem gets_iff (a : StoredArchive) {name : CString} (hname : name.1 ∈ a.files.map Prod.fst)
    (content : List Byte) : Gets a.bytes name content ↔ firstContent a.files name.1 = some content := by
  refine ⟨fun h => ?_, gets_of_firstContent a⟩
  obtain ⟨content', hfirst⟩ := exists_firstContent hname
  have hmem := Mem.holds_ofBytes 64 a.bytes
  obtain ⟨fs, file, hload, hget, hbytes⟩ :=
    h (Mem.ofBytes 64 a.bytes) 64 (by decide) hmem always (fun _ _ => rfl) Fs.init
  obtain ⟨fs', file', hload', hget', hbytes'⟩ := gets_of_firstContent a hfirst
    (Mem.ofBytes 64 a.bytes) 64 (by decide) hmem always (fun _ _ => rfl) Fs.init
  obtain rfl : fs = fs' := (Prod.mk.inj (hload.symm.trans hload')).2
  obtain rfl : file = file' := Option.some.inj (Prod.mk.inj (hget.symm.trans hget')).2
  rw [hfirst, ← hbytes, ← hbytes']

/-! ## Agreement -/

/-- The readers agree on a name where the disk has the first content of the name. -/
theorem agrees_iff {os : Os} {directory : List Byte} {disk : FileDisk} (a : StoredArchive) {name : CString}
    (hname : name.1 ∈ a.files.map Prod.fst) :
    Agrees os directory a.bytes disk name ↔ ∃ content, firstContent a.files name.1 = some content ∧
      diskAfter os directory a.bytes disk (unpacked os directory name.1) = some (.file content) := by
  refine exists_congr fun content => ?_
  rw [gets_iff a hname]
  exact and_comm

/-- Where no two files lead to the same place, the first file of a name is the last one there. -/
theorem firstContent_eq_lastContent {files : List File} {name : List Byte}
    (hname : name ∈ files.map Prod.fst) (hnodup : (files.map fun f => place f.1).Nodup) :
    firstContent files name = lastContent files name := by
  obtain ⟨content, hfirst⟩ := exists_firstContent hname
  rw [hfirst]
  obtain ⟨f, hfind, rfl⟩ := Option.map_eq_some_iff.mp hfirst
  have hf : f ∈ files := List.mem_of_find?_eq_some hfind
  have hfname : f.1 = name := by simpa using List.find?_some hfind
  have hmem : (place f.1, f.2) ∈ files.map fun f => (place f.1, f.2) := List.mem_map_of_mem hf
  cases hlast : lastContent files name with
  | none => exact absurd (congrArg place hfname) (Disk.lastOf_eq_none.mp hlast _ hmem)
  | some content =>
    obtain ⟨g, hg, rfl⟩ := Option.map_eq_some_iff.mp hlast
    obtain ⟨f', hf', rfl⟩ := List.mem_map.mp (List.mem_reverse.mp (List.mem_of_find?_eq_some hg))
    have hplace : place f'.1 = place name := by simpa using List.find?_some hg
    have heq : f' = f := List.inj_on_of_nodup_map hnodup hf' hf (by rw [hplace, hfname])
    rw [heq]

/-- Where the files of an archive can be unpacked, `unpack` runs to its end, and the readers
agree on a stored name exactly where the first file of the name has the content of the last
file that leads to the same place; so they do where no two files lead to the same place. -/
theorem readersAgree_iff (os : Os) (hos : MakesDirectories os) (directory : List Byte) (disk : FileDisk)
    (htarget : EmptyTarget os directory disk) (a : StoredArchive) (hrel : ∀ f ∈ a.files, Relative f.1)
    (ha : Unpackable a) (name : CString) (hname : name.1 ∈ a.files.map Prod.fst) :
    (∃ s', runUnpack os directory a.bytes disk = .ok () s') ∧
      (Agrees os directory a.bytes disk name ↔ firstContent a.files name.1 = lastContent a.files name.1) ∧
      ((a.files.map fun f => place f.1).Nodup → Agrees os directory a.bytes disk name) := by
  obtain ⟨s', hrun, hlaid⟩ := laidOut_of_run hos htarget hrel ha
  obtain ⟨f, hf, heq⟩ := List.mem_map.mp hname
  have hname' : Relative name.1 := heq ▸ hrel f hf
  have hplace : place name.1 ≠ [] := by
    obtain ⟨ms, c, hmoves, -⟩ := exists_moves hname' (heq ▸ ha.named f hf)
    rw [place, hmoves, Move.names_append]
    exact List.append_ne_nil_of_right_ne_nil _ (List.cons_ne_nil c [])
  have hdisk : diskAfter os directory a.bytes disk (unpacked os directory name.1) =
      (lastContent a.files name.1).map .file := by
    rw [diskAfter, hrun]
    exact disk_of_laidOut hname' hname hplace hlaid
  have hiff : Agrees os directory a.bytes disk name ↔
      firstContent a.files name.1 = lastContent a.files name.1 := by
    rw [agrees_iff a hname, hdisk]
    constructor
    · rintro ⟨content, hfirst, hlast⟩
      obtain ⟨content', hlast', hfile⟩ := Option.map_eq_some_iff.mp hlast
      cases hfile
      rw [hfirst, hlast']
    · intro hsame
      obtain ⟨content, hfirst⟩ := exists_firstContent hname
      exact ⟨content, hfirst, by rw [← hsame, hfirst]; rfl⟩
  exact ⟨⟨s', hrun⟩, hiff, fun hnodup => hiff.mpr (firstContent_eq_lastContent hname hnodup)⟩

/-! ## Archives -/

/-- The bytes of an archive with the table and the blob. -/
def archiveOf (metadata : List Metadatum) (blob : List Byte) : List Byte :=
  Mem.leBytes 4 metadata.length ++ metadata.flatMap (fun m =>
    Mem.leBytes 4 m.fileNameOffset ++ Mem.leBytes 4 m.fileNameLength ++
      Mem.leBytes 4 m.fileContentOffset ++ Mem.leBytes 4 m.fileContentLength) ++ blob

theorem eq_ok_of_toOption {ε α : Type} {x : Except ε α} {a : α} (h : x.toOption = some a) : x = .ok a := by
  cases x with
  | ok a' => exact congrArg _ (Option.some.inj h)
  | error e => cases h

/-- A disk with the directory `out`. -/
def outDisk : FileDisk := fun loc => if loc = [] ∨ loc = [text "out"] then some .directory else none

theorem emptyTarget_outDisk : EmptyTarget (mkdirShell []) (text "out") outDisk where
  found := rfl
  empty p hp := by
    refine if_neg fun h => h.elim nofun fun h => hp ?_
    exact List.append_right_eq_self.mp h
  text := by decide +kernel
  option := by decide +kernel

/-- The file `lib/a` twice, and an empty file `b` whose content is inside that of `lib/a`. -/
def overlapping : StoredArchive where
  bytes := archiveOf [⟨0, 6, 8, 2⟩, ⟨6, 2, 9, 0⟩, ⟨0, 6, 8, 2⟩] (text "lib/a" ++ [0] ++ text "b" ++ [0] ++ text "hi")
  metadata := [⟨0, 6, 8, 2⟩, ⟨6, 2, 9, 0⟩, ⟨0, 6, 8, 2⟩]
  blobStart := 52
  table := eq_ok_of_toOption (by decide +kernel)
  names := by decide +kernel
  contents := by decide +kernel

theorem readersAgree_overlapping :
    Agrees (mkdirShell []) (text "out") overlapping.bytes outDisk ⟨text "lib/a", by decide +kernel⟩ :=
  (readersAgree_iff _ (makesDirectories_mkdirShell []) _ _ emptyTarget_outDisk overlapping
    (by decide +kernel) (by decide +kernel) _ (by decide +kernel)).2.1.mpr (by decide +kernel)

/-- The name is stored in an archive of relative names, and the readers do not agree on it. -/
structure Differ (a : StoredArchive) (name : CString) : Prop where
  relative : ∀ f ∈ a.files, Relative f.1
  stored : name.1 ∈ a.files.map Prod.fst
  differ : ¬Agrees (mkdirShell []) (text "out") a.bytes outDisk name

theorem not_agrees {os : Os} {directory : List Byte} {disk : FileDisk} {a : StoredArchive} {name : CString}
    (hname : name.1 ∈ a.files.map Prod.fst)
    (h : diskAfter os directory a.bytes disk (unpacked os directory name.1) ≠
      (firstContent a.files name.1).map .file) : ¬Agrees os directory a.bytes disk name := by
  rw [agrees_iff a hname]
  intro ⟨content, hfirst, hdisk⟩
  exact h (by rw [hfirst, hdisk]; rfl)

/-- The file `a`, with two contents. -/
def repeated : StoredArchive where
  bytes := archiveOf [⟨0, 2, 2, 1⟩, ⟨0, 2, 3, 1⟩] (text "a" ++ [0] ++ text "12")
  metadata := [⟨0, 2, 2, 1⟩, ⟨0, 2, 3, 1⟩]
  blobStart := 36
  table := eq_ok_of_toOption (by decide +kernel)
  names := by decide +kernel
  contents := by decide +kernel

/-- The file `a`, and the file `a/b`. -/
def below : StoredArchive where
  bytes := archiveOf [⟨0, 2, 2, 1⟩, ⟨3, 4, 2, 1⟩] (text "a" ++ [0] ++ text "1" ++ text "a/b" ++ [0])
  metadata := [⟨0, 2, 2, 1⟩, ⟨3, 4, 2, 1⟩]
  blobStart := 36
  table := eq_ok_of_toOption (by decide +kernel)
  names := by decide +kernel
  contents := by decide +kernel

/-- A file with the name `a/`. -/
def trailing : StoredArchive where
  bytes := archiveOf [⟨0, 3, 3, 1⟩] (text "a/" ++ [0] ++ text "1")
  metadata := [⟨0, 3, 3, 1⟩]
  blobStart := 20
  table := eq_ok_of_toOption (by decide +kernel)
  names := by decide +kernel
  contents := by decide +kernel

/-- A file in a directory whose name the shell takes for a variable. -/
def expanded : StoredArchive where
  bytes := archiveOf [⟨0, 5, 5, 1⟩] (text "$x/a" ++ [0] ++ text "1")
  metadata := [⟨0, 5, 5, 1⟩]
  blobStart := 20
  table := eq_ok_of_toOption (by decide +kernel)
  names := by decide +kernel
  contents := by decide +kernel

/-- An empty file `a` whose content starts at the end of the archive, and a file `b`. -/
def emptyAtEnd : StoredArchive where
  bytes := archiveOf [⟨0, 2, 4, 0⟩, ⟨2, 2, 0, 1⟩] (text "a" ++ [0] ++ text "b" ++ [0])
  metadata := [⟨0, 2, 4, 0⟩, ⟨2, 2, 0, 1⟩]
  blobStart := 36
  table := eq_ok_of_toOption (by decide +kernel)
  names := by decide +kernel
  contents := by decide +kernel

/-- The readers differ on a repeated name, and on names that cannot be unpacked. -/
theorem not_readersAgree : MakesDirectories (mkdirShell []) ∧ EmptyTarget (mkdirShell []) (text "out") outDisk ∧
    Differ repeated ⟨text "a", by decide +kernel⟩ ∧ Differ below ⟨text "a/b", by decide +kernel⟩ ∧
    Differ trailing ⟨text "a/", by decide +kernel⟩ ∧ Differ expanded ⟨text "$x/a", by decide +kernel⟩ ∧
    Differ emptyAtEnd ⟨text "b", by decide +kernel⟩ := by
  have hdiffer {a : StoredArchive} {name : CString} (hrel : ∀ f ∈ a.files, Relative f.1)
      (hname : name.1 ∈ a.files.map Prod.fst)
      (h : diskAfter (mkdirShell []) (text "out") a.bytes outDisk
        (unpacked (mkdirShell []) (text "out") name.1) ≠ (firstContent a.files name.1).map .file) :
      Differ a name := ⟨hrel, hname, not_agrees hname h⟩
  refine ⟨makesDirectories_mkdirShell [], emptyTarget_outDisk, ?_, ?_, ?_, ?_, ?_⟩
  · exact hdiffer (by decide +kernel) (by decide +kernel) (by decide +kernel)
  · exact hdiffer (by decide +kernel) (by decide +kernel) (by decide +kernel)
  · exact hdiffer (by decide +kernel) (by decide +kernel) (by decide +kernel)
  · exact hdiffer (by decide +kernel) (by decide +kernel) (by decide +kernel)
  · exact hdiffer (by decide +kernel) (by decide +kernel) (by decide +kernel)

end CkbJs.Proof.Readers
