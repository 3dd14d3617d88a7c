import CkbJs.Spec.CellFs
import CkbJs.Spec.Unpack

/-!
# What the two readers of an archive promise

An archive is read by `load_fs` and `get_file`, which give the first entry of a name, and by
`unpack`, which leaves the last one on disk. `Agrees` says that they give the same bytes for a
name. `Relative` is what the names must be for that, `Unpackable` what can be unpacked without
an error.
-/

namespace CkbJs.Spec.FsLua

open CkbJs.Impl CkbJs.Impl.CellFs CkbJs.Impl.FsLua

/-! ## Archives -/

def slice (archive : List Byte) (pos length : Nat) : List Byte := (archive.drop pos).take length

/-- An archive that has its count, its entries, the names, with a NUL, and the contents inside. -/
structure StoredArchive where
  bytes : List Byte
  metadata : List Metadatum
  blobStart : Nat
  table : readTable bytes = .ok (metadata, blobStart)
  names : ∀ m ∈ metadata, blobStart + m.fileNameOffset + m.fileNameLength ≤ bytes.length ∧
    0 ∈ slice bytes (blobStart + m.fileNameOffset) m.fileNameLength
  contents : ∀ m ∈ metadata, blobStart + m.fileContentOffset + m.fileContentLength ≤ bytes.length

/-- The file of an entry, with its name up to the NUL. -/
def StoredArchive.file (a : StoredArchive) (m : Metadatum) : File :=
  ((slice a.bytes (a.blobStart + m.fileNameOffset) m.fileNameLength).takeWhile (· ≠ 0),
    slice a.bytes (a.blobStart + m.fileContentOffset) m.fileContentLength)

def StoredArchive.files (a : StoredArchive) : List File := a.metadata.map a.file

structure Relative (name : List Byte) : Prop where
  relative : name.head? ≠ some slash
  components : ∀ c ∈ components name, c ≠ [dot] ∧ c ≠ [dot, dot]

instance (name : List Byte) : Decidable (Relative name) :=
  decidable_of_iff (name.head? ≠ some slash ∧ ∀ c ∈ CkbJs.components name, c ≠ [dot] ∧ c ≠ [dot, dot])
    ⟨fun h => ⟨h.1, h.2⟩, fun h => ⟨h.relative, h.components⟩⟩

/-- Below the target directory, where a name leads that does not climb. -/
def place (name : List Byte) : Location := Move.names (moves name)

/-- The content of the first file of the name. -/
def firstContent (files : List File) (name : List Byte) : Option (List Byte) :=
  (files.find? fun f => f.1 = name).map Prod.snd

/-- The content of the last file whose name leads to the same place. -/
def lastContent (files : List File) (name : List Byte) : Option (List Byte) :=
  Disk.lastOf (files.map fun f => (place f.1, f.2)) (place name)

/-! ## The shell -/

/-- A text in which the shell has nothing to expand between double quotes, and which `%q` does
not change otherwise. -/
def ShellText (t : List Byte) : Prop := ∀ c ∈ t, c ≠ 36 ∧ c ≠ 96 ∧ isControl c = false

instance (t : List Byte) : Decidable (ShellText t) :=
  inferInstanceAs (Decidable (∀ c ∈ t, c ≠ 36 ∧ c ≠ 96 ∧ isControl c = false))

/-- The command makes the directories of such a text, if it does not look like an option. -/
def MakesDirectories (os : Os) : Prop :=
  ∀ dir, ShellText dir → dir.head? ≠ some 45 → ∀ d,
    os.execute (mkdirCommand dir) d = (d.mkdirP (os.start dir) (moves dir)).map fun d' => (d', [])

/-- The target directory is there, and empty. -/
structure EmptyTarget (os : Os) (directory : List Byte) (disk : FileDisk) : Prop where
  found : disk.follow (os.start (directory ++ [slash])) (moves directory) = some (targetDir os directory)
  empty : ∀ p, p ≠ [] → disk (targetDir os directory ++ p) = none
  text : ShellText directory
  option : directory.head? ≠ some 45

/-- Every name is one of a file, no file is below another one, the shell gets the directories as
they are, and no content, not even an empty one, starts at the end of the archive. -/
structure Unpackable (a : StoredArchive) : Prop where
  named : ∀ f ∈ a.files, (components f.1).getLast? ≠ some []
  apart : Disk.Apart (a.files.map fun f => (place f.1, f.2))
  text : ∀ f ∈ a.files, ShellText (directoryOf f.1)
  contents : ∀ m ∈ a.metadata, a.blobStart + m.fileContentOffset < a.bytes.length

instance (a : StoredArchive) : Decidable (Unpackable a) :=
  decidable_of_iff ((∀ f ∈ a.files, (components f.1).getLast? ≠ some []) ∧
      Disk.Apart (a.files.map fun f => (place f.1, f.2)) ∧ (∀ f ∈ a.files, ShellText (directoryOf f.1)) ∧
      ∀ m ∈ a.metadata, a.blobStart + m.fileContentOffset < a.bytes.length)
    ⟨fun h => ⟨h.1, h.2.1, h.2.2.1, h.2.2.2⟩, fun h => ⟨h.named, h.apart, h.text, h.contents⟩⟩

/-! ## Readers -/

/-- The disk after a run of `unpack`, however it ends. -/
def diskAfter (os : Os) (directory archive : List Byte) (disk : FileDisk) : FileDisk :=
  match runUnpack os directory archive disk with
  | .ok _ s => s.disk
  | .error _ s => s.disk

/-- Where a memory holds the archive, `load_fs` mounts it, and `get_file` returns the content. -/
def Gets (archive : List Byte) (name : CString) (content : List Byte) : Prop :=
  ∀ (mem : Mem) (buf : Nat), buf ≠ 0 → mem.Holds buf archive →
    ∀ alloc : Alloc, (∀ t size, alloc t size = true) → ∀ s : Fs,
      ∃ fs file, loadFs mem alloc buf archive.length s = (0, fs) ∧
        (getFile mem alloc name fs).1 = (0, some file) ∧ mem.bytes file.content file.size = content

/-- The bytes that `get_file` returns for the name are those of the file that `unpack` leaves. -/
def Agrees (os : Os) (directory archive : List Byte) (disk : FileDisk) (name : CString) : Prop :=
  ∃ content, diskAfter os directory archive disk (unpacked os directory name.1) = some (.file content) ∧
    Gets archive name content

end CkbJs.Spec.FsLua
