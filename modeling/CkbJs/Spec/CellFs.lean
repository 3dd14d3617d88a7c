import CkbJs.Impl.CellFs

/-!
# What the cell file system is for

An `Archive` is a buffer given to `load_fs`. A `Session` is a file system
under a sequence of calls, together with the archives mounted so far; every
call's reads and results must lie inside the archive they belong to
(`Access.Within`, `InBoundsRun`). `Safe` is what an archive must satisfy for
that. `Overlay` says what a lookup in the mounted archives gives, `LoadAtomic` and
`GetAtomic` what a call leaves when an allocation fails.
-/

namespace CkbJs.Spec.CellFs

open CkbJs.Impl CkbJs.Impl.CellFs

structure Archive where
  buf : Nat
  buflen : Nat
  deriving DecidableEq, Repr

/-- The range is inside the archive's buffer. -/
def Archive.Contains (a : Archive) (addr n : Nat) : Prop :=
  a.buf ≤ addr ∧ addr + n ≤ a.buf + a.buflen

inductive Call where
  | loadFs (a : Archive)
  | getFile (name : CString)

/-- A file system, and the archives mounted in it, the last one first. -/
structure Session where
  fs : Fs
  mounted : List Archive

def Session.init : Session := ⟨Fs.init, []⟩

variable (mem : Mem) (alloc : Alloc)

/-- One call, with a log of its own. -/
def Session.step (c : Call) (s : Session) : Session :=
  let fs := { s.fs with log := [] }
  match c with
  | .loadFs a =>
    let (ret, fs) := loadFs mem alloc a.buf a.buflen fs
    ⟨fs, if ret = 0 then a :: s.mounted else s.mounted⟩
  | .getFile name => ⟨(getFile mem alloc name fs).2, s.mounted⟩

/-- The archive a call of `load_fs` gets. -/
def Call.archive : Call → Option Archive
  | .loadFs a => some a
  | .getFile _ => none

/-- The access is inside the archive it belongs to. -/
def Within (current : Option Archive) (mounted : List Archive) : Access → Prop
  | .table addr n => ∃ a, current = some a ∧ a.Contains addr n
  | .name depth addr n => ∃ a, mounted[depth]? = some a ∧ a.Contains addr n
  | .content depth addr n => ∃ a, mounted[depth]? = some a ∧ a.Contains addr n

/-- Every access of every call of the sequence is inside its archive. -/
def InBoundsRun : List Call → Session → Prop
  | [], _ => True
  | c :: cs, s =>
    (∀ x ∈ (s.step mem alloc c).fs.log, Within c.archive s.mounted x) ∧
      InBoundsRun cs (s.step mem alloc c)

/-! ## Archives in memory -/

/-- The C string is at the address. -/
def CStringAt (addr : Nat) (s : List Byte) : Prop := mem.Holds addr (s ++ [0])

def nameAddr (buf : Nat) (e : FSEntry) : Nat := payload mem buf + e.filename.offset

def contentAddr (buf : Nat) (e : FSEntry) : Nat := payload mem buf + e.content.offset

/-- There is a NUL from the address on, inside the buffer. -/
def Archive.Terminated (a : Archive) (addr : Nat) : Prop :=
  ∃ k, addr + k < a.buf + a.buflen ∧ mem (addr + k) = 0

/-- The entry is the first of the archive that has the name. -/
def Archive.First (a : Archive) (name : CString) (e : FSEntry) : Prop :=
  ∃ before after, entries mem a.buf = before ++ e :: after ∧
    CStringAt mem (nameAddr mem a.buf e) name.1 ∧
    ∀ e' ∈ before, ¬CStringAt mem (nameAddr mem a.buf e') name.1

/-- The count, the entries, every name up to its NUL, and the content of
every entry that is the first of its name are inside the buffer. -/
structure Safe (a : Archive) : Prop where
  header : 4 ≤ a.buflen
  table : 4 + sizeofFSEntry * count mem a.buf ≤ a.buflen
  names : ∀ e ∈ entries mem a.buf, a.Terminated mem (nameAddr mem a.buf e)
  contents : ∀ name e, a.First mem name e → a.Contains (contentAddr mem a.buf e) e.content.length

/-- The archive at the head of a list of mounts. -/
def Represents (m : Mount) (a : Archive) : Prop :=
  m.current.files = entries mem a.buf ∧ (m.current.files ≠ [] → m.current.start = payload mem a.buf)

/-! ## Mounts as an overlay -/

/-- The session after a sequence of calls. -/
def Session.run : List Call → Session → Session
  | [], s => s
  | c :: cs, s => Session.run cs (s.step mem alloc c)

/-- An entry of the archive has the name. -/
def Archive.Has (a : Archive) (name : CString) : Prop :=
  ∃ e ∈ entries mem a.buf, CStringAt mem (nameAddr mem a.buf e) name.1

/-- The entry is the first of its name in the last mounted archive that has the name. -/
def Topmost (mounted : List Archive) (name : CString) (a : Archive) (e : FSEntry) : Prop :=
  ∃ newer older, mounted = newer ++ a :: older ∧ a.First mem name e ∧ ∀ a' ∈ newer, ¬a'.Has mem name

/-- What a caller sees of a file, apart from the block it is in. -/
def view (f : FSFile) : CString × Nat × Nat × Nat := (f.filename, f.content, f.size, f.rc)

/-- Looking a name up succeeds exactly where there is memory for the result and some mounted
archive has the name, and then gives the topmost entry of the name; mounting an archive
that does not have the name changes nothing. -/
structure Overlay (s : Session) : Prop where
  success : ∀ name, (getFile mem alloc name s.fs).1.1 = 0 ↔
    alloc s.fs.clock sizeofFSFile = true ∧ ∃ a ∈ s.mounted, a.Has mem name
  content : ∀ name, (getFile mem alloc name s.fs).1.1 = 0 → ∃ file a e,
    (getFile mem alloc name s.fs).1.2 = some file ∧ Topmost mem s.mounted name a e ∧
      file.content = contentAddr mem a.buf e ∧ file.size = e.content.length
  mount : ∀ a name, (s.step mem alloc (.loadFs a)).mounted = a :: s.mounted → ¬a.Has mem name →
    alloc s.fs.clock sizeofFSFile = true →
    alloc (s.step mem alloc (.loadFs a)).fs.clock sizeofFSFile = true →
      (getFile mem alloc name (s.step mem alloc (.loadFs a)).fs).1.map id (Option.map view) =
        (getFile mem alloc name s.fs).1.map id (Option.map view)

/-! ## Blocks -/

/-- The blocks reachable from a mount, without those of the mounts before it. -/
def blocks (m : Mount) : List Nat := m.block :: m.current.block :: m.current.filesBlock.toList

/-- The blocks were allocated between the two states, and are what is live in addition. -/
structure Gains (new : List Nat) (s s' : Fs) : Prop where
  live : s'.live.Perm (new ++ s.live)
  nodup : new.Nodup
  fresh : ∀ b ∈ new, s.nextBlock ≤ b ∧ b < s'.nextBlock

/-- `load_fs` mounts one archive in new blocks, or leaves mounts and blocks as they were. -/
structure LoadAtomic (s : Fs) (ret : Int) (s' : Fs) : Prop where
  code : ret = 0 ∨ ret = -1
  failed : ret = -1 → s'.mounts = s.mounts ∧ s'.live = s.live
  mounted : ret = 0 → ∃ m, s'.mounts = m :: s.mounts ∧ Gains (blocks m) s s'

/-- `get_file` stores a file in a new block, or stores nothing and leaves the blocks as they
were. -/
structure GetAtomic (s : Fs) (r : Int × Option FSFile) (s' : Fs) : Prop where
  code : r.1 = 0 ∨ r.1 = -1
  mounts : s'.mounts = s.mounts
  failed : r.1 = -1 → r.2 = none ∧ s'.live = s.live
  returned : r.1 = 0 → ∃ file, r.2 = some file ∧ Gains [file.block] s s'

end CkbJs.Spec.CellFs
