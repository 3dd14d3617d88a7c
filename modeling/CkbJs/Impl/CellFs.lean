import CkbJs.Framework.Mem

/-!
# The cell file system

`include/ckb_cell_fs.c`: `load_fs` mounts an archive that is in memory,
`get_file` looks a name up in the mounted archives, the last one first. The
memory is a parameter, as neither function writes outside the blocks it
allocates. `Fs` holds the list of mounts, the live blocks, and a log of every
range of memory that a call read or returned.
-/

namespace CkbJs.Impl

/-- A C string, without its NUL. -/
def CString := { s : List Byte // 0 ∉ s }
  deriving DecidableEq

/-- `""`. -/
def CString.empty : CString := ⟨[], by decide⟩

/-- `"main.js"` and `"main.bc"`. -/
def mainFileName : CString := ⟨[109, 97, 105, 110, 46, 106, 115], by decide⟩
def mainFileNameBc : CString := ⟨[109, 97, 105, 110, 46, 98, 99], by decide⟩

namespace CellFs

structure FSBlob where
  offset : Nat
  length : Nat
  deriving DecidableEq, Repr

structure FSEntry where
  filename : FSBlob
  content : FSBlob
  deriving DecidableEq, Repr

/-- A `CellFileSystemNode`, with the block it is in and that of its entries;
a null `start` is 0. -/
structure Node where
  block : Nat
  count : Nat
  filesBlock : Option Nat
  files : List FSEntry
  start : Nat
  deriving DecidableEq, Repr

/-- A `CellFileSystem`; `next` is the rest of the list of mounts. -/
structure Mount where
  block : Nat
  current : Node
  deriving DecidableEq, Repr

structure FSFile where
  block : Nat
  filename : CString
  content : Nat
  size : Nat
  rc : Nat
  deriving DecidableEq

/-- A range of memory that a call read or returned. -/
inductive Access where
  /-- Read by `load_fs` from the buffer it mounts. -/
  | table (addr n : Nat)
  /-- Read by `strcmp` from a name stored in the mount at this depth. -/
  | name (depth addr n : Nat)
  /-- The content of the returned file, which is in the mount at this depth. -/
  | content (depth addr n : Nat)
  deriving DecidableEq, Repr

structure Fs where
  clock : Nat
  live : List Nat
  nextBlock : Nat
  /-- `CELL_FILE_SYSTEM`, the last mounted archive first. -/
  mounts : List Mount
  log : List Access
  deriving DecidableEq, Repr

def Fs.init : Fs := ⟨0, [], 0, [], []⟩

/-- Whether a `malloc` of a size made at a given moment succeeds. -/
abbrev Alloc := Nat → Nat → Bool

variable (mem : Mem) (alloc : Alloc)

def malloc (size : Nat) (s : Fs) : Option Nat × Fs :=
  if alloc s.clock size then
    (some s.nextBlock,
      { s with clock := s.clock + 1, live := s.nextBlock :: s.live, nextBlock := s.nextBlock + 1 })
  else (none, { s with clock := s.clock + 1 })

def Fs.free (s : Fs) (block : Nat) : Fs := { s with live := s.live.erase block }

def Fs.logged (s : Fs) (accesses : List Access) : Fs := { s with log := s.log ++ accesses }

def sizeofFSEntry : Nat := 16
def sizeofNode : Nat := 24
def sizeofCellFileSystem : Nat := 16
def sizeofFSFile : Nat := 24

/-- The `uint32_t` at the start of an archive. -/
def count (buf : Nat) : Nat := mem.load buf 4

def entryAt (addr : Nat) : FSEntry :=
  { filename := { offset := mem.load addr 4, length := mem.load (addr + 4) 4 }
    content := { offset := mem.load (addr + 8) 4, length := mem.load (addr + 12) 4 } }

/-- The entries of an archive, from its address. -/
def entries (buf : Nat) : List FSEntry :=
  (List.range (count mem buf)).map fun i => entryAt mem (buf + 4 + sizeofFSEntry * i)

/-- Where the payload of an archive starts. -/
def payload (buf : Nat) : Nat := buf + 4 + sizeofFSEntry * count mem buf

/-- `load_fs`, on `&CELL_FILE_SYSTEM`. Its `buflen` is not used. -/
def loadFs (buf _buflen : Nat) (s : Fs) : Int × Fs :=
  if buf = 0 then (-1, s)
  else
    match malloc alloc sizeofNode s with
    | (none, s) => (-1, s)
    | (some node, s) =>
      match malloc alloc sizeofCellFileSystem s with
      | (none, s) => (-1, s.free node)
      | (some newfs, s) =>
        let n := count mem buf
        let s := s.logged [.table buf 4]
        if n = 0 then
          let current : Node := ⟨node, n, none, [], 0⟩
          (0, { s with mounts := ⟨newfs, current⟩ :: s.mounts })
        else
          match malloc alloc (sizeofFSEntry * n) s with
          | (none, s) => (-1, (s.free node).free newfs)
          | (some files, s) =>
            let s := s.logged [.table (buf + 4) (sizeofFSEntry * n)]
            let current : Node := ⟨node, n, some files, entries mem buf, payload mem buf⟩
            (0, { s with mounts := ⟨newfs, current⟩ :: s.mounts })

/-- `strcmp` of a name and the string at an address: how many bytes of the
latter it reads, and whether they are equal. -/
def strcmp : List Byte → Nat → Nat × Bool
  | [], addr => (1, mem addr == 0)
  | c :: cs, addr =>
    if mem addr = c then
      let (n, eq) := strcmp cs (addr + 1)
      (n + 1, eq)
    else (1, false)

/-- The loop over the entries of one mount. -/
def findEntry (name : CString) (depth start : Nat) : List FSEntry → List Access × Option FSEntry
  | [] => ([], none)
  | entry :: rest =>
    let addr := start + entry.filename.offset
    let (n, eq) := strcmp mem name.1 addr
    if eq then ([.name depth addr n], some entry)
    else
      let (accesses, found) := findEntry name depth start rest
      (.name depth addr n :: accesses, found)

/-- The loop over the mounts: the entry found, with the mount's depth and
payload address. -/
def findFile (name : CString) (depth : Nat) : List Mount → List Access × Option (Nat × Nat × FSEntry)
  | [] => ([], none)
  | m :: rest =>
    match findEntry mem name depth m.current.start m.current.files with
    | (accesses, some entry) => (accesses, some (depth, m.current.start, entry))
    | (accesses, none) =>
      let (accesses', found) := findFile name (depth + 1) rest
      (accesses ++ accesses', found)

/-- `get_file`, on `CELL_FILE_SYSTEM`: the return code, and what it stores in
`*f`, if anything. -/
def getFile (name : CString) (s : Fs) : (Int × Option FSFile) × Fs :=
  if s.mounts = [] then ((-1, none), s)
  else
    match malloc alloc sizeofFSFile s with
    | (none, s) => ((-1, none), s)
    | (some file, s) =>
      match findFile mem name 0 s.mounts with
      | (accesses, some (depth, start, entry)) =>
        let content := start + entry.content.offset
        ((0, some
          { block := file, filename := name, content := content
            size := entry.content.length, rc := 1 }),
          s.logged (accesses ++ [.content depth content entry.content.length]))
      | (accesses, none) => ((-1, none), (s.logged accesses).free file)

end CellFs

end CkbJs.Impl
