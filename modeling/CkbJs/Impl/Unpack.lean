import CkbJs.Framework.Disk
import CkbJs.Impl.FsLua

/-!
# Unpacking

`unpack` of `tools/fs.lua`, where the path separator is a slash. The archive is the bytes of
its stream, and is not one of the files that are written. The shell that `os.execute` starts
is a parameter. A run leaves a disk and the locations of the files that it has created or
overwritten, those that `io.open` does apart from those that the shell does.

`string.pack` and `string.unpack` are those of Lua 5.4.
-/

namespace CkbJs.Impl.FsLua

/-- The names from the root. -/
abbrev Location := List (List Byte)

abbrev FileDisk := Disk (List Byte) (List Byte)

structure Os where
  /-- The working directory. -/
  cwd : Location
  /-- `os.execute`: if the command succeeds, the disk it leaves, and the files that it has
  created or overwritten. -/
  execute : List Byte → FileDisk → Option (FileDisk × List Location)

/-- Why `unpack` does not return. -/
inductive UnpackError where
  /-- `nil` where a string is expected. -/
  | stringExpected
  /-- `data string too short` of `string.unpack`. -/
  | dataTooShort
  /-- `unfinished string` of `string.unpack`. -/
  | unfinishedString
  /-- `create_directory` calls `os.exit(1)`. -/
  | exit
  /-- The assertion that a file can be opened. -/
  | notOpened
  deriving DecidableEq, Repr

structure Unpacking where
  disk : FileDisk
  /-- The files that `io.open` has created or overwritten. -/
  opened : List Location
  /-- The files that the shell has created or overwritten. -/
  byShell : List Location

abbrev UnpackM := EStateM UnpackError Unpacking

/-! ## The stream -/

/-- `stream:read(length)`, which gives `nil` at the end of the file. -/
def read (archive : List Byte) (pos length : Nat) : Except UnpackError (List Byte) :=
  if archive.length ≤ pos then .error .stringExpected else .ok ((archive.drop pos).take length)

/-- `read_integer_from_stream`. -/
def readInteger (archive : List Byte) (pos : Nat) : Except UnpackError Nat := do
  let str ← read archive pos 4
  if str.length < 4 then .error .dataTooShort else .ok (Mem.number str)

/-- `read_string_null_from_stream`. -/
def readStringNull (archive : List Byte) (pos length : Nat) : Except UnpackError (List Byte) := do
  let str ← read archive pos length
  if 0 ∈ str then .ok (str.takeWhile (· ≠ 0)) else .error .unfinishedString

/-! ## The files -/

def pathSeparator : Byte := slash

/-- `filename:gsub('/', path_separator)`. -/
def separated (filename : List Byte) : List Byte :=
  filename.map fun c => if c = slash then pathSeparator else c

/-- `file:match("(.*[/])")`. -/
def directoryOf (file : List Byte) : List Byte := (file.reverse.dropWhile (· ≠ pathSeparator)).reverse

def isControl (c : Byte) : Bool := c < 32 || c == 127

def digit (n : Nat) : Byte := UInt8.ofNat (48 + n)

/-- `%d`, or `%03d`, of a character. -/
def decimal (c : Byte) (padded : Bool) : List Byte :=
  let n := c.toNat
  if padded || 100 ≤ n then [digit (n / 100), digit (n / 10 % 10), digit (n % 10)]
  else if 10 ≤ n then [digit (n / 10), digit (n % 10)] else [digit n]

/-- The characters of a string between the quotes of `%q`: a backslash stands before a quote, a
backslash and a newline, and before the number of another control character. -/
def quote : List Byte → List Byte
  | [] => []
  | c :: rest =>
    (if c = 34 ∨ c = 92 ∨ c = 10 then [92, c]
      else if isControl c then
        92 :: decimal c (match rest with | d :: _ => 48 ≤ d && d ≤ 57 | [] => false)
      else [c]) ++ quote rest

/-- `('mkdir -p %q'):format(dir)`. -/
def mkdirCommand (dir : List Byte) : List Byte := text "mkdir -p \"" ++ quote dir ++ text "\""

variable (os : Os)

/-- Where a path starts. -/
def Os.start (path : List Byte) : Location := if path.head? = some slash then [] else os.cwd

def createDirectory (dir : List Byte) : UnpackM Unit := do
  let s ← get
  match os.execute (mkdirCommand dir) s.disk with
  | none => throw .exit
  | some (disk, files) => set { s with disk := disk, byShell := s.byShell ++ files }

/-- `io.open(file, "w+")`, which empties the file. -/
def openFile (file : List Byte) : UnpackM Location := do
  let s ← get
  match s.disk.fileAt (os.start file) (moves file) with
  | none => throw .notOpened
  | some loc =>
    set { s with disk := s.disk.set loc (.file []), opened := s.opened ++ [loc] }
    return loc

/-- `f:write(content)`. -/
def writeFile (loc : Location) (content : List Byte) : UnpackM Unit :=
  modify fun s => { s with disk := s.disk.set loc (.file content) }

/-- `copy_stream_to_file`, with the stream at `pos`. -/
def copyStreamToFile (directory filename archive : List Byte) (pos length : Nat) : UnpackM Unit := do
  let filename := separated filename
  let file := directory ++ pathSeparator :: filename
  let dir := directoryOf file
  createDirectory os dir
  let f ← openFile os file
  let content ← ofExcept (read archive pos length)
  writeFile f content

/-! ## The archive -/

structure Metadatum where
  fileNameOffset : Nat
  fileNameLength : Nat
  fileContentOffset : Nat
  fileContentLength : Nat
  deriving DecidableEq, Repr

/-- The loop that reads the table, from a position on. -/
def readMetadata (archive : List Byte) : Nat → Nat → Except UnpackError (List Metadatum)
  | 0, _ => .ok []
  | n + 1, pos => do
    let fileNameOffset ← readInteger archive pos
    let fileNameLength ← readInteger archive (pos + 4)
    let fileContentOffset ← readInteger archive (pos + 8)
    let fileContentLength ← readInteger archive (pos + 12)
    let rest ← readMetadata archive n (pos + 16)
    .ok (⟨fileNameOffset, fileNameLength, fileContentOffset, fileContentLength⟩ :: rest)

/-- The table, and `blob_start`. -/
def readTable (archive : List Byte) : Except UnpackError (List Metadatum × Nat) := do
  let numOfFiles ← readInteger archive 0
  let metadata ← readMetadata archive numOfFiles 4
  .ok (metadata, 4 + 16 * numOfFiles)

/-- The loop over the files. -/
def unpackFiles (directory archive : List Byte) (blobStart : Nat) : List Metadatum → UnpackM Unit
  | [] => pure ()
  | m :: rest => do
    let filename ← ofExcept (readStringNull archive (blobStart + m.fileNameOffset) m.fileNameLength)
    copyStreamToFile os directory filename archive (blobStart + m.fileContentOffset) m.fileContentLength
    unpackFiles directory archive blobStart rest

def unpack (directory archive : List Byte) : UnpackM Unit := do
  let (metadata, blobStart) ← ofExcept (readTable archive)
  unpackFiles os directory archive blobStart metadata

end CkbJs.Impl.FsLua
