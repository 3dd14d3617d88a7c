import CkbJs.Framework.Mem
import CkbJs.Framework.Path

/-!
# The packer

`tools/fs.lua`, where the path separator is a slash. A table of files is the list
of its names and contents, in the order in which `pairs` goes through it. A run
of `pack` either raises an error of `string.pack` or writes the bytes of an archive to
its stream. `must_normalize_path` makes names of the paths on the command line, and
`do_pack` the table.
-/

namespace CkbJs.Impl.FsLua

/-- The errors of `string.pack`. -/
inductive PackError where
  | unsignedOverflow
  | stringContainsZeros
  deriving DecidableEq, Repr

/-- A name, and the content of the file it stands for. -/
abbrev File := List Byte × List Byte

/-- `string.pack("<I4", num)`. -/
def appendInteger (num : Nat) : Except PackError (List Byte) :=
  if num < 2 ^ 32 then .ok (Mem.leBytes 4 num) else .error .unsignedOverflow

/-- `string.pack("z", str)`. -/
def appendStringNull (str : List Byte) : Except PackError (List Byte) :=
  if 0 ∈ str then .error .stringContainsZeros else .ok (str ++ [0])

/-- `append_file_to_stream`. -/
def appendFile (content : List Byte) : List Byte := content ++ [0]

/-- The first loop of `pack`: the entries, with the running offset. -/
def packEntries : List File → Nat → Except PackError (List Byte)
  | [], _ => .ok []
  | (name, content) :: rest, offset => do
    let nameOffset ← appendInteger offset
    let length := name.length + 1
    let nameLength ← appendInteger length
    let offset := offset + length
    let contentOffset ← appendInteger offset
    let length := content.length
    let contentLength ← appendInteger length
    let rest ← packEntries rest (offset + length + 1)
    .ok (nameOffset ++ nameLength ++ contentOffset ++ contentLength ++ rest)

/-- The second loop of `pack`: the names and contents. -/
def packBlobs : List File → Except PackError (List Byte)
  | [] => .ok []
  | (name, content) :: rest => do
    let name ← appendStringNull name
    let rest ← packBlobs rest
    .ok (name ++ appendFile content ++ rest)

def pack (files : List File) : Except PackError (List Byte) := do
  let num ← appendInteger files.length
  let entries ← packEntries files 0
  let blobs ← packBlobs files
  .ok (num ++ entries ++ blobs)

/-! ## Names -/

def colon : Byte := 58

/-- A character of `[a-zA-Z]`. -/
def isLetter (c : Byte) : Bool := 97 ≤ c && c ≤ 122 || 65 ≤ c && c ≤ 90

/-- `path:find("^[a-zA-Z]:")`. -/
def hasDrive : List Byte → Bool
  | c :: d :: _ => isLetter c && d == colon
  | _ => false

def isIdealPath (path : List Byte) : Bool :=
  !([slash].isPrefixOf path) && !([dot, dot].isPrefixOf path) && !hasDrive path

/-- `path:gsub("^[.]/", "")`. -/
def removeLeading : List Byte → List Byte
  | a :: b :: rest => if a = dot ∧ b = slash then rest else a :: b :: rest
  | path => path

/-- `path:gsub("/[.]/", "/")`, which goes on behind a match. -/
def removeInner : List Byte → List Byte
  | a :: b :: c :: rest =>
    if a = slash ∧ b = dot ∧ c = slash then slash :: removeInner rest
    else a :: removeInner (b :: c :: rest)
  | path => path

def normalizeRelativePath (path : List Byte) : List Byte := removeInner (removeLeading path)

/-- The bytes of a text. -/
def text (s : String) : List Byte := s.toList.map fun c => UInt8.ofNat c.toNat

/-- The result, or the text of the error. -/
def mustNormalizePath (path : List Byte) : Except (List Byte) (List Byte) :=
  if isIdealPath path then .ok (normalizeRelativePath path)
  else .error (text "Either not a relative path or a relative path referring to ..: " ++ path)

/-- A name, and the path on the command line that it stands for. -/
abbrev Entry := List Byte × List Byte

/-- `files[name] = path`. -/
def setEntry (files : List Entry) (name path : List Byte) : List Entry :=
  files.filter (fun e => e.1 ≠ name) ++ [(name, path)]

/-- The loops of `do_pack` over the paths. -/
def addEntries : List (List Byte) → List Entry → Except (List Byte) (List Entry)
  | [], files => .ok files
  | path :: paths, files => do
    let name ← mustNormalizePath path
    addEntries paths (setEntry files name path)

/-- The table of `do_pack`. -/
def doPackFiles (paths : List (List Byte)) : Except (List Byte) (List Entry) := addEntries paths []

end CkbJs.Impl.FsLua
