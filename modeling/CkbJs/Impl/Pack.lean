import CkbJs.Impl.Unpack

/-!
# Packing files of a disk

`do_pack` of `tools/fs.lua`: the paths on the command line make a table of names, and the files
that the paths lead to go into the archive under their names. `pairs` goes through the table
twice in one order, which is an argument here. The archive is the bytes of its stream, and is
not one of the files that are packed.
-/

namespace CkbJs.Impl.FsLua

/-- Why `do_pack` does not return. -/
inductive DoPackError where
  /-- There is no path on the command line. -/
  | usage
  /-- The error of `must_normalize_path`. -/
  | notRelative (message : List Byte)
  /-- The assertion that a file can be opened. -/
  | notOpened
  | pack (e : PackError)
  deriving DecidableEq

/-- `io.open(path, "r")` and `infile:read("*a")`. -/
def readFile (os : Os) (disk : FileDisk) (path : List Byte) : Option (List Byte) :=
  match disk.fileAt (os.start path) (moves path) with
  | none => none
  | some loc =>
    match disk loc with
    | some (.file content) => some content
    | _ => none

def packed (files : List File) : Except DoPackError (List Byte) :=
  match pack files with
  | .ok archive => .ok archive
  | .error e => .error (.pack e)

end CkbJs.Impl.FsLua
