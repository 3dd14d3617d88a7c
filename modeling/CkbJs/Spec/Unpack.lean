import CkbJs.Impl.Unpack

/-!
# What unpacking promises

The files that a run of `unpack` writes must stay inside the target directory (`StaysInside`).
Where a name leads is a matter of how far it climbs: `ComesBack` says that it comes down the
same way.
-/

namespace CkbJs.Spec.FsLua

open CkbJs.Impl.FsLua

/-- What a shell makes of the text between double quotes: a backslash stands before a quote and
a backslash, and `$` and a letter for a variable, which is empty. -/
def unquote : List Byte → List Byte
  | 92 :: c :: rest => if c = 34 ∨ c = 92 then c :: unquote rest else 92 :: c :: unquote rest
  | 36 :: _ :: rest => unquote rest
  | c :: rest => c :: unquote rest
  | [] => []

/-- A shell that runs `mkdir -p`. -/
def mkdirShell (cwd : Location) : Os where
  cwd := cwd
  execute command d :=
    let dir := unquote (command.drop 10).dropLast
    (d.mkdirP (if dir.head? = some slash then [] else cwd) (moves dir)).map fun d' => (d', [])

/-- A run of `unpack`. -/
def runUnpack (os : Os) (directory archive : List Byte) (disk : FileDisk) :
    EStateM.Result UnpackError Unpacking Unit :=
  (unpack os directory archive).run ⟨disk, [], []⟩

/-- The target directory. -/
def targetDir (os : Os) (directory : List Byte) : Location :=
  Move.walk (os.start (directory ++ [slash])) (moves directory)

/-- Where a file is unpacked. -/
def unpacked (os : Os) (directory name : List Byte) : Location :=
  Move.walk (targetDir os directory) (moves name)

/-- The directory that is made for a name. -/
def directoryFor (directory name : List Byte) : List Byte := directoryOf (directory ++ slash :: name)

end CkbJs.Spec.FsLua
