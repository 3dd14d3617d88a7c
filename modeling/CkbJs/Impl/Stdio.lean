import CkbJs.Impl.CellFs
import Mathlib.Logic.Function.Basic

/-!
# Streams

The functions of `include/c-stdlib/src/stdio_impl.c` that read files of the mounted file
system. A `FILE *` is the block that the `FILE` is in, or `none` for NULL; what the functions
compute in a `uint32_t` they compute modulo 2³².

With local access enabled, a syscall of the debugger answers in the place of each function
(`Stop.syscall`). `ckb_exit` does not return (`Stop.exited`), and a division by zero, which C
does not define, ends the run.
-/

namespace CkbJs.Impl.Stdio

open CellFs (FSFile Fs Alloc)

structure FILE where
  file : Option FSFile
  offset : Nat
  deriving DecidableEq

/-- The static variables, the memory, and the `FILE` in each block. -/
structure Vm where
  localAccess : Bool
  fsAccess : Bool
  mem : Mem
  fs : Fs
  files : Nat → Option FILE

inductive Stop where
  | exited (code : Int)
  | syscall (n : Nat)
  /-- A pointer that does not lead to a `FILE`, or its null `file`, is followed. -/
  | fault
  | divisionByZero
  deriving DecidableEq, Repr

abbrev M := EStateM Stop Vm

def sizeofFILE : Nat := 16

/-- `a - b`, of `uint32_t`. -/
def sub32 (a b : Nat) : Nat := (a + 2 ^ 32 - b) % 2 ^ 32

/-- What each function starts with: the syscall `n`, or `NOT_IMPL`. -/
def accessed (n : Nat) : M Unit := do
  let s ← get
  if s.localAccess then throw (.syscall n)
  else if s.fsAccess then pure ()
  else throw (.exited (-1))

/-- `stream->file`, followed, and `stream->offset`. -/
def deref (stream : Option Nat) : M (FSFile × Nat) := do
  let s ← get
  match stream.bind s.files with
  | some ⟨some file, offset⟩ => return (file, offset)
  | _ => throw .fault

def setFile (stream : Nat) (file : Option FILE) : M Unit :=
  modify fun s => { s with files := Function.update s.files stream file }

def setOffset (stream : Option Nat) (file : FSFile) (offset : Nat) : M Unit :=
  match stream with
  | some stream => setFile stream (some ⟨some file, offset⟩)
  | none => throw .fault

/-- `malloc` may fail, and its result is followed unseen. -/
def allocfile (alloc : Alloc) : M Nat := do
  let s ← get
  let (file, fs) := CellFs.malloc alloc sizeofFILE s.fs
  set { s with fs := fs }
  match file with
  | some file =>
    setFile file (some ⟨none, 0⟩)
    return file
  | none => throw .fault

/-- The `FSFile`, whose `rc` goes down, stays allocated, and no stream leads to it any more. -/
def freefile (file : Nat) : M Unit := do
  let _ ← deref (some file)
  setFile file none
  modify fun s => { s with fs := s.fs.free file }

def fclose (stream : Option Nat) : M Int := do
  accessed 9009
  match stream with
  | some stream =>
    freefile stream
    return 0
  | none => throw .fault

/-- Where the file is not found, the `FILE` stays allocated. -/
def fopen (alloc : Alloc) (path _mode : CString) : M (Option Nat) := do
  accessed 9003
  let file ← allocfile alloc
  let s ← get
  let ((ret, found), fs) := CellFs.getFile s.mem alloc path s.fs
  set { s with fs := fs }
  if ret ≠ 0 then return none
  else
    setFile file (some ⟨found, 0⟩)
    return some file

def fgetc (stream : Option Nat) : M Int := do
  accessed 9008
  if stream = none then return -1
  else
    let (file, offset) ← deref stream
    if file.rc = 0 ∨ offset = file.size then return -1
    else
      let c := (← get).mem (file.content + offset)
      setOffset stream file ((offset + 1) % 2 ^ 32)
      return c.toNat

def isvalidfile (stream : Option Nat) : M Int := do
  if stream = none then return 1
  else
    let (file, _) ← deref stream
    if file.rc = 0 then return 1 else return 0

def mustbevaildfile (stream : Option Nat) : M Unit := do
  let ret ← isvalidfile stream
  if ret ≠ 0 then throw (.exited 1) else pure ()

def fread (ptr : Nat) (size nitems : BitVec 64) (stream : Option Nat) : M Nat := do
  accessed 9005
  mustbevaildfile stream
  let (file, offset) ← deref stream
  if offset = file.size then return 0
  else
    let left := sub32 file.size offset
    let bytesToRead := (size.toNat % 2 ^ 32) * (nitems.toNat % 2 ^ 32) % 2 ^ 32
    let bytesToRead := if bytesToRead > left then left else bytesToRead
    modify fun s => { s with mem := s.mem.copy ptr (file.content + offset) bytesToRead }
    setOffset stream file ((offset + bytesToRead) % 2 ^ 32)
    let s := size.toNat % 2 ^ 32
    if s = 0 then throw .divisionByZero
    else return (bytesToRead + s - 1) % 2 ^ 32 / s

def feof (stream : Option Nat) : M Int := do
  accessed 9006
  let (file, offset) ← deref stream
  if offset = file.size then return 1 else return 0

def ferror (stream : Option Nat) : M Int := do
  accessed 9007
  isvalidfile stream

end CkbJs.Impl.Stdio
