import CkbJs.Framework.Cursor
import CkbJs.Impl.Stdio
import Mathlib.Logic.Relation

/-!
# What streams are for

`Streams` says what a run of calls on an open stream owes its caller: the offset stays inside the
file, the bytes delivered are those of the content up to the offset (`Position`), and each call
answers for what it did (`Answers`). A `Cursor` in the content says the same without the code: a
call moves it by the bytes it asks for, as far as there are any. `Legal` is what the caller owes,
and `Meets` what the reads must satisfy. A program can open a stream in every state that is
`Reachable`.
-/

namespace CkbJs.Spec.Stdio

open CkbJs.Impl CkbJs.Impl.Stdio

inductive Call where
  | fgetc
  | fread (ptr : Nat) (size nitems : BitVec 64)
  | feof

/-! ## What a call owes -/

/-- What a stream is at: its offset, and where its file is, its size and its bytes. -/
def offset (stream : Nat) (s : Vm) : Nat := ((s.files stream).map FILE.offset).getD 0

def fileOf (stream : Nat) (s : Vm) : Option CellFs.FSFile := (s.files stream).bind FILE.file

def address (stream : Nat) (s : Vm) : Nat := ((fileOf stream s).map CellFs.FSFile.content).getD 0

def size (stream : Nat) (s : Vm) : Nat := ((fileOf stream s).map CellFs.FSFile.size).getD 0

def content (stream : Nat) (s : Vm) : List Byte :=
  ((fileOf stream s).map fun file => s.mem.bytes file.content file.size).getD []

namespace Call

def run (stream : Nat) : Call → M Int
  | fgetc => Impl.Stdio.fgetc (some stream)
  | fread ptr size nitems => do
    let n ← Impl.Stdio.fread ptr size nitems (some stream)
    return n
  | feof => Impl.Stdio.feof (some stream)

/-- What a call has delivered that returned `r` and moved the offset by `n`. -/
def delivered (n : Nat) (r : Int) (mem : Mem) : Call → List Byte
  | fgetc => if r = -1 then [] else [UInt8.ofNat r.toNat]
  | fread ptr _ _ => mem.bytes ptr n
  | feof => []

/-- A call at the offset `p`, with `done` delivered before, returns `r` and moves the offset
to `p'`. -/
def Answers (content done : List Byte) (p p' : Nat) (r : Int) : Call → Prop
  | fgetc => p' = p + min 1 (content.length - p) ∧ -1 ≤ r ∧ r < 256 ∧ (r = -1 ↔ done = content)
  | fread _ size nitems =>
    let n := min (size.toNat * nitems.toNat) (content.length - p)
    p' = p + n ∧ r = (n / size.toNat : Nat)
  | feof => p' = p ∧ (r ≠ 0 ↔ done = content)

end Call

/-- The offset is inside the file, and what was delivered is the content up to there. -/
structure Position (stream : Nat) (content done : List Byte) (s : Vm) : Prop where
  inside : offset stream s ≤ size stream s
  prefixed : done = content.take (offset stream s)

/-- No call of the run stops, each answers for what it did, and the position is right before
and after each. -/
def Streams (stream : Nat) (content : List Byte) : List Call → List Byte → Vm → Prop
  | [], done, s => Position stream content done s
  | c :: cs, done, s => Position stream content done s ∧
    ∃ r s', (c.run stream).run s = .ok r s' ∧
      c.Answers content done (offset stream s) (offset stream s') r ∧
      Streams stream content cs
        (done ++ c.delivered (offset stream s' - offset stream s) r s'.mem) s'

/-! ## What a call asks for -/

namespace Call

/-- How many bytes a call asks for. -/
def amount : Call → Nat
  | fgetc => 1
  | fread _ size nitems => size.toNat * nitems.toNat
  | feof => 0

/-- The bytes that a read is to store lie apart from the content at `addr`. -/
def Apart (addr : Nat) (c : Cursor Byte) : Call → Prop
  | fread ptr size nitems => ∀ i < min (size.toNat * nitems.toNat) (c.items.length - c.pos),
    ptr + i < addr ∨ addr + c.items.length ≤ ptr + i
  | _ => True

end Call

/-- The reads of a run from the cursor store outside the content at `addr`. -/
def Legal (addr : Nat) : List Call → Cursor Byte → Prop
  | [], _ => True
  | c :: cs, cursor => c.Apart addr cursor ∧ Legal addr cs (cursor.advance c.amount)

/-- Where `left` bytes are left: `size` is not taken for 0, the product is not taken for one of fewer
bytes than there are, and the rounding gives the number of whole items. -/
def Exact (size nitems : BitVec 64) (left : Nat) : Prop :=
  let n := min (size.toNat * nitems.toNat) left
  size.toNat % 2 ^ 32 ≠ 0 ∧
  (size.toNat * nitems.toNat < 2 ^ 32 ∨ left ≤ size.toNat * nitems.toNat % 2 ^ 32) ∧
  if n + size.toNat % 2 ^ 32 ≤ 2 ^ 32 then size.toNat ∣ n else n < size.toNat

/-- A read is at the end, or exact. -/
def Call.Fits (c : Cursor Byte) : Call → Prop
  | fread _ size nitems => c.pos = c.items.length ∨ Exact size nitems (c.items.length - c.pos)
  | _ => True

/-- Every read of a run from the cursor is at the end, or exact. -/
def Meets : List Call → Cursor Byte → Prop
  | [], _ => True
  | c :: cs, cursor => c.Fits cursor ∧ Meets cs (cursor.advance c.amount)

/-! ## The states in which a file is opened -/

/-- The state before any call. -/
def start (mem : Mem) : Vm := ⟨false, false, mem, CellFs.Fs.init, fun _ => none⟩

/-- What a program does: it sets the static variables, mounts and looks up files, opens, closes and
reads streams, and writes to the memory. -/
inductive Step (s : Vm) : Vm → Prop where
  | enableLocalAccess (b : Bool) : Step s { s with localAccess := b }
  | enableFsAccess (b : Bool) : Step s { s with fsAccess := b }
  | loadFs (alloc : CellFs.Alloc) (buf buflen : Nat) :
    Step s { s with fs := (CellFs.loadFs s.mem alloc buf buflen s.fs).2 }
  | getFile (alloc : CellFs.Alloc) (name : CString) :
    Step s { s with fs := (CellFs.getFile s.mem alloc name s.fs).2 }
  | fopen {alloc : CellFs.Alloc} {path mode : CString} {r : Option Nat} {s' : Vm} :
    (Impl.Stdio.fopen alloc path mode).run s = .ok r s' → Step s s'
  | fclose {stream : Option Nat} {r : Int} {s' : Vm} :
    (Impl.Stdio.fclose stream).run s = .ok r s' → Step s s'
  | call {stream : Nat} {c : Call} {r : Int} {s' : Vm} : (c.run stream).run s = .ok r s' → Step s s'
  | write (mem : Mem) : Step s { s with mem := mem }

def Reachable (mem : Mem) : Vm → Prop := Relation.ReflTransGen Step (start mem)

end CkbJs.Spec.Stdio
