import CkbJs.Framework.Mem

/-!
# The allocator

`include/c-stdlib/src/malloc_impl.c`. `Heap` holds the memory and the static
variables. Addresses and sizes are numbers; what the code computes in a
`size_t` it computes modulo 2⁶⁴ where that can make a difference; a pointer past the end
of the address space, which C does not define, is a number of 2⁶⁴ or more. The anchor of
a bin, `CKB_BIN_TO_CHUNK(i)`, is a pointer into `mal.bins`: it is the odd number
`2 * i + 1`, which is no chunk's address, and its `next` and `prev` are the
`head` and the `tail` of the bin.

A program of `M` can stop: in `a_crash`, or, where C would read past the end of
`bin_tab`, with `table`, or, where C would shift by 64 or more, with `shift`.
-/

namespace CkbJs.Impl.Malloc

def SIZE_ALIGN : Nat := 32
def OVERHEAD : Nat := 16
def DONTCARE : Nat := 16
def MMAP_THRESHOLD : Nat := 0x1c00 * SIZE_ALIGN
def PAGE_SIZE : Nat := 4096
def INT64_MAX : Nat := 2 ^ 63 - 1

structure Heap where
  mem : Mem
  binmap : BitVec 64
  head : Nat → Nat
  tail : Nat → Nat
  programBreak : Nat
  brkMin : Nat
  brkMax : Nat
  /-- The static variable `end` of `expand_heap`. -/
  heapEnd : Nat

inductive Stop where
  | crash
  | table
  | shift
  deriving DecidableEq, Repr

abbrev M := EStateM Stop Heap

/-- `malloc_config`, on a zeroed `mal`. -/
def mallocConfig (mem : Mem) (min max : Nat) : Heap :=
  ⟨mem, 0, fun _ => 0, fun _ => 0, 0, min, max, 0⟩

/-! ## Words and chunks -/

/-- `a - b`, of a `size_t`. -/
def sub64 (a b : Nat) : Nat := (a + 2 ^ 64 - b) % 2 ^ 64

/-- `n | CKB_C_INUSE`. -/
def withInuse (n : Nat) : Nat := n / 2 * 2 + 1

/-- `n & -2`. -/
def withoutInuse (n : Nat) : Nat := n / 2 * 2

namespace Heap

variable (h : Heap)

def word (a : Nat) : Nat := h.mem.load a 8

def setWord (a v : Nat) : Heap := { h with mem := h.mem.store a 8 v }

def psize (c : Nat) : Nat := h.word c
def csize (c : Nat) : Nat := h.word (c + 8)
def setPsize (c v : Nat) : Heap := h.setWord c v
def setCsize (c v : Nat) : Heap := h.setWord (c + 8) v

/-- `CKB_CHUNK_SIZE`. -/
def chunkSize (c : Nat) : Nat := withoutInuse (h.csize c)

/-- `CKB_NEXT_CHUNK`. -/
def nextChunk (c : Nat) : Nat := c + h.chunkSize c

/-- `CKB_PREV_CHUNK`. -/
def prevChunk (c : Nat) : Nat := c - withoutInuse (h.psize c)

/-- `c->csize & CKB_C_INUSE`. -/
def inuse (c : Nat) : Prop := h.csize c % 2 = 1

instance (c : Nat) : Decidable (h.inuse c) := inferInstanceAs (Decidable (_ = _))

/-- `p->next`, of a chunk or an anchor. -/
def next (p : Nat) : Nat := if p % 2 = 1 then h.head (p / 2) else h.word (p + 16)

def prev (p : Nat) : Nat := if p % 2 = 1 then h.tail (p / 2) else h.word (p + 24)

def setNext (p v : Nat) : Heap :=
  if p % 2 = 1 then { h with head := Function.update h.head (p / 2) v } else h.setWord (p + 16) v

def setPrev (p v : Nat) : Heap :=
  if p % 2 = 1 then { h with tail := Function.update h.tail (p / 2) v } else h.setWord (p + 24) v

end Heap

/-- `CKB_BIN_TO_CHUNK`. -/
def binToChunk (i : Nat) : Nat := 2 * i + 1

/-- `CKB_CHUNK_TO_MEM`. -/
def chunkToMem (c : Nat) : Nat := c + OVERHEAD

/-- `CKB_MEM_TO_CHUNK`. -/
def memToChunk (p : Nat) : Nat := p - OVERHEAD

def lockBin (i : Nat) (h : Heap) : Heap :=
  if h.head i = 0 then
    { h with head := Function.update h.head i (binToChunk i)
             tail := Function.update h.tail i (binToChunk i) }
  else h

/-! ## Size classes -/

def binTab : List Nat := [
  32, 33, 34, 35, 36, 36, 37, 37, 38, 38, 39, 39, 40, 40, 40, 40, 41, 41, 41, 41,
  42, 42, 42, 42, 43, 43, 43, 43, 44, 44, 44, 44, 44, 44, 44, 44, 45, 45, 45, 45,
  45, 45, 45, 45, 46, 46, 46, 46, 46, 46, 46, 46, 47, 47, 47, 47, 47, 47, 47, 47]

/-- `none` where the code would read past the end of `bin_tab`. -/
def binIndex (x : Nat) : Option Nat :=
  let x := sub64 (x / SIZE_ALIGN) 1
  if x ≤ 32 then some x
  else if x < 512 then binTab[x / 8 - 4]?
  else if x > 0x1c00 then some 63
  else (binTab[x / 128 - 4]?).map (· + 16)

def binIndexUp (x : Nat) : Option Nat :=
  let x := sub64 (x / SIZE_ALIGN) 1
  if x ≤ 32 then some x
  else
    let x := x - 1
    if x < 512 then (binTab[x / 8 - 4]?).map (· + 1)
    else (binTab[x / 128 - 4]?).map (· + 17)

/-- An index that is looked up. -/
def lookup (i : Option Nat) : M Nat :=
  match i with
  | some i => pure i
  | none => throw .table

/-- `1ULL << i`. -/
def bit (i : Nat) : M (BitVec 64) :=
  if i < 64 then pure (1#64 <<< i) else throw .shift

/-- `mal.binmap & (1ULL << i)`. -/
def testBin (i : Nat) : M Bool := do
  let b ← bit i
  return (← get).binmap &&& b ≠ 0

/-- `ctz`, as the encoded instruction computes it. -/
def firstSet (x : BitVec 64) : Nat := (List.range 64).findIdx fun i => x.getLsbD i

def adjustSize (n : Nat) : Option Nat :=
  if sub64 n 1 > INT64_MAX - SIZE_ALIGN - PAGE_SIZE then
    if n ≠ 0 then none else some SIZE_ALIGN
  else some ((n + OVERHEAD + SIZE_ALIGN - 1) / SIZE_ALIGN * SIZE_ALIGN)

/-! ## The heap -/

/-- `n + (-n & (CKB_PAGE_SIZE - 1))`. -/
def pageUp (n : Nat) : Nat := (n + sub64 0 n % PAGE_SIZE) % 2 ^ 64

/-- `_sbrk`; `none` is `(void *)-1`. -/
def sbrk (incr : Nat) (h : Heap) : Option Nat × Heap :=
  let h := if h.programBreak = 0 then { h with programBreak := pageUp h.brkMin } else h
  if (h.programBreak + incr) % 2 ^ 64 > h.brkMax then (none, h)
  else (some h.programBreak, { h with programBreak := (h.programBreak + incr) % 2 ^ 64 })

/-- `expand_heap`; a null pointer is 0. -/
def expandHeap (n : Nat) (h : Heap) : Nat × Heap :=
  let n := pageUp (n + SIZE_ALIGN)
  let (p, h) := sbrk n h
  let p := p.getD 0
  if p = 0 then (0, h)
  else
    let (n, p, h) :=
      if p ≠ h.heapEnd then
        let n := n - SIZE_ALIGN
        let p := p + SIZE_ALIGN
        (n, p, h.setPsize (memToChunk p) 1)
      else (n, p, h)
    let h := { h with heapEnd := p + n }
    let h := h.setPsize (memToChunk h.heapEnd) (withInuse n)
    let h := h.setCsize (memToChunk h.heapEnd) 1
    let h := h.setCsize (memToChunk p) (withInuse n)
    (memToChunk p, h)

/-! ## Bins -/

def unbin (c i : Nat) : M Unit := do
  let h ← get
  if h.prev c = h.next c then
    let b ← bit i
    modify fun h => { h with binmap := h.binmap &&& ~~~b }
  modify fun h => h.setNext (h.prev c) (h.next c)
  modify fun h => h.setPrev (h.next c) (h.prev c)
  modify fun h => h.setCsize c (withInuse (h.csize c))
  modify fun h => h.setPsize (h.nextChunk c) (withInuse (h.psize (h.nextChunk c)))

def binChunk (self i : Nat) : M Unit := do
  modify fun h => h.setNext self (binToChunk i)
  modify fun h => h.setPrev self (h.tail i)
  modify fun h => h.setPrev (h.next self) self
  modify fun h => h.setNext (h.prev self) self
  let h ← get
  if h.prev self = binToChunk i then
    let b ← bit i
    modify fun h => { h with binmap := h.binmap ||| b }

def trim (self n : Nat) : M Unit := do
  let h ← get
  let n1 := h.chunkSize self
  if n ≥ sub64 n1 DONTCARE then return
  let next := h.nextChunk self
  let split := self + n
  modify fun h => h.setPsize split (withInuse n)
  modify fun h => h.setCsize split (sub64 n1 n)
  modify fun h => h.setPsize next (sub64 n1 n)
  modify fun h => h.setCsize self (withInuse n)
  let i ← lookup (binIndex (sub64 n1 n))
  modify (lockBin i)
  binChunk split i

/-! ## Calls -/

/-- The first `if` of `malloc`: a chunk of the very size. -/
def takeExact (n i : Nat) : M (Option Nat) := do
  if ← (if i < 63 then testBin i else pure false) then
    modify (lockBin i)
    let h ← get
    let c := h.head i
    if c ≠ binToChunk i ∧ sub64 (h.chunkSize c) n ≤ DONTCARE then
      unbin c i
      return some c
    else return none
  else return none

/-- The loop of `malloc` over the bins in the mask, which loses a bit in each
of its at most 64 rounds. -/
def takeFirst : Nat → BitVec 64 → M (Option Nat)
  | 0, _ => pure none
  | rounds + 1, mask => do
    if mask = 0 then return none
    let j := firstSet mask
    modify (lockBin j)
    let c := (← get).head j
    if c ≠ binToChunk j then
      unbin c j
      return some c
    else takeFirst rounds (mask - (mask &&& -mask))

/-- `malloc` after `adjust_size`. -/
def mallocAdjusted (n : Nat) : M Nat := do
  if n ≥ MMAP_THRESHOLD then return 0
  let i ← lookup (binIndexUp n)
  match ← takeExact n i with
  | some c => return chunkToMem c
  | none =>
    let b ← bit i
    match ← takeFirst 64 ((← get).binmap &&& -b) with
    | some c =>
      trim c n
      return chunkToMem c
    | none =>
      let c ← modifyGet (expandHeap n)
      if c = 0 then return 0
      trim c n
      return chunkToMem c

def malloc (request : BitVec 64) : M Nat :=
  (adjustSize request.toNat).elim (pure 0) mallocAdjusted

/-- `__bin_chunk` takes a free chunk on the left in: where the chunk starts then,
and its size. -/
def takePrev (self size psize : Nat) : M (Nat × Nat) := do
  if psize ≠ 0 then
    let i ← lookup (binIndex psize)
    modify (lockBin i)
    let h ← get
    if h.psize self % 2 ≠ 1 then
      let prev := h.prevChunk self
      unbin prev i
      return (prev, size + psize)
    else return (self, size)
  else return (self, size)

/-- `__bin_chunk` takes a free chunk on the right in: where the chunk ends then,
and its size. -/
def takeNext (next size nsize : Nat) : M (Nat × Nat) := do
  if nsize ≠ 0 then
    let i ← lookup (binIndex nsize)
    modify (lockBin i)
    let h ← get
    if ¬h.inuse next then
      unbin next i
      return ((← get).nextChunk next, size + nsize)
    else return (next, size)
  else return (next, size)

/-- `__bin_chunk`. -/
def mergeChunk (self : Nat) : M Unit := do
  let h ← get
  let next := h.nextChunk self
  if h.psize next ≠ h.csize self then throw .crash
  let psize := if h.psize self % 2 = 1 then 0 else withoutInuse (h.psize self)
  let nsize := if h.inuse next then 0 else h.chunkSize next
  let (self, size) ← takePrev self (h.chunkSize self) psize
  let (next, size) ← takeNext next size nsize
  let i ← lookup (binIndex size)
  modify (lockBin i)
  modify fun h => h.setCsize self size
  modify fun h => h.setPsize next size
  binChunk self i

def free (p : Nat) : M Unit := do
  if p = 0 then return
  mergeChunk (memToChunk p)

/-- The last resort of `realloc`. -/
def copyRealloc (p n n0 : Nat) : M Nat := do
  let new ← malloc (BitVec.ofNat 64 (n - OVERHEAD))
  if new = 0 then return 0
  modify fun h => { h with mem := h.mem.copy new p ((if n < n0 then n else n0) - OVERHEAD) }
  free p
  return new

/-- `realloc` of a block, after `adjust_size`. -/
def reallocAdjusted (p n : Nat) : M Nat := do
  let self := memToChunk p
  let h ← get
  let n0 := h.chunkSize self
  if n ≤ n0 ∧ n0 - n ≤ DONTCARE then return p
  let next := h.nextChunk self
  if h.psize next ≠ h.csize self then throw .crash
  if n < n0 then
    let i ← lookup (binIndexUp n)
    let j ← lookup (binIndex n0)
    if ← (if i < j then testBin i else pure false) then copyRealloc p n n0
    else
      let split := self + n
      modify fun h => h.setPsize split (withInuse n)
      modify fun h => h.setCsize self (withInuse n)
      modify fun h => h.setPsize next (withInuse (n0 - n))
      modify fun h => h.setCsize split (withInuse (n0 - n))
      mergeChunk split
      return chunkToMem self
  else
    let nsize := if h.inuse next then 0 else h.chunkSize next
    if n0 + nsize ≥ n then
      let i ← lookup (binIndex nsize)
      modify (lockBin i)
      if ¬(← get).inuse next then
        unbin next i
        let next := (← get).nextChunk next
        modify fun h => h.setPsize next (withInuse (n0 + nsize))
        modify fun h => h.setCsize self (withInuse (n0 + nsize))
        trim self n
        return chunkToMem self
      else copyRealloc p n n0
    else copyRealloc p n n0

def realloc (p : Nat) (request : BitVec 64) : M Nat :=
  if p = 0 then malloc request
  else (adjustSize request.toNat).elim (pure 0) (reallocAdjusted p)

end CkbJs.Impl.Malloc
