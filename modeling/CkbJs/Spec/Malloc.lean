import CkbJs.Framework.Ring
import CkbJs.Framework.Tiling
import CkbJs.Impl.Malloc

/-!
# What the allocator is for

A client's view: `State` is the heap with the blocks that are live, `Step` is a call,
under the discipline `Legal`, or a byte that the client writes into one of its blocks.
`Contract` says what every reachable state and every call owes the client.

The allocator's own view: `Ordered` says that the heap is in order, chunks, tags, bins
and the map of bins, and `Total` that a call stays inside the table and the map and that a
block can always be made smaller.
-/

namespace CkbJs.Spec.Malloc

open CkbJs.Impl.Malloc

/-! ## Blocks and calls -/

/-- A block of the client: where it is, and for how many bytes it asked. -/
structure Block where
  ptr : Nat
  len : Nat

structure State where
  heap : Heap
  live : List Block

inductive Call where
  | malloc (n : BitVec 64)
  | realloc (p : Nat) (n : BitVec 64)
  | free (p : Nat)

namespace Call

def run : Call → M Nat
  | malloc n => Impl.Malloc.malloc n
  | realloc p n => Impl.Malloc.realloc p n
  | free p => do
    Impl.Malloc.free p
    return 0

/-- The block that the call releases, unless it fails. -/
def arg : Call → Nat
  | malloc _ => 0
  | realloc p _ => p
  | free p => p

/-- The blocks after a call that returned `r`. -/
def after (live : List Block) : Call → Nat → List Block
  | malloc n, r => if r = 0 then live else ⟨r, n.toNat⟩ :: live
  | realloc p n, r => if r = 0 then live else ⟨r, n.toNat⟩ :: live.filter (·.ptr ≠ p)
  | free p, _ => live.filter (·.ptr ≠ p)

end Call

/-- `realloc` and `free` get NULL or a live block. -/
def Legal (s : State) (c : Call) : Prop := c.arg = 0 ∨ ∃ b ∈ s.live, b.ptr = c.arg

instance (s : State) (c : Call) : Decidable (Legal s c) := inferInstanceAs (Decidable (_ ∨ _))

/-- A request of `realloc` stays below the limit of `malloc`. -/
def Small (_ : State) : Call → Prop
  | .realloc p n => p = 0 ∨ ∀ m, adjustSize n.toNat = some m → m < MMAP_THRESHOLD
  | _ => True

instance (s : State) (c : Call) : Decidable (Small s c) :=
  match c with
  | .realloc _ n =>
    have : Decidable (∀ m, adjustSize n.toNat = some m → m < MMAP_THRESHOLD) :=
      inferInstanceAs (Decidable (∀ m ∈ adjustSize n.toNat, m < MMAP_THRESHOLD))
    inferInstanceAs (Decidable (_ ∨ _))
  | .malloc _ => inferInstanceAs (Decidable True)
  | .free _ => inferInstanceAs (Decidable True)

/-- A call that `L` allows and that ends, or a byte written inside a block. -/
inductive Step (L : State → Call → Prop) (s : State) : State → Prop where
  | call {c : Call} {r : Nat} {h : Heap} : L s c → c.run.run s.heap = .ok r h →
      Step L s ⟨h, c.after s.live r⟩
  | write {b : Block} {i : Nat} (v : Byte) : b ∈ s.live → i < b.len →
      Step L s { s with heap := { s.heap with mem := Function.update s.heap.mem (b.ptr + i) v } }

/-- The state after `malloc_config`. -/
def start (mem : Mem) (min max : Nat) : State := ⟨mallocConfig mem min max, []⟩

def Reachable (L : State → Call → Prop) (mem : Mem) (min max : Nat) : State → Prop :=
  Relation.ReflTransGen (Step L) (start mem min max)

/-! ## The contract -/

/-- The bytes from the block to the next chunk. -/
def Block.usable (h : Heap) (b : Block) : Nat := h.chunkSize (memToChunk b.ptr) - OVERHEAD

/-- The live blocks are apart, aligned, inside the range and long enough. -/
structure Blocks (min max : Nat) (s : State) : Prop where
  disjoint : s.live.Pairwise fun b c =>
    b.ptr + b.usable s.heap ≤ c.ptr ∨ c.ptr + c.usable s.heap ≤ b.ptr
  aligned : ∀ b ∈ s.live, b.ptr % 16 = 0
  inside : ∀ b ∈ s.live, min ≤ b.ptr ∧ b.ptr + b.usable s.heap ≤ max
  long : ∀ b ∈ s.live, b.len ≤ b.usable s.heap ∧ 0 < b.usable s.heap

/-- The bytes of a block are the same. -/
def Unchanged (h h' : Heap) (b : Block) : Prop :=
  ∀ i < b.usable h, h'.mem (b.ptr + i) = h.mem (b.ptr + i)

/-- No bin from `i` on has a chunk. -/
def NoBin (h : Heap) (i : Nat) : Prop :=
  ∀ j, i ≤ j → j < 64 → h.head j = 0 ∨ h.head j = binToChunk j

/-- Where the break is, or will start. -/
def breakOf (h : Heap) : Nat := if h.programBreak = 0 then pageUp h.brkMin else h.programBreak

/-- Why `malloc` may return NULL for an adjusted size of `m`. -/
def NoRoom (h : Heap) (m : Nat) : Prop :=
  MMAP_THRESHOLD ≤ m ∨
    (∃ i, binIndexUp m = some i ∧ NoBin h i) ∧ h.brkMax < breakOf h + pageUp (m + SIZE_ALIGN)

/-- What the call `c` owes the client when it returns `r` in the heap `h'`. -/
structure Fulfilled (s : State) (c : Call) (r : Nat) (h' : Heap) : Prop where
  others : ∀ b ∈ s.live, b.ptr ≠ c.arg → Unchanged s.heap h' b
  prefixKept : ∀ p n, c = .realloc p n → r ≠ 0 → ∀ b ∈ s.live, b.ptr = p →
    ∀ i < Nat.min b.len n.toNat, h'.mem (r + i) = s.heap.mem (p + i)
  failed : (∀ p, c ≠ .free p) → r = 0 → ∀ b ∈ s.live, Unchanged s.heap h' b
  noMemory : ∀ n, c = .malloc n → r = 0 →
    ∀ m, adjustSize n.toNat = some m → NoRoom s.heap m

/-- The contract: the blocks of every reachable state are in order, and every call the
discipline allows ends and owes nothing. -/
def Contract (min max : Nat) : Prop :=
  ∀ mem s, Reachable (fun s c => Legal s c ∧ Small s c) mem min max s → Blocks min max s ∧
    ∀ c, Legal s c → Small s c → ∃ r h', c.run.run s.heap = .ok r h' ∧ Fulfilled s c r h'

/-- The block is not to become larger than it is. -/
def Shrinks (s : State) (b : Block) (n : BitVec 64) : Prop :=
  n.toNat ≤ b.len ∨ ∃ m, adjustSize n.toNat = some m ∧ m ≤ s.heap.chunkSize (memToChunk b.ptr)

/-- The call ends, which it only does with every index inside the table and every shift
below 64, and a block that is not to become larger is there, with the bytes it is to keep. -/
def Total (s : State) (c : Call) : Prop :=
  ∃ r h', c.run.run s.heap = .ok r h' ∧ ∀ p n, c = .realloc p n → ∀ b ∈ s.live, b.ptr = p →
    Shrinks s b n → r ≠ 0 ∧ ∀ i < n.toNat, h'.mem (r + i) = s.heap.mem (p + i)

/-- `realloc` is to make a block smaller, but not below 8194 units. -/
def LargeShrink (s : State) (c : Call) : Prop :=
  ∃ p n m, c = .realloc p n ∧ p ≠ 0 ∧ adjustSize n.toNat = some m ∧ 8194 * SIZE_ALIGN ≤ m ∧
    m < s.heap.chunkSize (memToChunk p)

/-- A range in the middle of the address space: the largest step of the break does not wrap. -/
structure Range (min max : Nat) : Prop where
  min_le : min + 0x39000 ≤ 2 ^ 64
  max_lt : max + 0x38000 < 2 ^ 64

/-! ## The heap in order -/

structure Chunk where
  addr : Nat
  size : Nat
  used : Bool

/-- The size words of a chunk: its own, and the next chunk's `psize`. -/
def Chunk.tag (c : Chunk) : Nat := c.size + c.used.toNat

/-- No two neighbours are both free. -/
def Apart (cs : List Chunk) : Prop := cs.IsChain fun c d => c.used = true ∨ d.used = true

/-- The heap consists of the chunks `cs`, from `base` to the sentinel at `sent`, of which
those in `B i` are in bin `i`. -/
structure Consists (h : Heap) (base : Nat) (cs : List Chunk) (sent : Nat)
    (B : Nat → List Nat) : Prop where
  tiles : Tiles Chunk.addr Chunk.size base cs sent
  sized : ∀ c ∈ cs, 0 < c.size ∧ c.size % SIZE_ALIGN = 0
  csize : ∀ c ∈ cs, h.csize c.addr = c.tag
  psize : ∀ c ∈ cs, h.psize (c.addr + c.size) = c.tag
  sentinel : h.csize sent = 1 ∧ h.heapEnd = chunkToMem sent
  binned : ∀ i a, a ∈ B i ↔ ∃ c ∈ cs, c.used = false ∧ c.addr = a ∧ binIndex c.size = some i
  nodup : ∀ i, (B i).Nodup
  ring : ∀ i < 64, h.head i ≠ 0 ∧ Ring h.next h.prev (binToChunk i) (B i) ∨ h.head i = 0 ∧ B i = []
  binmap : ∀ i, h.binmap.getLsbD i = true ↔ B i ≠ []
  apart : Apart cs

/-- The first bit of the mask leads to a chunk, for every mask `malloc` can scan. -/
def ScanBreaks (h : Heap) : Prop :=
  ∀ i < 64, let mask := h.binmap &&& -(1#64 <<< i)
    mask ≠ 0 → h.head (firstSet mask) ≠ 0 ∧ h.head (firstSet mask) ≠ binToChunk (firstSet mask)

/-- The heap is in order: it has not begun, or it consists of chunks, of which the used
ones are the live blocks. -/
def Ordered (s : State) : Prop :=
  (s.heap.heapEnd = 0 ∧ s.live = [] ∧ s.heap.binmap = 0 ∧ ∀ i, NoBin s.heap i) ∨
  ∃ base cs sent B, Consists s.heap base cs sent B ∧
    (∀ p, (∃ b ∈ s.live, b.ptr = p) ↔ ∃ c ∈ cs, c.used = true ∧ chunkToMem c.addr = p) ∧
    (s.live = [] → ∃ c, cs = [c] ∧ c.used = false)

/-- The heap is in order in every reachable state, the scan of the bins breaks at its first bit,
and no call stops. -/
def StaysOrdered (min max : Nat) : Prop :=
  ∀ mem s, Reachable (fun s c => Legal s c ∧ Small s c) mem min max s → Ordered s ∧ ScanBreaks s.heap ∧
    ∀ c, Legal s c → Small s c → ∃ r h', c.run.run s.heap = .ok r h'

end CkbJs.Spec.Malloc
