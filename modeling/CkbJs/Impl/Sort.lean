import CkbJs.Framework.Shuffle

/-!
# Sorting

`rqsort` of `quickjs/cutils.c`, which sorts an array in place with a comparison
function that may do anything. A pointer into the array is the index it points
to, so that the element size is left out, and with it the choice of the
exchange functions. The integers `i`, `lt` and `gt` of the partition repeat the
pointers `pi`, `plt` and `pgt`; the model has only the pointers.
-/

namespace CkbJs.Impl.Sort

open CkbJs.Shuffle

/-- The array, and what the comparison function reads and changes. -/
structure State (α σ : Type) where
  elems : Nat → α
  world : σ

inductive Stop where
  /-- An element outside of the array is accessed. -/
  | outOfBounds
  /-- A segment is put behind the end of `stack`. -/
  | stackOverflow
  /-- A loop is not bounded by the fuel. -/
  | fuel
  deriving DecidableEq

abbrev M (α σ : Type) := EStateM Stop (State α σ)

def STACK_SIZE : Nat := 50
def MAX_DEPTH : Nat := 50

/-- An entry of `stack`. -/
structure Entry where
  base : Nat
  count : Nat
  depth : Nat

variable {α σ : Type} (cmp : α → α → σ → Int × σ) (nmemb : Nat)

/-- `cmp` of two elements of the array of `nmemb` elements. -/
def compare (i j : Nat) : M α σ Int := do
  let s ← get
  if i < nmemb ∧ j < nmemb then
    let r := cmp (s.elems i) (s.elems j) s.world
    set (⟨s.elems, r.2⟩ : State α σ)
    return r.1
  else throw .outOfBounds

def swap (i j : Nat) : M α σ Unit := do
  let s ← get
  if i < nmemb ∧ j < nmemb then set (⟨swapped s.elems i j, s.world⟩ : State α σ)
  else throw .outOfBounds

/-- `swap_block`: `n` elements are exchanged. -/
def swapBlock : Nat → Nat → Nat → M α σ Unit
  | _, _, 0 => pure ()
  | x, y, n + 1 => do
    swap nmemb x y
    swapBlock (x + 1) (y + 1) n

/-- The element that the inner loop of `heapsortx` goes on with. -/
def largerChild (base n c : Nat) : M α σ Nat := do
  if c + 1 < n then
    let r ← compare cmp nmemb (base + c) (base + c + 1)
    if r ≤ 0 then return c + 1 else return c
  else return c

/-- The inner loop of `heapsortx`, on the first `n` elements. -/
def siftDown (base n : Nat) : Nat → Nat → M α σ Unit
  | 0, _ => throw .fuel
  | fuel + 1, r =>
    if 2 * r + 1 < n then do
      let c ← largerChild cmp nmemb base n (2 * r + 1)
      let d ← compare cmp nmemb (base + r) (base + c)
      if 0 < d then pure ()
      else
        swap nmemb (base + r) (base + c)
        siftDown base n fuel c
    else pure ()

/-- The first loop of `heapsortx`: `i` elements are still in front of the heap. -/
def heapify (base n : Nat) : Nat → M α σ Unit
  | 0 => pure ()
  | i + 1 => do
    siftDown cmp nmemb base n n i
    heapify base n i

/-- The second loop of `heapsortx`: the first `i + 1` elements are the heap. -/
def popAll (base : Nat) : Nat → M α σ Unit
  | 0 => pure ()
  | i + 1 => do
    swap nmemb base (base + (i + 1))
    siftDown cmp nmemb base (i + 1) (i + 1) 0
    popAll base i

/-- `heapsortx`. -/
def heapsortx (base n : Nat) : M α σ Unit :=
  if 1 < n then do
    heapify cmp nmemb base n (n / 2)
    popAll cmp nmemb base (n - 1)
  else pure ()

def med3 (a b c : Nat) : M α σ Nat := do
  let ab ← compare cmp nmemb a b
  if ab < 0 then
    let bc ← compare cmp nmemb b c
    if bc < 0 then return b
    else
      let ac ← compare cmp nmemb a c
      if ac < 0 then return c else return a
  else
    let bc ← compare cmp nmemb b c
    if 0 < bc then return b
    else
      let ac ← compare cmp nmemb a c
      if ac < 0 then return a else return c

/-- The first inner loop of the partition, with `k` elements from `pi` to `pj`:
the new `pi` and `plt`. -/
def scanUp (ptr pj : Nat) : Nat → Nat → M α σ (Nat × Nat)
  | 0, plt => return (pj, plt)
  | k + 1, plt => do
    let pi := pj - (k + 1)
    let c ← compare cmp nmemb ptr pi
    if 0 ≤ c then
      if c = 0 then
        swap nmemb plt pi
        scanUp ptr pj k (plt + 1)
      else scanUp ptr pj k plt
    else return (pi, plt)

/-- The second inner loop, with `k` elements from `pi` to `pj`: the new `pj` and
`pgt`. -/
def scanDown (ptr pi : Nat) : Nat → Nat → M α σ (Nat × Nat)
  | 0, pgt => return (pi - 1, pgt)
  | k + 1, pgt =>
    let pj := pi + k
    if pi < pj then do
      let c ← compare cmp nmemb ptr pj
      if c ≤ 0 then
        if c = 0 then
          swap nmemb (pgt - 1) pj
          scanDown ptr pi k (pgt - 1)
        else scanDown ptr pi k pgt
      else return (pj, pgt)
    else return (pj, pgt)

/-- The loop of the partition: `pi`, `plt` and `pgt` at its end. -/
def partition (ptr : Nat) : Nat → Nat → Nat → Nat → Nat → M α σ (Nat × Nat × Nat)
  | 0, _, _, _, _ => throw .fuel
  | fuel + 1, pi, plt, pj, pgt => do
    let (pi, plt) ← scanUp cmp nmemb ptr pj (pj - pi) plt
    let (pj, pgt) ← scanDown cmp nmemb ptr pi (pj - pi) pgt
    if pj ≤ pi then return (pi, plt, pgt)
    else
      swap nmemb pi pj
      partition ptr fuel (pi + 1) plt pj pgt

/-- The partition of `n` elements: the numbers `lt` and `nmemb - gt` of the
elements in the two segments that are left. -/
def split (ptr n : Nat) : M α σ (Nat × Nat) := do
  let m4 := n / 4
  let m ← med3 cmp nmemb (ptr + m4) (ptr + 2 * m4) (ptr + 3 * m4)
  swap nmemb ptr m
  let top := ptr + n
  let (pi, plt, pgt) ← partition cmp nmemb ptr n (ptr + 1) (ptr + 1) top top
  let span := min (plt - ptr) (pi - plt)
  swapBlock nmemb ptr (pi - span) span
  let span := min (top - pgt) (pgt - pi)
  swapBlock nmemb pi (top - span) span
  return (pi - plt, pgt - pi)

def push (e : Entry) (stack : List Entry) : M α σ (List Entry) :=
  if stack.length < STACK_SIZE then return e :: stack else throw .stackOverflow

/-- The loop over a segment: what is left of it, and the stack. -/
def segment : Nat → Nat → Nat → Nat → List Entry → M α σ (Nat × Nat × List Entry)
  | 0, _, _, _, _ => throw .fuel
  | fuel + 1, ptr, n, depth, stack =>
    if 6 < n then
      let depth := depth + 1
      if MAX_DEPTH < depth then do
        heapsortx cmp nmemb ptr n
        return (ptr, 0, stack)
      else do
        let (lt, gt) ← split cmp nmemb ptr n
        let pgt := ptr + n - gt
        if gt < lt then
          let stack ← push ⟨ptr, lt, depth⟩ stack
          segment fuel pgt gt depth stack
        else
          let stack ← push ⟨pgt, gt, depth⟩ stack
          segment fuel ptr lt depth stack
    else return (ptr, n, stack)

/-- The inner loop of the insertion sort: the element `ptr + k` is moved down. -/
def insert (ptr : Nat) : Nat → M α σ Unit
  | 0 => pure ()
  | k + 1 => do
    let c ← compare cmp nmemb (ptr + k) (ptr + (k + 1))
    if 0 < c then
      swap nmemb (ptr + (k + 1)) (ptr + k)
      insert ptr k
    else pure ()

/-- The insertion sort, with `k` elements before `top` left. -/
def insertAll (ptr top : Nat) : Nat → M α σ Unit
  | 0 => pure ()
  | k + 1 => do
    insert cmp nmemb ptr (top - (k + 1) - ptr)
    insertAll ptr top k

/-- The loop over the stack. -/
def segments : Nat → List Entry → M α σ Unit
  | 0, _ => throw .fuel
  | _ + 1, [] => pure ()
  | fuel + 1, e :: stack => do
    let (ptr, n, stack) ← segment cmp nmemb (e.count + 1) e.base e.count e.depth stack
    insertAll cmp nmemb ptr (ptr + n) (n - 1)
    segments fuel stack

/-- `rqsort` of an array of `nmemb` elements. -/
def rqsort : M α σ Unit :=
  if nmemb < 2 then pure () else segments cmp nmemb (nmemb + 2) [⟨0, nmemb, 0⟩]

end CkbJs.Impl.Sort
