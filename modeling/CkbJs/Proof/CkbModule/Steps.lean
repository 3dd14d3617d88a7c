import CkbJs.Framework.WP
import CkbJs.Spec.CkbModule

/-!
# The steps of a binding

A rule for each step a binding is made of: the checks, the allocations and
the kernel loads, each in terms of the state it leaves; and one concrete `world`
in which to run examples.
-/

namespace CkbJs.Proof.CkbModule

open CkbJs.Impl CkbJs.Impl.CkbModule CkbJs.Spec.CkbModule

variable {env : Env} {s : Vm}

theorem wp_log {e : Event} {Q : Unit → Vm → Prop} {R : Stop → Vm → Prop}
    (h : Q () { s with events := s.events ++ [e] }) : WP (log e) s Q R := h

theorem wp_tick {Q : Nat → Vm → Prop} {R : Stop → Vm → Prop}
    (h : Q s.clock { s with clock := s.clock + 1 }) : WP tick s Q R := h

theorem wp_check {err : Int} {Q : Unit → Vm → Prop} {R : Stop → Vm → Prop}
    (h0 : err = 0 → Q () s) (h1 : err ≠ 0 → R (.check err) s) : WP (check err) s Q R := by
  unfold check
  exact WP.ite (fun h => WP.of_throw (h1 h)) fun h => WP.of_pure (h0 (Decidable.not_not.mp h))

theorem wp_check2 {c : Bool} {code : Int} {Q : Unit → Vm → Prop} {R : Stop → Vm → Prop}
    (h0 : c = true → Q () s) (h1 : c = false → R (.check code) s) : WP (check2 c code) s Q R := by
  cases c with
  | true => exact h0 rfl
  | false => exact h1 rfl

/-- The state after a successful `malloc`. -/
def allocated (env : Env) (s : Vm) (size : Nat) : Vm :=
  { s with clock := s.clock + 1
           blocks := (s.nextBlock, (List.range size).map env.junk) :: s.blocks
           nextBlock := s.nextBlock + 1 }

theorem sizeAt_allocated (size : Nat) : (allocated env s size).sizeAt (some s.nextBlock) = size := by
  simp [Vm.sizeAt, Vm.block, allocated]

theorem wp_malloc {size : Nat} {Q : Option Nat → Vm → Prop} {R : Stop → Vm → Prop}
    (h1 : env.malloc s.clock size = true → Q (some s.nextBlock) (allocated env s size))
    (h0 : env.malloc s.clock size = false → Q none { s with clock := s.clock + 1 }) :
    WP (malloc env size) s Q R := by
  refine WP.bind (wp_tick ?_)
  refine WP.ite (fun h => h1 h) fun h => h0 (Bool.eq_false_iff.mpr h)

theorem wp_newArrayBuffer {block len : Nat} {Q : Option (Nat × Nat) → Vm → Prop}
    {R : Stop → Vm → Prop}
    (h1 : env.newArrayBuffer s.clock = true → len < 2 ^ 31 →
      Q (some (block, len)) { s with clock := s.clock + 1 })
    (h0 : env.newArrayBuffer s.clock = false ∨ 2 ^ 31 ≤ len → Q none { s with clock := s.clock + 1 }) :
    WP (newArrayBuffer env block len) s Q R := by
  refine WP.bind (wp_tick (WP.of_pure ?_))
  by_cases h : env.newArrayBuffer s.clock = true ∧ len ≤ 2 ^ 31 - 1
  · rw [if_pos h]
    exact h1 h.1 (by omega)
  · rw [if_neg h]
    refine h0 ?_
    rw [← Bool.not_eq_true]
    exact (Decidable.not_and_iff_not_or_not.mp h).imp_right fun h => by omega

theorem live_write (b : Nat) (bs : List Byte) : live (s.write b bs) = live s := by
  unfold live Vm.write
  rw [List.map_map]
  refine List.map_congr_left fun p _ => ?_
  show (if p.1 = b then _ else p).1 = p.1
  split
  · exact Eq.symm ‹_›
  · rfl

/-! ## Kernel loads -/

/-- What is left of the item a load asks for, from its offset on. -/
def remaining (env : Env) (data : LoadData) : List Byte :=
  (env.kernel.item data.request).drop data.offset

/-- The return code of a load made in the state `s`. -/
def loadRet (env : Env) (s : Vm) (data : LoadData) : Int := env.kernel.loadRet s.clock data.request

/-- The event of a load made in the state `s`. -/
def loadEvent (env : Env) (s : Vm) (addr : Option Nat) (cap : Nat) (data : LoadData) : Event :=
  .load data.request addr (s.sizeAt addr) cap data.offset (loadRet env s data)

/-- The state after a load at `addr` with capacity `cap`. -/
def loaded (env : Env) (s : Vm) (addr : Option Nat) (cap : Nat) (data : LoadData) : Vm :=
  let s' := { s with clock := s.clock + 1, events := s.events ++ [loadEvent env s addr cap data] }
  if loadRet env s data = 0 then s'.store addr ((remaining env data).take cap) else s'

@[simp] theorem events_store (addr : Option Nat) (bs : List Byte) : (s.store addr bs).events = s.events := by
  cases addr <;> rfl

@[simp] theorem clock_store (addr : Option Nat) (bs : List Byte) : (s.store addr bs).clock = s.clock := by
  cases addr <;> rfl

@[simp] theorem nextBlock_store (addr : Option Nat) (bs : List Byte) :
    (s.store addr bs).nextBlock = s.nextBlock := by
  cases addr <;> rfl

theorem live_store (addr : Option Nat) (bs : List Byte) : live (s.store addr bs) = live s := by
  cases addr with
  | none => rfl
  | some b => exact live_write b bs

@[simp] theorem events_loaded (addr : Option Nat) (cap : Nat) (data : LoadData) :
    (loaded env s addr cap data).events = s.events ++ [loadEvent env s addr cap data] := by
  unfold loaded
  split
  · exact events_store ..
  · rfl

@[simp] theorem clock_loaded (addr : Option Nat) (cap : Nat) (data : LoadData) :
    (loaded env s addr cap data).clock = s.clock + 1 := by
  unfold loaded
  split
  · exact clock_store ..
  · rfl

@[simp] theorem nextBlock_loaded (addr : Option Nat) (cap : Nat) (data : LoadData) :
    (loaded env s addr cap data).nextBlock = s.nextBlock := by
  unfold loaded
  split
  · exact nextBlock_store ..
  · rfl

theorem live_loaded (addr : Option Nat) (cap : Nat) (data : LoadData) :
    live (loaded env s addr cap data) = live s := by
  unfold loaded
  split
  · exact live_store ..
  · rfl

/-- A load into a block stores nothing at address 0. -/
@[simp] theorem null_loaded_some (b cap : Nat) (data : LoadData) :
    (loaded env s (some b) cap data).null = s.null := by
  unfold loaded
  split <;> rfl

/-- A load at a null address stores what fits at address 0. -/
theorem length_null_loaded {cap : Nat} {data : LoadData} (h : loadRet env s data = 0) :
    (loaded env s none cap data).null.length =
      max s.null.length (min cap (remaining env data).length) := by
  unfold loaded
  rw [if_pos h]
  show (_ ++ s.null.drop _).length = _
  rw [List.length_append, List.length_drop, List.length_take]
  omega

/-- A fresh block, loaded into: the bytes that fit, then what was there. -/
theorem block_loaded_allocated {size cap : Nat} {data : LoadData}
    (h : loadRet env (allocated env s size) data = 0) :
    (loaded env (allocated env s size) (some s.nextBlock) cap data).block s.nextBlock =
      (remaining env data).take cap ++
        ((List.range size).map env.junk).drop ((remaining env data).take cap).length := by
  unfold loaded
  rw [if_pos h]
  simp [allocated, Vm.store, Vm.write, Vm.block]

/-- A load that succeeds gives the remaining length; one that fails changes
no `*len`. -/
theorem wp_loadFunc {addr : Option Nat} {cap : Nat} {data : LoadData}
    {Q : Int × Nat → Vm → Prop} {R : Stop → Vm → Prop}
    (h0 : loadRet env s data = 0 → Q (0, (remaining env data).length) (loaded env s addr cap data))
    (h1 : loadRet env s data ≠ 0 → Q (loadRet env s data, cap) (loaded env s addr cap data)) :
    WP (loadFunc env addr cap data) s Q R := by
  refine WP.bind (wp_tick (WP.bind (WP.of_get (WP.bind (wp_log ?_)))))
  unfold loaded at h0 h1
  refine WP.ite (fun h => ?_) fun h => ?_
  · have h : loadRet env s data ≠ 0 := h
    have hq := h1 h
    rw [if_neg h] at hq
    exact hq
  · have h : loadRet env s data = 0 := Decidable.not_not.mp h
    have hq := h0 h
    rw [if_pos h] at hq
    exact WP.bind (WP.of_modify (WP.of_pure hq))

/-- A load whose return code is checked. -/
theorem wp_load_check {α : Type} {addr : Option Nat} {cap : Nat} {data : LoadData} {k : Nat → M α}
    {Q : α → Vm → Prop} {R : Stop → Vm → Prop}
    (h0 : loadRet env s data = 0 →
      WP (k (remaining env data).length) (loaded env s addr cap data) Q R)
    (h1 : loadRet env s data ≠ 0 → ∀ err, R (.check err) (loaded env s addr cap data)) :
    WP (loadFunc env addr cap data >>= fun r => check r.1 >>= fun _ => k r.2) s Q R := by
  refine WP.bind (wp_loadFunc (fun h => ?_) fun h => ?_)
  · exact WP.bind (wp_check (fun _ => h0 h) fun h' => absurd rfl h')
  · exact WP.bind (wp_check (fun h' => absurd h' h) fun _ => h1 h _)

/-! ## A world -/

/-- A world of items of eight bytes, where loads and allocations succeed and
running another cell fails. -/
def world : Env where
  engine :=
    { toPrimitive := fun _ _ => .undefined
      stringToNumber := fun _ => none
      render := fun _ => none
      getPropertyStr := fun _ _ => .undefined
      typedArray := fun o => if o = 0 then some ⟨1, 0, 32⟩ else none
      arrayBuffer := fun o => if o = 1 then some ⟨List.replicate 32 0, false⟩ else none }
  kernel :=
    { item := fun _ => [1, 2, 3, 4, 5, 6, 7, 8]
      loadRet := fun _ _ => 0
      exec := fun _ _ => some 1
      spawn := fun _ _ => ⟨1, 0, [], 0⟩
      setContent := fun _ _ => 0 }
  base := 0x10000
  malloc := fun _ _ => true
  junk := fun _ => 0
  newArrayBuffer := fun _ => true
  newObject := fun _ => true

/-- A call of `load_cell` with the integers `xs`. -/
def loadCellArgs (xs : List (BitVec 32)) : Args :=
  callFrame (Binding.arity .loadCell) (xs.map .int) fun _ => .undefined

end CkbJs.Proof.CkbModule
