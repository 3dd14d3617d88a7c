import CkbJs.Framework.Heap
import CkbJs.Impl.Gc
import Mathlib.Logic.Relation

/-!
# What the collector owes the engine

The engine holds references to objects outside the heap, its `roots`: in
local variables, in the C stack, in the stacks of running functions. `Accurate`
is what holds between two operations: the objects in `gc_obj_list` are the
allocated ones, and the count of each is the number of the references to it,
among the roots and in the objects. `Step` is what the engine may do with the
references it holds: allocate an object, duplicate one or read it out of an
object, move references between the roots and an object, release one, or
collect cycles. How an object is used beyond this does not matter here.

All of this is about references that are counted. `Strong` objects have no
others: no closure refers to a variable of a suspended function, which takes a
reference only when the function is freed, and no object is the key of a record
in a weak map, whose value goes when the key does.
-/

namespace CkbJs.Spec.Gc

open CkbJs.Heap CkbJs.Impl.Gc

/-- The references of an object, in the order `mark_children` visits them. -/
def children : Body → List Ptr
  | .jsObject obj =>
    obj.shape.toList ++ obj.prop ++ obj.data ++ frameValues obj.funcState ++
      obj.records.filterMap MapRecord.value
  | .functionBytecode cpool realm => cpool ++ realm.toList
  | .shape proto => proto.toList
  | .varRef pvalue => pvalue.toList
  | .openVarRef .. => []
  | .asyncFunction funcState resolvingFuncs => frameValues funcState ++ resolvingFuncs
  | .jsContext loadedModules values arrayShape => loadedModules ++ values ++ arrayShape.toList

/-- The C types of the fields: an object has a shape, the constant pool of a
function has values, and so on. -/
def Typed (type : Ptr → GcObjType) : Body → Prop
  | .jsObject obj => ∃ sh, obj.shape = some sh ∧ type sh = .shape
  | .functionBytecode cpool realm =>
    (∀ c ∈ cpool, (type c).isValue) ∧ ∀ c ∈ realm.toList, type c = .jsContext
  | .shape proto => ∀ c ∈ proto.toList, (type c).isValue
  | .varRef pvalue => ∀ c ∈ pvalue.toList, (type c).isValue
  | .openVarRef pvalue _ => ∀ c ∈ pvalue.toList, (type c).isValue
  | .asyncFunction funcState resolvingFuncs =>
    ∀ c ∈ frameValues funcState ++ resolvingFuncs, (type c).isValue
  | .jsContext loadedModules values arrayShape =>
    (∀ c ∈ loadedModules, (type c).isValue ∨ type c = .varRef) ∧
      (∀ c ∈ values, (type c).isValue) ∧ ∀ c ∈ arrayShape.toList, type c = .shape

/-- The frame has no open variables. -/
def Closed (funcState : Option FuncState) : Prop := ∀ s ∈ funcState, s.varRefList = []

/-- All references of the object, and to it, are counted. -/
def Strong : Body → Prop
  | .jsObject obj => Closed obj.funcState ∧ obj.records = [] ∧ obj.firstWeakRef = []
  | .openVarRef .. => False
  | .asyncFunction funcState _ => Closed funcState
  | _ => True

structure Regular (type : Ptr → GcObjType) (b : Body) : Prop where
  typed : Typed type b
  strong : Strong b

/-- The body of an object; an address that is not allocated holds nothing. -/
def bodyAt (rt : JSRuntime) (p : Ptr) : Body := ((rt.objs p).map GcObject.body).getD (.shape none)

def typeAt (rt : JSRuntime) (p : Ptr) : GcObjType := (bodyAt rt p).type

def childrenAt (rt : JSRuntime) (p : Ptr) : List Ptr := children (bodyAt rt p)

/-- Allocated. -/
def Live (rt : JSRuntime) (p : Ptr) : Prop := (rt.objs p).isSome

/-- Between two operations, with the references `roots` held outside. -/
structure Accurate (rt : JSRuntime) (roots : List Ptr) : Prop where
  phase : rt.gcPhase = .none
  tmp : rt.tmpObjList = []
  zero : rt.gcZeroRefCountList = []
  nodup : rt.gcObjList.Nodup
  mem_iff : ∀ p, p ∈ rt.gcObjList ↔ Live rt p
  counts : ∀ p o, rt.objs p = some o →
    o.refCount = owed (childrenAt rt) roots rt.gcObjList p ∧ 0 < o.refCount ∧ o.mark = false
  dangling : ∀ p, rt.objs p = none → owed (childrenAt rt) roots rt.gcObjList p = 0
  regular : ∀ p o, rt.objs p = some o → Regular (typeAt rt) o.body

/-- Fuel for every operation on a heap. -/
def enough (rt : JSRuntime) : Nat := rt.gcObjList.length + 6

/-- What the engine may do, holding the references `roots`. -/
inductive Step : JSRuntime × List Ptr → JSRuntime × List Ptr → Prop where
  /-- A new object takes over references from the roots. -/
  | new {rt rt' : JSRuntime} {roots rest : List Ptr} {p : Ptr} {b : Body} :
    rt.objs p = none → Regular (typeAt rt) b → roots.Perm (children b ++ rest) →
    (addGcObject p b).run rt = .ok ⟨⟩ rt' → Step (rt, roots) (rt', p :: rest)
  /-- Duplicating a reference to a reachable object, or reading it out of one. -/
  | dup {rt rt' : JSRuntime} {roots : List Ptr} {p : Ptr} :
    Reach (childrenAt rt) roots p → (dupRef p).run rt = .ok ⟨⟩ rt' →
    Step (rt, roots) (rt', p :: roots)
  /-- References move between the roots and a reachable object. -/
  | move {rt : JSRuntime} {roots rest : List Ptr} {q : Ptr} {o : GcObject} {b : Body} :
    Reach (childrenAt rt) roots q → rt.objs q = some o → b.type = o.body.type →
    Regular (typeAt rt) b → (children o.body ++ roots).Perm (children b ++ rest) →
    Step (rt, roots) (rt.store q { o with body := b }, rest)
  | free {rt rt' : JSRuntime} {roots rest : List Ptr} {p : Ptr} {fuel : Nat} :
    roots.Perm (p :: rest) → enough rt ≤ fuel → (freeRef fuel p).run rt = .ok ⟨⟩ rt' →
    Step (rt, roots) (rt', rest)
  | runGC {rt rt' : JSRuntime} {roots : List Ptr} {fuel : Nat} :
    enough rt ≤ fuel → (jsRunGC fuel).run rt = .ok ⟨⟩ rt' → Step (rt, roots) (rt', roots)

/-- The runtime `JS_NewRuntime` returns has no GC objects. -/
def initial : JSRuntime := ⟨fun _ => none, [], [], [], .none⟩

/-- What the engine can come to. -/
def Reachable (s : JSRuntime × List Ptr) : Prop := Relation.ReflTransGen Step (initial, []) s

end CkbJs.Spec.Gc
