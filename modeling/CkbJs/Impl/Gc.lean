import Mathlib.Logic.Function.Basic

/-!
# Reference counts and the cycle collector

The memory management of `quickjs.c` for the objects with a
`JSGCObjectHeader`: `JS_FreeValueRT` and what it runs when a count reaches
zero, and the three passes of `JS_RunGC`. An object is seen as the references
to other GC objects that it holds, in the order `mark_children` visits them,
with the ones that are not counted: the open variables of a suspended function
and the keys of a weak map. Strings, symbols and the other values without a GC
header are left out, as are atoms, the hash table of the shapes and the frames
of running functions, whose open variables no function here follows. Each of
the circular lists is the list of its members from the head on. A function that
releases references of an object gets `free`, which releases one of them, as an
argument; `freeRef` closes the recursion and `fuel` bounds its depth.
-/

namespace CkbJs.Impl.Gc

/-- The address of a GC object. -/
abbrev Ptr := Nat

/-- `JSGCObjectTypeEnum`. -/
inductive GcObjType where
  | jsObject
  | functionBytecode
  | shape
  | varRef
  | asyncFunction
  | jsContext
  deriving DecidableEq, Repr

/-- The GC objects a `JSValue` can point to. -/
def GcObjType.isValue : GcObjType → Bool
  | .jsObject | .functionBytecode => true
  | _ => false

/-- `JSAsyncFunctionState`, of a function that does not run: `varRefList` are
the open variables of its frame, `values` are `cur_func` and `this_val`, and
`stack` are the arguments, the variables and the operands. -/
structure FuncState where
  varRefList : List Ptr
  values : List Ptr
  stack : List Ptr
  deriving DecidableEq, Repr

/-- `JSMapRecord`, of a weak map. The key is not counted. -/
structure MapRecord where
  key : Ptr
  value : Option Ptr
  deriving DecidableEq, Repr

/-- `JSObject`. `prop` are the references of its properties. Those of its class
are in `data`, but for the ones of a suspended generator and of a weak map.
`firstWeakRef` are the weak maps with a record for the object. -/
structure JSObject where
  shape : Option Ptr
  prop : List Ptr
  data : List Ptr
  funcState : Option FuncState
  records : List MapRecord
  firstWeakRef : List Ptr
  deriving DecidableEq, Repr

/-- An object whose references are all counted. -/
def JSObject.ofRefs (shape : Option Ptr) (prop data : List Ptr) : JSObject :=
  ⟨shape, prop, data, none, [], []⟩

/-- The references a GC object holds. A `varRef` is a detached one; an open one
shows the value of a variable in the frame of the suspended function `frame`.
The frame of an async function is `none` when it is not active. -/
inductive Body where
  | jsObject (obj : JSObject)
  | functionBytecode (cpool : List Ptr) (realm : Option Ptr)
  | shape (proto : Option Ptr)
  | varRef (pvalue : Option Ptr)
  | openVarRef (pvalue : Option Ptr) (frame : Ptr)
  | asyncFunction (funcState : Option FuncState) (resolvingFuncs : List Ptr)
  | jsContext (loadedModules values : List Ptr) (arrayShape : Option Ptr)
  deriving DecidableEq, Repr

def Body.type : Body → GcObjType
  | .jsObject .. => .jsObject
  | .functionBytecode .. => .functionBytecode
  | .shape .. => .shape
  | .varRef .. => .varRef
  | .openVarRef .. => .varRef
  | .asyncFunction .. => .asyncFunction
  | .jsContext .. => .jsContext

structure GcObject where
  refCount : Int
  mark : Bool
  body : Body
  deriving DecidableEq, Repr

inductive GcPhase where
  | none
  | decref
  | removeCycles
  deriving DecidableEq, Repr

/-- `objs` is `none` at an address that is not allocated. -/
structure JSRuntime where
  objs : Ptr → Option GcObject
  gcObjList : List Ptr
  tmpObjList : List Ptr
  gcZeroRefCountList : List Ptr
  gcPhase : GcPhase

inductive Stop where
  | assertion
  | abort
  | invalidAccess
  | fuel
  deriving DecidableEq, Repr

abbrev M := EStateM Stop JSRuntime

def assert (b : Bool) : M Unit := if b then pure () else throw .assertion

/-- The object at an address; a freed one must not be touched. -/
def fetch (p : Ptr) : M GcObject := do
  match (← get).objs p with
  | some o => pure o
  | none => throw .invalidAccess

def JSRuntime.store (rt : JSRuntime) (p : Ptr) (o : GcObject) : JSRuntime :=
  { rt with objs := Function.update rt.objs p (some o) }

def store (p : Ptr) (o : GcObject) : M Unit := modify fun rt => rt.store p o

def JSRuntime.drop (rt : JSRuntime) (p : Ptr) : JSRuntime :=
  { rt with objs := Function.update rt.objs p none }

/-- `js_free_rt` of an object. -/
def jsFreeRt (p : Ptr) : M Unit := do
  let _ ← fetch p
  modify fun rt => rt.drop p

def fetchObject (p : Ptr) : M JSObject := do
  match (← fetch p).body with
  | .jsObject obj => pure obj
  | _ => throw .invalidAccess

def modifyObject (p : Ptr) (f : JSObject → JSObject) : M Unit := do
  let obj ← fetchObject p
  store p { ← fetch p with body := .jsObject (f obj) }

/-! ## Lists -/

def JSRuntime.linked (rt : JSRuntime) : List Ptr :=
  rt.gcObjList ++ rt.tmpObjList ++ rt.gcZeroRefCountList

def JSRuntime.unlink (rt : JSRuntime) (p : Ptr) : JSRuntime :=
  { rt with
    gcObjList := rt.gcObjList.erase p
    tmpObjList := rt.tmpObjList.erase p
    gcZeroRefCountList := rt.gcZeroRefCountList.erase p }

/-- `list_del`: an object is in one list at a time. -/
def listDel (p : Ptr) : M Unit := do
  if p ∈ (← get).linked then modify fun rt => rt.unlink p else throw .invalidAccess

/-- `list_add_tail` to `gc_obj_list`. -/
def addTailGcObjList (p : Ptr) : M Unit :=
  modify fun rt => { rt with gcObjList := rt.gcObjList ++ [p] }

def addTailTmpObjList (p : Ptr) : M Unit :=
  modify fun rt => { rt with tmpObjList := rt.tmpObjList ++ [p] }

def addTailZeroRefCountList (p : Ptr) : M Unit :=
  modify fun rt => { rt with gcZeroRefCountList := rt.gcZeroRefCountList ++ [p] }

/-- `list_add` to `gc_zero_ref_count_list`. -/
def addZeroRefCountList (p : Ptr) : M Unit :=
  modify fun rt => { rt with gcZeroRefCountList := p :: rt.gcZeroRefCountList }

def setGcPhase (phase : GcPhase) : M Unit := modify fun rt => { rt with gcPhase := phase }

/-- The member after `p` in a list: `some none` at its end, `none` when `p`
is not in it. -/
def nextIn : List Ptr → Ptr → Option (Option Ptr)
  | [], _ => none
  | a :: l, p => if a = p then some l.head? else nextIn l p

/-- `el->next` in a loop over a list, which must not lead into another one. -/
def next (list : JSRuntime → List Ptr) (p : Ptr) : M (Option Ptr) := do
  match nextIn (list (← get)) p with
  | some el => pure el
  | none => throw .invalidAccess

/-! ## Marking -/

/-- `add_gc_object`, on a new object. -/
def addGcObject (p : Ptr) (body : Body) : M Unit := do
  store p { refCount := 1, mark := false, body := body }
  addTailGcObjList p

/-- `remove_gc_object`. -/
def removeGcObject (p : Ptr) : M Unit := listDel p

/-- A reference of an object: of the variables, only detached ones are marked. -/
def markRef (markFunc : Ptr → M Unit) (p : Ptr) : M Unit := do
  match (← fetch p).body with
  | .openVarRef .. => pure ()
  | _ => markFunc p

/-- The references `async_func_mark` visits, of a frame that is there. -/
def frameValues : Option FuncState → List Ptr
  | some s => s.values ++ s.stack
  | none => []

/-- `mark_children`, with `async_func_mark` and `js_map_mark`. -/
def markChildren (gp : Ptr) (markFunc : Ptr → M Unit) : M Unit := do
  match (← fetch gp).body with
  | .jsObject obj =>
    match obj.shape with
    | some sh =>
      markFunc sh
      obj.prop.forM (markRef markFunc)
      obj.data.forM (markRef markFunc)
      (frameValues obj.funcState).forM markFunc
      (obj.records.filterMap MapRecord.value).forM markFunc
    | none => throw .invalidAccess
  | .functionBytecode cpool realm =>
    cpool.forM markFunc
    realm.toList.forM markFunc
  | .shape proto => proto.toList.forM markFunc
  | .varRef pvalue => pvalue.toList.forM markFunc
  -- only detached variables are in `gc_obj_list`
  | .openVarRef .. => throw .assertion
  | .asyncFunction funcState resolvingFuncs =>
    (frameValues funcState).forM markFunc
    resolvingFuncs.forM markFunc
  | .jsContext loadedModules values arrayShape =>
    loadedModules.forM markFunc
    values.forM markFunc
    arrayShape.toList.forM markFunc

/-! ## Releasing references -/

/-- `--p->ref_count`. -/
def decRefCount (p : Ptr) : M Int := do
  let o ← fetch p
  store p { o with refCount := o.refCount - 1 }
  pure (o.refCount - 1)

/-- `JS_DupValue`, `js_dup_shape` and `JS_DupContext`. -/
def dupRef (p : Ptr) : M Unit := do
  let o ← fetch p
  store p { o with refCount := o.refCount + 1 }

/-- `js_free_shape0`. -/
def jsFreeShape0 (free : Ptr → M Unit) (sh : Ptr) (proto : Option Ptr) : M Unit := do
  assert ((← fetch sh).refCount = 0)
  proto.toList.forM free
  removeGcObject sh
  jsFreeRt sh

/-- `js_free_shape`. -/
def jsFreeShape (free : Ptr → M Unit) (sh : Ptr) : M Unit := do
  if (← decRefCount sh) ≤ 0 then
    match (← fetch sh).body with
    | .shape proto => jsFreeShape0 free sh proto
    | _ => throw .invalidAccess

def FuncState.erase (varRef : Ptr) (s : FuncState) : FuncState :=
  { s with varRefList := s.varRefList.erase varRef }

def Body.eraseVarRef (varRef : Ptr) : Body → Body
  | .jsObject obj => .jsObject { obj with funcState := obj.funcState.map (.erase varRef) }
  | .asyncFunction funcState resolvingFuncs => .asyncFunction (funcState.map (.erase varRef)) resolvingFuncs
  | b => b

/-- `list_del` of an open variable. -/
def listDelVarRef (frame varRef : Ptr) : M Unit := do
  let o ← fetch frame
  store frame { o with body := o.body.eraseVarRef varRef }

/-- `free_var_ref`. -/
def freeVarRef (free : Ptr → M Unit) (varRef : Ptr) : M Unit := do
  assert (0 < (← fetch varRef).refCount)
  if (← decRefCount varRef) = 0 then
    match (← fetch varRef).body with
    | .varRef pvalue =>
      pvalue.toList.forM free
      removeGcObject varRef
      jsFreeRt varRef
    | .openVarRef _ frame =>
      -- still on the stack
      listDelVarRef frame varRef
      jsFreeRt varRef
    | _ => throw .invalidAccess

/-- The body of the loop of `close_var_refs`: the variable takes a reference to
its value, and `add_gc_object` adds it. -/
def closeVarRef (varRef : Ptr) : M Unit := do
  match (← fetch varRef).body with
  | .openVarRef pvalue _ =>
    pvalue.toList.forM dupRef
    store varRef { ← fetch varRef with mark := false, body := .varRef pvalue }
    addTailGcObjList varRef
  | _ => throw .invalidAccess

/-- `close_var_refs`. -/
def closeVarRefs (varRefList : List Ptr) : M Unit := varRefList.forM closeVarRef

/-- `async_func_free`, of a frame that is there. -/
def asyncFuncFree (free : Ptr → M Unit) : Option FuncState → M Unit
  | some s => do
    closeVarRefs s.varRefList
    s.stack.forM free
    s.values.forM free
  | none => pure ()

/-- `js_async_function_free0`, with `js_async_function_terminate`. -/
def jsAsyncFunctionFree0 (free : Ptr → M Unit) (s : Ptr) (funcState : Option FuncState)
    (resolvingFuncs : List Ptr) : M Unit := do
  asyncFuncFree free funcState
  resolvingFuncs.forM free
  removeGcObject s
  jsFreeRt s

/-- `js_async_function_free`. -/
def jsAsyncFunctionFree (free : Ptr → M Unit) (s : Ptr) : M Unit := do
  if (← decRefCount s) = 0 then
    match (← fetch s).body with
    | .asyncFunction funcState resolvingFuncs => jsAsyncFunctionFree0 free s funcState resolvingFuncs
    | _ => throw .invalidAccess

/-- `JS_FreeContext`; `js_free_modules` releases `loadedModules`. -/
def jsFreeContext (free : Ptr → M Unit) (ctx : Ptr) : M Unit := do
  if (← decRefCount ctx) > 0 then
    pure ()
  else
    assert ((← fetch ctx).refCount = 0)
    match (← fetch ctx).body with
    | .jsContext loadedModules values arrayShape =>
      loadedModules.forM free
      values.forM free
      arrayShape.toList.forM free
      removeGcObject ctx
      jsFreeRt ctx
    | _ => throw .invalidAccess

/-- The end of `free_object` and of `free_function_bytecode`: while cycles are
removed, the header of an object that is still referred to is kept. -/
def freeHeader (p : Ptr) : M Unit := do
  removeGcObject p
  if (← get).gcPhase = .removeCycles ∧ (← fetch p).refCount ≠ 0 then
    addTailZeroRefCountList p
  else
    jsFreeRt p

/-! ## Weak references -/

/-- `delete_weak_ref`, of the record for `key` in `map`. -/
def deleteWeakRef (map key : Ptr) : M Unit := do
  assert (map ∈ (← fetchObject key).firstWeakRef)
  modifyObject key fun obj => { obj with firstWeakRef := obj.firstWeakRef.erase map }

/-- The body of the first loop of `reset_weak_ref`: the record for `p` leaves
the map. Its value is for the second loop. -/
def removeRecord (p map : Ptr) : M (Option Ptr) := do
  match (← fetchObject map).records.find? (·.key = p) with
  | some mr =>
    modifyObject map fun obj => { obj with records := obj.records.erase mr }
    pure mr.value
  | none => throw .invalidAccess

/-- `reset_weak_ref`. -/
def resetWeakRef (free : Ptr → M Unit) (p : Ptr) (firstWeakRef : List Ptr) : M Unit := do
  let values ← firstWeakRef.mapM (removeRecord p)
  values.forM fun value => value.toList.forM free
  modifyObject p fun obj => { obj with firstWeakRef := [] }

/-- A record of a weak map, in `js_map_finalizer`. -/
def freeRecord (free : Ptr → M Unit) (map : Ptr) (mr : MapRecord) : M Unit := do
  deleteWeakRef map mr.key
  mr.value.toList.forM free

/-- The finalizer of the class: a generator frees its frame, a weak map its
records, and every class the other references it marks. -/
def finalizer (free : Ptr → M Unit) (p : Ptr) : M Unit := do
  let obj ← fetchObject p
  obj.data.forM free
  asyncFuncFree free obj.funcState
  obj.records.forM (freeRecord free p)

/-- `free_object`. -/
def freeObject (free : Ptr → M Unit) (p : Ptr) (obj : JSObject) : M Unit := do
  match obj.shape with
  | some sh =>
    obj.prop.forM free
    jsFreeShape free sh
    -- fail safe: the shape and the properties are cleared before the finalizer runs
    store p { ← fetch p with body := .jsObject { obj with shape := none, prop := [] } }
    if obj.firstWeakRef ≠ [] then
      resetWeakRef free p obj.firstWeakRef
    finalizer free p
    store p { ← fetch p with body := .jsObject (.ofRefs none [] []) }
    freeHeader p
  | none => throw .invalidAccess

/-- `free_function_bytecode`. -/
def freeFunctionBytecode (free : Ptr → M Unit) (b : Ptr) (cpool : List Ptr) (realm : Option Ptr) :
    M Unit := do
  cpool.forM free
  realm.toList.forM (jsFreeContext free)
  freeHeader b

/-- `free_gc_object`. -/
def freeGcObject (free : Ptr → M Unit) (gp : Ptr) : M Unit := do
  match (← fetch gp).body with
  | .jsObject obj => freeObject free gp obj
  | .functionBytecode cpool realm => freeFunctionBytecode free gp cpool realm
  | _ => throw .abort

/-- The loop of `free_zero_refcount`. -/
def freeZeroRefcountLoop (free : Ptr → M Unit) : Nat → M Unit
  | 0 => throw .fuel
  | fuel + 1 => do
    match (← get).gcZeroRefCountList with
    | [] => pure ()
    | p :: _ =>
      assert ((← fetch p).refCount = 0)
      freeGcObject free p
      freeZeroRefcountLoop free fuel

/-- `free_zero_refcount`. -/
def freeZeroRefcount (free : Ptr → M Unit) (fuel : Nat) : M Unit := do
  setGcPhase .decref
  freeZeroRefcountLoop free fuel
  setGcPhase .none

/-- `__JS_FreeValueRT`, of an object or a function bytecode. -/
def jsFreeValueRT0 (free : Ptr → M Unit) (fuel : Nat) (v : Ptr) : M Unit := do
  if (← get).gcPhase ≠ .removeCycles then
    listDel v
    addZeroRefCountList v
    if (← get).gcPhase = .none then
      freeZeroRefcount free fuel

/-- `JS_FreeValueRT`. -/
def jsFreeValueRT (free : Ptr → M Unit) (fuel : Nat) (v : Ptr) : M Unit := do
  if (← decRefCount v) ≤ 0 then
    jsFreeValueRT0 free fuel v

/-- The release of a reference, by the function for the type it points to. -/
def freeRef : Nat → Ptr → M Unit
  | 0, _ => throw .fuel
  | fuel + 1, p => do
    match (← fetch p).body.type with
    | .jsObject | .functionBytecode => jsFreeValueRT (freeRef fuel) fuel p
    | .shape => jsFreeShape (freeRef fuel) p
    | .varRef => freeVarRef (freeRef fuel) p
    | .asyncFunction => jsAsyncFunctionFree (freeRef fuel) p
    | .jsContext => jsFreeContext (freeRef fuel) p

/-! ## Collecting cycles -/

/-- `gc_decref_child`. -/
def gcDecrefChild (p : Ptr) : M Unit := do
  assert (0 < (← fetch p).refCount)
  let refCount ← decRefCount p
  if refCount = 0 ∧ (← fetch p).mark then
    listDel p
    addTailTmpObjList p

/-- The loop of `gc_decref` from `el` on. The next member is read before the
body runs. -/
def gcDecrefLoop : Nat → Option Ptr → M Unit
  | _, none => pure ()
  | 0, some _ => throw .fuel
  | fuel + 1, some p => do
    let el1 ← next (·.gcObjList) p
    assert !(← fetch p).mark
    markChildren p gcDecrefChild
    store p { ← fetch p with mark := true }
    if (← fetch p).refCount = 0 then
      listDel p
      addTailTmpObjList p
    gcDecrefLoop fuel el1

/-- `gc_decref`. -/
def gcDecref (fuel : Nat) : M Unit := do
  modify fun rt => { rt with tmpObjList := [] }
  gcDecrefLoop fuel (← get).gcObjList.head?

/-- `gc_scan_incref_child`. -/
def gcScanIncrefChild (p : Ptr) : M Unit := do
  dupRef p
  if (← fetch p).refCount = 1 then
    listDel p
    addTailGcObjList p
    store p { ← fetch p with mark := false }

/-- `gc_scan_incref_child2`. -/
def gcScanIncrefChild2 (p : Ptr) : M Unit := dupRef p

/-- The first loop of `gc_scan` from `el` on. The next member is read after the
body ran, so that the loop comes to the objects the body adds. -/
def gcScanLoop : Nat → Option Ptr → M Unit
  | _, none => pure ()
  | 0, some _ => throw .fuel
  | fuel + 1, some p => do
    assert (0 < (← fetch p).refCount)
    store p { ← fetch p with mark := false }
    markChildren p gcScanIncrefChild
    gcScanLoop fuel (← next (·.gcObjList) p)

/-- The second loop of `gc_scan` from `el` on. -/
def gcScanLoop2 : Nat → Option Ptr → M Unit
  | _, none => pure ()
  | 0, some _ => throw .fuel
  | fuel + 1, some p => do
    markChildren p gcScanIncrefChild2
    gcScanLoop2 fuel (← next (·.tmpObjList) p)

/-- `gc_scan`. -/
def gcScan (fuel : Nat) : M Unit := do
  gcScanLoop fuel (← get).gcObjList.head?
  gcScanLoop2 fuel (← get).tmpObjList.head?

/-- The first loop of `gc_free_cycles`. -/
def gcFreeCyclesLoop (free : Ptr → M Unit) : Nat → M Unit
  | 0 => throw .fuel
  | fuel + 1 => do
    match (← get).tmpObjList with
    | [] => pure ()
    | p :: _ =>
      if (← fetch p).body.type.isValue then
        freeGcObject free p
      else
        listDel p
        addTailZeroRefCountList p
      gcFreeCyclesLoop free fuel

/-- The second loop of `gc_free_cycles` from `el` on. -/
def gcFreeZombiesLoop : Nat → Option Ptr → M Unit
  | _, none => pure ()
  | 0, some _ => throw .fuel
  | fuel + 1, some p => do
    let el1 ← next (·.gcZeroRefCountList) p
    assert (← fetch p).body.type.isValue
    jsFreeRt p
    gcFreeZombiesLoop fuel el1

/-- `gc_free_cycles`. -/
def gcFreeCycles (fuel : Nat) : M Unit := do
  setGcPhase .removeCycles
  gcFreeCyclesLoop (freeRef fuel) fuel
  setGcPhase .none
  gcFreeZombiesLoop fuel (← get).gcZeroRefCountList.head?
  modify fun rt => { rt with gcZeroRefCountList := [] }

/-- `JS_RunGC`. -/
def jsRunGC (fuel : Nat) : M Unit := do
  gcDecref fuel
  gcScan fuel
  gcFreeCycles fuel

end CkbJs.Impl.Gc
