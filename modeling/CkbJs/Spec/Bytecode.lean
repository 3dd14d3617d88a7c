import CkbJs.Impl.Bytecode.Reader

/-!
# What a file of `JS_WriteObject` stands for

`copy` is the value that a reader should have of a value that was written:
the same one, with the atoms of the reader's runtime for the atoms of the
writer's, and without what is not written (properties that are not
enumerable, the local names of local exports, and for an array that is no
template its property `raw` and that it is not extensible). `Valid` is
what the engine promises of the values it writes: numbers are normalized, the
arrays of a function and of a module are as long as an `int` allows, a typed
array lies within its buffer, a date holds a number.
-/

namespace CkbJs.Spec.Bytecode

open CkbJs.Impl.Bytecode

variable (w : BCWriter) (newAtom : JSString → JSAtom)

/-- The atom that the reader has for an atom of the writer. -/
def relocAtom (atom : JSAtom) : JSAtom :=
  if atom < firstAtom w.allowBytecode ∨ atomIsTaggedInt atom then atom else newAtom (w.atomArray atom)

/-- Byte code with other atoms. -/
def relocCode (f : JSAtom → JSAtom) : Nat → List Byte → List Byte
  | 0, bc => bc
  | _ + 1, [] => []
  | n + 1, op :: bc =>
    match shortOpcodeInfo op with
    | none => op :: bc
    | some info =>
      if info.fmt.hasAtom then
        match bc with
        | b0 :: b1 :: b2 :: b3 :: bc =>
          op :: (Mem.leBytes 4 (f (UInt32.ofNat (Mem.number [b0, b1, b2, b3]))).toNat ++
            (bc.take (info.size - 5) ++ relocCode f n (bc.drop (info.size - 5))))
        | _ => op :: bc
      else op :: (bc.take (info.size - 1) ++ relocCode f n (bc.drop (info.size - 1)))

def relocVarDef (f : JSAtom → JSAtom) (vd : JSVarDef) : JSVarDef := { vd with varName := f vd.varName }

def relocClosureVar (f : JSAtom → JSAtom) (cv : JSClosureVar) : JSClosureVar :=
  { cv with varName := f cv.varName }

def relocDebugInfo (f : JSAtom → JSAtom) (debug : DebugInfo) : DebugInfo :=
  { debug with filename := f debug.filename }

def relocFunction (f : JSAtom → JSAtom) (b : JSFunctionBytecode) : JSFunctionBytecode :=
  { b with
    byteCodeBuf := relocCode f b.byteCodeBuf.length b.byteCodeBuf
    funcName := f b.funcName
    vardefs := b.vardefs.map (relocVarDef f)
    closureVar := b.closureVar.map (relocClosureVar f)
    debug := b.debug.map (relocDebugInfo f) }

/-- The local name of a local export is not written, although
`js_resolve_export1` compares it. -/
def relocExportEntry (f : JSAtom → JSAtom) (me : JSExportEntry) : JSExportEntry :=
  { me with
    localName := if me.exportType = JS_EXPORT_TYPE_LOCAL then JS_ATOM_NULL else f me.localName
    exportName := f me.exportName }

def relocImportEntry (f : JSAtom → JSAtom) (mi : JSImportEntry) : JSImportEntry :=
  { mi with importName := f mi.importName }

def relocModule (f : JSAtom → JSAtom) (m : JSModuleDef) : JSModuleDef where
  moduleName := f m.moduleName
  reqModuleEntries := m.reqModuleEntries.map f
  exportEntries := m.exportEntries.map (relocExportEntry f)
  starExportEntries := m.starExportEntries
  importEntries := m.importEntries.map (relocImportEntry f)

mutual

/-- The reader's value. -/
def copy : JSValue → JSValue
  | .functionBytecode b cpool => .functionBytecode (relocFunction (relocAtom w newAtom) b) (copyAll cpool)
  | .module m funcObj => .module (relocModule (relocAtom w newAtom) m) (copy funcObj)
  | .array extensible elems raw =>
    if w.allowBytecode ∧ extensible = false then .array false (copyAll elems) (copy raw)
    else .array true (copyAll elems) .undefined
  | .object props => .object ((copyProps props).foldl (fun obj p => defineProperty obj p.1 p.2) [])
  | .typedArray classId count offset buffer => .typedArray classId count offset (copy buffer)
  | .date objectData => .date (copy objectData)
  | .objectValue objectData => .objectValue (copy objectData)
  | .null => .null
  | .undefined => .undefined
  | .bool b => .bool b
  | .int v => .int v
  | .float64 u => .float64 u
  | .string p => .string p
  | .big tag num => .big tag num
  | .symbol => .symbol
  | .arrayBuffer data => .arrayBuffer data
  | .otherObject => .otherObject

def copyAll : List JSValue → List JSValue
  | [] => []
  | v :: vs => copy v :: copyAll vs

/-- The properties that are written. -/
def copyProps : List (JSShapeProperty × JSValue) → List (JSAtom × JSValue)
  | [] => []
  | (pr, v) :: props =>
    if isWritten w pr then (relocAtom w newAtom pr.atom, copy v) :: copyProps props else copyProps props

end

/-- A number as `bf_normalize_and_round` and `bfdec_normalize_and_round` leave
it: the lowest limb is not zero, and a zero, an infinity and a NaN have none. -/
structure Normalized (tag : BigTag) (a : BfNum) : Prop where
  tab_iff : a.tab = [] ↔ a.expn = BF_EXP_ZERO ∨ a.expn = BF_EXP_INF ∨ a.expn = BF_EXP_NAN
  head : ∀ v ∈ a.tab.head?, v ≠ 0
  decimal : tag = .bigDecimal → ∀ v ∈ a.tab, v.toNat < 10 ^ LIMB_DIGITS

/-- A function as `js_create_function` makes it. -/
structure ValidFunction (b : JSFunctionBytecode) (cpoolCount : Nat) : Prop where
  vardefs : b.vardefs = [] ∨ b.vardefs.length = b.argCount.toNat + b.varCount.toNat
  size : functionSize b.debug.isSome cpoolCount b.vardefs.length b.closureVar.length
    b.byteCodeBuf.length < 2 ^ 31
  pc2line : ∀ debug ∈ b.debug, debug.pc2lineBuf.length < 2 ^ 31

structure ValidModule (m : JSModuleDef) : Prop where
  reqModuleEntries : m.reqModuleEntries.length < 2 ^ 31
  exportEntries : m.exportEntries.length < 2 ^ 31
  starExportEntries : m.starExportEntries.length < 2 ^ 31
  importEntries : m.importEntries.length < 2 ^ 31

inductive Valid : JSValue → Prop where
  | null : Valid .null
  | undefined : Valid .undefined
  | bool (b : Bool) : Valid (.bool b)
  | int (v : Int32) : Valid (.int v)
  | float64 (u : UInt64) : Valid (.float64 u)
  | string (p : JSString) : Valid (.string p)
  | big {tag : BigTag} {num : BfNum} : Normalized tag num → Valid (.big tag num)
  | symbol : Valid .symbol
  | functionBytecode {b : JSFunctionBytecode} {cpool : List JSValue} :
    ValidFunction b cpool.length → (∀ v ∈ cpool, Valid v) → Valid (.functionBytecode b cpool)
  | module {m : JSModuleDef} {funcObj : JSValue} :
    ValidModule m → Valid funcObj → Valid (.module m funcObj)
  | array {extensible : Bool} {elems : List JSValue} {raw : JSValue} :
    elems.length < 2 ^ 32 → (∀ v ∈ elems, Valid v) → Valid raw → Valid (.array extensible elems raw)
  | object {props : List (JSShapeProperty × JSValue)} :
    props.length < 2 ^ 32 → (∀ p ∈ props, Valid p.2) → Valid (.object props)
  | typedArray {classId : TypedArrayClass} {count offset : UInt32} {data : Option (List Byte)} :
    (∀ bs ∈ data, bs.length < 2 ^ 31 ∧ offset.toNat % 2 ^ typedArraySizeLog2 classId = 0 ∧
      offset.toNat + count.toNat <<< typedArraySizeLog2 classId ≤ bs.length) →
    Valid (.typedArray classId count offset (.arrayBuffer data))
  | arrayBuffer {data : Option (List Byte)} :
    (∀ bs ∈ data, bs.length < 2 ^ 31) → Valid (.arrayBuffer data)
  | date {objectData : JSValue} : isNumber objectData = true → Valid (.date objectData)
  | objectValue {objectData : JSValue} :
    toObject objectData = some (.objectValue objectData) → Valid objectData → Valid (.objectValue objectData)
  | otherObject : Valid .otherObject

end CkbJs.Spec.Bytecode
