import CkbJs.Framework.Mem

/-!
# Values that can be serialized

The values that `JS_WriteObject` and `JS_ReadObject` of `quickjs.c` exchange,
as trees: an object stands where it is referred to, so that what a cycle or a
second reference to an object would add is not seen. Of a function, a module
and an object the fields are here that one of the two functions uses; an
`int` of the source is an `Int32`.
-/

namespace CkbJs.Impl.Bytecode

abbrev JSAtom := UInt32

def JS_ATOM_NULL : JSAtom := 0

/-- The atoms below are predefined (`quickjs-atom.h`). -/
def JS_ATOM_END : JSAtom := 222

def JS_ATOM_TAG_INT : UInt32 := 0x80000000

/-- `__JS_AtomIsTaggedInt`. -/
def atomIsTaggedInt (v : JSAtom) : Bool := v &&& JS_ATOM_TAG_INT != 0

/-- `__JS_AtomFromUInt32`. -/
def atomFromUInt32 (v : UInt32) : JSAtom := v ||| JS_ATOM_TAG_INT

/-- `__JS_AtomToUInt32`. -/
def atomToUInt32 (atom : JSAtom) : UInt32 := atom &&& ~~~JS_ATOM_TAG_INT

/-- A string of bytes or of 16 bit units; `len` has 31 bits. -/
inductive JSString where
  | str8 (s : List UInt8) (h : s.length < 2 ^ 31)
  | str16 (s : List UInt16) (h : s.length < 2 ^ 31)
  deriving DecidableEq

namespace JSString

def isWideChar : JSString → Bool
  | .str8 .. => false
  | .str16 .. => true

def len : JSString → Nat
  | .str8 s _ => s.length
  | .str16 s _ => s.length

theorem len_lt (p : JSString) : p.len < 2 ^ 31 := by
  cases p <;> assumption

end JSString

/-- The tags of the big numbers. -/
inductive BigTag where
  | bigInt
  | bigFloat
  | bigDecimal
  deriving DecidableEq

def BF_EXP_ZERO : Int := -2 ^ 63
def BF_EXP_INF : Int := 2 ^ 63 - 2
def BF_EXP_NAN : Int := 2 ^ 63 - 1

def LIMB_DIGITS : Nat := 19

/-- `bf_t` and `bfdec_t`: the mantissa is `tab`, from the lowest limb on. -/
structure BfNum where
  sign : Bool
  expn : Int
  tab : List UInt64
  deriving DecidableEq

structure JSVarDef where
  varName : JSAtom
  scopeLevel : Int32
  scopeNext : Int32
  isConst : Bool
  isLexical : Bool
  isCaptured : Bool
  varKind : Fin 16
  deriving DecidableEq

structure JSClosureVar where
  isLocal : Bool
  isArg : Bool
  isConst : Bool
  isLexical : Bool
  varKind : Fin 16
  varIdx : UInt16
  varName : JSAtom
  deriving DecidableEq

/-- The debug information of a function that is serialized. -/
structure DebugInfo where
  filename : JSAtom
  lineNum : Int32
  pc2lineBuf : List UInt8
  deriving DecidableEq

/-- `JSFunctionBytecode` without the constant pool. `has_debug` is whether
there is a `debug`; an array that is not there (`NULL`) is an empty one. -/
structure JSFunctionBytecode where
  jsMode : UInt8
  hasPrototype : Bool
  hasSimpleParameterList : Bool
  isDerivedClassConstructor : Bool
  needHomeObject : Bool
  funcKind : Fin 4
  newTargetAllowed : Bool
  superCallAllowed : Bool
  superAllowed : Bool
  argumentsAllowed : Bool
  backtraceBarrier : Bool
  byteCodeBuf : List UInt8
  funcName : JSAtom
  vardefs : List JSVarDef
  closureVar : List JSClosureVar
  argCount : UInt16
  varCount : UInt16
  definedArgCount : UInt16
  stackSize : UInt16
  debug : Option DebugInfo
  deriving DecidableEq

/-- `JS_EXPORT_TYPE_LOCAL`. -/
def JS_EXPORT_TYPE_LOCAL : UInt8 := 0

/-- `idx` is `u.local.var_idx` or `u.req_module_idx`. -/
structure JSExportEntry where
  idx : Int32
  exportType : UInt8
  localName : JSAtom
  exportName : JSAtom
  deriving DecidableEq

structure JSImportEntry where
  varIdx : Int32
  importName : JSAtom
  reqModuleIdx : Int32
  deriving DecidableEq

/-- `JSModuleDef` without its function. -/
structure JSModuleDef where
  moduleName : JSAtom
  reqModuleEntries : List JSAtom
  exportEntries : List JSExportEntry
  /-- `req_module_idx` of each. -/
  starExportEntries : List Int32
  importEntries : List JSImportEntry
  deriving DecidableEq

/-- A shape property. `isValue` is whether it is one with a value, and not with
a getter, a variable reference or a function that makes its value. -/
structure JSShapeProperty where
  atom : JSAtom
  enumerable : Bool
  isValue : Bool
  deriving DecidableEq

/-- The classes of the typed arrays, from `JS_CLASS_UINT8C_ARRAY` on. -/
abbrev TypedArrayClass := Fin 11

def JS_TYPED_ARRAY_COUNT : Nat := 11

def typedArraySizeLog2 (classId : TypedArrayClass) : Nat :=
  match classId with
  | 0 | 1 | 2 => 0
  | 3 | 4 => 1
  | 5 | 6 => 2
  | 7 | 8 => 3
  | 9 => 2
  | 10 => 3

inductive JSValue where
  | null
  | undefined
  | bool (b : Bool)
  | int (v : Int32)
  | float64 (u : UInt64)
  | string (p : JSString)
  | big (tag : BigTag) (num : BfNum)
  /-- A value with another tag. -/
  | symbol
  | functionBytecode (b : JSFunctionBytecode) (cpool : List JSValue)
  | module (m : JSModuleDef) (funcObj : JSValue)
  /-- The elements up to `length`, and the property `raw` (`undefined` if there
  is none). -/
  | array (extensible : Bool) (elems : List JSValue) (raw : JSValue)
  | object (props : List (JSShapeProperty × JSValue))
  | typedArray (classId : TypedArrayClass) (count offset : UInt32) (buffer : JSValue)
  /-- Without data if it is detached. -/
  | arrayBuffer (data : Option (List UInt8))
  | date (objectData : JSValue)
  /-- A `Number`, `String`, `Boolean`, `BigInt`, `BigFloat` or `BigDecimal`. -/
  | objectValue (objectData : JSValue)
  /-- An object of another class. -/
  | otherObject

/-- `JS_DefineProperty` of a property with a value and the flags `C_W_E`. -/
def defineProperty (props : List (JSShapeProperty × JSValue)) (atom : JSAtom) (val : JSValue) :
    List (JSShapeProperty × JSValue) :=
  match props with
  | [] => [(⟨atom, true, true⟩, val)]
  | (pr, v) :: props =>
    if pr.atom = atom then (⟨atom, true, true⟩, val) :: props
    else (pr, v) :: defineProperty props atom val

/-- `function_size` in `JS_ReadFunctionTag` and `js_create_function`: the
structure, with or without the debug information, and the arrays behind it. -/
def functionSize (hasDebug : Bool) (cpoolCount localCount closureVarCount byteCodeLen : Nat) : Nat :=
  (if hasDebug then 128 else 96) + 16 * cpoolCount + 16 * localCount + 8 * closureVarCount + byteCodeLen

end CkbJs.Impl.Bytecode
