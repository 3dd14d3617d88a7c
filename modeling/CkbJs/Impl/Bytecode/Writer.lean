import CkbJs.Impl.Bytecode.Opcode
import CkbJs.Impl.Bytecode.Value
import Mathlib.Logic.Function.Basic

/-!
# The binary object writer

`JS_WriteObject` of `quickjs.c`, for the host's byte order and without shared
array buffers and object references, as `qjs.c` calls it. A file is the
version, the table of the atoms that are not predefined, and the value, in
which an atom is its index in this table. Running out of memory is left out;
the C stack is not checked (`CONFIG_STACK_CHECK` is off), and the first
argument of `writeObjectRec` is how deep it is.
-/

namespace CkbJs.Impl.Bytecode

inductive WriteError where
  | stackOverflow
  /-- "bignum exponent is too large". -/
  | exponentTooLarge
  /-- "bignum is too large". -/
  | bignumTooLarge
  /-- "only value properties are supported". -/
  | onlyValueProperties
  /-- "ArrayBuffer is detached". -/
  | detached
  /-- "unsupported object class". -/
  | unsupportedClass
  /-- "unsupported tag (%d)". -/
  | unsupportedTag
  | assertion
  /-- An access outside `opcode_info` or the byte code. -/
  | outOfBounds
  deriving DecidableEq

inductive BCTagEnum where
  | null | undefined | boolFalse | boolTrue | int32 | float64 | string | object | array
  | bigInt | bigFloat | bigDecimal | templateObject | functionBytecode | module
  | typedArray | arrayBuffer | sharedArrayBuffer | date | objectValue | objectReference
  deriving DecidableEq

/-- The tags, from `BC_TAG_NULL = 1` on. -/
def BCTagEnum.all : List BCTagEnum :=
  [.null, .undefined, .boolFalse, .boolTrue, .int32, .float64, .string, .object, .array,
   .bigInt, .bigFloat, .bigDecimal, .templateObject, .functionBytecode, .module,
   .typedArray, .arrayBuffer, .sharedArrayBuffer, .date, .objectValue, .objectReference]

def BCTagEnum.toByte (tag : BCTagEnum) : Byte := UInt8.ofNat (all.idxOf tag + 1)

def BC_VERSION : Byte := 2

/-- The part of a `BCWriterState` that does not change, and what it finds of
an atom in the runtime. -/
structure BCWriter where
  allowBytecode : Bool
  /-- `JS_AtomIsString`. -/
  isString : JSAtom → Bool
  atomArray : JSAtom → JSString

def firstAtom (allowBytecode : Bool) : JSAtom := if allowBytecode then JS_ATOM_END else 1

/-- An entry of `atomToIdx` is 0 where there is none. -/
structure BCWriterState where
  dbuf : List Byte
  atomToIdx : UInt32 → UInt32
  idxToAtom : List JSAtom

abbrev Writer := EStateM WriteError BCWriterState

def dbufPut (bs : List Byte) : Writer Unit := modify fun s => { s with dbuf := s.dbuf ++ bs }

def bcPutU8 (v : UInt8) : Writer Unit := dbufPut [v]

def bcPutU16 (v : UInt16) : Writer Unit := dbufPut (Mem.leBytes 2 v.toNat)

def bcPutU64 (v : UInt64) : Writer Unit := dbufPut (Mem.leBytes 8 v.toNat)

/-- The loop of `dbuf_put_leb128`. -/
def leb128 : Nat → UInt32 → List Byte
  | 0, _ => []
  | n + 1, v =>
    let a := v &&& 0x7f
    let v := v >>> 7
    if v ≠ 0 then (a ||| 0x80).toUInt8 :: leb128 n v else [a.toUInt8]

/-- A number of 32 bits has at most five groups of seven. -/
def bcPutLeb128 (v : UInt32) : Writer Unit := dbufPut (leb128 5 v)

def bcPutSleb128 (v1 : Int32) : Writer Unit :=
  let v := v1.toUInt32
  bcPutLeb128 (((2 : UInt32) * v) ^^^ -(v >>> 31))

/-- One call of `bc_set_flags`, on `flags` and `idx`. -/
def bcSetFlags (val n : Nat) (s : Nat × Nat) : Nat × Nat := (s.1 ||| val <<< s.2, s.2 + n)

def bcAtomToIdx (w : BCWriter) (atom : JSAtom) : Writer UInt32 := do
  let first := firstAtom w.allowBytecode
  if atom < first ∨ atomIsTaggedInt atom then
    return atom
  else
    let s ← get
    if s.atomToIdx (atom - first) ≠ 0 then
      return s.atomToIdx (atom - first)
    else
      let v := UInt32.ofNat s.idxToAtom.length + first
      set { s with
        idxToAtom := s.idxToAtom ++ [atom]
        atomToIdx := Function.update s.atomToIdx (atom - first) v }
      return v

def bcPutAtom (w : BCWriter) (atom : JSAtom) : Writer Unit := do
  if atomIsTaggedInt atom then
    bcPutLeb128 ((atomToUInt32 atom <<< 1) ||| 1)
  else
    let v ← bcAtomToIdx w atom
    bcPutLeb128 (v <<< 1)

/-- The loop over byte code that replaces each atom operand by what `f` gives
for it. -/
def replaceAtoms {ε σ : Type} (outOfBounds : ε) (f : UInt32 → EStateM ε σ UInt32) :
    Nat → List Byte → EStateM ε σ (List Byte)
  | 0, bc => pure bc
  | _ + 1, [] => pure []
  | n + 1, op :: bc =>
    match shortOpcodeInfo op with
    | none => throw outOfBounds
    | some info =>
      if info.fmt.hasAtom then
        match bc with
        | b0 :: b1 :: b2 :: b3 :: bc => do
          let val ← f (UInt32.ofNat (Mem.number [b0, b1, b2, b3]))
          let rest ← replaceAtoms outOfBounds f n (bc.drop (info.size - 5))
          return op :: (Mem.leBytes 4 val.toNat ++ (bc.take (info.size - 5) ++ rest))
        | _ => throw outOfBounds
      else do
        let rest ← replaceAtoms outOfBounds f n (bc.drop (info.size - 1))
        return op :: (bc.take (info.size - 1) ++ rest)

/-- `JS_WriteFunctionBytecode`. -/
def writeFunctionBytecode (w : BCWriter) (bcBuf : List Byte) : Writer Unit := do
  let bcBuf ← replaceAtoms .outOfBounds (bcAtomToIdx w) bcBuf.length bcBuf
  dbufPut bcBuf

/-- `JS_WriteString`. -/
def writeString (p : JSString) : Writer Unit := do
  bcPutLeb128 ((UInt32.ofNat p.len <<< 1) ||| (if p.isWideChar then 1 else 0))
  match p with
  | .str8 s _ => dbufPut s
  | .str16 s _ => s.forM bcPutU16

/-- The loop that removes the low zero bytes of a limb, and how many of `n`
bytes are left. -/
def stripBytes : Nat → UInt64 → Nat × UInt64
  | 0, v => (0, v)
  | n + 1, v => if v &&& 0xff = 0 then stripBytes n (v >>> 8) else (n + 1, v)

/-- The same for the decimal digits of a limb. -/
def stripDigits : Nat → UInt64 → Nat × UInt64
  | 0, v => (0, v)
  | n + 1, v => if v % 10 = 0 then stripDigits n (v / 10) else (n + 1, v)

/-- The low `n` decimal digits of a limb. -/
def limbDigits : Nat → UInt64 → List UInt8
  | 0, _ => []
  | n + 1, v => (v % 10).toUInt8 :: limbDigits n (v / 10)

/-- Two digits in a byte. -/
def packDigits : List UInt8 → List Byte
  | [] => []
  | [d] => [d]
  | d :: d' :: ds => (d ||| d' <<< 4) :: packDigits ds

def BigTag.toBCTag : BigTag → BCTagEnum
  | .bigInt => .bigInt
  | .bigFloat => .bigFloat
  | .bigDecimal => .bigDecimal

/-- The exponent, with small numbers for the special ones. -/
def expnCode (expn : Int) : Int :=
  if expn = BF_EXP_ZERO then 0
  else if expn = BF_EXP_INF then 1
  else if expn = BF_EXP_NAN then 2
  else if expn ≥ 0 then expn + 3
  else expn

/-- The mantissa, from its lowest limb that is not zero. -/
def writeMantissa (tag : BigTag) (tab : List UInt64) : Writer Unit :=
  match tab.dropWhile (· = 0) with
  | [] => throw .assertion
  | v :: limbs =>
    if tag ≠ .bigDecimal then
      let p := stripBytes 8 v
      let len := limbs.length * 8 + p.1
      if len > 2 ^ 31 - 1 then
        throw .bignumTooLarge
      else do
        bcPutLeb128 (UInt32.ofNat len)
        dbufPut (Mem.leBytes p.1 p.2.toNat)
        limbs.forM bcPutU64
    else
      let p := stripDigits LIMB_DIGITS v
      let len := tab.length * LIMB_DIGITS - (LIMB_DIGITS - p.1)
      if len > 2 ^ 31 - 1 then
        throw .bignumTooLarge
      else do
        bcPutLeb128 (UInt32.ofNat len)
        dbufPut (packDigits (limbDigits p.1 p.2 ++ limbs.flatMap (limbDigits LIMB_DIGITS)))

/-- `JS_WriteBigNum`. -/
def writeBigNum (tag : BigTag) (a : BfNum) : Writer Unit := do
  bcPutU8 tag.toBCTag.toByte
  let e := 2 * expnCode a.expn + a.sign.toNat
  if e < -2 ^ 31 ∨ e > 2 ^ 31 - 1 then
    throw .exponentTooLarge
  else
    bcPutSleb128 (Int32.ofInt e)
    if a.tab = [] then return else writeMantissa tag a.tab

def functionFlags (b : JSFunctionBytecode) : Nat :=
  (bcSetFlags b.backtraceBarrier.toNat 1 <| bcSetFlags b.debug.isSome.toNat 1 <|
    bcSetFlags b.argumentsAllowed.toNat 1 <| bcSetFlags b.superAllowed.toNat 1 <|
    bcSetFlags b.superCallAllowed.toNat 1 <| bcSetFlags b.newTargetAllowed.toNat 1 <|
    bcSetFlags b.funcKind.val 2 <| bcSetFlags b.needHomeObject.toNat 1 <|
    bcSetFlags b.isDerivedClassConstructor.toNat 1 <|
    bcSetFlags b.hasSimpleParameterList.toNat 1 <| bcSetFlags b.hasPrototype.toNat 1 (0, 0)).1

def varDefFlags (vd : JSVarDef) : Nat :=
  (bcSetFlags vd.isCaptured.toNat 1 <| bcSetFlags vd.isLexical.toNat 1 <|
    bcSetFlags vd.isConst.toNat 1 <| bcSetFlags vd.varKind.val 4 (0, 0)).1

def closureVarFlags (cv : JSClosureVar) : Nat :=
  (bcSetFlags cv.varKind.val 4 <| bcSetFlags cv.isLexical.toNat 1 <|
    bcSetFlags cv.isConst.toNat 1 <| bcSetFlags cv.isArg.toNat 1 <|
    bcSetFlags cv.isLocal.toNat 1 (0, 0)).1

def writeVarDef (w : BCWriter) (vd : JSVarDef) : Writer Unit := do
  bcPutAtom w vd.varName
  bcPutLeb128 vd.scopeLevel.toUInt32
  bcPutLeb128 (vd.scopeNext + 1).toUInt32
  bcPutU8 (UInt8.ofNat (varDefFlags vd))

def writeClosureVar (w : BCWriter) (cv : JSClosureVar) : Writer Unit := do
  bcPutAtom w cv.varName
  bcPutLeb128 cv.varIdx.toUInt32
  bcPutU8 (UInt8.ofNat (closureVarFlags cv))

def writeDebugInfo (w : BCWriter) (debug : DebugInfo) : Writer Unit := do
  bcPutAtom w debug.filename
  bcPutLeb128 debug.lineNum.toUInt32
  bcPutLeb128 (UInt32.ofNat debug.pc2lineBuf.length)
  dbufPut debug.pc2lineBuf

def writeDebug (w : BCWriter) : Option DebugInfo → Writer Unit
  | some debug => writeDebugInfo w debug
  | none => pure ()

/-- The number of the variables is written twice; this one is redundant. -/
def putLocalCount (b : JSFunctionBytecode) : Writer Unit :=
  if b.vardefs = [] then bcPutLeb128 0
  else bcPutLeb128 (b.argCount.toUInt32 + b.varCount.toUInt32)

/-- `JS_WriteFunctionTag`; `rec` writes a value. -/
def writeFunctionTag (w : BCWriter) (rec : JSValue → Writer Unit) (b : JSFunctionBytecode)
    (cpool : List JSValue) : Writer Unit := do
  bcPutU8 BCTagEnum.functionBytecode.toByte
  bcPutU16 (UInt16.ofNat (functionFlags b))
  bcPutU8 b.jsMode
  bcPutAtom w b.funcName
  bcPutLeb128 b.argCount.toUInt32
  bcPutLeb128 b.varCount.toUInt32
  bcPutLeb128 b.definedArgCount.toUInt32
  bcPutLeb128 b.stackSize.toUInt32
  bcPutLeb128 (UInt32.ofNat b.closureVar.length)
  bcPutLeb128 (UInt32.ofNat cpool.length)
  bcPutLeb128 (UInt32.ofNat b.byteCodeBuf.length)
  putLocalCount b
  b.vardefs.forM (writeVarDef w)
  b.closureVar.forM (writeClosureVar w)
  writeFunctionBytecode w b.byteCodeBuf
  writeDebug w b.debug
  cpool.forM rec

def writeExportEntry (w : BCWriter) (me : JSExportEntry) : Writer Unit := do
  bcPutU8 me.exportType
  bcPutLeb128 me.idx.toUInt32
  if me.exportType = JS_EXPORT_TYPE_LOCAL then
    bcPutAtom w me.exportName
  else
    bcPutAtom w me.localName
    bcPutAtom w me.exportName

def writeImportEntry (w : BCWriter) (mi : JSImportEntry) : Writer Unit := do
  bcPutLeb128 mi.varIdx.toUInt32
  bcPutAtom w mi.importName
  bcPutLeb128 mi.reqModuleIdx.toUInt32

/-- `JS_WriteModule`. -/
def writeModule (w : BCWriter) (rec : JSValue → Writer Unit) (m : JSModuleDef) (funcObj : JSValue) :
    Writer Unit := do
  bcPutU8 BCTagEnum.module.toByte
  bcPutAtom w m.moduleName
  bcPutLeb128 (UInt32.ofNat m.reqModuleEntries.length)
  m.reqModuleEntries.forM (bcPutAtom w)
  bcPutLeb128 (UInt32.ofNat m.exportEntries.length)
  m.exportEntries.forM (writeExportEntry w)
  bcPutLeb128 (UInt32.ofNat m.starExportEntries.length)
  m.starExportEntries.forM fun se => bcPutLeb128 se.toUInt32
  bcPutLeb128 (UInt32.ofNat m.importEntries.length)
  m.importEntries.forM (writeImportEntry w)
  rec funcObj

/-- `JS_WriteArray`: an array that is not extensible is taken for a template. -/
def writeArray (w : BCWriter) (rec : JSValue → Writer Unit) (extensible : Bool)
    (elems : List JSValue) (raw : JSValue) : Writer Unit := do
  if w.allowBytecode ∧ extensible = false then
    bcPutU8 BCTagEnum.templateObject.toByte
    bcPutLeb128 (UInt32.ofNat elems.length)
    elems.forM rec
    rec raw
  else
    bcPutU8 BCTagEnum.array.toByte
    bcPutLeb128 (UInt32.ofNat elems.length)
    elems.forM rec

/-- The properties `JS_WriteObjectTag` writes. -/
def isWritten (w : BCWriter) (pr : JSShapeProperty) : Bool :=
  pr.atom ≠ JS_ATOM_NULL && w.isString pr.atom && pr.enumerable

/-- `JS_WriteObjectTag`: the first pass counts the properties. -/
def writeObjectTag (w : BCWriter) (rec : JSValue → Writer Unit)
    (props : List (JSShapeProperty × JSValue)) : Writer Unit := do
  bcPutU8 BCTagEnum.object.toByte
  let written := props.filter fun p => isWritten w p.1
  if written.any fun p => !p.1.isValue then
    throw .onlyValueProperties
  else
    bcPutLeb128 (UInt32.ofNat written.length)
    written.forM fun p => do
      bcPutAtom w p.1.atom
      rec p.2

/-- `JS_WriteTypedArray`. -/
def writeTypedArray (rec : JSValue → Writer Unit) (classId : TypedArrayClass)
    (count offset : UInt32) (buffer : JSValue) : Writer Unit := do
  bcPutU8 BCTagEnum.typedArray.toByte
  bcPutU8 (UInt8.ofNat classId.val)
  bcPutLeb128 count
  bcPutLeb128 offset
  rec buffer

/-- `JS_WriteArrayBuffer`. -/
def writeArrayBuffer (data : Option (List Byte)) : Writer Unit :=
  match data with
  | none => throw .detached
  | some data => do
    bcPutU8 BCTagEnum.arrayBuffer.toByte
    bcPutLeb128 (UInt32.ofNat data.length)
    dbufPut data

/-- `JS_WriteObjectRec`. -/
def writeObjectRec (w : BCWriter) : Nat → JSValue → Writer Unit
  | 0, _ => throw .stackOverflow
  | depth + 1, obj =>
    match obj with
    | .null => bcPutU8 BCTagEnum.null.toByte
    | .undefined => bcPutU8 BCTagEnum.undefined.toByte
    | .bool b => bcPutU8 (BCTagEnum.boolFalse.toByte + UInt8.ofNat b.toNat)
    | .int v => do
      bcPutU8 BCTagEnum.int32.toByte
      bcPutSleb128 v
    | .float64 u => do
      bcPutU8 BCTagEnum.float64.toByte
      bcPutU64 u
    | .string p => do
      bcPutU8 BCTagEnum.string.toByte
      writeString p
    | .functionBytecode b cpool =>
      if w.allowBytecode then writeFunctionTag w (writeObjectRec w depth) b cpool
      else throw .unsupportedTag
    | .module m funcObj =>
      if w.allowBytecode then writeModule w (writeObjectRec w depth) m funcObj
      else throw .unsupportedTag
    | .array extensible elems raw => writeArray w (writeObjectRec w depth) extensible elems raw
    | .object props => writeObjectTag w (writeObjectRec w depth) props
    | .arrayBuffer data => writeArrayBuffer data
    | .date objectData => do
      bcPutU8 BCTagEnum.date.toByte
      writeObjectRec w depth objectData
    | .objectValue objectData => do
      bcPutU8 BCTagEnum.objectValue.toByte
      writeObjectRec w depth objectData
    | .typedArray classId count offset buffer =>
      writeTypedArray (writeObjectRec w depth) classId count offset buffer
    | .otherObject => throw .unsupportedClass
    | .big tag num => writeBigNum tag num
    | .symbol => throw .unsupportedTag

def writeAtomTable (w : BCWriter) (idxToAtom : List JSAtom) : Writer Unit := do
  bcPutU8 BC_VERSION
  bcPutLeb128 (UInt32.ofNat idxToAtom.length)
  idxToAtom.forM fun atom => writeString (w.atomArray atom)

/-- `JS_WriteObjectAtoms`: the table of the atoms goes before the value. -/
def writeObjectAtoms (w : BCWriter) : Writer Unit := do
  let s ← get
  set { s with dbuf := [] }
  writeAtomTable w s.idxToAtom
  dbufPut s.dbuf

def writeFile (w : BCWriter) (depth : Nat) (obj : JSValue) : Writer Unit := do
  writeObjectRec w depth obj
  writeObjectAtoms w

/-- `JS_WriteObject`. -/
def writeObject (w : BCWriter) (depth : Nat) (obj : JSValue) : Except WriteError (List Byte) :=
  match (writeFile w depth obj).run ⟨[], fun _ => 0, []⟩ with
  | .ok _ s => .ok s.dbuf
  | .error e _ => .error e

end CkbJs.Impl.Bytecode
