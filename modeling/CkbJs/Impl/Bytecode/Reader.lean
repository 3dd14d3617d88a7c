import CkbJs.Framework.Codec
import CkbJs.Impl.Bytecode.Writer

/-!
# The binary object reader

`JS_ReadObject` of `quickjs.c` for the files of `JS_WriteObject`, without ROM
data, shared array buffers and object references. A file is not checked for
more than what the reader needs: where it makes the source compute a size
that does not fit an `int`, or access memory outside the byte code or at a
null pointer, the reader stops with an error of its own.
-/

namespace CkbJs.Impl.Bytecode

open CkbJs.Codec

inductive ReadError where
  /-- "read after the end of the buffer". -/
  | readAfterEnd
  /-- "invalid atom index (pos=%u)". -/
  | invalidAtomIndex (pos : Nat)
  /-- "invalid tag (tag=%d pos=%u)". -/
  | invalidTag (tag : Byte) (pos : Nat)
  /-- "invalid version (%d expected=%d)". -/
  | invalidVersion (version : Byte)
  /-- "object references are not allowed". -/
  | objectReference
  | stackOverflow
  /-- "invalid bignum length". -/
  | invalidBignumLength
  /-- "invalid digit". -/
  | invalidDigit
  /-- "invalid typed array". -/
  | invalidTypedArray
  /-- "ArrayBuffer object expected". -/
  | arrayBufferExpected
  /-- "ArrayBuffer is detached". -/
  | detached
  /-- "invalid array buffer length". -/
  | invalidArrayBufferLength
  /-- "invalid offset". -/
  | invalidOffset
  /-- "invalid length". -/
  | invalidLength
  /-- "Number tag expected for date". -/
  | numberExpected
  /-- "cannot convert to object". -/
  | cannotConvert
  | outOfMemory
  /-- `function_size` wraps around. -/
  | functionSize
  /-- An access outside `opcode_info` or the byte code. -/
  | outOfBounds
  /-- `free_bytecode_atoms` reads a `byte_code_buf` that is still null. -/
  | nullByteCode
  deriving DecidableEq

/-- The part of a `BCReaderState` that does not change once the atoms are read. -/
structure BCReader where
  allowBytecode : Bool
  idxToAtom : List JSAtom

abbrev RM := Reader ReadError Byte

/-- `ptr - buf_start`. -/
def bcPos : RM Nat := do
  let s ← get
  return s.pos

/-- `bc_get_buf`, and the check and the copy of the other primitives. -/
def bcGetBuf (n : Nat) : RM {bs : List Byte // bs.length = n} := do
  let s ← get
  if h : n ≤ s.rest.length then
    set (⟨s.rest.drop n, s.pos + n⟩ : Input Byte)
    return ⟨s.rest.take n, by simp [h]⟩
  else
    throw .readAfterEnd

def bcGetU8 : RM UInt8 := do
  let bs ← bcGetBuf 1
  return UInt8.ofNat (Mem.number bs.1)

def bcGetU16 : RM UInt16 := do
  let bs ← bcGetBuf 2
  return UInt16.ofNat (Mem.number bs.1)

def bcGetU64 : RM UInt64 := do
  let bs ← bcGetBuf 8
  return UInt64.ofNat (Mem.number bs.1)

/-- The loop of `get_leb128`, for the bytes that are left of five. -/
def getLeb128 : Nat → UInt32 → UInt32 → RM UInt32
  | 0, _, _ => throw .readAfterEnd
  | n + 1, i, v => do
    let a ← bcGetU8
    let v := v ||| ((a.toUInt32 &&& 0x7f) <<< (i * 7))
    if a &&& 0x80 = 0 then return v else getLeb128 n (i + 1) v

def bcGetLeb128 : RM UInt32 := getLeb128 5 0 0

def bcGetSleb128 : RM Int32 := do
  let val ← bcGetLeb128
  return ((val >>> 1) ^^^ -(val &&& 1)).toInt32

def bcGetLeb128Int : RM Int32 := UInt32.toInt32 <$> bcGetLeb128

def bcGetLeb128U16 : RM UInt16 := UInt32.toUInt16 <$> bcGetLeb128

/-- A count for which an array is allocated: with a negative one,
`js_mallocz` fails. -/
def bcGetCount : RM Nat := do
  let n ← bcGetLeb128
  if n.toNat < 2 ^ 31 then return n.toNat else throw .outOfMemory

def bcIdxToAtom (t : BCReader) (idx : UInt32) : RM JSAtom := do
  let first := firstAtom t.allowBytecode
  if atomIsTaggedInt idx ∨ idx < first then
    return idx
  else
    match t.idxToAtom[(idx - first).toNat]? with
    | some atom => return atom
    | none => do
      let pos ← bcPos
      throw (.invalidAtomIndex pos)

def bcGetAtom (t : BCReader) : RM JSAtom := do
  let v ← bcGetLeb128
  if v &&& 1 ≠ 0 then return atomFromUInt32 (v >>> 1) else bcIdxToAtom t (v >>> 1)

def unitsOf : List Byte → List UInt16
  | lo :: hi :: bs => UInt16.ofNat (Mem.number [lo, hi]) :: unitsOf bs
  | _ => []

theorem length_unitsOf_le (bs : List Byte) : (unitsOf bs).length ≤ bs.length / 2 := by
  induction bs using unitsOf.induct with
  | case1 lo hi bs ih =>
    rw [unitsOf, List.length_cons, List.length_cons, List.length_cons]
    omega
  | case2 bs h =>
    rw [unitsOf]
    · exact Nat.zero_le _
    · exact h

theorem toNat_shiftRight_one_lt (v : UInt32) : (v >>> 1).toNat < 2 ^ 31 := by
  rw [UInt32.toNat_shiftRight]
  have := v.toNat_lt
  simp only [UInt32.reduceToNat, Nat.reduceMod, Nat.shiftRight_eq_div_pow]
  omega

/-- `JS_ReadString`. -/
def readString : RM JSString := do
  let len ← bcGetLeb128
  if len &&& 1 ≠ 0 then do
    let s ← bcGetBuf (2 * (len >>> 1).toNat)
    return .str16 (unitsOf s.1) (by
      have := length_unitsOf_le s.1
      have := toNat_shiftRight_one_lt len
      have := s.2
      omega)
  else do
    let s ← bcGetBuf (len >>> 1).toNat
    return .str8 s.1 (by rw [s.2]; exact toNat_shiftRight_one_lt len)

def bcGetFlags (flags idx n : Nat) : Nat := (flags >>> idx) &&& ((1 <<< n) - 1)

/-- A failure of `JS_ReadFunctionTag` while `byte_code_buf` is null. The function
that is released has its `byte_code_len` already, and `free_function_bytecode`
goes through as much byte code. -/
def failBeforeBytecode (byteCodeLen : Nat) (e : ReadError) : ReadError :=
  if byteCodeLen = 0 then e else .nullByteCode

/-- `JS_ReadFunctionBytecode`. -/
def readFunctionBytecode (t : BCReader) (bcLen : Nat) : RM (List Byte) := do
  let bcBuf ← (bcGetBuf bcLen).adaptExcept (failBeforeBytecode bcLen)
  replaceAtoms .outOfBounds (bcIdxToAtom t) bcLen bcBuf.1

/-- The next half of a byte, and the one after it if it is in the same byte. -/
def nextHalf : Option UInt8 → RM (UInt8 × Option UInt8)
  | none => do
    let v8 ← bcGetU8
    return (v8 &&& 0xf, some (v8 >>> 4))
  | some d => return (d, none)

/-- The next digit of a `BigDecimal`. -/
def getDigit (half : Option UInt8) : RM (UInt8 × Option UInt8) := do
  let p ← nextHalf half
  if p.1 ≥ 10 then throw .invalidDigit else return p

/-- The digits of a limb from digit `j` on, `n` of them. -/
def getLimb : Nat → Nat → UInt64 → Option UInt8 → RM (UInt64 × Option UInt8)
  | 0, _, v, half => pure (v, half)
  | n + 1, j, v, half => do
    let p ← getDigit half
    getLimb n (j + 1) (v + UInt64.ofNat (10 ^ j) * p.1.toUInt64) p.2

/-- `n` limbs; the first has digits from digit `j` on. -/
def getLimbs : Nat → Nat → Option UInt8 → RM (List UInt64)
  | 0, _, _ => pure []
  | n + 1, j, half => do
    let p ← getLimb (LIMB_DIGITS - j) j 0 half
    let tab ← getLimbs n 0 p.2
    return p.1 :: tab

/-- The limbs of a binary mantissa of `len` bytes. -/
def getBinaryLimbs (len : Nat) : RM (List UInt64) := do
  let l := (len + 7) / 8
  let n := len % 8
  if n ≠ 0 then do
    let bs ← bcGetBuf n
    let v := UInt64.ofNat (Mem.number bs.1) <<< UInt64.ofNat ((8 - n) * 8)
    let tab ← readN bcGetU64 (l - 1)
    return v :: tab
  else
    readN bcGetU64 l

/-- The limbs of a decimal mantissa of `len` digits. -/
def getDecimalLimbs (len : Nat) : RM (List UInt64) :=
  let n := len % LIMB_DIGITS
  getLimbs ((len + LIMB_DIGITS - 1) / LIMB_DIGITS) (if n ≠ 0 then LIMB_DIGITS - n else 0) none

def getTab (tag : BigTag) (len : Nat) : RM (List UInt64) :=
  if tag ≠ .bigDecimal then getBinaryLimbs len else getDecimalLimbs len

/-- The exponent for its code in the file. -/
def expnOfCode (e : Int) : Int :=
  if e = 0 then BF_EXP_ZERO
  else if e = 1 then BF_EXP_INF
  else if e = 2 then BF_EXP_NAN
  else if e ≥ 3 then e - 3
  else e

def readMantissa (tag : BigTag) (sign : Bool) (expn : Int) : RM JSValue :=
  if expn ≠ BF_EXP_ZERO ∧ expn ≠ BF_EXP_INF ∧ expn ≠ BF_EXP_NAN then do
    let len ← bcGetLeb128
    if len = 0 then
      throw .invalidBignumLength
    else do
      let tab ← getTab tag len.toNat
      return .big tag ⟨sign, expn, tab⟩
  else
    return .big tag ⟨sign, expn, []⟩

/-- `JS_ReadBigNum`. -/
def readBigNum (tag : BigTag) : RM JSValue := do
  let e ← bcGetSleb128
  readMantissa tag (e.toInt % 2 = 1) (expnOfCode (e.toInt / 2))

theorem bcGetFlags_lt (flags idx n : Nat) : bcGetFlags flags idx n < 2 ^ n := by
  rw [bcGetFlags, Nat.one_shiftLeft, Nat.and_two_pow_sub_one_eq_mod]
  exact Nat.mod_lt _ (Nat.two_pow_pos n)

def bcGetFlag (flags idx : Nat) : Bool := bcGetFlags flags idx 1 ≠ 0

def readVarDef (t : BCReader) : RM JSVarDef := do
  let varName ← bcGetAtom t
  let scopeLevel ← bcGetLeb128Int
  let scopeNext ← bcGetLeb128Int
  let v8 ← bcGetU8
  return {
    varName
    scopeLevel
    scopeNext := scopeNext - 1
    varKind := ⟨bcGetFlags v8.toNat 0 4, bcGetFlags_lt ..⟩
    isConst := bcGetFlag v8.toNat 4
    isLexical := bcGetFlag v8.toNat 5
    isCaptured := bcGetFlag v8.toNat 6 }

def readClosureVar (t : BCReader) : RM JSClosureVar := do
  let varName ← bcGetAtom t
  let varIdx ← bcGetLeb128Int
  let v8 ← bcGetU8
  return {
    varName
    varIdx := varIdx.toUInt32.toUInt16
    isLocal := bcGetFlag v8.toNat 0
    isArg := bcGetFlag v8.toNat 1
    isConst := bcGetFlag v8.toNat 2
    isLexical := bcGetFlag v8.toNat 3
    varKind := ⟨bcGetFlags v8.toNat 4 4, bcGetFlags_lt ..⟩ }

def readDebugInfo (t : BCReader) : RM DebugInfo := do
  let filename ← bcGetAtom t
  let lineNum ← bcGetLeb128Int
  let pc2lineLen ← bcGetCount
  let pc2lineBuf ← bcGetBuf pc2lineLen
  return ⟨filename, lineNum, pc2lineBuf.1⟩

def readDebug (t : BCReader) (hasDebug : Bool) : RM (Option DebugInfo) :=
  if hasDebug then some <$> readDebugInfo t else pure none

/-- `JS_ReadFunctionTag`; `rec` reads a value. -/
def readFunctionTag (t : BCReader) (rec : RM JSValue) : RM JSValue := do
  let v16 ← bcGetU16
  let jsMode ← bcGetU8
  let funcName ← bcGetAtom t
  let argCount ← bcGetLeb128U16
  let varCount ← bcGetLeb128U16
  let definedArgCount ← bcGetLeb128U16
  let stackSize ← bcGetLeb128U16
  let closureVarCount ← bcGetLeb128
  let cpoolCount ← bcGetLeb128
  let byteCodeLen ← bcGetLeb128
  let localCount ← bcGetLeb128
  if functionSize (bcGetFlag v16.toNat 10) cpoolCount.toNat localCount.toNat closureVarCount.toNat
      byteCodeLen.toNat ≥ 2 ^ 31 then
    throw .functionSize
  else do
    let fail := failBeforeBytecode byteCodeLen.toNat
    let vardefs ← (readN (readVarDef t) localCount.toNat).adaptExcept fail
    let closureVar ← (readN (readClosureVar t) closureVarCount.toNat).adaptExcept fail
    let byteCodeBuf ← readFunctionBytecode t byteCodeLen.toNat
    let debug ← readDebug t (bcGetFlag v16.toNat 10)
    let cpool ← readN rec cpoolCount.toNat
    return .functionBytecode {
      jsMode
      hasPrototype := bcGetFlag v16.toNat 0
      hasSimpleParameterList := bcGetFlag v16.toNat 1
      isDerivedClassConstructor := bcGetFlag v16.toNat 2
      needHomeObject := bcGetFlag v16.toNat 3
      funcKind := ⟨bcGetFlags v16.toNat 4 2, bcGetFlags_lt ..⟩
      newTargetAllowed := bcGetFlag v16.toNat 6
      superCallAllowed := bcGetFlag v16.toNat 7
      superAllowed := bcGetFlag v16.toNat 8
      argumentsAllowed := bcGetFlag v16.toNat 9
      backtraceBarrier := bcGetFlag v16.toNat 11
      byteCodeBuf, funcName, vardefs, closureVar
      argCount, varCount, definedArgCount, stackSize, debug } cpool

def readExportEntry (t : BCReader) : RM JSExportEntry := do
  let exportType ← bcGetU8
  let idx ← bcGetLeb128Int
  if exportType = JS_EXPORT_TYPE_LOCAL then do
    let exportName ← bcGetAtom t
    return ⟨idx, exportType, JS_ATOM_NULL, exportName⟩
  else do
    let localName ← bcGetAtom t
    let exportName ← bcGetAtom t
    return ⟨idx, exportType, localName, exportName⟩

def readImportEntry (t : BCReader) : RM JSImportEntry := do
  let varIdx ← bcGetLeb128Int
  let importName ← bcGetAtom t
  let reqModuleIdx ← bcGetLeb128Int
  return ⟨varIdx, importName, reqModuleIdx⟩

/-- `JS_ReadModule`. -/
def readModule (t : BCReader) (rec : RM JSValue) : RM JSValue := do
  let moduleName ← bcGetAtom t
  let reqModuleEntriesCount ← bcGetCount
  let reqModuleEntries ← readN (bcGetAtom t) reqModuleEntriesCount
  let exportEntriesCount ← bcGetCount
  let exportEntries ← readN (readExportEntry t) exportEntriesCount
  let starExportEntriesCount ← bcGetCount
  let starExportEntries ← readN bcGetLeb128Int starExportEntriesCount
  let importEntriesCount ← bcGetCount
  let importEntries ← readN (readImportEntry t) importEntriesCount
  let funcObj ← rec
  return .module ⟨moduleName, reqModuleEntries, exportEntries, starExportEntries, importEntries⟩ funcObj

/-- `JS_ReadArray`. -/
def readArray (rec : RM JSValue) (isTemplate : Bool) : RM JSValue := do
  let len ← bcGetLeb128
  let elems ← readN rec len.toNat
  if isTemplate then do
    let raw ← rec
    return .array false elems raw
  else
    return .array true elems .undefined

/-- `JS_ReadObjectTag`. -/
def readObjectTag (t : BCReader) (rec : RM JSValue) : RM JSValue := do
  let propCount ← bcGetLeb128
  let props ← readN (do
    let atom ← bcGetAtom t
    let val ← rec
    return (atom, val)) propCount.toNat
  return .object (props.foldl (fun obj p => defineProperty obj p.1 p.2) [])

/-- `js_typed_array_constructor` on an array buffer. -/
def typedArrayConstructor (classId : TypedArrayClass) (buffer : JSValue) (offset len : UInt32) : RM JSValue :=
  match buffer with
  | .arrayBuffer none => throw .detached
  | .arrayBuffer (some data) =>
    let sizeLog2 := typedArraySizeLog2 classId
    if offset.toNat % 2 ^ sizeLog2 ≠ 0 ∨ offset.toNat > data.length then
      throw .invalidOffset
    else if offset.toNat + len.toNat <<< sizeLog2 > data.length then
      throw .invalidLength
    else
      return .typedArray classId len offset buffer
  | _ => throw .arrayBufferExpected

/-- `JS_ReadTypedArray`. -/
def readTypedArray (rec : RM JSValue) : RM JSValue := do
  let arrayTag ← bcGetU8
  if h : arrayTag.toNat < JS_TYPED_ARRAY_COUNT then do
    let len ← bcGetLeb128
    let offset ← bcGetLeb128
    let arrayBuffer ← rec
    typedArrayConstructor ⟨arrayTag.toNat, h⟩ arrayBuffer offset len
  else
    throw .invalidTypedArray

/-- `JS_ReadArrayBuffer`. -/
def readArrayBuffer : RM JSValue := do
  let byteLength ← bcGetLeb128
  let data ← bcGetBuf byteLength.toNat
  if byteLength.toNat > 2 ^ 31 - 1 then
    throw .invalidArrayBufferLength
  else
    return .arrayBuffer (some data.1)

/-- `JS_IsNumber`. -/
def isNumber : JSValue → Bool
  | .int _ | .float64 _ => true
  | _ => false

/-- `JS_ReadDate`. -/
def readDate (rec : RM JSValue) : RM JSValue := do
  let val ← rec
  if isNumber val then return .date val else throw .numberExpected

/-- `JS_ToObject`. -/
def toObject : JSValue → Option JSValue
  | .null | .undefined | .functionBytecode .. | .module .. => none
  | .bool b => some (.objectValue (.bool b))
  | .int v => some (.objectValue (.int v))
  | .float64 u => some (.objectValue (.float64 u))
  | .string p => some (.objectValue (.string p))
  | .big tag num => some (.objectValue (.big tag num))
  | .symbol => some (.objectValue .symbol)
  | obj => some obj

/-- `JS_ReadObjectValue`. -/
def readObjectValue (rec : RM JSValue) : RM JSValue := do
  let val ← rec
  match toObject val with
  | some obj => return obj
  | none => throw .cannotConvert

/-- `JS_ReadObjectRec`, once it has read the tag. -/
def readTagged (t : BCReader) (rec : RM JSValue) (tag : Byte) : RM JSValue :=
  let invalidTag : RM JSValue := do
    let pos ← bcPos
    throw (.invalidTag tag pos)
  match BCTagEnum.all.find? fun bc => bc.toByte == tag with
  | none => invalidTag
  | some bc =>
    match bc with
    | .null => pure .null
    | .undefined => pure .undefined
    | .boolFalse => pure (.bool false)
    | .boolTrue => pure (.bool true)
    | .int32 => JSValue.int <$> bcGetSleb128
    | .float64 => JSValue.float64 <$> bcGetU64
    | .string => JSValue.string <$> readString
    | .functionBytecode => if t.allowBytecode then readFunctionTag t rec else invalidTag
    | .module => if t.allowBytecode then readModule t rec else invalidTag
    | .object => readObjectTag t rec
    | .array => readArray rec false
    | .templateObject => readArray rec true
    | .typedArray => readTypedArray rec
    | .arrayBuffer => readArrayBuffer
    | .sharedArrayBuffer => invalidTag
    | .date => readDate rec
    | .objectValue => readObjectValue rec
    | .bigInt => readBigNum .bigInt
    | .bigFloat => readBigNum .bigFloat
    | .bigDecimal => readBigNum .bigDecimal
    | .objectReference => throw .objectReference

/-- `JS_ReadObjectRec`. -/
def readObjectRec (t : BCReader) : Nat → RM JSValue
  | 0 => throw .stackOverflow
  | depth + 1 => do
    let tag ← bcGetU8
    readTagged t (readObjectRec t depth) tag

/-- `JS_ReadObjectAtoms`; `newAtom` is `JS_NewAtomStr` of the reader's runtime. -/
def readObjectAtoms (allowBytecode : Bool) (newAtom : JSString → JSAtom) : RM BCReader := do
  let v8 ← bcGetU8
  if v8 ≠ BC_VERSION then
    throw (.invalidVersion v8)
  else do
    let idxToAtomCount ← bcGetLeb128
    let idxToAtom ← readN (newAtom <$> readString) idxToAtomCount.toNat
    return ⟨allowBytecode, idxToAtom⟩

def readFile (allowBytecode : Bool) (newAtom : JSString → JSAtom) (depth : Nat) : RM JSValue := do
  let t ← readObjectAtoms allowBytecode newAtom
  readObjectRec t depth

/-- `JS_ReadObject`. -/
def readObject (allowBytecode : Bool) (newAtom : JSString → JSAtom) (depth : Nat) (buf : List Byte) :
    Except ReadError JSValue :=
  match (readFile allowBytecode newAtom depth).run ⟨buf, 0⟩ with
  | .ok obj _ => .ok obj
  | .error e _ => .error e

end CkbJs.Impl.Bytecode
