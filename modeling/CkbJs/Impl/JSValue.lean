import CkbJs.Framework.Float64
import CkbJs.Framework.Mem

/-!
# JS values and their conversions

The part of `quickjs.c` through which the arguments of a binding pass:
`JS_ToPrimitiveFree`, `JS_ToNumberHintFree` (at `TON_FLAG_NUMBER`),
`JS_ToInt64Free`, `JS_ToInt32Free`, `JS_ToCStringLen2`, and the accessors of
typed arrays and array buffers. An `Engine` stands for the JS heap and the
scripts' own methods: what calling an object's conversion methods returns,
its properties, the buffers behind it, and the two conversions between
strings and numbers (`js_atof`, `js_dtoa`), which can also run out of memory.
-/

namespace CkbJs.Impl

/-- A JS value, by its tag. -/
inductive JSValue where
  | int (v : BitVec 32)
  | bool (b : Bool)
  | null
  | undefined
  | float64 (d : Float64)
  | bigInt (v : Int)
  /-- A bigfloat, by its integer part (`none` for an infinity or NaN). -/
  | bigFloat (v : Option Int)
  | bigDecimal
  | string (s : List Byte)
  | symbol
  | object (o : Nat)
  | exception
  deriving DecidableEq, Repr

inductive Hint where
  | string
  | number
  deriving DecidableEq, Repr

/-- What `js_atof` returns: an integer or a double. -/
inductive JSNumber where
  | int (v : BitVec 32)
  | float64 (d : Float64)
  deriving DecidableEq, Repr

def JSNumber.toValue : JSNumber → JSValue
  | .int v => .int v
  | .float64 d => .float64 d

/-- A typed array: `length` bytes from `offset` of the array buffer `buffer`. -/
structure TypedArray where
  buffer : Nat
  offset : Nat
  length : Nat
  deriving DecidableEq, Repr

structure ArrayBuffer where
  data : List Byte
  detached : Bool
  deriving DecidableEq, Repr

/-- The JS heap and the scripts' methods, as far as a binding sees them. -/
structure Engine where
  /-- What the conversion methods of an object return. -/
  toPrimitive : Nat → Hint → JSValue
  /-- The number a string denotes, `none` when memory runs out. -/
  stringToNumber : List Byte → Option JSNumber
  /-- The text of a value other than an object or a symbol, `none` when
  memory runs out. -/
  render : JSValue → Option (List Byte)
  getPropertyStr : JSValue → String → JSValue
  typedArray : Nat → Option TypedArray
  arrayBuffer : Nat → Option ArrayBuffer

/-- The double NaN that `JS_NAN` is. -/
def nan : Float64 := 0x7ff8000000000000#64

variable (E : Engine)

/-- `JS_ToPrimitiveFree`: a conversion method that returns an object is a
`TypeError`. -/
def toPrimitiveFree (v : JSValue) (hint : Hint) : JSValue :=
  match v with
  | .object o =>
    match E.toPrimitive o hint with
    | .object _ => .exception
    | r => r
  | v => v

/-- `JS_ToNumberHintFree` at `TON_FLAG_NUMBER`. -/
def toNumberFree (v : JSValue) : JSValue :=
  match toPrimitiveFree E v .number with
  | .bigDecimal => .exception -- cannot convert bigdecimal to number
  | .bigInt _ => .exception -- cannot convert bigint to number
  | .bigFloat _ => .exception -- cannot convert bigfloat to number
  | .float64 d => .float64 d
  | .int v => .int v
  | .exception => .exception
  | .bool b => .int (if b then 1 else 0)
  | .null => .int 0
  | .undefined => .float64 nan
  | .string s => ((E.stringToNumber s).map JSNumber.toValue).getD .exception
  | .symbol => .exception -- cannot convert symbol to number
  | .object _ => .float64 nan

/-- The `JS_TAG_FLOAT64` case of `JS_ToInt64Free`: the remainder modulo 2⁶⁴. -/
def float64ToInt64 (d : Float64) : Int :=
  if d.expo ≤ 1023 + 62 then d.trunc
  else if d.expo ≤ 1023 + 62 + 53 then
    let v := ((d.frac + 2 ^ 52) * 2 ^ (d.expo - 1023 - 52) % 2 ^ 64 : Nat)
    (d.signed v).bmod (2 ^ 64)
  else 0

/-- The `JS_TAG_FLOAT64` case of `JS_ToInt32Free`: the remainder modulo 2³². -/
def float64ToInt32 (d : Float64) : Int :=
  if d.expo ≤ 1023 + 30 then d.trunc
  else if d.expo ≤ 1023 + 30 + 53 then
    let v := ((d.frac + 2 ^ 52) * 2 ^ (d.expo + 32 - 1023 - 52) % 2 ^ 64 / 2 ^ 32 : Nat)
    (d.signed v).bmod (2 ^ 32)
  else 0

/-- The tags that `JS_ToInt64Free` and `JS_ToInt32Free` convert themselves,
with the width and the conversion of a double as parameters; the others go
through `JS_ToNumberFree`. -/
def immediate (w : Nat) (float : Float64 → Int) : JSValue → Option Int
  | .int v => some v.toInt
  | .bool b => some (if b then 1 else 0)
  | .null => some 0
  | .undefined => some 0
  | .float64 d => some (float d)
  | .bigFloat v => some ((v.getD 0).bmod (2 ^ w))
  | _ => none

/-- `JS_ToInt64Free`, `none` on an exception. -/
def toInt64Free (v : JSValue) : Option Int :=
  match immediate 64 float64ToInt64 v with
  | some r => some r
  | none => immediate 64 float64ToInt64 (toNumberFree E v)

/-- `JS_ToInt32Free`, `none` on an exception. -/
def toInt32Free (v : JSValue) : Option Int :=
  match immediate 32 float64ToInt32 v with
  | some r => some r
  | none => immediate 32 float64ToInt32 (toNumberFree E v)

/-- `JS_ToUint32`: `JS_ToInt32Free` read back as unsigned. -/
def toUint32 (v : JSValue) : Option Nat := (toInt32Free E v).map fun r => (r % 2 ^ 32).toNat

/-- `JS_ToCStringLen2`, `none` for NULL. -/
def toCString (v : JSValue) : Option (List Byte) :=
  match toPrimitiveFree E v .string with
  | .exception => none
  | .symbol => none -- cannot convert symbol to string
  | .object _ => none
  | p => E.render p

/-- `js_get_array_buffer` and `JS_GetArrayBuffer`: the data of an array
buffer, `none` for NULL. -/
def getArrayBuffer (v : JSValue) : Option (List Byte) :=
  match v with
  | .object o =>
    match E.arrayBuffer o with
    | some b => if b.detached then none else some b.data
    | none => none
  | _ => none

/-- `JS_GetTypedArrayBuffer`, called without its out parameters: the buffer
of a typed array. -/
def getTypedArrayBuffer (v : JSValue) : JSValue :=
  match v with
  | .object o =>
    match E.typedArray o with
    | some ta => if (getArrayBuffer E (.object ta.buffer)).isSome then .object ta.buffer else .exception
    | none => .exception
  | _ => .exception

/-! ## New values -/

/-- `JS_NewInt64`. -/
def newInt64 (v : Int) : JSValue :=
  if v.bmod (2 ^ 32) = v then .int (BitVec.ofInt 32 v) else .float64 (Float64.ofInt v)

/-- `JS_NewUint32`. -/
def newUint32 (v : Nat) : JSValue :=
  if v ≤ 0x7fffffff then .int (BitVec.ofNat 32 v) else .float64 (Float64.ofNat v)

/-- `JS_NewBigUint64`, outside the math mode. -/
def newBigUint64 (v : Nat) : JSValue := .bigInt v

/-- The value is the Number `x`, an integer. -/
inductive IsNumber : JSValue → Int → Prop
  | int {i : BitVec 32} {x : Int} (h : i.toInt = x) : IsNumber (.int i) x
  | float64 {d : Float64} {x : Int} (h : d.Denotes x) : IsNumber (.float64 d) x

end CkbJs.Impl
