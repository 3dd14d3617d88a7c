import CkbJs.Proof.Bytecode.BigNum
import CkbJs.Proof.Bytecode.Records

/-!
# Reading what was written

`sends_writeObjectRec`: of each value that can be written, the reader gets the
`copy`, by induction on the depth that is left of the C stack.
`readObject_writeObject` is the same for files: whatever follows the file in
the buffer, `JS_ReadObject` returns the copy of what `JS_WriteObject` was given.
-/

namespace CkbJs.Proof.Bytecode

open CkbJs.Codec CkbJs.Impl.Bytecode CkbJs.Spec.Bytecode

variable {w : BCWriter} {newAtom : JSString → JSAtom} {t : BCReader} {v : JSValue} {depth : Nat}

/-! ## Tags -/

theorem find_toByte (bc : BCTagEnum) :
    (BCTagEnum.all.find? fun b => b.toByte == bc.toByte) = some bc := by
  cases bc <;> rfl

theorem sends_tag {g : Byte → RM JSValue} {a : JSValue} (bc : BCTagEnum) (h : g bc.toByte = pure a) :
    Sends (sink w newAtom t) (bcPutU8 bc.toByte) (bcGetU8 >>= g) a :=
  (sends_putU8 _).bind_pure h

/-- A tag and what is behind it. -/
theorem sends_tagged {x : Writer Unit} {g : Byte → RM JSValue} {r : RM JSValue} {a : JSValue} (bc : BCTagEnum)
    (h : g bc.toByte = r) (hx : Sends (sink w newAtom t) x r a) :
    Sends (sink w newAtom t) (do bcPutU8 bc.toByte; x) (bcGetU8 >>= g) a :=
  (sends_putU8 _).bind fun _ => h ▸ hx

/-! ## Containers -/

theorem copyAll_eq (vs : List JSValue) : copyAll w newAtom vs = vs.map (copy w newAtom) := by
  induction vs with
  | nil => rfl
  | cons v vs ih => rw [copyAll, ih, List.map_cons]

theorem copyProps_eq (props : List (JSShapeProperty × JSValue)) :
    copyProps w newAtom props = (props.filter fun p => isWritten w p.1).map
      fun p => (relocAtom w newAtom p.1.atom, copy w newAtom p.2) := by
  induction props with
  | nil => rfl
  | cons p props ih =>
    obtain ⟨pr, v⟩ := p
    rw [copyProps, ih, List.filter_cons]
    split <;> rfl

theorem toNat_length {α : Type} {l : List α} (h : l.length < 2 ^ 32) : (UInt32.ofNat l.length).toNat = l.length :=
  UInt32.toNat_ofNat_of_lt' h

section
variable {rec : JSValue → Writer Unit} {rec' : RM JSValue} {g : Byte → RM JSValue}

theorem sends_writeArray {extensible : Bool} {elems : List JSValue} {raw : JSValue}
    (harray : g BCTagEnum.array.toByte = readArray rec' false)
    (htemplate : g BCTagEnum.templateObject.toByte = readArray rec' true)
    (hlen : elems.length < 2 ^ 32)
    (helems : ∀ v ∈ elems, Sends (sink w newAtom t) (rec v) rec' (copy w newAtom v))
    (hraw : Sends (sink w newAtom t) (rec raw) rec' (copy w newAtom raw)) :
    Sends (sink w newAtom t) (writeArray w rec extensible elems raw) (bcGetU8 >>= g)
      (copy w newAtom (.array extensible elems raw)) := by
  rw [copy, copyAll_eq]
  refine .ite (fun hc => ?_) fun hc => ?_
  · rw [if_pos hc]
    refine (sends_putU8 _).bind fun _ => ?_
    rw [htemplate]
    refine (sends_putLeb128 _).bind fun _ => ?_
    rw [toNat_length hlen]
    exact (Sends.forM helems).bind fun _ => hraw.bind_pure rfl
  · rw [if_neg hc]
    refine (sends_putU8 _).bind fun _ => ?_
    rw [harray]
    refine (sends_putLeb128 _).bind fun _ => ?_
    rw [toNat_length hlen]
    exact (Sends.forM helems).bind_pure rfl

theorem sends_writeObjectTag {props : List (JSShapeProperty × JSValue)}
    (hg : g BCTagEnum.object.toByte = readObjectTag t rec') (hlen : props.length < 2 ^ 32)
    (hprops : ∀ p ∈ props, Sends (sink w newAtom t) (rec p.2) rec' (copy w newAtom p.2)) :
    Sends (sink w newAtom t) (writeObjectTag w rec props) (bcGetU8 >>= g)
      (copy w newAtom (.object props)) := by
  rw [copy, copyProps_eq]
  refine (sends_putU8 _).bind fun _ => ?_
  rw [hg]
  refine .ite (fun _ => .of_throw _) fun _ => ?_
  refine (sends_putLeb128 _).bind fun _ => ?_
  rw [toNat_length (Nat.lt_of_le_of_lt (List.length_filter_le ..) hlen)]
  refine Sends.bind_pure (Sends.forM fun p hp => ?_) rfl
  exact (sends_putAtom _).bind fun _ => (hprops p (List.mem_of_mem_filter hp)).bind_pure rfl

theorem sends_writeArrayBuffer {data : Option (List Byte)}
    (hg : g BCTagEnum.arrayBuffer.toByte = readArrayBuffer) (hlen : ∀ bs ∈ data, bs.length < 2 ^ 31) :
    Sends (sink w newAtom t) (writeArrayBuffer data) (bcGetU8 >>= g) (.arrayBuffer data) := by
  match data with
  | none => exact .of_throw _
  | some data =>
    have hlt := hlen data rfl
    have hnat := toNat_length (Nat.lt_trans hlt (by decide) : data.length < 2 ^ 32)
    refine (sends_putU8 _).bind fun _ => ?_
    rw [hg]
    refine (sends_putLeb128 _).bind fun _ => Sends.bind_pure (sends_dbufPut (reads_getBuf data hnat.symm)) ?_
    have hmax : ¬(UInt32.ofNat data.length).toNat > 2 ^ 31 - 1 := by omega
    exact if_neg hmax

/-- The writer stops at the buffer of a typed array that is detached. -/
theorem sends_writeTypedArray {classId : TypedArrayClass} {count offset : UInt32} {data : Option (List Byte)}
    (hg : g BCTagEnum.typedArray.toByte = readTypedArray rec')
    (hdata : ∀ bs ∈ data, offset.toNat % 2 ^ typedArraySizeLog2 classId = 0 ∧
      offset.toNat + count.toNat <<< typedArraySizeLog2 classId ≤ bs.length)
    (hrec : Sends (sink w newAtom t) (rec (.arrayBuffer data)) rec' (.arrayBuffer data))
    (hnone : data = none → ∀ (r : RM JSValue) a, Sends (sink w newAtom t) (rec (.arrayBuffer data)) r a) :
    Sends (sink w newAtom t) (writeTypedArray rec classId count offset (.arrayBuffer data)) (bcGetU8 >>= g)
      (.typedArray classId count offset (.arrayBuffer data)) := by
  have hclass : (UInt8.ofNat classId.val).toNat = classId.val :=
    UInt8.toNat_ofNat_of_lt' (Nat.lt_trans classId.isLt (by decide))
  have hlt : (UInt8.ofNat classId.val).toNat < JS_TYPED_ARRAY_COUNT := by
    rw [hclass]
    exact classId.isLt
  have hfin : (⟨(UInt8.ofNat classId.val).toNat, hlt⟩ : TypedArrayClass) = classId := Fin.ext hclass
  refine (sends_putU8 _).bind fun _ => ?_
  rw [hg]
  refine (sends_putU8 _).bind fun _ => ?_
  rw [dif_pos hlt]
  refine (sends_putLeb128 _).bind fun _ => (sends_putLeb128 _).bind fun _ => ?_
  rw [hfin]
  match data with
  | none => exact hnone rfl _ _
  | some bs =>
    obtain ⟨halign, hend⟩ := hdata bs rfl
    refine hrec.bind_pure ?_
    have hoffset : ¬(offset.toNat % 2 ^ typedArraySizeLog2 classId ≠ 0 ∨ offset.toNat > bs.length) := by
      rw [not_or, not_not]
      exact ⟨halign, Nat.not_lt.2 (Nat.le_trans (Nat.le_add_right ..) hend)⟩
    exact (if_neg hoffset).trans (if_neg (Nat.not_lt.2 hend))

end

/-! ## Values -/

/-- Data of a date is a number, which is not changed. -/
theorem copy_of_isNumber (h : isNumber v = true) : Valid v ∧ copy w newAtom v = v := by
  unfold isNumber at h
  split at h
  · exact ⟨.int _, by rw [copy]⟩
  · exact ⟨.float64 _, by rw [copy]⟩
  · cases h

/-- Data of an object that wraps a value is a primitive, which is not changed. -/
theorem copy_of_toObject (h : toObject v = some (.objectValue v)) : copy w newAtom v = v := by
  unfold toObject at h
  split at h
  any_goals cases h
  all_goals rw [copy]

/-- A buffer that is detached is not written. -/
theorem sends_detached (r : RM JSValue) (a : JSValue) :
    Sends (sink w newAtom t) (writeObjectRec w depth (.arrayBuffer none)) r a := by
  match depth with
  | 0 => exact .of_throw _
  | _ + 1 => exact .of_throw _

theorem sends_writeObjectRec (ha : t.allowBytecode = w.allowBytecode) (h : Valid v) :
    Sends (sink w newAtom t) (writeObjectRec w depth v) (readObjectRec t depth) (copy w newAtom v) := by
  induction depth generalizing v with
  | zero => exact .of_throw _
  | succ depth ih =>
    show Sends _ _ (bcGetU8 >>= readTagged t (readObjectRec t depth)) _
    cases h with
    | null => exact sends_tag .null (by rw [readTagged, find_toByte, copy])
    | undefined => exact sends_tag .undefined (by rw [readTagged, find_toByte, copy])
    | bool b =>
      cases b with
      | false => exact sends_tag .boolFalse (by rw [readTagged, find_toByte, copy])
      | true => exact sends_tag .boolTrue (by rw [readTagged, find_toByte, copy])
    | int v => exact sends_tagged .int32 (by rw [readTagged, find_toByte]) ((sends_putSleb128 v).map rfl)
    | float64 u => exact sends_tagged .float64 (by rw [readTagged, find_toByte]) ((sends_putU64 u).map rfl)
    | string p => exact sends_tagged .string (by rw [readTagged, find_toByte]) ((sends_writeString p).map rfl)
    | @big tag num hn =>
      refine sends_writeBigNum ?_ hn
      rw [readTagged, find_toByte]
      cases tag <;> rfl
    | symbol => exact .of_throw _
    | functionBytecode hb hcpool =>
      refine .ite (fun hallow => ?_) fun _ => .of_throw _
      rw [copy, copyAll_eq]
      refine sends_writeFunctionTag ?_ hb fun v hv => ih (hcpool v hv)
      rw [readTagged, find_toByte]
      exact if_pos (ha.trans hallow)
    | module hm hfunc =>
      refine .ite (fun hallow => ?_) fun _ => .of_throw _
      rw [copy]
      refine sends_writeModule ?_ hm (ih hfunc)
      rw [readTagged, find_toByte]
      exact if_pos (ha.trans hallow)
    | array hlen helems hraw =>
      exact sends_writeArray (by rw [readTagged, find_toByte]) (by rw [readTagged, find_toByte]) hlen
        (fun v hv => ih (helems v hv)) (ih hraw)
    | object hlen hprops =>
      exact sends_writeObjectTag (by rw [readTagged, find_toByte]) hlen fun p hp => ih (hprops p hp)
    | typedArray hdata =>
      have hbuffer : Valid (.arrayBuffer _) := .arrayBuffer fun bs hbs => (hdata bs hbs).1
      refine sends_writeTypedArray (by rw [readTagged, find_toByte]) (fun bs hbs => (hdata bs hbs).2) (ih hbuffer) ?_
      rintro rfl r a
      exact sends_detached r a
    | arrayBuffer hlen => exact sends_writeArrayBuffer (by rw [readTagged, find_toByte]) hlen
    | date hnum =>
      obtain ⟨hvalid, hcopy⟩ := copy_of_isNumber hnum
      have hr := ih hvalid
      rw [hcopy] at hr
      rw [copy, hcopy]
      have hdate : Sends (sink w newAtom t) (writeObjectRec w depth _) (readDate (readObjectRec t depth)) (.date _) :=
        hr.bind_pure (if_pos hnum)
      exact sends_tagged .date (by rw [readTagged, find_toByte]) hdate
    | objectValue hobj hdata =>
      have hr := ih hdata
      rw [copy_of_toObject hobj] at hr
      rw [copy, copy_of_toObject hobj]
      have hvalue : Sends (sink w newAtom t) (writeObjectRec w depth _) (readObjectValue (readObjectRec t depth))
          (.objectValue _) := hr.bind_pure (by rw [hobj])
      exact sends_tagged .objectValue (by rw [readTagged, find_toByte]) hvalue
    | otherObject => exact .of_throw _

/-! ## Files -/

/-- The reader of a file once it has read the table `l`. -/
def readerOf (w : BCWriter) (newAtom : JSString → JSAtom) (l : List JSAtom) : BCReader :=
  ⟨w.allowBytecode, l.map fun a => newAtom (w.atomArray a)⟩

theorem fits_readerOf (s : BCWriterState) : Fits w newAtom (readerOf w newAtom s.idxToAtom) s :=
  ⟨rfl, List.prefix_refl _⟩

theorem sends_writeAtomTable {l : List JSAtom} (hlen : l.length < 2 ^ 32) :
    Sends (sink w newAtom t) (writeAtomTable w l) (readObjectAtoms w.allowBytecode newAtom)
      (readerOf w newAtom l) := by
  refine (sends_putU8 _).bind fun _ => ?_
  rw [if_neg (not_not.2 rfl)]
  refine (sends_putLeb128 _).bind fun _ => ?_
  rw [toNat_length hlen]
  exact (Sends.forM fun a _ => (sends_writeString _).map rfl).bind_pure rfl

theorem indexed_nil (dbuf : List Byte) : Indexed w ⟨dbuf, fun _ => 0, []⟩ where
  nodup := List.nodup_nil
  tabled := by simp
  index := by simp
  complete := by simp

/-- The atoms of the table come first, so the reader knows them when it reads the value. -/
theorem reads_writeObject {bs : List Byte} (h : Valid v) (hw : writeObject w depth v = .ok bs) :
    Reads (readFile w.allowBytecode newAtom depth) bs (copy w newAtom v) := by
  unfold writeObject writeFile at hw
  rw [EStateM.run_bind] at hw
  split at hw
  · rename_i u s' hrun
    split at hrun
    · rename_i u₁ s₁ hrec
      -- the value, with the table that is complete now
      obtain ⟨hs₁, -, body, hbody, hread⟩ :=
        sends_writeObjectRec (t := readerOf w newAtom s₁.idxToAtom) rfl h _ _ _ (indexed_nil []) hrec
      have hbody : s₁.dbuf = body := hbody
      have hread := hread (fits_readerOf s₁)
      have hlen : s₁.idxToAtom.length < 2 ^ 32 := by
        have := length_le_of_nodup hs₁.nodup hs₁.tabled
        omega
      -- the table, and the value behind it
      have hfile : Sends (sink w newAtom (readerOf w newAtom s'.idxToAtom))
          (do writeAtomTable w s₁.idxToAtom; dbufPut s₁.dbuf) (readFile w.allowBytecode newAtom depth)
          (copy w newAtom v) :=
        (sends_writeAtomTable hlen).bind fun _ => sends_dbufPut (hbody ▸ hread)
      obtain ⟨-, -, file, hout, hreads⟩ := hfile { s₁ with dbuf := [] } u s'
        ⟨hs₁.nodup, hs₁.tabled, hs₁.index, hs₁.complete⟩ hrun
      have hout : s'.dbuf = file := hout
      cases hw
      rw [hout]
      exact hreads (fits_readerOf s')
    · cases hrun
  · cases hw

/-- What is written is read back, whatever follows it in the buffer. -/
theorem readObject_writeObject {bs : List Byte} (h : Valid v) (hw : writeObject w depth v = .ok bs)
    (rest : List Byte) : readObject w.allowBytecode newAtom depth (bs ++ rest) = .ok (copy w newAtom v) := by
  rw [readObject, reads_writeObject h hw rest 0]

/-! A module that pushes the atom 500 and returns it, and imports the atom 501. -/

def sampleText (n : UInt8) : JSString := .str8 [0x61, n] (show 2 < 2 ^ 31 by decide)

def sampleWriter : BCWriter := ⟨true, fun _ => true, fun a => sampleText a.toUInt8⟩

def sampleFunction : JSFunctionBytecode where
  jsMode := 1
  hasPrototype := false
  hasSimpleParameterList := true
  isDerivedClassConstructor := false
  needHomeObject := false
  funcKind := 2
  newTargetAllowed := false
  superCallAllowed := true
  superAllowed := false
  argumentsAllowed := true
  backtraceBarrier := false
  byteCodeBuf := [4, 0xf4, 1, 0, 0, 40]
  funcName := 17
  vardefs := [⟨501, 1, -1, true, false, true, 3⟩]
  closureVar := []
  argCount := 1
  varCount := 0
  definedArgCount := 1
  stackSize := 300
  debug := some ⟨500, -3, [1, 2]⟩

def sampleModule : JSValue :=
  .module ⟨500, [501], [⟨0, JS_EXPORT_TYPE_LOCAL, JS_ATOM_NULL, 500⟩], [], []⟩
    (.functionBytecode sampleFunction [.int (-5), .bool true])

def sampleNewAtom : JSString → JSAtom
  | .str8 (_ :: n :: _) _ => 1000 + n.toUInt32
  | _ => 0

theorem sampleModule_valid : Valid sampleModule := by
  refine .module ⟨by decide, by decide, by decide, by decide⟩ (.functionBytecode ⟨.inr rfl, by decide, ?_⟩ ?_)
  · simp [sampleFunction]
  · simp only [List.mem_cons, List.not_mem_nil, or_false, forall_eq_or_imp, forall_eq]
    exact ⟨.int _, .bool _⟩

/-- The version, the table with the atoms 500 and 501, and the module. -/
def sampleFile : List Byte :=
  [2, 2, 4, 97, 244, 4, 97, 245,
   15, 188, 3, 1, 190, 3, 1, 0, 0, 188, 3, 0, 0,
   14, 162, 6, 1, 34, 1, 0, 1, 172, 2, 0, 2, 6, 1, 190, 3, 1, 0, 83, 4, 222, 0, 0, 0, 40,
   188, 3, 253, 255, 255, 255, 15, 2, 1, 2, 5, 9, 4]

theorem writeObject_sampleModule : writeObject sampleWriter 3 sampleModule = .ok sampleFile := by
  rfl

theorem readObject_writeObject_sample :
    readObject true sampleNewAtom 3 (sampleFile ++ [255]) = .ok (copy sampleWriter sampleNewAtom sampleModule) :=
  readObject_writeObject sampleModule_valid writeObject_sampleModule [255]

end CkbJs.Proof.Bytecode
