import CkbJs.Proof.Bytecode.RoundTrip

/-!
# Files that are cut short

Each function of the reader either has the bytes that it asks for, or stops
with "read after the end of the buffer" (`cut_readObjectRec`, by induction on
the depth); the release of a function whose byte code was not read stops at a
null pointer. A file without its end is therefore never taken for a value,
wherever it was cut (`readObject_prefix`).
-/

namespace CkbJs.Proof.Bytecode

open CkbJs.Codec CkbJs.Impl.Bytecode CkbJs.Spec.Bytecode

variable {w : BCWriter} {newAtom : JSString → JSAtom} {t : BCReader} {depth : Nat}

/-- How reading ends at the end of the input. Functions are read only if bytecode
is allowed. -/
inductive AtEnd (allowBytecode : Bool) : ReadError → Prop where
  | readAfterEnd : AtEnd allowBytecode .readAfterEnd
  | nullByteCode : allowBytecode = true → AtEnd allowBytecode .nullByteCode

abbrev Cut {α : Type} (allowBytecode : Bool) (r : RM α) : Prop := Truncates (AtEnd allowBytecode) r

variable {allowBytecode : Bool}

theorem cut_pos : Cut allowBytecode bcPos := fun i _ => .inl ⟨i.rest, rfl, rfl⟩

theorem cut_getBuf (n : Nat) : Cut allowBytecode (bcGetBuf n) := by
  intro i t
  by_cases h : n ≤ i.rest.length
  · have hlong : n ≤ (i.rest ++ t).length := by
      rw [List.length_append]
      omega
    rw [run_getBuf (i := ⟨i.rest ++ t, i.pos⟩) hlong, run_getBuf h]
    refine .inl ⟨i.rest.drop n, List.drop_append_of_le_length h, ?_⟩
    simp only [List.take_append_of_le_length h]
  · rw [run_getBuf_of_short h]
    split
    · exact .inr ⟨.readAfterEnd, i, .readAfterEnd, rfl⟩
    · exact ⟨.readAfterEnd, i, .inr .readAfterEnd, rfl⟩

theorem cut_u8 : Cut allowBytecode bcGetU8 := (cut_getBuf 1).bind fun _ => .of_pure _

theorem cut_u16 : Cut allowBytecode bcGetU16 := (cut_getBuf 2).bind fun _ => .of_pure _

theorem cut_u64 : Cut allowBytecode bcGetU64 := (cut_getBuf 8).bind fun _ => .of_pure _

theorem cut_getLeb128 {n : Nat} {i v : UInt32} : Cut allowBytecode (getLeb128 n i v) := by
  induction n generalizing i v with
  | zero => exact .of_throw _
  | succ n ih => exact cut_u8.bind fun _ => .ite (.of_pure _) ih

theorem cut_leb128 : Cut allowBytecode bcGetLeb128 := cut_getLeb128

theorem cut_sleb128 : Cut allowBytecode bcGetSleb128 := cut_leb128.bind fun _ => .of_pure _

theorem cut_leb128Int : Cut allowBytecode bcGetLeb128Int := cut_leb128.map _

theorem cut_leb128U16 : Cut allowBytecode bcGetLeb128U16 := cut_leb128.map _

theorem cut_count : Cut allowBytecode bcGetCount := cut_leb128.bind fun _ => .ite (.of_pure _) (.of_throw _)

/-! ## Atoms and strings -/

theorem cut_idxToAtom (idx : UInt32) : Cut allowBytecode (bcIdxToAtom t idx) := by
  refine .ite (.of_pure _) ?_
  match t.idxToAtom[(idx - firstAtom t.allowBytecode).toNat]? with
  | some atom => exact .of_pure _
  | none => exact cut_pos.bind fun _ => .of_throw _

theorem cut_getAtom : Cut allowBytecode (bcGetAtom t) :=
  cut_leb128.bind fun _ => .ite (.of_pure _) (cut_idxToAtom _)

theorem cut_readString : Cut allowBytecode readString :=
  cut_leb128.bind fun _ => .ite ((cut_getBuf _).bind fun _ => .of_pure _) ((cut_getBuf _).bind fun _ => .of_pure _)

theorem cut_replaceAtoms {n : Nat} {bc : List Byte} :
    Cut allowBytecode (replaceAtoms .outOfBounds (bcIdxToAtom t) n bc) := by
  induction n generalizing bc with
  | zero => exact .of_pure _
  | succ n ih =>
    match bc with
    | [] => exact .of_pure _
    | op :: bc =>
      rw [replaceAtoms]
      split
      · exact .of_throw _
      · refine .ite ?_ (ih.bind fun _ => .of_pure _)
        split
        · exact (cut_idxToAtom _).bind fun _ => ih.bind fun _ => .of_pure _
        · exact .of_throw _

theorem atEnd_failBeforeBytecode (byteCodeLen : Nat) (e : ReadError) (h : AtEnd true e) :
    AtEnd true (failBeforeBytecode byteCodeLen e) := by
  unfold failBeforeBytecode
  split
  · exact h
  · exact .nullByteCode rfl

theorem cut_readFunctionBytecode (bcLen : Nat) : Cut true (readFunctionBytecode t bcLen) :=
  ((cut_getBuf _).adaptExcept (atEnd_failBeforeBytecode bcLen)).bind fun _ => cut_replaceAtoms

/-! ## Big numbers -/

theorem cut_getDigit (half : Option UInt8) : Cut allowBytecode (getDigit half) := by
  have hhalf : Cut allowBytecode (nextHalf half) := by
    match half with
    | none => exact cut_u8.bind fun _ => .of_pure _
    | some d => exact .of_pure _
  exact hhalf.bind fun _ => .ite (.of_throw _) (.of_pure _)

theorem cut_getLimb {n j : Nat} {v : UInt64} {half : Option UInt8} : Cut allowBytecode (getLimb n j v half) := by
  induction n generalizing j v half with
  | zero => exact .of_pure _
  | succ n ih => exact (cut_getDigit _).bind fun _ => ih

theorem cut_getLimbs {n j : Nat} {half : Option UInt8} : Cut allowBytecode (getLimbs n j half) := by
  induction n generalizing j half with
  | zero => exact .of_pure _
  | succ n ih => exact cut_getLimb.bind fun _ => ih.bind fun _ => .of_pure _

theorem cut_getTab (tag : BigTag) (len : Nat) : Cut allowBytecode (getTab tag len) :=
  .ite (.ite ((cut_getBuf _).bind fun _ => (cut_u64.readN _).bind fun _ => .of_pure _) (cut_u64.readN _))
    cut_getLimbs

theorem cut_readBigNum (tag : BigTag) : Cut allowBytecode (readBigNum tag) :=
  cut_sleb128.bind fun _ => .ite
    (cut_leb128.bind fun _ => .ite (.of_throw _) ((cut_getTab _ _).bind fun _ => .of_pure _)) (.of_pure _)

/-! ## Records -/

theorem cut_readVarDef : Cut allowBytecode (readVarDef t) :=
  cut_getAtom.bind fun _ => cut_leb128Int.bind fun _ => cut_leb128Int.bind fun _ => cut_u8.bind fun _ => .of_pure _

theorem cut_readClosureVar : Cut allowBytecode (readClosureVar t) :=
  cut_getAtom.bind fun _ => cut_leb128Int.bind fun _ => cut_u8.bind fun _ => .of_pure _

theorem cut_readDebug (hasDebug : Bool) : Cut allowBytecode (readDebug t hasDebug) :=
  .ite (.map (cut_getAtom.bind fun _ => cut_leb128Int.bind fun _ => cut_count.bind fun _ =>
    (cut_getBuf _).bind fun _ => .of_pure _) _) (.of_pure _)

theorem cut_readExportEntry : Cut allowBytecode (readExportEntry t) :=
  cut_u8.bind fun _ => cut_leb128Int.bind fun _ => .ite (cut_getAtom.bind fun _ => .of_pure _)
    (cut_getAtom.bind fun _ => cut_getAtom.bind fun _ => .of_pure _)

theorem cut_readImportEntry : Cut allowBytecode (readImportEntry t) :=
  cut_leb128Int.bind fun _ => cut_getAtom.bind fun _ => cut_leb128Int.bind fun _ => .of_pure _

theorem cut_typedArrayConstructor (classId : TypedArrayClass) (buffer : JSValue) (offset len : UInt32) :
    Cut allowBytecode (typedArrayConstructor classId buffer offset len) := by
  unfold typedArrayConstructor
  split
  · exact .of_throw _
  · exact .ite (.of_throw _) (.ite (.of_throw _) (.of_pure _))
  · exact .of_throw _

theorem cut_readFunctionTag {rec : RM JSValue} (hrec : Cut true rec) : Cut true (readFunctionTag t rec) := by
  refine cut_u16.bind fun _ => cut_u8.bind fun _ => cut_getAtom.bind fun _ => ?_
  refine cut_leb128U16.bind fun _ => cut_leb128U16.bind fun _ => cut_leb128U16.bind fun _ => ?_
  refine cut_leb128U16.bind fun _ => cut_leb128.bind fun _ => cut_leb128.bind fun _ => ?_
  refine cut_leb128.bind fun _ => cut_leb128.bind fun _ => .ite (.of_throw _) ?_
  refine ((cut_readVarDef.readN _).adaptExcept (atEnd_failBeforeBytecode _)).bind fun _ => ?_
  refine ((cut_readClosureVar.readN _).adaptExcept (atEnd_failBeforeBytecode _)).bind fun _ => ?_
  refine (cut_readFunctionBytecode _).bind fun _ => (cut_readDebug _).bind fun _ => ?_
  exact (hrec.readN _).bind fun _ => .of_pure _

section
variable {rec : RM JSValue} (hrec : Cut allowBytecode rec)
include hrec

theorem cut_readModule : Cut allowBytecode (readModule t rec) := by
  refine cut_getAtom.bind fun _ => cut_count.bind fun _ => (cut_getAtom.readN _).bind fun _ => ?_
  refine cut_count.bind fun _ => (cut_readExportEntry.readN _).bind fun _ => ?_
  refine cut_count.bind fun _ => (cut_leb128Int.readN _).bind fun _ => ?_
  refine cut_count.bind fun _ => (cut_readImportEntry.readN _).bind fun _ => ?_
  exact hrec.bind fun _ => .of_pure _

theorem cut_readArray (isTemplate : Bool) : Cut allowBytecode (readArray rec isTemplate) :=
  cut_leb128.bind fun _ => (hrec.readN _).bind fun _ => .ite (hrec.bind fun _ => .of_pure _) (.of_pure _)

theorem cut_readObjectTag : Cut allowBytecode (readObjectTag t rec) := by
  refine cut_leb128.bind fun _ => Truncates.bind (.readN ?_ _) fun _ => .of_pure _
  exact cut_getAtom.bind fun _ => hrec.bind fun _ => .of_pure _

theorem cut_readTypedArray : Cut allowBytecode (readTypedArray rec) := by
  refine cut_u8.bind fun _ => ?_
  split
  · exact cut_leb128.bind fun _ => cut_leb128.bind fun _ => hrec.bind fun _ => cut_typedArrayConstructor _ _ _ _
  · exact .of_throw _

theorem cut_readDate : Cut allowBytecode (readDate rec) := hrec.bind fun _ => .ite (.of_pure _) (.of_throw _)

theorem cut_readObjectValue : Cut allowBytecode (readObjectValue rec) := by
  refine hrec.bind fun val => ?_
  match toObject val with
  | some obj => exact .of_pure _
  | none => exact .of_throw _

theorem cut_readTagged (ht : t.allowBytecode = allowBytecode) (tag : Byte) :
    Cut allowBytecode (readTagged t rec tag) := by
  have hinvalid : Cut allowBytecode (do
      let pos ← bcPos
      throw (.invalidTag tag pos) : RM JSValue) := cut_pos.bind fun _ => .of_throw _
  unfold readTagged
  dsimp only
  generalize BCTagEnum.all.find? (fun bc => bc.toByte == tag) = bc
  match bc with
  | none => exact hinvalid
  | some .null => exact .of_pure _
  | some .undefined => exact .of_pure _
  | some .boolFalse => exact .of_pure _
  | some .boolTrue => exact .of_pure _
  | some .int32 => exact cut_sleb128.map _
  | some .float64 => exact cut_u64.map _
  | some .string => exact cut_readString.map _
  | some .functionBytecode =>
    show Cut allowBytecode (if t.allowBytecode then _ else _)
    split
    · rename_i hallow
      obtain rfl : allowBytecode = true := ht.symm.trans hallow
      exact cut_readFunctionTag hrec
    · exact hinvalid
  | some .module => exact .ite (cut_readModule hrec) hinvalid
  | some .object => exact cut_readObjectTag hrec
  | some .array => exact cut_readArray hrec false
  | some .templateObject => exact cut_readArray hrec true
  | some .typedArray => exact cut_readTypedArray hrec
  | some .arrayBuffer =>
    exact cut_leb128.bind fun _ => (cut_getBuf _).bind fun _ => .ite (.of_throw _) (.of_pure _)
  | some .sharedArrayBuffer => exact hinvalid
  | some .date => exact cut_readDate hrec
  | some .objectValue => exact cut_readObjectValue hrec
  | some .bigInt => exact cut_readBigNum _
  | some .bigFloat => exact cut_readBigNum _
  | some .bigDecimal => exact cut_readBigNum _
  | some .objectReference => exact .of_throw _

end

theorem cut_readObjectRec (ht : t.allowBytecode = allowBytecode) : Cut allowBytecode (readObjectRec t depth) := by
  induction depth with
  | zero => exact .of_throw _
  | succ depth ih => exact cut_u8.bind fun tag => cut_readTagged ih ht tag

theorem cut_readFile (allowBytecode : Bool) : Cut allowBytecode (readFile allowBytecode newAtom depth) := by
  unfold readFile readObjectAtoms
  rw [bind_assoc]
  refine cut_u8.bind fun v8 => ?_
  split
  · exact Truncates.of_throw (ReadError.invalidVersion v8)
  · rw [bind_assoc]
    refine cut_leb128.bind fun _ => ?_
    rw [bind_assoc]
    exact ((cut_readString.map _).readN _).bind fun _ => cut_readObjectRec rfl

/-! ## Files -/

/-- A file without its end is no value: it is refused, or, where functions are
read, the release of one goes through byte code that was not read. -/
theorem readObject_prefix {v : JSValue} {bs bs' : List Byte} (h : Valid v)
    (hw : writeObject w depth v = .ok bs) (hpre : bs' <+: bs) (hne : bs' ≠ bs) :
    readObject w.allowBytecode newAtom depth bs' = .error .readAfterEnd ∨
      w.allowBytecode = true ∧ readObject w.allowBytecode newAtom depth bs' = .error .nullByteCode := by
  obtain ⟨rest, rfl⟩ := hpre
  have hrest : rest ≠ [] := by
    rintro rfl
    exact hne (List.append_nil _).symm
  obtain ⟨e, j, he, hj⟩ := (cut_readFile _).error_of_reads (reads_writeObject h hw) hrest 0
  rw [readObject, hj]
  cases he with
  | readAfterEnd => exact .inl rfl
  | nullByteCode hallow => exact .inr ⟨hallow, rfl⟩

/-- The sample is cut in front of the byte code of its function, and of its
constants. -/
theorem readObject_prefix_sample :
    readObject true sampleNewAtom 3 (sampleFile.take 40) = .error .nullByteCode ∧
      readObject true sampleNewAtom 3 (sampleFile.take 56) = .error .readAfterEnd := by
  have hcut (n : Nat) (hn : sampleFile.take n ≠ sampleFile) :
      readObject true sampleNewAtom 3 (sampleFile.take n) = .error .readAfterEnd ∨
        true = true ∧ readObject true sampleNewAtom 3 (sampleFile.take n) = .error .nullByteCode :=
    readObject_prefix (w := sampleWriter) sampleModule_valid writeObject_sampleModule
      (List.take_prefix n sampleFile) hn
  have hne {n : Nat} {e : ReadError} (hrun : (readObject true sampleNewAtom 3 (sampleFile.take n)).map (fun _ => ()) ≠
      .error e) (h : readObject true sampleNewAtom 3 (sampleFile.take n) = .error e) : False :=
    hrun (congrArg (Except.map fun _ => ()) h)
  constructor
  · exact ((hcut 40 (by decide +kernel)).resolve_left (hne (by decide +kernel))).2
  · exact (hcut 56 (by decide +kernel)).resolve_right fun h => hne (by decide +kernel) h.2

end CkbJs.Proof.Bytecode
