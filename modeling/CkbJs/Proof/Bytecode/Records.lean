import CkbJs.Proof.Bytecode.Atoms

/-!
# Functions and modules

The records of a function and of a module, field by field: each is read back
as it was written, with the atoms of the reader (`sends_writeFunctionTag`,
`sends_writeModule`). How the values inside are written and read is an
argument here.
-/

namespace CkbJs.Proof.Bytecode

open CkbJs.Codec CkbJs.Impl.Bytecode CkbJs.Spec.Bytecode

variable {w : BCWriter} {newAtom : JSString → JSAtom} {t : BCReader}

theorem bool_toNat_lt (b : Bool) : b.toNat < 2 ^ 1 := by
  cases b <;> decide

/-! ## Variables -/

theorem sends_writeVarDef (vd : JSVarDef) :
    Sends (sink w newAtom t) (writeVarDef w vd) (readVarDef t) (relocVarDef (relocAtom w newAtom) vd) := by
  let fields : List (Nat × Nat) :=
    [(vd.varKind.val, 4), (vd.isConst.toNat, 1), (vd.isLexical.toNat, 1), (vd.isCaptured.toNat, 1)]
  have h : ∀ f ∈ fields, f.1 < 2 ^ f.2 := by
    simp only [fields, List.mem_cons, List.not_mem_nil, or_false, forall_eq_or_imp, forall_eq]
    exact ⟨vd.varKind.isLt, bool_toNat_lt _, bool_toNat_lt _, bool_toNat_lt _⟩
  have hlt : varDefFlags vd < 2 ^ 7 := setAll_lt h
  have hv8 : (UInt8.ofNat (varDefFlags vd)).toNat = (setAll fields (0, 0)).1 :=
    UInt8.toNat_ofNat_of_lt' (Nat.lt_trans hlt (by decide))
  refine (sends_putAtom _).bind fun _ => (sends_putLeb128Int _).bind fun _ => ?_
  refine (sends_putLeb128Int _).bind fun _ => sends_dbufPut ((reads_u8 _).bind_pure ?_)
  have h₀ : bcGetFlags (setAll fields (0, 0)).1 0 4 = vd.varKind.val := getFlags_setAll [] h
  have h₁ : bcGetFlag (setAll fields (0, 0)).1 4 = vd.isConst := getFlag_setAll [_] h
  have h₂ : bcGetFlag (setAll fields (0, 0)).1 5 = vd.isLexical := getFlag_setAll [_, _] h
  have h₃ : bcGetFlag (setAll fields (0, 0)).1 6 = vd.isCaptured := getFlag_setAll [_, _, _] h
  simp only [hv8, h₀, h₁, h₂, h₃, Int32.add_sub_cancel, relocVarDef]

theorem sends_writeClosureVar (cv : JSClosureVar) :
    Sends (sink w newAtom t) (writeClosureVar w cv) (readClosureVar t)
      (relocClosureVar (relocAtom w newAtom) cv) := by
  let fields : List (Nat × Nat) :=
    [(cv.isLocal.toNat, 1), (cv.isArg.toNat, 1), (cv.isConst.toNat, 1), (cv.isLexical.toNat, 1),
     (cv.varKind.val, 4)]
  have h : ∀ f ∈ fields, f.1 < 2 ^ f.2 := by
    simp only [fields, List.mem_cons, List.not_mem_nil, or_false, forall_eq_or_imp, forall_eq]
    exact ⟨bool_toNat_lt _, bool_toNat_lt _, bool_toNat_lt _, bool_toNat_lt _, cv.varKind.isLt⟩
  have hlt : closureVarFlags cv < 2 ^ 8 := setAll_lt h
  have hv8 : (UInt8.ofNat (closureVarFlags cv)).toNat = (setAll fields (0, 0)).1 :=
    UInt8.toNat_ofNat_of_lt' hlt
  refine (sends_putAtom _).bind fun _ => ?_
  refine ((sends_putLeb128 cv.varIdx.toUInt32).map rfl).bind fun _ => sends_dbufPut ((reads_u8 _).bind_pure ?_)
  have h₀ : bcGetFlag (setAll fields (0, 0)).1 0 = cv.isLocal := getFlag_setAll [] h
  have h₁ : bcGetFlag (setAll fields (0, 0)).1 1 = cv.isArg := getFlag_setAll [_] h
  have h₂ : bcGetFlag (setAll fields (0, 0)).1 2 = cv.isConst := getFlag_setAll [_, _] h
  have h₃ : bcGetFlag (setAll fields (0, 0)).1 3 = cv.isLexical := getFlag_setAll [_, _, _] h
  have h₄ : bcGetFlags (setAll fields (0, 0)).1 4 4 = cv.varKind.val := getFlags_setAll [_, _, _, _] h
  have hidx : cv.varIdx.toUInt32.toInt32.toUInt32.toUInt16 = cv.varIdx := by simp
  simp only [hv8, h₀, h₁, h₂, h₃, h₄, hidx, relocClosureVar]

/-! ## Functions -/

theorem sends_writeDebugInfo {debug : DebugInfo} (h : debug.pc2lineBuf.length < 2 ^ 31) :
    Sends (sink w newAtom t) (writeDebugInfo w debug) (readDebugInfo t)
      (relocDebugInfo (relocAtom w newAtom) debug) := by
  refine (sends_putAtom _).bind fun _ => (sends_putLeb128Int _).bind fun _ => ?_
  refine (sends_putCount h).bind fun _ => sends_dbufPut ((reads_getBuf _ rfl).bind_pure rfl)

theorem sends_writeDebug {debug : Option DebugInfo} (h : ∀ d ∈ debug, d.pc2lineBuf.length < 2 ^ 31) :
    Sends (sink w newAtom t) (writeDebug w debug) (readDebug t debug.isSome)
      (debug.map (relocDebugInfo (relocAtom w newAtom))) := by
  match debug with
  | none => exact .of_pure _ _
  | some debug => exact (sends_writeDebugInfo (h debug rfl)).map rfl

theorem sends_putLocalCount {b : JSFunctionBytecode} {n : Nat} (h : ValidFunction b n) :
    Sends (sink w newAtom t) (putLocalCount b) bcGetLeb128 (UInt32.ofNat b.vardefs.length) := by
  refine .ite (fun hnil => ?_) fun hne => ?_
  · rw [hnil]
    exact sends_putLeb128 0
  · have hsum : b.argCount.toUInt32 + b.varCount.toUInt32 = UInt32.ofNat b.vardefs.length := by
      rw [h.vardefs.resolve_left hne, UInt32.ofNat_add]
      simp
    rw [hsum]
    exact sends_putLeb128 _

/-- The flags of a function, in the places where the reader looks for them. -/
theorem flags_eq (b : JSFunctionBytecode) {v : Nat} (hv : v = (UInt16.ofNat (functionFlags b)).toNat) :
    (bcGetFlag v 0 = b.hasPrototype ∧ bcGetFlag v 1 = b.hasSimpleParameterList ∧
      bcGetFlag v 2 = b.isDerivedClassConstructor ∧ bcGetFlag v 3 = b.needHomeObject ∧
      bcGetFlags v 4 2 = b.funcKind.val) ∧
    (bcGetFlag v 6 = b.newTargetAllowed ∧ bcGetFlag v 7 = b.superCallAllowed ∧
      bcGetFlag v 8 = b.superAllowed ∧ bcGetFlag v 9 = b.argumentsAllowed ∧
      bcGetFlag v 10 = b.debug.isSome ∧ bcGetFlag v 11 = b.backtraceBarrier) := by
  let fields : List (Nat × Nat) :=
    [(b.hasPrototype.toNat, 1), (b.hasSimpleParameterList.toNat, 1),
     (b.isDerivedClassConstructor.toNat, 1), (b.needHomeObject.toNat, 1), (b.funcKind.val, 2),
     (b.newTargetAllowed.toNat, 1), (b.superCallAllowed.toNat, 1), (b.superAllowed.toNat, 1),
     (b.argumentsAllowed.toNat, 1), (b.debug.isSome.toNat, 1), (b.backtraceBarrier.toNat, 1)]
  have h : ∀ f ∈ fields, f.1 < 2 ^ f.2 := by
    simp only [fields, List.mem_cons, List.not_mem_nil, or_false, forall_eq_or_imp, forall_eq]
    exact ⟨bool_toNat_lt _, bool_toNat_lt _, bool_toNat_lt _, bool_toNat_lt _, b.funcKind.isLt,
      bool_toNat_lt _, bool_toNat_lt _, bool_toNat_lt _, bool_toNat_lt _, bool_toNat_lt _, bool_toNat_lt _⟩
  have hlt : functionFlags b < 2 ^ 12 := setAll_lt h
  have hv' : v = (setAll fields (0, 0)).1 :=
    hv.trans (UInt16.toNat_ofNat_of_lt' (Nat.lt_trans hlt (by decide)))
  rw [hv']
  exact ⟨⟨getFlag_setAll [] h, getFlag_setAll [_] h, getFlag_setAll [_, _] h, getFlag_setAll [_, _, _] h,
      getFlags_setAll [_, _, _, _] h⟩,
    getFlag_setAll [_, _, _, _, _] h, getFlag_setAll [_, _, _, _, _, _] h,
    getFlag_setAll [_, _, _, _, _, _, _] h, getFlag_setAll [_, _, _, _, _, _, _, _] h,
    getFlag_setAll [_, _, _, _, _, _, _, _, _] h, getFlag_setAll [_, _, _, _, _, _, _, _, _, _] h⟩

theorem sends_writeFunctionTag {rec : JSValue → Writer Unit} {rec' : RM JSValue} {f : JSValue → JSValue}
    {g : Byte → RM JSValue} {b : JSFunctionBytecode} {cpool : List JSValue}
    (hg : g BCTagEnum.functionBytecode.toByte = readFunctionTag t rec') (h : ValidFunction b cpool.length)
    (hrec : ∀ v ∈ cpool, Sends (sink w newAtom t) (rec v) rec' (f v)) :
    Sends (sink w newAtom t) (writeFunctionTag w rec b cpool) (bcGetU8 >>= g)
      (.functionBytecode (relocFunction (relocAtom w newAtom) b) (cpool.map f)) := by
  have hflags := flags_eq b rfl
  unfold writeFunctionTag
  generalize UInt16.ofNat (functionFlags b) = v16 at hflags ⊢
  obtain ⟨⟨h₀, h₁, h₂, h₃, h₄⟩, h₆, h₇, h₈, h₉, h₁₀, h₁₁⟩ := hflags
  have hcount : ∀ n, n ≤ functionSize b.debug.isSome cpool.length b.vardefs.length b.closureVar.length
      b.byteCodeBuf.length → (UInt32.ofNat n).toNat = n := fun n hn =>
    UInt32.toNat_ofNat_of_lt' (Nat.lt_trans (Nat.lt_of_le_of_lt hn h.size) (by decide))
  have hclosure := hcount b.closureVar.length (by rw [functionSize]; omega)
  have hcpool := hcount cpool.length (by rw [functionSize]; omega)
  have hcode := hcount b.byteCodeBuf.length (by rw [functionSize]; omega)
  have hlocal := hcount b.vardefs.length (by rw [functionSize]; omega)
  refine (sends_putU8 _).bind fun _ => ?_
  rw [hg]
  refine (sends_putU16 _).bind fun _ => (sends_putU8 _).bind fun _ => ?_
  refine (sends_putAtom _).bind fun _ => (sends_putLeb128U16 _).bind fun _ => ?_
  refine (sends_putLeb128U16 _).bind fun _ => (sends_putLeb128U16 _).bind fun _ => ?_
  refine (sends_putLeb128U16 _).bind fun _ => (sends_putLeb128 _).bind fun _ => ?_
  refine (sends_putLeb128 _).bind fun _ => (sends_putLeb128 _).bind fun _ => ?_
  refine (sends_putLocalCount h).bind fun _ => ?_
  rw [h₁₀, hclosure, hcpool, hcode, hlocal, if_neg (Nat.not_le.2 h.size)]
  refine ((Sends.forM fun vd _ => sends_writeVarDef vd).adaptExcept _).bind fun _ => ?_
  refine ((Sends.forM fun cv _ => sends_writeClosureVar cv).adaptExcept _).bind fun _ => ?_
  refine (sends_writeFunctionBytecode _).bind fun _ => (sends_writeDebug h.pc2line).bind fun _ => ?_
  rw [bind_pure_comp]
  refine (Sends.forM hrec).map ?_
  simp only [h₀, h₁, h₂, h₃, h₄, h₆, h₇, h₈, h₉, h₁₁, relocFunction]

/-! ## Modules -/

theorem sends_writeExportEntry (me : JSExportEntry) :
    Sends (sink w newAtom t) (writeExportEntry w me) (readExportEntry t)
      (relocExportEntry (relocAtom w newAtom) me) := by
  refine (sends_putU8 _).bind fun _ => (sends_putLeb128Int _).bind fun _ => ?_
  refine .ite (fun hlocal => ?_) fun hlocal => ?_
  · rw [if_pos hlocal, bind_pure_comp]
    refine (sends_putAtom _).map ?_
    rw [relocExportEntry, if_pos hlocal]
  · rw [if_neg hlocal]
    refine (sends_putAtom _).bind fun _ => ?_
    rw [bind_pure_comp]
    refine (sends_putAtom _).map ?_
    rw [relocExportEntry, if_neg hlocal]

theorem sends_writeImportEntry (mi : JSImportEntry) :
    Sends (sink w newAtom t) (writeImportEntry w mi) (readImportEntry t)
      (relocImportEntry (relocAtom w newAtom) mi) := by
  refine (sends_putLeb128Int _).bind fun _ => (sends_putAtom _).bind fun _ => ?_
  rw [bind_pure_comp]
  exact (sends_putLeb128Int _).map rfl

theorem sends_writeModule {rec : JSValue → Writer Unit} {rec' : RM JSValue} {g : Byte → RM JSValue}
    {m : JSModuleDef} {funcObj v : JSValue} (hg : g BCTagEnum.module.toByte = readModule t rec')
    (h : ValidModule m) (hrec : Sends (sink w newAtom t) (rec funcObj) rec' v) :
    Sends (sink w newAtom t) (writeModule w rec m funcObj) (bcGetU8 >>= g)
      (.module (relocModule (relocAtom w newAtom) m) v) := by
  refine (sends_putU8 _).bind fun _ => ?_
  rw [hg]
  refine (sends_putAtom _).bind fun _ => ?_
  refine (sends_putCount h.reqModuleEntries).bind fun _ => ?_
  refine (Sends.forM fun a _ => sends_putAtom a).bind fun _ => ?_
  refine (sends_putCount h.exportEntries).bind fun _ => ?_
  refine (Sends.forM fun me _ => sends_writeExportEntry me).bind fun _ => ?_
  refine (sends_putCount h.starExportEntries).bind fun _ => ?_
  refine (Sends.forM fun se _ => sends_putLeb128Int se).bind fun _ => ?_
  refine (sends_putCount h.importEntries).bind fun _ => ?_
  refine (Sends.forM fun mi _ => sends_writeImportEntry mi).bind fun _ => ?_
  rw [bind_pure_comp]
  refine hrec.map ?_
  rw [List.map_id', relocModule]

end CkbJs.Proof.Bytecode
