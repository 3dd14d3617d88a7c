import CkbJs.Impl.Bytecode.Reader
import CkbJs.Proof.Module.Runs
import Mathlib.Data.List.TakeWhile

/-!
# Which file is loaded, and what it is taken for

`js_module_loader` selects the file its name stands for, unless it has to build a second
name that does not fit into its buffer (`locate_eq`). The entry file is selected like
the file of an import, unless `main.js` is empty and `main.bc` is not (`sameEntry_iff`).
The loader returns a loaded module, unless the bytecode reader gives it another value
(`returnsModules_iff`).
-/

namespace CkbJs.Proof.Module

open CkbJs.Impl CkbJs.Impl.Module CkbJs.Spec.Module

variable {engine : Module.Engine} {files : Files} {name file : CString} {content : List Byte}

theorem loadFile_eq (files : Files) (file : CString) :
    loadFile files file = (files file).filter fun content => content ≠ [] := by
  unfold loadFile
  cases files file with
  | none => rfl
  | some content => cases content <;> rfl

theorem present_eq (files : Files) (file : CString) :
    present files file = (loadFile files file).map fun content => (file, content) := by
  rw [loadFile_eq]
  rfl

theorem endsInJs_iff (name : CString) :
    EndsInJs name ↔ 3 < name.1.length ∧ name.1.drop (name.1.length - 3) = extJs := by
  refine and_congr_right fun h => ?_
  rw [List.suffix_iff_eq_drop, eq_comm]
  rfl

/-- What the loader finds: the file that is wanted, if the second name fits. -/
theorem locate_eq (files : Files) (name : CString) : locate files name =
    if present files name = none ∧ EndsInJs name ∧ secendNameSize ≤ name.1.length then .overflow
    else match wanted files name with
      | some e => .found e.1 e.2
      | none => .missing := by
  have hjs := endsInJs_iff name
  unfold locate wanted
  simp only [present_eq]
  cases loadFile files name with
  | some content => rfl
  | none =>
    rw [Option.map_none, Option.none_or]
    by_cases h3 : name.1.length ≤ 3
    · have hn : ¬EndsInJs name := fun h => absurd h.1 (by omega)
      rw [if_pos h3, if_neg fun h => hn h.2.1, if_neg hn]
    · rw [if_neg h3]
      by_cases hext : name.1.drop (name.1.length - 3) = extJs
      · have hy : EndsInJs name := hjs.mpr ⟨by omega, hext⟩
        rw [if_neg (not_not_intro hext), if_pos hy]
        by_cases hlen : secendNameSize < name.1.length + 1
        · rw [if_pos hlen, if_pos ⟨rfl, hy, by omega⟩]
        · rw [if_neg hlen, if_neg fun h => absurd h.2.2 (by omega)]
          cases loadFile files (secondName name) <;> rfl
      · have hn : ¬EndsInJs name := fun h => hext (hjs.mp h).2
        rw [if_pos hext, if_neg fun h => hn h.2.1, if_neg hn]

/-! ## The entry file -/

/-- Loading evaluates the entry file, and throws where there is none. -/
theorem loadEntry_eq (engine : Module.Engine) (files : Files) (fuel : Nat) :
    loadEntry engine files fuel = evalEntry engine files fuel (entryFile files) := by
  unfold loadEntry entryFile
  cases entry files with
  | none => rfl
  | some e =>
    rw [Option.filter_some]
    by_cases h0 : e.2.length = 0
    · rw [if_neg (not_not_intro h0 ∘ of_decide_eq_true)]
      exact if_pos h0
    · rw [if_pos (decide_eq_true h0)]
      exact if_neg h0

theorem entryFile_eq (files : Files) : entryFile files =
    match files mainFileName with
    | some content => if content.length = 0 then none else some (mainFileName, content)
    | none => present files mainFileNameBc := by
  unfold entryFile entry present
  cases files mainFileName with
  | some content => by_cases h : content = [] <;> simp [Option.filter, h]
  | none =>
    cases files mainFileNameBc with
    | none => rfl
    | some content => by_cases h : content = [] <;> simp [Option.filter, h]

theorem loaded_mainFileName (files : Files) :
    loaded files mainFileName = (present files mainFileName).or (present files mainFileNameBc) := by
  have hjs : EndsInJs mainFileName := by decide
  have hsecond : secondName mainFileName = mainFileNameBc := by decide
  have hw : wanted files mainFileName = (present files mainFileName).or (present files mainFileNameBc) := by
    rw [wanted, if_pos hjs, hsecond]
  rw [loaded, locate_eq, if_neg fun h => absurd h.2.2 (by decide), hw]
  cases (present files mainFileName).or (present files mainFileNameBc) <;> rfl

/-- The entry file is the one an import of `main.js` would load, unless `main.js` is there but
empty and `main.bc` is not empty. -/
theorem entryFile_eq_loaded_iff (files : Files) : entryFile files = loaded files mainFileName ↔
    ¬(files mainFileName = some [] ∧ ∃ content, files mainFileNameBc = some content ∧ content ≠ []) := by
  rw [entryFile_eq, loaded_mainFileName]
  cases h : files mainFileName with
  | none =>
    refine iff_of_true ?_ fun hc => nomatch hc.1
    rw [show present files mainFileName = none by rw [present, h]; rfl, Option.none_or]
  | some content =>
    by_cases hc : content = []
    · subst hc
      rw [show present files mainFileName = none by rw [present, h]; rfl, Option.none_or]
      show none = present files mainFileNameBc ↔ _
      rw [eq_comm, present, Option.map_eq_none_iff, Option.filter_eq_none_iff]
      simp
    · have hp : present files mainFileName = some (mainFileName, content) := by
        rw [present, h]
        simp [hc]
      refine iff_of_true ?_ fun hs => hc (Option.some.inj hs.1)
      rw [hp]
      show (if content.length = 0 then none else some (mainFileName, content)) = _
      rw [if_neg fun hl => hc (List.length_eq_zero_iff.mp hl)]
      rfl

/-- What is evaluated is what an import of `main.js` would load, and nothing exactly where that import
throws, unless `main.js` is there but empty and `main.bc` is not empty. -/
theorem sameEntry_iff (files : Files) : SameEntry files ↔
    ¬(files mainFileName = some [] ∧ ∃ content, files mainFileNameBc = some content ∧ content ≠ []) := by
  rw [← entryFile_eq_loaded_iff]
  exact ⟨SameEntry.selects, fun h => ⟨h, fun engine fuel => h ▸ loadEntry_eq engine files fuel⟩⟩

/-- An archive with an empty `main.js`, and a `main.bc`. -/
def emptyMain : Files := fun file =>
  if file = mainFileName then some [] else if file = mainFileNameBc then some [BC_VERSION] else none

theorem not_sameEntry : ¬SameEntry emptyMain := fun h => absurd h.selects (by decide)

/-! ## What the loader returns -/

/-- To take another value for a module is not to throw. -/
theorem not_raised_notModule : ¬Raised .notModule := by
  rintro (h | h)
  · cases h
  · cases h

/-- Of a file it finds, the loader returns a module that is loaded or throws exactly where
the bytecode reader does not make another value of it. -/
theorem returnsModules_iff (engine : Module.Engine) (files : Files) (name file : CString)
    (content : List Byte) (h : locate files name = .found file content) :
    ReturnsModules engine files name ↔
      ¬(content.head? = some BC_VERSION ∧ engine.readObject content = .value) := by
  constructor
  · rintro hr ⟨hbc, hv⟩
    have hw := hr (fun _ => pure ()) (fun m s => WP.of_pure (Nat.le_refl _)) .empty .empty ⟨[], []⟩
    rw [moduleLoader_of_found h, loadContent, if_pos hbc, hv] at hw
    exact not_raised_notModule hw
  · intro hn resolve hresolve importer specifier s
    rw [moduleLoader_of_found h]
    refine WP.bind (WP.of_modify (WP.ite (fun hbc => ?_) fun _ => ?_))
    · cases hv : engine.readObject content with
      | exception => exact WP.of_throw (.inl rfl)
      | value => exact absurd ⟨hbc, hv⟩ hn
      | module recorded requests =>
        refine WP.of_modifyGet ?_
        simp
    · cases engine.parse content with
      | none => exact WP.of_throw (.inl rfl)
      | some requests =>
        refine WP.bind (WP.of_modifyGet (WP.seq (hresolve _ _) (fun e s' he => he) fun _ s' hle => ?_))
        refine WP.of_pure (Nat.lt_of_lt_of_le ?_ hle)
        simp

/-- What `JS_WriteObject` makes of a module without imports, behind its name: the module, and a
function that returns undefined. -/
def moduleTail : List Byte := [15, 188, 3, 0, 0, 0, 0, 14, 130, 2, 1, 34, 0, 0, 0, 0, 0, 0, 1, 0, 41]

/-- The bytecode of a module without imports, under a short name. -/
def moduleFile (name : CString) : List Byte :=
  [BC_VERSION, 1, UInt8.ofNat (2 * name.1.length)] ++ name.1 ++ moduleTail

/-- The bytecode of the value null. -/
def nullFile : List Byte := [BC_VERSION, 0, 1]

/-- The bytecode reader takes the one for a module, and the other for null. -/
example :
    (match Bytecode.readObject true (fun _ => 500) 3 (moduleFile mainStem) with
      | .ok (.module _ _) => true
      | _ => false) = true := by
  decide +kernel

example : Bytecode.readObject true (fun _ => 500) 3 nullFile = .ok .null := rfl

/-- The name in front of `moduleTail`. -/
def nameIn (content : List Byte) : CString :=
  ⟨((content.drop 3).take (content.length - 3 - moduleTail.length)).takeWhile (· ≠ 0),
    fun h => by simpa using List.mem_takeWhile_imp h⟩

theorem nameIn_moduleFile (name : CString) : nameIn (moduleFile name) = name := by
  refine Subtype.ext ?_
  have hlen : (moduleFile name).length - 3 - moduleTail.length = name.1.length := by
    rw [moduleFile, List.length_append, List.length_append]
    show 3 + name.1.length + moduleTail.length - 3 - moduleTail.length = _
    omega
  have hname : ∀ c ∈ name.1, decide (c ≠ 0) = true := fun c hc => decide_eq_true fun h => name.2 (h ▸ hc)
  show (((moduleFile name).drop 3).take _).takeWhile _ = name.1
  rw [hlen]
  show ((name.1 ++ moduleTail).take _).takeWhile _ = name.1
  rw [List.take_left, List.takeWhile_eq_self_iff.mpr hname]

/-- An engine without imports, whose bytecode is that of a module or of null. -/
def valueEngine : Module.Engine where
  parse _ := some []
  readObject content :=
    if content = moduleFile (nameIn content) then .module (nameIn content) []
    else if content = nullFile then .value
    else .exception
  writeObject name _ := moduleFile name
  parse_nil := rfl
  head_writeObject _ _ := rfl
  readObject_writeObject name source requests h := by
    cases h
    rw [nameIn_moduleFile, if_pos rfl]

/-- The module `main` in `main.bc`, and the value null in `main.js`. -/
def valueFiles : Files := fun file =>
  if file = mainFileNameBc then some (moduleFile mainStem)
  else if file = mainFileName then some nullFile
  else none

theorem returnsModules_main : ReturnsModules valueEngine valueFiles mainFileNameBc :=
  (returnsModules_iff valueEngine valueFiles mainFileNameBc mainFileNameBc (moduleFile mainStem)
    (by rfl)).mpr fun h => by cases h.2

/-- The loader hands out the payload of null. -/
theorem not_returnsModules : ¬ReturnsModules valueEngine valueFiles mainFileName := by
  intro h
  have hw := h (fun _ => pure ()) (fun m s => WP.of_pure (Nat.le_refl _)) .empty .empty ⟨[], []⟩
  exact not_raised_notModule hw

end CkbJs.Proof.Module
