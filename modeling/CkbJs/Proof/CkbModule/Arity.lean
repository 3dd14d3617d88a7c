import CkbJs.Proof.CkbModule.Errors

/-!
# Reading only arguments that exist

`Below n`: no slot from `n` on has been read. Every step of a binding keeps it, except for
reading such a slot (`keeps_get`). `parse_args` reads two slots whatever the number
of arguments (`keeps_parseArgs`), which is one too many for the two loads that are registered
with length 1 (`readsArguments_iff`).
-/

namespace CkbJs.Proof.CkbModule

open CkbJs.Impl CkbJs.Impl.CkbModule CkbJs.Spec.CkbModule

/-- An invariant of the log that does not mind reading slots below `n`. -/
structure Minds (n : Nat) (I : Vm → Prop) : Prop where
  log : ∀ (s : Vm) (e : Event), (∀ i, e = .arg i → i < n) → I s → I { s with events := s.events ++ [e] }
  congr : ∀ s s' : Vm, s'.events = s.events → I s → I s'

/-- Only slots below `n` have been read. -/
def Below (n : Nat) (s : Vm) : Prop := ∀ i, Event.arg i ∈ s.events → i < n

theorem minds_below (n : Nat) : Minds n (Below n) := by
  refine ⟨fun s e h hs i hi => ?_, fun s s' h hs i hi => hs i (h ▸ hi)⟩
  rcases List.mem_append.mp hi with hi | hi
  · exact hs i hi
  · exact h i (List.mem_singleton.mp hi).symm

theorem minds_mem (n : Nat) (e : Event) : Minds n fun s => e ∈ s.events :=
  ⟨fun _ _ _ hs => List.mem_append_left _ hs, fun _ _ h hs => h ▸ hs⟩

variable {env : Env} {host : Host} {a : Args} {n : Nat} {I : Vm → Prop}

/-! ## Steps -/

theorem keeps_check (err : Int) : Keeps I (check err) := .ite (.of_throw _) (.of_pure _)

theorem keeps_check2 (cond : Bool) (code : Int) : Keeps I (check2 cond code) :=
  .ite (.of_pure _) (.of_throw _)

theorem mem_range'_lt {argvOffset i : Nat} (h : i ∈ List.range' argvOffset (a.argc - argvOffset)) :
    i < a.argc := by
  have := List.mem_range'_1.mp h
  omega

section

variable (hI : Minds n I)
include hI

theorem keeps_log {e : Event} (h : ∀ i, e = .arg i → i < n) : Keeps I (log e) :=
  fun s hs => wp_log (hI.log s e h hs)

theorem keeps_get {i : Nat} (h : i < n) : Keeps I (a.get i) := by
  refine (keeps_log hI fun j hj => ?_).bind fun _ => .of_pure _
  cases hj
  exact h

theorem keeps_tick : Keeps I tick := fun s hs => hI.congr s _ rfl hs

theorem keeps_convert {α : Type} (r : Option α) (stop : Stop) : Keeps I (convert r stop) := by
  refine (keeps_log hI fun i hi => by cases hi).bind fun _ => ?_
  cases r with
  | none => exact .of_throw _
  | some x => exact .of_pure x

theorem keeps_cString (v : JSValue) : Keeps I (cString env v) :=
  (keeps_log hI fun i hi => by cases hi).bind fun _ => .of_pure _

theorem keeps_malloc (size : Nat) : Keeps I (malloc env size) :=
  (keeps_tick hI).bind fun _ => .ite (fun s hs => hI.congr s _ rfl hs) (.of_pure _)

theorem keeps_loadFunc (addr : Option Nat) (cap : Nat) (data : LoadData) :
    Keeps I (loadFunc env addr cap data) := by
  refine fun s hs => ?_
  have hb : I (loaded env s addr cap data) :=
    hI.congr _ _ (events_loaded ..) (hI.log s (loadEvent env s addr cap data) (fun i hi => by cases hi) hs)
  exact wp_loadFunc (fun _ => hb) fun _ => hb

theorem keeps_newArrayBuffer (block len : Nat) : Keeps I (newArrayBuffer env block len) :=
  (keeps_tick hI).bind fun _ => .of_pure _

/-! ## The loads -/

theorem keeps_wrap (addr length len : Nat) : Keeps I (wrap env addr length len) := by
  refine (keeps_newArrayBuffer hI _ _).bind fun r => ?_
  cases r with
  | none => exact .of_pure _
  | some p => exact .of_pure _

theorem keeps_readInto (data : LoadData) (length : Nat) : Keeps I (readInto env data length) := by
  refine (keeps_malloc hI _).bind fun addr => (keeps_check2 _ _).bind fun _ => ?_
  exact (keeps_loadFunc hI _ _ _).bind fun r => (keeps_check _).bind fun _ => keeps_wrap hI _ _ _

theorem keeps_syscallLoad (data : LoadData) : Keeps I (syscallLoad env data) := by
  rw [syscallLoad_eq]
  refine .ite ?_ (.ite ?_ (keeps_readInto hI _ _))
  · exact (keeps_loadFunc hI _ _ _).bind fun _ => (keeps_check _).bind fun _ => .of_pure _
  · exact (keeps_loadFunc hI _ _ _).bind fun _ => (keeps_check _).bind fun _ => keeps_readInto hI _ _

/-- `parse_args` after it has read the second slot. -/
def parseTail (env : Env) (hasField : Bool) (a : Args) (func : LoadFunc) (index : Int) (v : JSValue) :
    M LoadData := do
  let toInt64 (v : JSValue) : M Int := convert (toInt64Free env.engine v) .exception
  let source ← toInt64 v
  let field ← if hasField ∧ a.argc > 2 then toInt64 (← a.get 2) else pure (-1)
  let varArgIndex := if hasField then 3 else 2
  let length ← if a.argc > varArgIndex then toInt64 (← a.get varArgIndex) else pure (-1)
  let offset ← if a.argc > varArgIndex + 1 then toInt64 (← a.get (varArgIndex + 1)) else pure (-1)
  pure
    { func := func
      length := size length
      offset := size offset
      index := size index
      source := size source
      field := size field }

omit hI in
theorem parseArgs_eq (hasField : Bool) (func : LoadFunc) : parseArgs env hasField a func =
    a.get 0 >>= fun v => convert (toInt64Free env.engine v) .exception >>= fun index =>
      a.get 1 >>= fun v => parseTail env hasField a func index v :=
  rfl

/-- The other slots that `parse_args` reads are below `argc`. -/
theorem keeps_parseTail (hasField : Bool) (func : LoadFunc) (index : Int) (v : JSValue)
    (hn : a.argc ≤ n) : Keeps I (parseTail env hasField a func index v) := by
  have hopt {i : Nat} {c : Prop} [Decidable c] (hi : c → i < n) {β : Type} {f : Int → M β}
      (hf : ∀ x, Keeps I (f x)) :
      Keeps I (if c then a.get i >>= fun v => convert (toInt64Free env.engine v) .exception >>= f
        else pure (-1) >>= f) := by
    split
    · exact (keeps_get hI (hi ‹_›)).bind fun v => (keeps_convert hI _ _).bind hf
    · exact (Keeps.of_pure _).bind hf
  unfold parseTail
  refine (keeps_convert hI _ _).bind fun source => ?_
  refine hopt (fun h => by omega) fun field => hopt (fun h => by omega) fun length => ?_
  exact hopt (fun h => by omega) fun offset => Keeps.of_pure _

theorem keeps_parseArgs (hasField : Bool) (func : LoadFunc) (h2 : 2 ≤ n) (hn : a.argc ≤ n) :
    Keeps I (parseArgs env hasField a func) := by
  rw [parseArgs_eq]
  refine (keeps_get hI (by omega)).bind fun v => (keeps_convert hI _ _).bind fun index => ?_
  exact (keeps_get hI (by omega)).bind fun v => keeps_parseTail hI hasField func index v hn

theorem keeps_loadWith (hasField : Bool) (func : LoadFunc) (h2 : 2 ≤ n) (hn : a.argc ≤ n) :
    Keeps I (loadWith env hasField func a) :=
  (keeps_parseArgs hI hasField func h2 hn).bind fun d => keeps_syscallLoad hI d

/-! ## The other bindings -/

theorem keeps_codeHashArg (h : 0 < n) : Keeps I (codeHashArg env a) := by
  refine (keeps_get hI h).bind fun v => (keeps_log hI fun i hi => by cases hi).bind fun _ => ?_
  refine (keeps_check2 _ _).bind fun _ => (keeps_log hI fun i hi => by cases hi).bind fun _ => ?_
  exact (keeps_check2 _ _).bind fun _ => .of_pure _

theorem keeps_getProperty (obj : JSValue) (prop : String) (value : Int) :
    Keeps I (getProperty env obj prop value) := by
  refine (keeps_log hI fun i hi => by cases hi).bind fun _ => (keeps_check2 _ _).bind fun _ => ?_
  exact .ite (keeps_convert hI _ _) (.of_pure _)

/-- The loop reads the slots it is given. -/
theorem keeps_passArgv (argvOffset : Nat) {is : List Nat} (h : ∀ i ∈ is, i < n) :
    Keeps I (passArgv env a argvOffset is) := by
  induction is with
  | nil => exact .of_pure _
  | cons i is ih =>
    refine (keeps_get hI (h i List.mem_cons_self)).bind fun v => (keeps_cString hI v).bind fun str => ?_
    have hstore (inside : Bool) : Keeps I (passArgv.check2Overflow inside) :=
      .ite (.of_pure _) (.of_throw _)
    refine (hstore _).bind fun _ => ?_
    exact (ih fun j hj => h j (List.mem_cons_of_mem i hj)).bind fun rest => .of_pure _

/-- `exec_cell` after it has read its second argument. -/
def execRest (env : Env) (a : Args) (codeHash : List Byte) (v : JSValue) : M JSResult := do
  let hashType ← convert (toUint32 env.engine v) (.check (-1))
  let offset ← convert (toUint32 env.engine (← a.get 2)) (.check (-1))
  let length ← convert (toUint32 env.engine (← a.get 3)) (.check (-1))
  execTail env a (codeHash, hashType, offset, length)

omit hI in
theorem syscallExecCell_rest : syscallExecCell env a =
    codeHashArg env a >>= fun codeHash => a.get 1 >>= execRest env a codeHash :=
  rfl

theorem keeps_execRest (codeHash : List Byte) (v : JSValue) (h4 : 4 ≤ n) (hn : a.argc ≤ n) :
    Keeps I (execRest env a codeHash v) := by
  have hslot {i : Nat} (hi : i < n) {β : Type} {f : Nat → M β} (hf : ∀ x, Keeps I (f x)) :
      Keeps I (a.get i >>= fun v => convert (toUint32 env.engine v) (.check (-1)) >>= f) :=
    (keeps_get hI hi).bind fun v => (keeps_convert hI _ _).bind hf
  refine (keeps_convert hI _ _).bind fun hashType => ?_
  refine hslot (by omega) fun offset => hslot (by omega) fun length => ?_
  refine (keeps_passArgv hI 4 fun i hi => Nat.lt_of_lt_of_le (mem_range'_lt hi) hn).bind fun argv => ?_
  refine (keeps_tick hI).bind fun t => ?_
  unfold runExec
  split
  · exact .of_throw _
  · exact (keeps_log hI fun i hi => by cases hi).bind fun _ => .of_pure _

theorem keeps_execCell (h4 : 4 ≤ n) (hn : a.argc ≤ n) : Keeps I (syscallExecCell env a) := by
  rw [syscallExecCell_rest]
  refine (keeps_codeHashArg hI (by omega)).bind fun codeHash => ?_
  exact (keeps_get hI (by omega)).bind fun v => keeps_execRest hI codeHash v h4 hn

/-- `spawn_cell` after it has read its second argument. -/
def spawnRest (env : Env) (a : Args) (codeHash : List Byte) (v : JSValue) : M JSResult := do
  let hashType ← convert (toUint32 env.engine v) (.check (-1))
  let contentLength ← getProperty env (← a.get 2) "content_length" 0
  let memoryLimit ← getProperty env (← a.get 2) "memory_limit" 8
  let offset ← getProperty env (← a.get 2) "offset" 0
  let length ← getProperty env (← a.get 2) "length" 0
  spawnTail env a (codeHash, hashType, contentLength, memoryLimit, offset, length)

omit hI in
theorem syscallSpawnCell_rest : syscallSpawnCell env a =
    codeHashArg env a >>= fun codeHash => a.get 1 >>= spawnRest env a codeHash :=
  rfl

theorem keeps_spawnRest (codeHash : List Byte) (v : JSValue) (h3 : 3 ≤ n) (hn : a.argc ≤ n) :
    Keeps I (spawnRest env a codeHash v) := by
  refine (keeps_convert hI _ _).bind fun hashType => ?_
  have hprop {prop : String} {value : Int} {β : Type} {f : Int → M β} (hf : ∀ x, Keeps I (f x)) :
      Keeps I (a.get 2 >>= fun v => getProperty env v prop value >>= f) :=
    (keeps_get hI (by omega)).bind fun v => (keeps_getProperty hI v prop value).bind hf
  refine hprop fun contentLength => hprop fun memoryLimit => hprop fun offset => hprop fun length => ?_
  refine (keeps_passArgv hI 3 fun i hi => Nat.lt_of_lt_of_le (mem_range'_lt hi) hn).bind fun argv => ?_
  refine (keeps_malloc hI _).bind fun content => (keeps_check2 _ _).bind fun _ => (keeps_tick hI).bind fun t => ?_
  refine (keeps_log hI fun i hi => by cases hi).bind fun _ => (keeps_check _).bind fun _ => ?_
  refine Keeps.bind (fun s hs => hI.congr s _ rfl hs) fun _ => (keeps_tick hI).bind fun t => ?_
  exact (keeps_check2 _ _).bind fun _ => (keeps_newArrayBuffer hI _ _).bind fun content2 => .of_pure _

theorem keeps_spawnCell (h3 : 3 ≤ n) (hn : a.argc ≤ n) : Keeps I (syscallSpawnCell env a) := by
  rw [syscallSpawnCell_rest]
  refine (keeps_codeHashArg hI (by omega)).bind fun codeHash => ?_
  exact (keeps_get hI (by omega)).bind fun v => keeps_spawnRest hI codeHash v h3 hn

theorem keeps_setContent (h : 0 < n) : Keeps I (syscallSetContent env a) := by
  refine (keeps_get hI h).bind fun v => (keeps_log hI fun i hi => by cases hi).bind fun _ => ?_
  refine (keeps_check2 _ _).bind fun _ => (keeps_log hI fun i hi => by cases hi).bind fun _ => ?_
  refine (keeps_check2 _ _).bind fun _ => (keeps_tick hI).bind fun t => ?_
  exact (keeps_log hI fun i hi => by cases hi).bind fun _ => (keeps_check _).bind fun _ => .of_pure _

theorem keeps_debug (h : 0 < n) : Keeps I (syscallDebug env a) :=
  (keeps_get hI h).bind fun v => (keeps_cString hI v).bind fun str =>
    (keeps_log hI fun i hi => by cases hi).bind fun _ => .of_pure _

theorem keeps_exit (h : 0 < n) : Keeps I (syscallExit env a) :=
  (keeps_get hI h).bind fun _ => (keeps_convert hI _ _).bind fun _ => .of_throw _

theorem keeps_printSlots {is : List Nat} (h : ∀ i ∈ is, i < n) :
    Keeps I (printSlots env host a is) := by
  induction is with
  | nil => exact .of_pure _
  | cons i is ih =>
    have hrest := ih fun j hj => h j (List.mem_cons_of_mem i hj)
    have hdebug (str : Option (List Byte)) :
        Keeps I (log (.debug str) >>= fun _ => printSlots env host a is) :=
      (keeps_log hI fun i hi => by cases hi).bind fun _ => hrest
    refine (keeps_get hI (h i List.mem_cons_self)).bind fun v => ?_
    split
    · exact hdebug _
    · refine (keeps_cString hI v).bind fun str => ?_
      cases str with
      | none => exact .of_pure _
      | some str => exact hdebug _

theorem keeps_assert (h : 0 < n) (hn : a.argc ≤ n) : Keeps I (jsAssert env host a) := by
  refine (keeps_get hI h).bind fun v => .ite ?_ (.of_pure _)
  refine (keeps_printSlots hI fun i hi => ?_).bind fun _ => .of_pure _
  have := List.mem_range'_1.mp hi
  omega

end

/-- Every function keeps to the arguments and its length, the loads with the length of their own
if that is at least 2 or there are two arguments. -/
theorem keeps_func (env : Env) (host : Host) (r : Registered) (a : Args)
    (h2 : r = .ckb .loadTransaction ∨ r = .ckb .loadScript → 2 ≤ a.argc) :
    Keeps (Below (max a.argc r.arity)) (r.func env host a) := by
  have hI := minds_below (max a.argc r.arity)
  have hn : a.argc ≤ max a.argc r.arity := Nat.le_max_left ..
  have har : r.arity ≤ max a.argc r.arity := Nat.le_max_right ..
  cases r with
  | vmVersion => exact .of_pure _
  | currentCycles | getMemoryLimit | currentMemory => exact (keeps_tick hI).bind fun _ => .of_pure _
  | consoleLog | print => exact keeps_printSlots hI fun i hi => Nat.lt_of_lt_of_le (List.mem_range.mp hi) hn
  | consoleAssert => exact keeps_assert hI har hn
  | ckb b =>
    cases b with
    | exit => exact keeps_exit hI har
    | debug => exact keeps_debug hI har
    | setContent => exact keeps_setContent hI har
    | execCell => exact keeps_execCell hI har hn
    | spawnCell => exact keeps_spawnCell hI har hn
    | loadTxHash | loadScriptHash => exact keeps_syscallLoad hI (hashData _)
    | loadTransaction => exact keeps_loadWith hI _ _ (Nat.le_trans (h2 (.inl rfl)) hn) hn
    | loadScript => exact keeps_loadWith hI _ _ (Nat.le_trans (h2 (.inr rfl)) hn) hn
    | loadCell | loadInput | loadHeader | loadWitness | loadCellData =>
      exact keeps_loadWith hI _ _ (Nat.le_trans (by decide : 2 ≤ 3) har) hn
    | loadCellByField | loadHeaderByField | loadInputByField =>
      exact keeps_loadWith hI _ _ (Nat.le_trans (by decide : 2 ≤ 4) har) hn

/-! ## The second slot -/

theorem loadWith_eq (hasField : Bool) (func : LoadFunc) : loadWith env hasField func a =
    a.get 0 >>= fun v => convert (toInt64Free env.engine v) .exception >>= fun index =>
      a.get 1 >>= fun v => parseTail env hasField a func index v >>= syscallLoad env := by
  rw [loadWith, parseArgs_eq]
  simp only [bind_assoc]

/-- Once the first slot converts, the second one is read. -/
theorem reads_second {hasField : Bool} {func : LoadFunc} {s : Vm} {index : Int}
    (h : toInt64Free env.engine (a.slot 0) = some index) :
    WP (loadWith env hasField func a) s (fun _ s' => .arg 1 ∈ s'.events) (fun _ s' => .arg 1 ∈ s'.events) := by
  have hI := minds_mem a.argc (.arg 1)
  have htail (s : Vm) (hs : .arg 1 ∈ s.events) (v : JSValue) :
      WP (parseTail env hasField a func index v >>= syscallLoad env) s
        (fun _ s' => .arg 1 ∈ s'.events) (fun _ s' => .arg 1 ∈ s'.events) :=
    (keeps_parseTail hI hasField func index v (Nat.le_refl _)).bind (keeps_syscallLoad hI) s hs
  rw [loadWith_eq]
  refine WP.bind (WP.bind (wp_log (WP.of_pure (WP.bind ?_))))
  rw [h]
  refine WP.bind (wp_log (WP.of_pure (WP.bind (WP.bind (wp_log (WP.of_pure ?_))))))
  exact htail _ (List.mem_append_right _ (List.mem_singleton_self _)) _

/-- If the first slot does not convert, no other is read. -/
theorem reads_first {hasField : Bool} {func : LoadFunc} {s : Vm} (hs : Below n s) (hn : 0 < n)
    (h : toInt64Free env.engine (a.slot 0) = none) :
    WP (loadWith env hasField func a) s (fun _ s' => Below n s') (fun _ s' => Below n s') := by
  have hI := minds_below n
  rw [loadWith_eq]
  refine WP.bind (WP.bind (wp_log (WP.of_pure (WP.bind ?_))))
  rw [h]
  refine WP.bind (wp_log (WP.of_throw ?_))
  refine hI.log _ _ (fun i hi => by cases hi) (hI.log _ _ (fun i hi => ?_) hs)
  cases hi
  exact hn

theorem readsArguments_of_wp {r : Registered} {s : Vm}
    (h : WP (r.func env host a) { s with events := [] } (fun _ s' => Below (max a.argc r.arity) s')
      (fun _ s' => Below (max a.argc r.arity) s')) : ReadsArguments env host r a s :=
  call_of_wp (fun _ s' => Below (max a.argc r.arity) s') h

/-- A function reads only arguments that exist, or that its length makes readable, except for
`load_transaction` and `load_script` with fewer than two arguments, the first of which converts. -/
theorem readsArguments_iff (env : Env) (host : Host) (r : Registered) (a : Args) (s : Vm) :
    ReadsArguments env host r a s ↔
      (r = .ckb .loadTransaction ∨ r = .ckb .loadScript →
        2 ≤ a.argc ∨ toInt64Free env.engine (a.slot 0) = none) := by
  have hempty {k : Nat} : Below k { s with events := [] } := fun i hi => absurd hi List.not_mem_nil
  by_cases hr : r = .ckb .loadTransaction ∨ r = .ckb .loadScript
  · have hload : ∃ func, r.func env host = loadWith env false func ∧ r.arity = 1 := by
      rcases hr with rfl | rfl
      · exact ⟨.transaction, rfl, rfl⟩
      · exact ⟨.script, rfl, rfl⟩
    obtain ⟨func, hfunc, har⟩ := hload
    rw [forall_prop_of_true hr]
    constructor
    · intro h
      by_contra hc
      rw [not_or] at hc
      obtain ⟨index, hindex⟩ := Option.ne_none_iff_exists'.mp hc.2
      have hw : WP (loadWith env false func a) { s with events := [] }
          (fun _ s' => .arg 1 ∈ s'.events) (fun _ s' => .arg 1 ∈ s'.events) := reads_second hindex
      rw [← hfunc] at hw
      have := h 1 (call_of_wp (fun _ s' => Event.arg 1 ∈ s'.events) hw)
      omega
    · rintro (h2 | h0)
      · exact readsArguments_of_wp (keeps_func env host r a (fun _ => h2) _ hempty)
      · refine readsArguments_of_wp ?_
        rw [hfunc]
        exact reads_first hempty (by omega) h0
  · exact iff_of_true (readsArguments_of_wp (keeps_func env host r a (fun h => absurd h hr) _ hempty))
      fun h => absurd h hr

/-- A host without anything to tell. -/
def silent : Host :=
  { toBool := fun _ => false, printf := fun _ => [], vmVersion := 1, currentCycles := fun _ => 0
    memoryLimit := fun _ => 8, currentMemory := fun _ => 0 }

/-- `ckb.load_script()` reads a second argument. -/
theorem not_readsArguments : ¬ReadsArguments world silent (.ckb .loadScript)
    (callFrame (Binding.arity .loadScript) [] fun _ => .undefined) Vm.init := fun h =>
  absurd (h 1 (by decide)) (by decide)

end CkbJs.Proof.CkbModule
