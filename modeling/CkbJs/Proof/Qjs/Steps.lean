import CkbJs.Framework.WP
import CkbJs.Spec.Qjs

/-!
# The steps of a run

A rule for each step `main` is made of: the requests to the engine, the kernel
loads, and the stores into a buffer.
-/

namespace CkbJs.Proof.Qjs

open CkbJs.Impl CkbJs.Impl.Qjs

variable {env : Env} {s : Vm}

/-- The state after a request to the engine. -/
def asked (env : Env) (s : Vm) (req : Request) : Vm :=
  { s with clock := s.clock + 1
           runtime := s.runtime.run (env.engine s.clock req).ops
           ops := s.ops ++ (env.engine s.clock req).ops
           requests := s.requests ++ [req] }

/-- A request ends with a value or an exception, or ends the process. -/
theorem wp_ask {req : Request} {Q : Result → Vm → Prop} {R : Stop → Vm → Prop}
    (hv : ∀ m, (env.engine s.clock req).result = .value m → Q (.value m) (asked env s req))
    (hx : (env.engine s.clock req).result = .exception → Q .exception (asked env s req))
    (he : ∀ c, (env.engine s.clock req).result = .exited c → R (.exited c) (asked env s req))
    (hl : (env.engine s.clock req).result = .lost → R .lost (asked env s req)) :
    WP (ask env req) s Q R := by
  refine WP.bind (WP.of_get (WP.bind (WP.of_set ?_)))
  cases h : (env.engine s.clock req).result with
  | value m => exact hv m h
  | exception => exact hx h
  | exited c => exact he c h
  | lost => exact hl h

/-- A call of `JS_Eval` is a request, and is recorded. -/
theorem wp_jsEval {input inputLen : Nat} {filename : String} {module compileOnly : Bool}
    {Q : Result → Vm → Prop} {R : Stop → Vm → Prop}
    (h : WP (ask env (.eval (s.mem.bytes input inputLen) filename module compileOnly))
      { s with evals := s.evals ++ [⟨s.mem, input, inputLen⟩] } Q R) :
    WP (jsEval env input inputLen filename module compileOnly) s Q R :=
  WP.bind (WP.of_get (WP.bind (WP.of_set h)))

/-- A load gives the length and the first bytes of the item, or fails. -/
theorem wp_load {req : CkbModule.LoadReq} {cap : Nat} {Q : Int × Nat × List Byte → Vm → Prop}
    {R : Stop → Vm → Prop}
    (h0 : env.kernel.loadRet s.clock req = 0 →
      Q (0, (env.kernel.item req).length, (env.kernel.item req).take cap)
        { s with clock := s.clock + 1 })
    (h1 : env.kernel.loadRet s.clock req ≠ 0 →
      Q (env.kernel.loadRet s.clock req, cap, []) { s with clock := s.clock + 1 }) :
    WP (load env req cap) s Q R := by
  refine WP.bind (WP.of_get (WP.bind (WP.of_set ?_)))
  exact WP.ite (fun h => h1 h) fun h => h0 (Decidable.not_not.mp h)

/-- A store puts the bytes at the address, and changes nothing else. -/
theorem wp_store {addr : Nat} {bs : List Byte} {Q : PUnit → Vm → Prop} {R : Stop → Vm → Prop}
    (h : Q ⟨⟩ { s with mem := s.mem.write addr bs }) : WP (store addr bs) s Q R :=
  WP.of_modify h

/-! ## Invariants of an evaluation -/

section

variable {I : Vm → Prop} (hask : ∀ req, Keeps I (ask env req))
include hask

/-- What a request keeps, a call of `JS_Eval` keeps, if it is not about those calls. -/
theorem keeps_jsEval (hlog : ∀ s evals, I s → I { s with evals := evals }) (input inputLen : Nat)
    (filename : String) (module compileOnly : Bool) :
    Keeps I (jsEval env input inputLen filename module compileOnly) :=
  fun s hs => wp_jsEval (hask _ _ (hlog s _ hs))

theorem keeps_dumpError : Keeps I (dumpError env) := (hask .dumpError).bind fun _ => .of_pure _

theorem keeps_finish (val : Result) : Keeps I (finish env val) :=
  .ite ((keeps_dumpError hask).bind fun _ => .of_pure _) (.of_pure _)

/-- A request whose exception is dumped, before the rest of the program. -/
theorem keeps_checked {req : Request} {f : Result → M Int} (hf : ∀ r, Keeps I (f r)) :
    Keeps I (do
      let r ← ask env req
      if r = .exception then do
        dumpError env
        return -1
      f r) :=
  (hask req).bind fun r => .ite ((keeps_dumpError hask).bind fun _ => .of_pure _) (hf r)

theorem keeps_evalFunction : Keeps I (ask env .evalFunction >>= finish env) :=
  (hask _).bind fun r => keeps_finish hask r

/-- What every request keeps, the evaluation of bytecode keeps. -/
theorem keeps_evalBytecode (bs : List Byte) :
    Keeps I (do
      let val ← ask env (.readObject bs)
      if val = .exception then
        dumpError env
        return -1
      if val = .value true then
        let resolved ← ask env .resolveModule
        if resolved = .exception then
          dumpError env
          return -1
      finish env (← ask env .evalFunction)) :=
  keeps_checked hask fun _ =>
    .ite (keeps_checked hask fun _ => keeps_evalFunction hask) (keeps_evalFunction hask)

/-- What every request keeps, `eval_buf` keeps, if it is not about the calls of `JS_Eval`. -/
theorem keeps_evalBuf (hlog : ∀ s evals, I s → I { s with evals := evals }) (buf : Nat) (bufLen : Int)
    (filename : String) (module : Bool) : Keeps I (evalBuf env buf bufLen filename module) := by
  refine Keeps.of_get.bind fun s => .ite (keeps_evalBytecode hask _) (.ite ?_ ?_)
  · refine (keeps_jsEval hask hlog _ _ _ _ _).bind fun r => ?_
    exact .ite (keeps_evalFunction hask) (keeps_finish hask r)
  · exact (keeps_jsEval hask hlog _ _ _ _ _).bind fun r => keeps_finish hask r

end

/-- What every load keeps, `load_cell_code_info` keeps. -/
theorem keeps_loadCellCodeInfo {I : Vm → Prop} (hload : ∀ req cap, Keeps I (load env req cap)) :
    Keeps I (loadCellCodeInfo env) := by
  refine (hload _ _).bind fun _ => Keeps.ite (.of_pure _) ?_
  refine Keeps.ite (.of_pure _) (Keeps.ite (.of_pure _) ?_)
  refine Keeps.ite (.of_pure _) (Keeps.ite (.of_pure _) (Keeps.ite (.of_pure _) ?_))
  refine (hload _ _).bind fun _ => Keeps.ite (.of_pure _) ?_
  exact Keeps.ite (.of_pure _) (.of_pure _)

/-! ## A world -/

/-- A script in molecule format: zeros for its own code hash and hash type,
then 35 bytes of arguments, the dep they name having code hash 7 … 7. -/
def scriptItem : List Byte :=
  [88, 0, 0, 0, 16, 0, 0, 0, 48, 0, 0, 0, 49, 0, 0, 0] ++ List.replicate 33 0 ++
    [35, 0, 0, 0] ++ [0, 0] ++ List.replicate 32 7 ++ [0]

/-- A world where every load succeeds, the only dep has the data `1;`, and
every evaluation performs `ops` and ends with a value. -/
def world (ops : List Op) : Env where
  engine := fun _ _ => ⟨ops, .value false⟩
  kernel :=
    { item := fun req => if req = .script then scriptItem else [49, 59]
      loadRet := fun _ _ => 0
      exec := fun _ _ => some 1
      spawn := fun _ _ => ⟨1, 0, [], 0⟩
      setContent := fun _ _ => 0 }
  molecule :=
    { scriptVerify := fun bs => bs.take 4 = [88, 0, 0, 0] ∧ bs.length = 88
      scriptGetArgs := fun bs => bs.drop 49
      bytesRawBytes := fun bs => bs.drop 4 }
  lookForDep := fun hash _ => if hash = List.replicate 32 7 then (0, 0) else (1, 0)
  newRuntime := true
  newContext := true
  readLocalFile := fun _ => (-1, [])
  alloc := fun _ _ => true
  junk := fun _ => 0
  argvBuf := 4096
  stackBuf := 8192
  stackBuf_pos := by decide
  stackRoom := 65536
  stackRoom_lt := by decide

end CkbJs.Proof.Qjs
