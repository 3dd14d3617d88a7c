import CkbJs.Proof.CellFs.Lookup
import CkbJs.Proof.Qjs.Steps

/-!
# The operand of `-e`

`main` evaluates `argv[1]` (`main_code`), and no other string (`evalCmdline_injective`). So
it evaluates the operand of the first `-e` where that is `argv[1]` (`evaluatesOperand_iff`).
-/

namespace CkbJs.Proof.Qjs

open CkbJs.Impl CkbJs.Impl.Qjs CkbJs.Spec.Qjs

variable {env : Env} {argv : List CString} {code code' : CString}

/-- With `-e`, there is an argument `argv[1]`. -/
theorem of_runJsWithCode (h : parseArgs argv = .runJsWithCode) : optE ∈ argv ∧ 2 ≤ argv.length := by
  unfold parseArgs at h
  dsimp only at h
  split at h
  · cases h
  · split at h
    · split at h
      · cases h
      · exact ⟨‹_›, by omega⟩
    · split at h
      · split at h <;> cases h
      · split at h <;> cases h

theorem main_code (h : parseArgs argv = .runJsWithCode) : RunsCode argv (argv.getD 1 .empty) := by
  intro env hr hc
  unfold main
  rw [h, hr, hc]
  rfl

/-! ## What was evaluated shows in the memory -/

theorem keeps_mem_ask (m : Mem) (req : Request) : Keeps (fun s : Vm => s.mem = m) (ask env req) :=
  fun _ hs => wp_ask (fun _ _ => hs) (fun _ => hs) (fun _ _ => hs) fun _ => hs

/-- A string that was evaluated is at `argvBuf`. -/
theorem wp_evalCmdline (env : Env) (code : CString) (s : Vm) :
    WP (evalCmdline env code) s (fun _ s' => s'.mem.Holds env.argvBuf (code.1 ++ [0]))
      (fun _ s' => s'.mem.Holds env.argvBuf (code.1 ++ [0])) := by
  refine WP.bind (wp_store ?_)
  have hmem := Mem.holds_write s.mem env.argvBuf (code.1 ++ [0])
  refine (keeps_evalBuf (keeps_mem_ask _) (fun _ _ h => h) _ _ _ _ _ rfl).mono (fun _ s' h => ?_) fun _ s' h => ?_
  · rw [h]
    exact hmem
  · rw [h]
    exact hmem

theorem evalCmdline_injective (h : evalCmdline env code = evalCmdline env code') : code = code' := by
  have hw := wp_evalCmdline env code (Vm.init env)
  have hw' := wp_evalCmdline env code' (Vm.init env)
  rw [← h] at hw'
  have hboth := hw.and hw'
  unfold WP at hboth
  apply Subtype.ext
  split at hboth
  · exact CellFs.cstringAt_unique code.2 code'.2 hboth.1 hboth.2
  · exact CellFs.cstringAt_unique code.2 code'.2 hboth.1 hboth.2

/-- `main` evaluates the operand of the first `-e` exactly where the first `-e` is `argv[0]`, or
its operand is there and is the same string as `argv[1]`. -/
theorem evaluatesOperand_iff (argv : List CString) : EvaluatesOperand argv ↔
    (parseArgs argv = .runJsWithCode → argv.head? = some optE ∨ operand argv = argv[1]?) := by
  refine forall_congr' fun h => ?_
  have hsome : argv[1]? = some (argv.getD 1 .empty) := by
    have hlen := (of_runJsWithCode h).2
    rw [List.getD_eq_getElem?_getD, List.getElem?_eq_getElem hlen]
    rfl
  constructor
  · rintro ⟨code, hop, hruns⟩
    have heq : code = argv.getD 1 .empty :=
      evalCmdline_injective ((hruns (world []) rfl rfl).symm.trans (main_code h (world []) rfl rfl))
    exact .inr (by rw [hop, hsome, heq])
  · intro hor
    refine ⟨argv.getD 1 .empty, ?_, main_code h⟩
    rcases hor with hhead | heq
    · obtain ⟨rest, rfl⟩ := List.head?_eq_some_iff.mp hhead
      rw [operand, List.idxOf_cons_self]
      exact hsome
    · rw [heq, hsome]

/-- The arguments `-e 1;` with a program name in front. -/
def namedArgs : List CString := [mainFileName, optE, ⟨[49, 59], by decide⟩]

/-- With a program name in front, what is evaluated is `-e`. -/
theorem not_evaluatesOperand : ¬EvaluatesOperand namedArgs := by
  intro h
  obtain ⟨code, hop, hruns⟩ := h (by decide)
  have heq : code = optE :=
    evalCmdline_injective ((hruns (world []) rfl rfl).symm.trans
      (main_code (by decide : parseArgs namedArgs = .runJsWithCode) (world []) rfl rfl))
  rw [heq] at hop
  exact absurd hop (by decide)

end CkbJs.Proof.Qjs
