/-!
# Promises and jobs

The part of `quickjs.c` through which evaluated code can leave work behind:
`fulfill_or_reject_promise`, `perform_promise_then`, and the jobs that
resolving a promise with a thenable and a dynamic import enqueue
(`JS_EnqueueJob`). An evaluation is seen as the list of the operations it
performs. No rejection tracker is installed, so a rejection leaves its trace
in the state of the promise only.
-/

namespace CkbJs.Impl

inductive PromiseState where
  | pending
  | fulfilled
  | rejected
  deriving DecidableEq, Repr

/-- A `JSPromiseData`: `reactions` is the length of both its lists of
reactions, which grow together. -/
structure Promise where
  state : PromiseState
  isHandled : Bool
  reactions : Nat
  deriving DecidableEq, Repr

/-- A `JSJobEntry`, by its function. -/
inductive Job where
  | promiseReaction (promise : Nat) (isReject : Bool)
  | resolveThenable
  | dynamicImport
  deriving DecidableEq, Repr

structure Runtime where
  jobs : List Job
  promises : List Promise
  deriving DecidableEq, Repr

def Runtime.init : Runtime := ⟨[], []⟩

/-- What evaluated code does to promises and jobs; `alloc` says which of the
job entries can be allocated. -/
inductive Op where
  | newPromise
  | fulfillOrReject (promise : Nat) (isReject : Bool) (alloc : Nat → Bool)
  | performThen (promise : Nat) (alloc : Nat → Bool)
  | resolveThenable (alloc : Nat → Bool)
  | dynamicImport (alloc : Nat → Bool)

/-- `JS_EnqueueJob`. -/
def Runtime.enqueueJob (rt : Runtime) (job : Job) (alloc : Bool) : Runtime :=
  if alloc then { rt with jobs := rt.jobs ++ [job] } else rt

/-- `fulfill_or_reject_promise`. -/
def Runtime.fulfillOrReject (rt : Runtime) (p : Nat) (isReject : Bool) (alloc : Nat → Bool) :
    Runtime :=
  match rt.promises[p]? with
  | none => rt
  | some s =>
    if s.state ≠ .pending then rt
    else
      let state := if isReject then .rejected else .fulfilled
      let rt := { rt with promises := rt.promises.set p { s with state := state, reactions := 0 } }
      (List.range s.reactions).foldl
        (fun rt i => rt.enqueueJob (.promiseReaction p isReject) (alloc i)) rt

/-- `perform_promise_then`. -/
def Runtime.performThen (rt : Runtime) (p : Nat) (alloc : Nat → Bool) : Runtime :=
  match rt.promises[p]? with
  | none => rt
  | some s =>
    if s.state = .pending then
      { rt with promises := rt.promises.set p { s with reactions := s.reactions + 1, isHandled := true } }
    else
      let rt := rt.enqueueJob (.promiseReaction p (s.state = .rejected)) (alloc 0)
      { rt with promises := rt.promises.set p { s with isHandled := true } }

def Runtime.step (rt : Runtime) : Op → Runtime
  | .newPromise => { rt with promises := rt.promises ++ [⟨.pending, false, 0⟩] }
  | .fulfillOrReject p isReject alloc => rt.fulfillOrReject p isReject alloc
  | .performThen p alloc => rt.performThen p alloc
  | .resolveThenable alloc => rt.enqueueJob .resolveThenable (alloc 0)
  | .dynamicImport alloc => rt.enqueueJob .dynamicImport (alloc 0)

def Runtime.run (rt : Runtime) (ops : List Op) : Runtime := ops.foldl Runtime.step rt

end CkbJs.Impl
