import Dependence.Profiling.Store

/-! Recording the calls of a running program. Events come in for any number of contexts, each of
which has a stack of active calls; a call that ends is added to the store. -/

namespace Dependence

inductive UnknownFunction where
  | ignore
  | fail
deriving DecidableEq, Repr

structure RecorderConfig where
  unknownFunction : UnknownFunction
deriving DecidableEq, Repr

namespace RecorderConfig

def default : RecorderConfig := ⟨.ignore⟩

def strict : RecorderConfig := ⟨.fail⟩

def withUnknownFunction (_ : RecorderConfig) (u : UnknownFunction) : RecorderConfig := ⟨u⟩

end RecorderConfig

inductive CallFrame where
  | tracked (call : Call)
  | untracked (name : String)
deriving DecidableEq, Repr

namespace CallFrame

def name : CallFrame → String
  | tracked call => call.layout.name
  | untracked name => name

def call? : CallFrame → Option Call
  | tracked call => some call
  | untracked _ => none

end CallFrame

inductive Event where
  | call (name position : String)
  | exit (name : String)
  | block (event : BlockEvent)
deriving DecidableEq, Repr

/-- The stack of a context is innermost first, and a context whose stack is empty is not listed. -/
structure Recorder where
  program : Program
  config : RecorderConfig
  contexts : Std.ExtTreeMap ContextId (List CallFrame) compare
  closed : Bool

namespace Recorder

def new (program : Program) (config : RecorderConfig) : Recorder := ⟨program, config, ∅, false⟩

def stack (r : Recorder) (ctx : ContextId) : List CallFrame := r.contexts[ctx]?.getD []

def activeCalls (r : Recorder) (ctx : ContextId) : Nat := (r.stack ctx).length

def setStack (r : Recorder) (ctx : ContextId) (stack : List CallFrame) : Recorder :=
  { r with contexts := if stack.isEmpty then r.contexts.erase ctx else r.contexts.insert ctx stack }

def frame (r : Recorder) (name position : String) : Except Error CallFrame :=
  match r.program.get? name with
  | some layout => return .tracked (← Call.start layout position)
  | none =>
    match r.config.unknownFunction with
    | .ignore => .ok (.untracked name)
    | .fail => .error (.unknownFunction name)

def inFlight (r : Recorder) (order : List ContextId) : List Call :=
  order.flatMap fun ctx => (r.stack ctx).filterMap CallFrame.call?

end Recorder

structure Session where
  recorder : Recorder
  store : Store

namespace Session

def withStack (s : Session) (ctx : ContextId) (stack : List CallFrame) : Session :=
  { s with recorder := s.recorder.setStack ctx stack }

def finish (s : Session) (frame : CallFrame) : Session × Except Error Unit :=
  match frame with
  | .untracked _ => (s, .ok ())
  | .tracked call =>
    let (store, result) := s.store.fold call
    ({ s with store }, result)

/-- Handles the event of a context while the recorder is open. A call that ends leaves the stack
even if the store refuses it. -/
def handleOpen (s : Session) (ctx : ContextId) : Event → Session × Except Error Unit
  | .call name position =>
    match s.recorder.frame name position with
    | .ok frame => (s.withStack ctx (frame :: s.recorder.stack ctx), .ok ())
    | .error e => (s, .error e)
  | .exit name =>
    match s.recorder.stack ctx with
    | [] => (s, .error (.noActiveCall ctx))
    | frame :: rest =>
      if frame.name = name then (s.withStack ctx rest).finish frame
      else (s, .error (.unbalancedExit frame.name name))
  | .block event =>
    match s.recorder.stack ctx with
    | [] => (s, .error (.noActiveCall ctx))
    | .untracked _ :: _ => (s, .ok ())
    | .tracked call :: rest =>
      match call.handle event with
      | .ok call => (s.withStack ctx (.tracked call :: rest), .ok ())
      | .error e => (s, .error e)

def handle (s : Session) (ctx : ContextId) (event : Event) : Session × Except Error Unit :=
  if s.recorder.closed then (s, .error .shutDown) else s.handleOpen ctx event

/-- Adds calls to a store, whether or not some of them are refused; the first refusal is reported.
-/
def foldAll (store : Store) : List Call → Store × Except Error Unit
  | [] => (store, .ok ())
  | call :: rest =>
    let (store, result) := store.fold call
    let (store, later) := foldAll store rest
    match result with
    | .ok () => (store, later)
    | .error e => (store, .error e)

/-- Ends all calls and closes the recorder. The contexts can be listed in any order. -/
def shutdown (s : Session) (order : List ContextId := s.recorder.contexts.keys) :
    Session × Except Error Profile :=
  if s.recorder.closed then (s, .error .shutDown)
  else
    let (store, result) := foldAll s.store (s.recorder.inFlight order)
    let recorder := { s.recorder with contexts := ∅, closed := true }
    (⟨recorder, store⟩, result.map fun _ => store.profile)

end Session

end Dependence
