import Dependence.Proofs.Drains

/-! Accounts of the calls of a run. A call is made up of the event that begins it and of the block
events of its context for which it was the innermost active call, that is, those that come before it
ends and while no later call of the context is active. All this can be read off the events that were
accepted, and what the recorder adds to the store is just that. -/

namespace Dependence

variable {program : Program} {ctx : ContextId} {depth : Nat} {later : List Event}

/-- The block events for a call over which `depth` later calls of its context are active. -/
def ownEvents : Nat → List Event → List BlockEvent
  | _, [] => []
  | depth, .call .. :: later => ownEvents (depth + 1) later
  | 0, .exit _ :: _ => []
  | depth + 1, .exit _ :: later => ownEvents depth later
  | 0, .block event :: later => event :: ownEvents 0 later
  | depth + 1, .block _ :: later => ownEvents (depth + 1) later

def Program.begun? (program : Program) (later : List Event) : Event → Option (Except Error Call)
  | .call name position =>
    (program.get? name).map fun l => Call.ofEvents l position (ownEvents 0 later)
  | _ => none

def Program.begun (program : Program) :
    List (ContextId × Event) → List (ContextId × Except Error Call)
  | [] => []
  | (ctx, event) :: rest =>
    (program.begun? (valuesAt ctx rest) event).toList.map (ctx, ·) ++ program.begun rest

def accepted (answers : List (ContextId × Event × Except Error Unit)) :
    List (ContextId × Event) :=
  (answers.filter (·.2.2 = .ok ())).map fun a => (a.1, a.2.1)

namespace CallFrame

/-- What becomes of the calls on a stack, the innermost of which has `depth` calls over it. -/
def futures (later : List Event) : Nat → List CallFrame → List (Except Error Call)
  | _, [] => []
  | depth, frame :: rest =>
    (frame.call?.map fun call => (ownEvents depth later).foldlM Call.handle call).toList ++
      futures later (depth + 1) rest

theorem futures_congr {later later' : List Event} {depth depth' : Nat}
    (h : ∀ i, ownEvents (depth + i) later = ownEvents (depth' + i) later')
    (stack : List CallFrame) : futures later depth stack = futures later' depth' stack := by
  induction stack generalizing depth depth' with
  | nil => rfl
  | cons frame rest ih =>
    have hnext : ∀ i, ownEvents (depth + 1 + i) later = ownEvents (depth' + 1 + i) later' := by
      intro i
      rw [Nat.add_right_comm depth, Nat.add_right_comm depth']
      exact h (i + 1)
    rw [futures, futures, ih hnext, show ownEvents depth later = _ from h 0]
    rfl

theorem futures_nil (depth : Nat) (stack : List CallFrame) :
    futures [] depth stack = (stack.filterMap call?).map .ok := by
  induction stack generalizing depth with
  | nil => rfl
  | cons frame rest ih =>
    rw [futures, ih, ownEvents]
    cases frame <;> rfl

theorem futures_call (name position : String) (later : List Event) (stack : List CallFrame) :
    futures (.call name position :: later) 0 stack = futures later 1 stack :=
  futures_congr (fun i => by rw [ownEvents, Nat.add_right_comm]) stack

theorem futures_exit (name : String) (later : List Event) (stack : List CallFrame) :
    futures (.exit name :: later) 1 stack = futures later 0 stack :=
  futures_congr (fun i => by rw [Nat.add_comm 1 i, ownEvents, Nat.zero_add]) stack

theorem futures_block (event : BlockEvent) (later : List Event) (stack : List CallFrame) :
    futures (.block event :: later) 1 stack = futures later 1 stack :=
  futures_congr (fun i => by rw [Nat.add_comm 1 i, ownEvents]) stack

end CallFrame

namespace Recorder

variable {r : Recorder} {ctx : ContextId} {stack : List CallFrame} {event : Event}

/-- An accepted event changes nothing about what becomes of the calls that are active before it or
after it, except that it may begin one. One that is refused does nothing. -/
theorem move_accounts (hopen : r.closed = false) (ctx : ContextId) (stack : List CallFrame)
    (event : Event) (later : List Event) :
    let m := r.move (fun _ => .ok ()) ctx stack event
    (m.result = .ok () → (m.ended.toList.map Except.ok ++ CallFrame.futures later 0 m.stack).Perm
      (CallFrame.futures (event :: later) 0 stack ++ (r.program.begun? later event).toList)) ∧
    (m.result ≠ .ok () → m.stack = stack ∧ m.ended = none) := by
  simp only [move, hopen, Bool.false_eq_true, if_false]
  cases event with
  | call name position =>
    simp only [begin]
    cases hframe : r.frame name position with
    | error e => exact ⟨by simp, fun _ => ⟨rfl, rfl⟩⟩
    | ok frame =>
      refine ⟨fun _ => ?_, fun h => absurd rfl h⟩
      rw [CallFrame.futures_call]
      obtain ⟨l, call, hget, hstart, rfl⟩ | ⟨hget, rfl⟩ := frame_cases hframe
      · have hbegun : Call.ofEvents l position (ownEvents 0 later) =
            (ownEvents 0 later).foldlM Call.handle call := by
          rw [Call.ofEvents, hstart]
          rfl
        rw [Program.begun?, hget, Option.map_some, hbegun]
        -- the new call is on top of the stack, but the last one to have begun
        change ([(ownEvents 0 later).foldlM Call.handle call] ++
          CallFrame.futures later 1 stack).Perm _
        exact List.perm_append_comm
      · rw [Program.begun?, hget]
        simp [CallFrame.futures, CallFrame.call?]
  | exit name =>
    cases stack with
    | nil => exact ⟨by simp [leave], fun _ => ⟨rfl, rfl⟩⟩
    | cons frame rest =>
      simp only [leave]
      split
      · have hresult : frame.call?.elim (.ok ()) (fun _ => .ok ()) =
            (.ok () : Except Error Unit) := by
          cases frame <;> rfl
        refine ⟨fun _ => ?_, fun h => absurd hresult h⟩
        rw [CallFrame.futures, CallFrame.futures_exit]
        cases frame <;> simp [CallFrame.call?, ownEvents, Program.begun?, pure, Except.pure]
      · exact ⟨by simp, fun _ => ⟨rfl, rfl⟩⟩
  | block event =>
    cases stack with
    | nil => exact ⟨by simp [proceed], fun _ => ⟨rfl, rfl⟩⟩
    | cons frame rest =>
      cases frame with
      | untracked name =>
        refine ⟨fun _ => ?_, fun h => absurd rfl h⟩
        simp [proceed, CallFrame.futures, CallFrame.futures_block, CallFrame.call?, Program.begun?]
      | tracked call =>
        simp only [proceed]
        cases hevent : call.handle event with
        | error e => exact ⟨by simp, fun _ => ⟨rfl, rfl⟩⟩
        | ok call' =>
          refine ⟨fun _ => ?_, fun h => absurd rfl h⟩
          rw [CallFrame.futures, CallFrame.futures, CallFrame.futures_block]
          simp [CallFrame.call?, ownEvents, Program.begun?, hevent, bind, Except.bind]

def acceptedIn (answers : List (Event × Except Error Unit)) : List Event :=
  (answers.filter (·.2 = .ok ())).map (·.1)

def begunIn (program : Program) : List Event → List (Except Error Call)
  | [] => []
  | event :: rest => (program.begun? rest event).toList ++ begunIn program rest

theorem play_accounts (hopen : r.closed = false) (ctx : ContextId) (stack : List CallFrame)
    (events : List Event) :
    let p := play (r.move (fun _ => .ok ()) ctx) stack events
    ((p.ended ++ p.stack.filterMap CallFrame.call?).map .ok).Perm
      (CallFrame.futures (acceptedIn p.answers) 0 stack ++
        begunIn r.program (acceptedIn p.answers)) := by
  induction events generalizing stack with
  | nil => simp [play, acceptedIn, begunIn, CallFrame.futures_nil]
  | cons event events ih =>
    obtain ⟨hok, hrefused⟩ := move_accounts hopen ctx stack event
      (acceptedIn (play (r.move (fun _ => .ok ()) ctx)
        (r.move (fun _ => .ok ()) ctx stack event).stack events).answers)
    by_cases hresult : (r.move (fun _ => .ok ()) ctx stack event).result = .ok ()
    · have hrest := (ih (r.move (fun _ => .ok ()) ctx stack event).stack).append_left
        ((r.move (fun _ => .ok ()) ctx stack event).ended.toList.map .ok)
      rw [← List.append_assoc] at hrest
      have hall := hrest.trans ((hok hresult).append_right _)
      simpa [play, acceptedIn, begunIn, hresult] using hall
    · obtain ⟨hstack, hended⟩ := hrefused hresult
      simpa [play, acceptedIn, hresult, hstack, hended] using ih stack

end Recorder

variable {answers : List (ContextId × Event × Except Error Unit)}

theorem valuesAt_accepted :
    valuesAt ctx (accepted answers) = Recorder.acceptedIn (valuesAt ctx answers) := by
  unfold accepted Recorder.acceptedIn
  induction answers with
  | nil => rfl
  | cons a answers ih =>
    by_cases hctx : a.1 = ctx <;> by_cases hok : a.2.2 = .ok () <;> simp [hctx, hok, ih]

theorem valuesAt_begun (program : Program) (events : List (ContextId × Event)) :
    valuesAt ctx (program.begun events) = Recorder.begunIn program (valuesAt ctx events) := by
  induction events with
  | nil => rfl
  | cons x events ih =>
    by_cases hctx : x.1 = ctx
    · subst hctx
      simp [Program.begun, Recorder.begunIn, ih]
    · simp [Program.begun, hctx, ih]

def Store.Matches (store : Store) (program : Program) : Prop :=
  ∀ name l a, program.get? name = some l → store.get? name = some a →
    a.id = l.id ∧ a.layout.nodeCount = l.nodeCount

theorem Store.Matches.verdict {store : Store} (h : store.Matches program) (hstore : store.Sized)
    {call : Call} (hcall : program.Runs call) : store.verdict (.ofCall call) = .ok () := by
  unfold Store.verdict
  split
  · rfl
  · next a ha =>
    obtain ⟨hid, hnodes⟩ := h _ _ a hcall.layout ha
    rw [Aggregate.checkMergeable_eq_ok, (hstore.sized _ a ha).length, hnodes]
    exact ⟨hid.symm, hcall.sized.length⟩

/-- Seen from all contexts together, the calls that ended and those still active are the calls that
the accepted events tell of. -/
theorem Session.Splits.accounts {s s' : Session} {events : List (ContextId × Event)}
    {ended : List (ContextId × Call)} {order : List ContextId}
    (h : Splits (fun _ => .ok ()) s events ended s' answers) (hopen : s.recorder.closed = false)
    (hstart : ∀ ctx, s.recorder.stack ctx = []) (horder : order.Perm s'.recorder.contexts.keys) :
    ((ended ++ s'.recorder.activeIn order).map fun x => (x.1, Except.ok x.2)).Perm
      (s.recorder.program.begun (accepted answers)) := by
  refine perm_of_valuesAt fun ctx => ?_
  have hview := h.view ctx
  have haccounts := Recorder.play_accounts hopen ctx [] (valuesAt ctx events)
  rw [hstart ctx] at hview
  rw [← hview] at haccounts
  rw [valuesAt_map, valuesAt_append, Recorder.valuesAt_activeIn horder, valuesAt_begun,
    valuesAt_accepted]
  exact haccounts

theorem Session.Splits.exists_calls {s s' : Session} {events : List (ContextId × Event)}
    {ended : List (ContextId × Call)}
    (h : Splits (fun _ => .ok ()) s events ended s' answers) (hopen : s.recorder.closed = false)
    (hstart : ∀ ctx, s.recorder.stack ctx = []) :
    ∃ calls : List Call,
      (s.recorder.program.begun (accepted answers)).map (·.2) = calls.map .ok ∧
      calls.Perm (ended.map (·.2) ++ s'.recorder.inFlight s'.recorder.contexts.keys) ∧
      ∀ call ∈ calls, s.recorder.program.Runs call := by
  have hbegun : ((s.recorder.program.begun (accepted answers)).map (·.2)).Perm
      (((ended ++ s'.recorder.activeIn s'.recorder.contexts.keys).map (·.2)).map .ok) := by
    simpa [Function.comp_def] using ((h.accounts hopen hstart (.refl _)).map Prod.snd).symm
  obtain ⟨calls, hcalls, hperm⟩ := exists_map_of_perm hbegun
  rw [List.map_append, Recorder.map_activeIn] at hperm
  refine ⟨calls, hcalls, hperm, fun call hcall => ?_⟩
  rcases List.mem_append.mp (hperm.mem_iff.mp hcall) with hended | hflight
  · obtain ⟨x, hx, rfl⟩ := List.mem_map.mp hended
    exact h.runs x hx
  · exact Recorder.runs_inFlight (fun ctx => h.recorder ▸ h.valid.hosts ctx) hflight

/-- Whatever the events, the recorder ends up with what was in the store at first and all calls that
were begun, each made up of its own block events and added once. -/
theorem recorder_accounts_for_calls {store : Store} (hprogram : program.Named)
    (hstore : store.Sized) (hmatches : store.Matches program) (config : RecorderConfig)
    (events : List (ContextId × Event)) :
    ∃ s answers, Session.run ⟨.new program config, store⟩ events = (s, answers) ∧
      ∃ calls : List Call, (program.begun (accepted answers)).map (·.2) = calls.map .ok ∧
        (Session.foldAll store calls).2 = .ok () ∧
        s.shutdown.1.store = (Session.foldAll store calls).1 ∧
        s.shutdown.2 = .ok (Session.foldAll store calls).1.profile ∧
        ∀ order : List ContextId, order.Perm s.recorder.contexts.keys →
          (Session.Edit.shutdown order).run s =
            .ok (Session.foldAll store calls).1.profile s.shutdown.1 := by
  have hverdict : ∀ call, program.Runs call → .ok () = store.verdict (.ofCall call) :=
    fun call hcall => (hmatches.verdict hstore hcall).symm
  obtain ⟨ended, hsplits⟩ :=
    Session.exists_splits (Session.valid_new hprogram config hstore) hverdict events
  refine ⟨_, _, rfl, ?_⟩
  generalize (Session.run ⟨.new program config, store⟩ events).1 = s at hsplits ⊢
  generalize (Session.run ⟨.new program config, store⟩ events).2 = answers at hsplits ⊢
  have hopen : s.recorder.closed = false := by
    rw [hsplits.recorder]
    rfl
  have hstart : ∀ ctx, (Recorder.new program config).stack ctx = [] := fun ctx => by
    simp [Recorder.new, Recorder.stack]
  obtain ⟨calls, hcalls, hperm, hruns⟩ := hsplits.exists_calls rfl hstart
  have hfoldable := Program.foldable_of_runs hruns
  have hfinal : (Session.foldAll s.store (s.recorder.inFlight s.recorder.contexts.keys)).1 =
      (Session.foldAll store calls).1 := by
    rw [hsplits.store, ← Store.foldAll_append]
    exact (Store.foldAll_perm hstore hfoldable hperm).symm
  have hok : (Session.foldAll s.store (s.recorder.inFlight s.recorder.contexts.keys)).2 = .ok () :=
    (Store.foldAll_spec hsplits.valid.store (hsplits.valid.foldable_inFlight _)).2.mpr
      fun call hcall => (hsplits.judged call
        (hruns call (hperm.mem_iff.mpr (List.mem_append_right _ hcall)))).symm
  have hprofile : s.shutdown.2 = .ok (Session.foldAll store calls).1.profile := by
    rw [Session.shutdown_of_open hopen, hok, hfinal]
    rfl
  refine ⟨calls, hcalls, ?_, ?_, hprofile, fun order horder => ?_⟩
  · exact (Store.foldAll_spec hstore hfoldable).2.mpr fun call hcall =>
      hmatches.verdict hstore (hruns call hcall)
  · rw [Session.shutdown_of_open hopen, hfinal]
  · obtain ⟨hsame, hiff⟩ := Session.shutdown_perm hsplits.valid horder
    rw [Session.Edit.run_shutdown hsplits.valid horder, Dependence.ended, (hiff _).mpr hprofile, hsame]

/-- Calls are in flight in two contexts at the end, which can be listed either way. -/
theorem recorder_accounts_for_calls_crossed :
    let program : Program := .ofLayouts [.breakableLoop]
    let store := Store.empty.insert (.new .breakableLoop)
    let events := crossedEvents ++ [(3, .call "search" "c")]
    ∃ s answers, Session.run ⟨.new program .default, store⟩ events = (s, answers) ∧
      (s.shutdown.1.store.get? "search").map (·.calls) = some 3 ∧
      ∃ calls : List Call, calls.length = 3 ∧
        (program.begun (accepted answers)).map (·.2) = calls.map .ok ∧
        s.shutdown.1.store = (Session.foldAll store calls).1 ∧
        s.shutdown.2 = .ok (Session.foldAll store calls).1.profile ∧
        (Session.Edit.shutdown [3, 1]).run s =
          .ok (Session.foldAll store calls).1.profile s.shutdown.1 := by
  intro program store events
  have hget : program.get? "search" = some .breakableLoop := by decide +kernel
  have hmatches : store.Matches program := by
    intro name l a hl ha
    rw [Store.get?_insert] at ha
    split at ha
    · next hname =>
      subst hname
      obtain rfl := Option.some.inj ha
      obtain rfl := Option.some.inj (hget.symm.trans hl)
      exact ⟨rfl, rfl⟩
    · simp at ha
  obtain ⟨s, answers, hrun, calls, hcalls, -, hstore, hprofile, horders⟩ :=
    recorder_accounts_for_calls (Program.named_ofLayouts _)
      (Store.sized_empty.insert (Aggregate.sized_new _)) hmatches .default events
  have hlength : (program.begun (accepted
      (Session.run ⟨.new program .default, store⟩ events).2)).length = 3 := by
    decide +kernel
  have hcount : ((Session.run ⟨.new program .default, store⟩ events).1.shutdown.1.store.get?
      "search").map (·.calls) = some 3 := by
    decide +kernel
  have horder : [3, 1].Perm
      (Session.run ⟨.new program .default, store⟩ events).1.recorder.contexts.keys := by
    decide +kernel
  rw [show (Session.run ⟨.new program .default, store⟩ events).1 = s by rw [hrun]] at hcount horder
  rw [hrun, ← List.length_map (f := Prod.snd), hcalls, List.length_map] at hlength
  exact ⟨s, answers, hrun, hcount, calls, hlength, hcalls, hstore, hprofile, horders [3, 1] horder⟩

end Dependence
