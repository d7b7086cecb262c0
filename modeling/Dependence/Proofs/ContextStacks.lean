import Dependence.Proofs.KeyedLists
import Dependence.Proofs.StoreSums

/-! A recorder seen from one of its contexts. An event looks at the stack of its own context only,
and apart from that stack it can only add one call to the store. So what a context gets to see of a
run depends on its own events and on which calls the store refuses. -/

namespace Dependence

namespace Recorder

variable {r : Recorder} {ctx ctx' : ContextId} {stack : List CallFrame} {event : Event}
  {judge judge' : Call → Except Error Unit}

structure Move where
  stack : List CallFrame
  ended : Option Call
  result : Except Error Unit

def begin (r : Recorder) (stack : List CallFrame) (name position : String) : Move :=
  match r.frame name position with
  | .ok frame => ⟨frame :: stack, none, .ok ()⟩
  | .error e => ⟨stack, none, .error e⟩

def leave (judge : Call → Except Error Unit) (ctx : ContextId) (name : String) :
    List CallFrame → Move
  | [] => ⟨[], none, .error (.noActiveCall ctx)⟩
  | frame :: rest =>
    if frame.name = name then ⟨rest, frame.call?, frame.call?.elim (.ok ()) judge⟩
    else ⟨frame :: rest, none, .error (.unbalancedExit frame.name name)⟩

def proceed (ctx : ContextId) (event : BlockEvent) : List CallFrame → Move
  | [] => ⟨[], none, .error (.noActiveCall ctx)⟩
  | .untracked name :: rest => ⟨.untracked name :: rest, none, .ok ()⟩
  | .tracked call :: rest =>
    match call.handle event with
    | .ok call => ⟨.tracked call :: rest, none, .ok ()⟩
    | .error e => ⟨.tracked call :: rest, none, .error e⟩

/-- The event of a context with the given stack. Whether a call that ends is refused is left to
`judge`. -/
def move (r : Recorder) (judge : Call → Except Error Unit) (ctx : ContextId)
    (stack : List CallFrame) (event : Event) : Move :=
  if r.closed then ⟨stack, none, .error .shutDown⟩
  else
    match event with
    | .call name position => r.begin stack name position
    | .exit name => leave judge ctx name stack
    | .block event => proceed ctx event stack

theorem stack_setStack (r : Recorder) (ctx ctx' : ContextId) (stack : List CallFrame) :
    (r.setStack ctx stack).stack ctx' = if ctx = ctx' then stack else r.stack ctx' := by
  unfold Recorder.stack setStack
  cases stack with
  | nil =>
    simp only [List.isEmpty_nil, if_true, Std.ExtTreeMap.getElem?_erase, Std.compare_eq_iff_eq]
    split <;> rfl
  | cons frame rest =>
    simp only [List.isEmpty_cons, Bool.false_eq_true, if_false, Std.ExtTreeMap.getElem?_insert,
      Std.compare_eq_iff_eq]
    split <;> rfl

@[simp] theorem move_setStack (r : Recorder) (ctx : ContextId) (stack : List CallFrame) :
    (r.setStack ctx stack).move = r.move := rfl

def Listed (r : Recorder) : Prop := ∀ ctx : ContextId, r.contexts[ctx]? ≠ some []

theorem Listed.setStack (h : r.Listed) (ctx : ContextId) (stack : List CallFrame) :
    (r.setStack ctx stack).Listed := by
  intro ctx'
  unfold Recorder.setStack
  cases stack with
  | nil =>
    simp only [List.isEmpty_nil, if_true, Std.ExtTreeMap.getElem?_erase]
    split
    · simp
    · exact h ctx'
  | cons frame rest =>
    simp only [List.isEmpty_cons, Bool.false_eq_true, if_false, Std.ExtTreeMap.getElem?_insert]
    split
    · simp
    · exact h ctx'

theorem Listed.contexts_eq {r' : Recorder} (h : r.Listed) (h' : r'.Listed)
    (hstack : ∀ ctx, r.stack ctx = r'.stack ctx) : r.contexts = r'.contexts := by
  refine Std.ExtTreeMap.ext_getElem? fun ctx => ?_
  have hctx := hstack ctx
  have hne := h ctx
  have hne' := h' ctx
  unfold Recorder.stack at hctx
  revert hctx hne hne'
  cases r.contexts[ctx]? <;> cases r'.contexts[ctx]? <;> simp_all [eq_comm]

theorem Listed.setStack_self (h : r.Listed) (ctx : ContextId) :
    r.setStack ctx (r.stack ctx) = r := by
  have hcontexts := (h.setStack ctx (r.stack ctx)).contexts_eq h fun ctx' => by
    rw [stack_setStack]
    split
    · next heq => rw [heq]
    · rfl
  cases r
  exact congrArg (Recorder.mk _ _ · _) hcontexts

end Recorder

namespace Session

variable {s : Session} {ctx ctx' : ContextId} {event : Event}

theorem handle_eq {m : Recorder.Move} (h : s.recorder.Listed)
    (hm : s.recorder.move (fun call => (s.store.fold call).2) ctx (s.recorder.stack ctx) event =
      m) :
    s.handle ctx event =
      (⟨s.recorder.setStack ctx m.stack, (foldAll s.store m.ended.toList).1⟩, m.result) := by
  subst hm
  -- where nothing happens, the stack that was there is put back
  have hself : ∀ stack, s.recorder.stack ctx = stack → ∀ result : Except Error Unit,
      (s, result) = (⟨s.recorder.setStack ctx stack, s.store⟩, result) := by
    rintro _ rfl result
    rw [h.setStack_self ctx]
  have hfold : ∀ call, (foldAll s.store [call]).1 = (s.store.fold call).1 := fun call =>
    Store.foldAll_cons s.store call []
  unfold handle Recorder.move
  split
  · exact hself _ rfl _
  cases event with
  | call name position =>
    simp only [handleOpen, Recorder.begin]
    cases s.recorder.frame name position with
    | ok frame => rfl
    | error e => exact hself _ rfl _
  | exit name =>
    simp only [handleOpen]
    cases hstack : s.recorder.stack ctx with
    | nil => exact hself _ hstack _
    | cons frame rest =>
      simp only [Recorder.leave]
      split
      · cases frame with
        | untracked name => rfl
        | tracked call => simp [finish, withStack, CallFrame.call?, hfold]
      · exact hself _ hstack _
  | block event =>
    simp only [handleOpen]
    cases hstack : s.recorder.stack ctx with
    | nil => exact hself _ hstack _
    | cons frame rest =>
      cases frame with
      | untracked name => exact hself _ hstack _
      | tracked call =>
        simp only [Recorder.proceed]
        cases call.handle event with
        | ok call => rfl
        | error e => exact hself _ hstack _

end Session

namespace Program

def Named (p : Program) : Prop := ∀ name l, p.get? name = some l → l.name = name

theorem named_ofLayouts (layouts : List Layout) : (ofLayouts layouts).Named := by
  have hinsert : ∀ p : Program, p.Named → ∀ l, (p.insert l).Named := by
    intro p hp l name l' h
    simp only [get?, insert, Std.ExtTreeMap.getElem?_insert, Std.compare_eq_iff_eq] at h
    split at h
    · next hname => exact Option.some.inj h ▸ hname
    · exact hp name l' h
  have hempty : empty.Named := fun name l h => by simp [get?, empty] at h
  exact List.foldlRecOn layouts insert hempty fun p hp l _ => hinsert p hp l

structure Runs (p : Program) (call : Call) : Prop where
  sized : call.Sized
  layout : p.get? call.layout.name = some call.layout

theorem Runs.agree {p : Program} {c d : Call} (hc : p.Runs c) (hd : p.Runs d)
    (hname : c.layout.name = d.layout.name) : c.layout = d.layout := by
  have hsame := hc.layout.symm.trans (hname ▸ hd.layout)
  exact Option.some.inj hsame

theorem foldable_of_runs {p : Program} {calls : List Call} (h : ∀ call ∈ calls, p.Runs call) :
    Store.Foldable calls where
  sized call hcall := (h call hcall).sized
  agree c hc d hd := (h c hc).agree (h d hd)

def Hosts (p : Program) (stack : List CallFrame) : Prop :=
  ∀ call, .tracked call ∈ stack → p.Runs call

end Program

namespace Recorder

variable {r : Recorder} {ctx : ContextId} {stack : List CallFrame} {event : Event} {call : Call}
  {judge judge' : Call → Except Error Unit}

theorem frame_cases {name position : String} {frame : CallFrame}
    (h : r.frame name position = .ok frame) :
    (∃ l call, r.program.get? name = some l ∧ Call.start l position = .ok call ∧
      frame = .tracked call) ∨ (r.program.get? name = none ∧ frame = .untracked name) := by
  unfold Recorder.frame at h
  cases hget : r.program.get? name with
  | some l =>
    simp only [hget] at h
    obtain ⟨call, hstart, hok⟩ := bind_eq_ok.mp h
    exact .inl ⟨l, call, rfl, hstart, (Except.ok.inj hok).symm⟩
  | none =>
    simp only [hget] at h
    cases hconfig : r.config.unknownFunction with
    | ignore =>
      simp only [hconfig, Except.ok.injEq] at h
      exact .inr ⟨rfl, h.symm⟩
    | fail => simp [hconfig] at h

theorem move_hosts (hnamed : r.program.Named) (hstack : r.program.Hosts stack)
    (judge : Call → Except Error Unit) (ctx : ContextId) (event : Event) :
    r.program.Hosts (r.move judge ctx stack event).stack ∧
      ∀ call ∈ (r.move judge ctx stack event).ended, r.program.Runs call := by
  have hsame : ∀ stack' : List CallFrame, r.program.Hosts stack' →
      r.program.Hosts stack' ∧ ∀ call ∈ (none : Option Call), r.program.Runs call :=
    fun stack' h => ⟨h, by simp⟩
  unfold move
  split
  · exact hsame _ hstack
  cases event with
  | call name position =>
    simp only [begin]
    split
    · next frame hframe =>
      refine hsame _ fun call hcall => ?_
      rcases List.mem_cons.mp hcall with rfl | hcall
      · obtain ⟨l, c, hget, hstart, hc⟩ | ⟨-, hc⟩ := frame_cases hframe
        · cases hc
          obtain ⟨c', hstart', hsized, hlayout, -⟩ := Call.start_ok l position
          obtain rfl : call = c' := Except.ok.inj (hstart.symm.trans hstart')
          refine ⟨hsized, ?_⟩
          rw [hlayout, hnamed name l hget, hget]
        · cases hc
      · exact hstack call hcall
    · exact hsame _ hstack
  | exit name =>
    simp only
    cases stack with
    | nil => exact hsame _ hstack
    | cons frame rest =>
      simp only [leave]
      split
      · refine ⟨fun call hcall => hstack call (List.mem_cons_of_mem _ hcall), fun call hcall => ?_⟩
        cases frame with
        | untracked name => cases hcall
        | tracked c =>
          cases hcall
          exact hstack call List.mem_cons_self
      · exact hsame _ hstack
  | block event =>
    simp only
    cases stack with
    | nil => exact hsame _ hstack
    | cons frame rest =>
      cases frame with
      | untracked name => exact hsame _ hstack
      | tracked c =>
        simp only [proceed]
        cases hevent : c.handle event with
        | error e => exact hsame _ hstack
        | ok c' =>
          refine hsame _ fun call hcall => ?_
          rcases List.mem_cons.mp hcall with hcall | hcall
          · cases hcall
            have hruns := hstack c List.mem_cons_self
            obtain ⟨hsized, hlayout⟩ := Call.handle_sized hruns.sized hevent
            exact ⟨hsized, hlayout ▸ hruns.layout⟩
          · exact hstack call (List.mem_cons_of_mem _ hcall)

theorem move_congr (h : ∀ call, .tracked call ∈ stack → judge call = judge' call) :
    r.move judge ctx stack event = r.move judge' ctx stack event := by
  unfold move
  split
  · rfl
  cases event with
  | call name position => rfl
  | block event => rfl
  | exit name =>
    cases stack with
    | nil => rfl
    | cons frame rest =>
      cases frame with
      | untracked name => rfl
      | tracked call => simp only [leave, CallFrame.call?, Option.elim, h call List.mem_cons_self]

structure Play where
  stack : List CallFrame
  ended : List Call
  answers : List (Event × Except Error Unit)

def play (step : List CallFrame → Event → Move) (stack : List CallFrame) : List Event → Play
  | [] => ⟨stack, [], []⟩
  | event :: rest =>
    let m := step stack event
    let p := play step m.stack rest
    ⟨p.stack, m.ended.toList ++ p.ended, (event, m.result) :: p.answers⟩

end Recorder

namespace Session

variable {s s' : Session} {ctx : ContextId} {event : Event}
  {events : List (ContextId × Event)} {judge : Call → Except Error Unit}

def run (s : Session) : List (ContextId × Event) →
    Session × List (ContextId × Event × Except Error Unit)
  | [] => (s, [])
  | (ctx, event) :: rest =>
    let (s, result) := s.handle ctx event
    let (s, answers) := s.run rest
    (s, (ctx, event, result) :: answers)

/-- What holds of every session: layouts and aggregates are kept under their names, and all calls
are calls of functions of the program. -/
structure Valid (s : Session) : Prop where
  named : s.recorder.program.Named
  listed : s.recorder.Listed
  hosts : ∀ ctx, s.recorder.program.Hosts (s.recorder.stack ctx)
  store : s.store.Sized

theorem valid_new {program : Program} {store : Store} (hprogram : program.Named)
    (config : RecorderConfig) (hstore : store.Sized) :
    Valid ⟨.new program config, store⟩ where
  named := hprogram
  listed ctx := by simp [Recorder.new]
  hosts ctx call hcall := by simp [Recorder.new, Recorder.stack] at hcall
  store := hstore

/-- A run is made up of what each context plays on its own, together with the calls that ended, in
the order in which they were added to the store. -/
structure Splits (judge : Call → Except Error Unit) (s : Session)
    (events : List (ContextId × Event)) (ended : List (ContextId × Call)) (s' : Session)
    (answers : List (ContextId × Event × Except Error Unit)) : Prop where
  valid : s'.Valid
  recorder : s'.recorder = { s.recorder with contexts := s'.recorder.contexts }
  runs : ∀ x ∈ ended, s.recorder.program.Runs x.2
  store : s'.store = (foldAll s.store (ended.map (·.2))).1
  judged : ∀ call, s.recorder.program.Runs call → judge call = s'.store.verdict (.ofCall call)
  view : ∀ ctx, ⟨s'.recorder.stack ctx, valuesAt ctx ended, valuesAt ctx answers⟩ =
    Recorder.play (s.recorder.move judge ctx) (s.recorder.stack ctx) (valuesAt ctx events)

theorem handle_spec (hs : s.Valid)
    (hjudge : ∀ call, s.recorder.program.Runs call → judge call = s.store.verdict (.ofCall call))
    (ctx : ContextId) (event : Event) :
    let m := s.recorder.move judge ctx (s.recorder.stack ctx) event
    let s' : Session := ⟨s.recorder.setStack ctx m.stack, (foldAll s.store m.ended.toList).1⟩
    s.handle ctx event = (s', m.result) ∧ s'.Valid ∧
      ∀ call, s.recorder.program.Runs call → judge call = s'.store.verdict (.ofCall call) := by
  intro m s'
  have hmove : s.recorder.move (fun call => (s.store.fold call).2) ctx (s.recorder.stack ctx)
      event = m := by
    refine Recorder.move_congr fun call hcall => ?_
    have hruns := hs.hosts ctx call hcall
    rw [hjudge call hruns, Store.fold_snd hs.store hruns.sized]
  obtain ⟨hstack, hended⟩ := Recorder.move_hosts hs.named (hs.hosts ctx) judge ctx event
  have hruns : ∀ call ∈ m.ended.toList, s.recorder.program.Runs call := fun call hcall =>
    hended call (Option.mem_toList.mp hcall)
  have hadds := (Store.foldAll_spec hs.store (Program.foldable_of_runs hruns)).1
  refine ⟨handle_eq hs.listed hmove, ⟨hs.named, hs.listed.setStack ctx m.stack, ?_,
    hadds.sized hs.store⟩, fun call hcall => ?_⟩
  · intro ctx'
    change s.recorder.program.Hosts ((s.recorder.setStack ctx m.stack).stack ctx')
    rw [Recorder.stack_setStack]
    split
    · exact hstack
    · exact hs.hosts ctx'
  · rw [hjudge call hcall]
    refine (hadds.verdict_eq hs.store (Aggregate.sized_ofCall hcall.sized) fun p hp => ?_).symm
    obtain ⟨c, hc, rfl⟩ := List.mem_map.mp hp
    have hc := hruns c (List.mem_filter.mp hc).1
    exact Store.Agree.compatible (hc.agree hcall)

theorem exists_splits (hs : s.Valid)
    (hjudge : ∀ call, s.recorder.program.Runs call → judge call = s.store.verdict (.ofCall call))
    (events : List (ContextId × Event)) :
    ∃ ended, Splits judge s events ended (s.run events).1 (s.run events).2 := by
  induction events generalizing s with
  | nil => exact ⟨[], hs, rfl, by simp, rfl, hjudge, fun _ => rfl⟩
  | cons x events ih =>
    obtain ⟨ctx, event⟩ := x
    obtain ⟨hhandle, hvalid, hjudge'⟩ := handle_spec hs hjudge ctx event
    obtain ⟨ended, h⟩ := ih hvalid hjudge'
    refine ⟨(s.recorder.move judge ctx (s.recorder.stack ctx) event).ended.toList.map (ctx, ·) ++
      ended, ?_⟩
    simp only [run, hhandle]
    refine ⟨h.valid, h.recorder, ?_, ?_, h.judged, fun ctx' => ?_⟩
    · rintro ⟨c, call⟩ hcall
      rcases List.mem_append.mp hcall with hcall | hcall
      · obtain ⟨call', hcall', heq⟩ := List.mem_map.mp hcall
        cases heq
        exact (Recorder.move_hosts hs.named (hs.hosts ctx) judge ctx event).2 call
          (Option.mem_toList.mp hcall')
      · exact h.runs _ hcall
    · rw [h.store, List.map_append, Store.foldAll_append]
      simp
    -- only the context of the event sees anything of it
    · have hview := h.view ctx'
      rw [Recorder.move_setStack, Recorder.stack_setStack] at hview
      by_cases hctx : ctx = ctx'
      · subst hctx
        rw [if_pos rfl] at hview
        simp [Recorder.play, ← hview]
      · rw [if_neg hctx] at hview
        simpa [hctx] using hview

end Session

/-- Two contexts in turn. In the first, a call without a layout comes and goes over a call that
stays active, and an exit is out of order; in the second, a block does not exist. -/
def crossedEvents : List (ContextId × Event) :=
  [(1, .call "search" "a"), (2, .call "search" "b"), (1, .block (.enter 1 "")),
    (2, .block (.enter 9 "")), (1, .call "log" ""), (1, .block (.enter 9 "")),
    (1, .exit "search"), (2, .block (.enter 1 "")), (1, .exit "log"),
    (1, .block (.enter 2 "")), (2, .exit "search"), (1, .block (.enter 4 ""))]

end Dependence
