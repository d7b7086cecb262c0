import Dependence.Proofs.BuiltStores
import Dependence.Proofs.ContextStacks
import Dependence.Proofs.EventEdits

/-! Recording as edits. The stacks of the contexts, the calls on them and the aggregates in the store are
changed in place: a call that ends is taken off its stack before it is added to the store, an aggregate is
made before it is known whether the call fits it, and an empty stack stays listed until the end. Whether the
event succeeds or fails, what is left after these changes is what `Session.handle` gives. -/

namespace Dependence

/-- How a change ends: what it leaves behind, and the failure if there is one. -/
def ended {σ α : Type} (outcome : σ × Except Error α) : EStateM.Result Error σ α :=
  match outcome.2 with
  | .ok a => .ok a outcome.1
  | .error e => .error e outcome.1

namespace Aggregate

abbrev Edit := EStateM Error Aggregate

namespace Edit

def unite (place : Nat) : List BitSet → Edit Unit
  | [] => pure ()
  | t :: ts => do
    match (← get).preds[place]? with
    | none => pure ()
    | some set =>
      let united ← MonadExcept.ofExcept (set.union t)
      modify fun a => { a with preds := a.preds.set place united.1 }
      unite (place + 1) ts

def update (call : Call) : Edit Unit := do
  MonadExcept.ofExcept ((← get).check call.id call.preds.length)
  modify fun a => { a with calls := a.calls + 1 }
  unite 0 call.preds

variable {a b : Aggregate} {call : Call} {e : Error}

theorem run_unite (a : Aggregate) (done : List BitSet) {ss ts us : List BitSet}
    (h : unions ss ts = .ok us) :
    (unite done.length ts).run { a with preds := done ++ ss } = .ok () { a with preds := done ++ us } := by
  induction ts generalizing done ss us with
  | nil =>
    cases ss <;> obtain rfl := Except.ok.inj h <;> rfl
  | cons t ts ih =>
    rw [unite, run_bind_get]
    cases ss with
    | nil =>
      obtain rfl := Except.ok.inj h
      simp
    | cons set ss =>
      obtain ⟨united, hunion, h⟩ := bind_eq_ok.mp h
      obtain ⟨rest, hrest, h⟩ := bind_eq_ok.mp h
      obtain rfl := Except.ok.inj h
      have hset : (done ++ set :: ss)[done.length]? = some set := by simp
      have hlater := ih (done ++ [united.1]) hrest
      simp only [hset]
      rw [run_bind_of_ok (run_ofExcept_ok hunion _)]
      simpa using hlater

theorem run_update_of_ok (h : a.update call = .ok b) : (update call).run a = .ok () b := by
  obtain ⟨_, hcheck, h⟩ := bind_eq_ok.mp h
  obtain ⟨preds, hunions, h⟩ := bind_eq_ok.mp h
  obtain rfl := Except.ok.inj h
  rw [update, run_bind_get, run_bind_of_ok (run_ofExcept_ok hcheck a)]
  exact run_unite { a with calls := a.calls + 1 } [] hunions

theorem run_update_of_error (ha : a.Sized) (hcall : call.Sized) (h : a.update call = .error e) :
    (update call).run a = .error e a := by
  have hcheck : a.check call.id call.preds.length = .error e := by
    cases hcheck : a.checkMergeable (ofCall call) with
    | error e' =>
      obtain rfl := Except.error.inj ((merge_of_error hcheck).symm.trans h)
      exact hcheck
    | ok =>
      obtain ⟨c, hc, -⟩ := merge_ok ha (sized_ofCall hcall) hcheck
      cases hc.symm.trans h
  rw [update, run_bind_get, run_bind_of_error (run_ofExcept_error hcheck a)]

end Edit

end Aggregate

namespace Session

/-- Changes to a session. A failure keeps the changes made before it. -/
abbrev Edit := EStateM Error Session

namespace Edit

def inPart {τ : Type} (part : τ) (put : τ → Session → Session) (m : EStateM Error τ Unit) : Edit Unit :=
  match m.run part with
  | .ok () part => modify (put part)
  | .error e part => do
    modify (put part)
    throw e

def attempt (m : Edit Unit) : Edit (Except Error Unit) :=
  tryCatch (m >>= fun _ => pure (.ok ())) fun e => pure (.error e)

def ensureOpen : Edit Unit := do
  if (← get).recorder.closed then throw .shutDown else pure ()

def list (ctx : ContextId) (stack : List CallFrame) : Edit Unit :=
  modify fun s => { s with
    recorder := { s.recorder with contexts := s.recorder.contexts.insert ctx stack } }

def unlist (ctx : ContextId) : List CallFrame → Edit Unit
  | [] => modify fun s => { s with
    recorder := { s.recorder with contexts := s.recorder.contexts.erase ctx } }
  | _ :: _ => pure ()

def fold (call : Call) : Edit Unit := do
  let held := (← get).store.getOrCreate call.layout
  modify fun s => { s with store := held.1 }
  inPart held.2 (fun a s => { s with store := s.store.replace call.layout.name a })
    (Aggregate.Edit.update call)

def finish : CallFrame → Edit Unit
  | .untracked _ => pure ()
  | .tracked call => fold call

def begin (ctx : ContextId) (name position : String) : Edit Unit := do
  ensureOpen
  let frame ← MonadExcept.ofExcept ((← get).recorder.frame name position)
  ensureOpen
  list ctx (frame :: (← get).recorder.stack ctx)

def onStack (ctx : ContextId) (m : List CallFrame → Edit Unit) : Edit Unit := do
  match (← get).recorder.contexts[ctx]? with
  | none =>
    ensureOpen
    throw (.noActiveCall ctx)
  | some stack =>
    ensureOpen
    m stack

def leave (ctx : ContextId) (name : String) : List CallFrame → Edit Unit
  | [] => throw (.noActiveCall ctx)
  | frame :: rest =>
    if frame.name = name then do
      list ctx rest
      let result ← attempt (finish frame)
      unlist ctx rest
      MonadExcept.ofExcept result
    else
      throw (.unbalancedExit frame.name name)

def proceed (ctx : ContextId) (event : BlockEvent) : List CallFrame → Edit Unit
  | [] => throw (.noActiveCall ctx)
  | .untracked _ :: _ => pure ()
  | .tracked call :: rest =>
    inPart call (fun call s => { s with recorder := { s.recorder with
      contexts := s.recorder.contexts.insert ctx (.tracked call :: rest) } }) (Call.Edit.perform event)

def perform (ctx : ContextId) : Event → Edit Unit
  | .call name position => begin ctx name position
  | .exit name => onStack ctx (leave ctx name)
  | .block event => onStack ctx (proceed ctx event)

section Steps

variable {s s' : Session} {ctx : ContextId} {result : Except Error Unit}

theorem run_inPart {τ : Type} {part part' : τ} {m : EStateM Error τ Unit}
    (h : m.run part = ended (part', result)) (put : τ → Session → Session) (s : Session) :
    (inPart part put m).run s = ended (put part' s, result) := by
  rw [inPart, h]
  cases result <;> rfl

theorem run_attempt {m : Edit Unit} (h : m.run s = ended (s', result)) :
    (attempt m).run s = .ok result s' := by
  show EStateM.tryCatch (m >>= _) _ s = _
  cases result with
  | ok => rw [EStateM.tryCatch, show (m >>= _) s = _ from run_bind_of_ok h]; rfl
  | error e => rw [EStateM.tryCatch, show (m >>= _) s = _ from run_bind_of_error h]; rfl

theorem run_ensureOpen (h : s.recorder.closed = false) : ensureOpen.run s = .ok () s := by
  rw [ensureOpen, run_bind_get, h]
  rfl

theorem run_ensureOpen_of_closed (h : s.recorder.closed = true) :
    ensureOpen.run s = .error .shutDown s := by
  rw [ensureOpen, run_bind_get, h]
  rfl

theorem run_onStack (h : s.recorder.closed = false) {m : List CallFrame → Edit Unit}
    (hm : m [] = throw (.noActiveCall ctx)) :
    (onStack ctx m).run s = (m (s.recorder.stack ctx)).run s := by
  rw [onStack, run_bind_get, Recorder.stack]
  cases s.recorder.contexts[ctx]? with
  | none =>
    rw [Option.getD_none, hm]
    exact run_bind_of_ok (run_ensureOpen h)
  | some stack => exact run_bind_of_ok (run_ensureOpen h)

theorem run_onStack_of_closed (h : s.recorder.closed = true) (m : List CallFrame → Edit Unit) :
    (onStack ctx m).run s = .error .shutDown s := by
  rw [onStack, run_bind_get]
  cases s.recorder.contexts[ctx]? with
  | none => exact run_bind_of_error (run_ensureOpen_of_closed h)
  | some stack => exact run_bind_of_error (run_ensureOpen_of_closed h)

end Steps

end Edit

end Session

namespace Store

variable {s : Store} {call : Call}

theorem Sized.getOrCreate (hs : s.Sized) (l : Layout) : (s.getOrCreate l).1.Sized := by
  unfold Store.getOrCreate
  cases s.get? l.name with
  | some a => exact hs
  | none => exact hs.insert (Aggregate.sized_new l)

theorem replace_self {name : String} {a : Aggregate} (h : s.get? name = some a) :
    s.replace name a = s := by
  refine ext_get? fun name' => ?_
  rw [get?_replace]
  split
  · next heq => rw [← heq, h]
  · rfl

theorem Sized.held (hs : s.Sized) (l : Layout) :
    (s.getOrCreate l).2.Sized ∧ (s.getOrCreate l).2.layout.name = l.name :=
  ⟨(hs.getOrCreate l).sized _ _ (s.get?_getOrCreate l),
    (hs.getOrCreate l).named _ _ (s.get?_getOrCreate l)⟩

end Store

namespace Session

structure Kept (s : Session) : Prop where
  valid : s.Valid
  sound : ∀ ctx call, .tracked call ∈ s.recorder.stack ctx → call.Sound
  checked : ∀ name l, s.recorder.program.get? name = some l → l.Checked
  store : s.store.Consistent

namespace Edit

variable {s : Session} {ctx : ContextId} {call : Call} {frame : CallFrame} {rest : List CallFrame}

theorem run_fold (hs : s.store.Sized) (hcall : call.Sized) : (fold call).run s =
    ended ({ s with store := (s.store.fold call).1 }, (s.store.fold call).2) := by
  have hfold : s.store.fold call =
      (s.store.getOrCreate call.layout).1.put ((s.store.getOrCreate call.layout).2.update call) := rfl
  obtain ⟨hheld, hname⟩ := hs.held call.layout
  rw [fold, run_bind_get, hfold]
  cases hupdate : (s.store.getOrCreate call.layout).2.update call with
  | ok b =>
    have hsum := ((Aggregate.merge_eq_ok_iff hheld (Aggregate.sized_ofCall hcall)).mp hupdate).2
    have hlayout : (s.store.getOrCreate call.layout).2.layout = b.layout := Option.some.inj hsum.layout
    rw [hlayout] at hname
    have hrun : (Aggregate.Edit.update call).run (s.store.getOrCreate call.layout).2 =
        ended (b, .ok ()) := Aggregate.Edit.run_update_of_ok hupdate
    refine (run_inPart hrun _ _).trans ?_
    simp only [Store.put, Store.insert, Store.replace, hname]
  | error e =>
    have hrun : (Aggregate.Edit.update call).run (s.store.getOrCreate call.layout).2 =
        ended (_, .error e) := Aggregate.Edit.run_update_of_error hheld hcall hupdate
    refine (run_inPart hrun _ _).trans ?_
    simp only [Store.put, Store.replace_self (s.store.get?_getOrCreate call.layout)]

theorem finish_eq (s : Session) (frame : CallFrame) : s.finish frame =
    (⟨s.recorder, (frame.call?.elim (s.store, .ok ()) s.store.fold).1⟩,
      (frame.call?.elim (s.store, .ok ()) s.store.fold).2) := by
  cases frame <;> rfl

theorem run_finish (hs : s.store.Sized) (hframe : ∀ call, frame.call? = some call → call.Sized) :
    (finish frame).run s = ended (s.finish frame) := by
  cases frame with
  | untracked name => rfl
  | tracked call => exact run_fold hs (hframe call rfl)

theorem run_ofExcept {σ α : Type} (result : Except Error α) (s : σ) :
    (MonadExcept.ofExcept result : EStateM Error σ α).run s = ended (s, result) := by
  cases result <;> rfl

theorem run_unlist (r : Recorder) (store : Store) (ctx : ContextId) (stack : List CallFrame) :
    (unlist ctx stack).run ⟨{ r with contexts := r.contexts.insert ctx stack }, store⟩ =
      .ok () ⟨r.setStack ctx stack, store⟩ := by
  cases stack with
  | cons frame rest => rfl
  | nil =>
    have hcontexts : (r.contexts.insert ctx []).erase ctx = r.contexts.erase ctx := by
      refine Std.ExtTreeMap.ext_getElem? fun ctx' => ?_
      rw [Std.ExtTreeMap.getElem?_erase, Std.ExtTreeMap.getElem?_erase, Std.ExtTreeMap.getElem?_insert]
      split <;> simp_all
    show EStateM.Result.ok () (Session.mk { r with contexts := (r.contexts.insert ctx []).erase ctx } _) = _
    rw [hcontexts]
    rfl

theorem run_leave (hs : s.store.Sized) (hframe : ∀ call, frame.call? = some call → call.Sized)
    (name : String) : (leave ctx name (frame :: rest)).run s =
      ended (if frame.name = name then (s.withStack ctx rest).finish frame
        else (s, .error (.unbalancedExit frame.name name))) := by
  rw [leave]
  split
  · have hlist : (list ctx rest).run s =
        .ok () ⟨{ s.recorder with contexts := s.recorder.contexts.insert ctx rest }, s.store⟩ := rfl
    have hsized : Store.Sized (Session.mk { s.recorder with
      contexts := s.recorder.contexts.insert ctx rest } s.store).store := hs
    have hfinish := run_finish hsized hframe
    rw [finish_eq] at hfinish
    rw [run_bind_of_ok hlist, run_bind_of_ok (run_attempt hfinish),
      run_bind_of_ok (run_unlist s.recorder _ ctx rest), run_ofExcept, finish_eq]
    rfl
  · rfl

theorem run_proceed (hs : s.recorder.Listed) (hcall : call.Sound)
    (hstack : s.recorder.stack ctx = .tracked call :: rest) (event : BlockEvent) :
    (proceed ctx event (.tracked call :: rest)).run s = ended (match call.handle event with
      | .ok call => (s.withStack ctx (.tracked call :: rest), .ok ())
      | .error e => (s, .error e)) := by
  rw [proceed]
  rcases Nat.lt_or_ge event.block call.layout.nodeCount with hlt | hge
  · obtain ⟨call', hhandle, hrun⟩ := Call.Edit.exists_run_perform hcall hlt
    have hended : (Call.Edit.perform event).run call = ended (call', .ok ()) := hrun
    rw [run_inPart hended, hhandle]
    rfl
  · have hended : (Call.Edit.perform event).run call = ended (call, .error _) :=
      Call.Edit.run_perform_of_le hge
    rw [run_inPart hended, Call.handle_of_le hge]
    -- the call goes back to where it was
    have hself := hs.setStack_self ctx
    rw [hstack] at hself
    exact congrArg (fun r => ended (Session.mk r s.store, .error _)) hself

theorem run_begin (hopen : s.recorder.closed = false) (name position : String) :
    (begin ctx name position).run s = ended (match s.recorder.frame name position with
      | .ok frame => (s.withStack ctx (frame :: s.recorder.stack ctx), .ok ())
      | .error e => (s, .error e)) := by
  rw [begin, run_bind_of_ok (run_ensureOpen hopen), run_bind_get]
  cases hframe : s.recorder.frame name position with
  | ok frame =>
    rw [run_bind_of_ok (run_ofExcept_ok rfl s), run_bind_of_ok (run_ensureOpen hopen)]
    rfl
  | error e => rw [run_bind_of_error (run_ofExcept_error rfl s)]; rfl

theorem run_perform_of_closed (h : s.recorder.closed = true) (ctx : ContextId) (event : Event) :
    (perform ctx event).run s = .error .shutDown s := by
  cases event with
  | call name position => exact run_bind_of_error (run_ensureOpen_of_closed h)
  | exit name => exact run_onStack_of_closed h _
  | block event => exact run_onStack_of_closed h _

/-- Changing a session in place leaves what handling the event as a whole gives. -/
theorem run_perform (hs : s.Kept) (ctx : ContextId) (event : Event) :
    (perform ctx event).run s = ended (s.handle ctx event) := by
  cases hclosed : s.recorder.closed with
  | true =>
    rw [run_perform_of_closed hclosed, handle, if_pos hclosed]
    rfl
  | false =>
    have hopen : ¬s.recorder.closed = true := by simp [hclosed]
    rw [handle, if_neg hopen]
    cases event with
    | call name position => exact run_begin hclosed name position
    | exit name =>
      rw [perform, run_onStack hclosed rfl, handleOpen]
      cases hstack : s.recorder.stack ctx with
      | nil => rfl
      | cons frame rest =>
        apply run_leave hs.valid.store
        intro call hcall
        cases frame with
        | untracked name => cases hcall
        | tracked c =>
          cases hcall
          exact (hs.sound ctx call (by simp [hstack])).sized
    | block event =>
      rw [perform, run_onStack hclosed rfl, handleOpen]
      cases hstack : s.recorder.stack ctx with
      | nil => rfl
      | cons frame rest =>
        cases frame with
        | untracked name => rfl
        | tracked call => exact run_proceed hs.valid.listed (hs.sound ctx call (by simp [hstack])) hstack event

end Edit

end Session

end Dependence
