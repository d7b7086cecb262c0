import Dependence.Proofs.SessionEdits

/-! Ending all calls. Shutting down takes the contexts off the list one after another, in an order that is
left open, and offers the calls on their stacks to the store, going on after a call that is refused. All
that the order decides is which refusal is reported. -/

namespace Dependence

theorem CallFrame.mem_filterMap_call? {stack : List CallFrame} {call : Call} :
    call ∈ stack.filterMap CallFrame.call? ↔ .tracked call ∈ stack := by
  rw [List.mem_filterMap]
  constructor
  · rintro ⟨frame, hframe, hcall⟩
    cases frame with
    | untracked name => cases hcall
    | tracked c => exact Option.some.inj hcall ▸ hframe
  · exact fun h => ⟨_, h, rfl⟩

namespace Store

variable {s : Store} {call : Call} {calls calls' : List Call}

theorem Sized.fold (hs : s.Sized) (hcall : call.Sized) : (s.fold call).1.Sized := by
  rw [fold_eq_merge hcall]
  cases hverdict : s.verdict (.ofCall call) with
  | error e =>
    rw [merge_of_error hverdict]
    exact hs
  | ok =>
    obtain ⟨s', hmerge, hadds⟩ := merge_of_ok hs (Aggregate.sized_ofCall hcall) hverdict
    rw [hmerge]
    exact hadds.sized hs

theorem Sized.foldAll (hs : s.Sized) (hcalls : ∀ call ∈ calls, call.Sized) :
    (Session.foldAll s calls).1.Sized := by
  induction calls generalizing s with
  | nil => exact hs
  | cons call calls ih =>
    rw [List.forall_mem_cons] at hcalls
    rw [foldAll_cons]
    exact ih (hs.fold hcalls.1) hcalls.2

theorem foldAll_cons_result (s : Store) (call : Call) (calls : List Call) :
    (Session.foldAll s (call :: calls)).2 =
      ((s.fold call).2 >>= fun _ => (Session.foldAll (s.fold call).1 calls).2) := by
  rw [Session.foldAll]
  obtain ⟨store, result⟩ := s.fold call
  cases result <;> rfl

theorem foldAll_append_result (s : Store) (calls calls' : List Call) :
    (Session.foldAll s (calls ++ calls')).2 = ((Session.foldAll s calls).2 >>= fun _ =>
      (Session.foldAll (Session.foldAll s calls).1 calls').2) := by
  induction calls generalizing s with
  | nil => rfl
  | cons call calls ih =>
    rw [List.cons_append, foldAll_cons_result, foldAll_cons_result, foldAll_cons, ih, bind_assoc]

theorem foldAll_ok_iff_of_perm (hs : s.Sized) (hcalls : Foldable calls) (hperm : calls.Perm calls') :
    (Session.foldAll s calls).2 = .ok () ↔ (Session.foldAll s calls').2 = .ok () := by
  have hcalls' : Foldable calls' := hcalls.mono hperm.symm.subset
  rw [(foldAll_spec hs hcalls).2, (foldAll_spec hs hcalls').2]
  simp only [hperm.mem_iff]

end Store

namespace Recorder

variable {r : Recorder} {program : Program} {ctx : ContextId} {order order' : List ContextId}

def activeIn (r : Recorder) (order : List ContextId) : List (ContextId × Call) :=
  order.flatMap fun ctx => ((r.stack ctx).filterMap CallFrame.call?).map (ctx, ·)

theorem map_activeIn (r : Recorder) (order : List ContextId) :
    (r.activeIn order).map (·.2) = r.inFlight order := by
  unfold activeIn inFlight
  rw [List.map_flatMap]
  simp [Function.comp_def]

theorem stack_of_notMem_keys (h : ctx ∉ r.contexts.keys) : r.stack ctx = [] := by
  rw [Std.ExtTreeMap.mem_keys] at h
  rw [stack, Std.ExtTreeMap.getElem?_eq_none h]
  rfl

theorem valuesAt_activeIn_of_nodup (horder : order.Nodup) :
    valuesAt ctx (r.activeIn order) =
      if ctx ∈ order then (r.stack ctx).filterMap CallFrame.call? else [] := by
  induction order with
  | nil => rfl
  | cons first order ih =>
    obtain ⟨hfirst, horder⟩ := List.nodup_cons.mp horder
    rw [activeIn, List.flatMap_cons, ← activeIn, valuesAt_append, valuesAt_map_mk, ih horder]
    by_cases h : first = ctx
    · subst h
      simp [hfirst]
    · simp [h, Ne.symm h]

theorem valuesAt_activeIn (horder : order.Perm r.contexts.keys) (ctx : ContextId) :
    valuesAt ctx (r.activeIn order) = (r.stack ctx).filterMap CallFrame.call? := by
  rw [valuesAt_activeIn_of_nodup (horder.nodup_iff.mpr Std.ExtTreeMap.nodup_keys)]
  split
  · rfl
  · next hctx => rw [stack_of_notMem_keys fun h => hctx (horder.mem_iff.mpr h), List.filterMap_nil]

theorem inFlight_perm (r : Recorder) (h : order.Perm order') :
    (r.inFlight order).Perm (r.inFlight order') :=
  h.flatMap_right _

theorem inFlight_congr {r' : Recorder} (h : ∀ ctx ∈ order, r.stack ctx = r'.stack ctx) :
    r.inFlight order = r'.inFlight order :=
  List.flatMap_congr fun ctx hctx => by rw [h ctx hctx]

theorem runs_inFlight (h : ∀ ctx, program.Hosts (r.stack ctx)) {call : Call}
    (hcall : call ∈ r.inFlight order) : program.Runs call := by
  obtain ⟨ctx, -, hcall⟩ := List.mem_flatMap.mp hcall
  exact h ctx call (CallFrame.mem_filterMap_call?.mp hcall)

theorem stack_erase (r : Recorder) (ctx ctx' : ContextId) :
    stack { r with contexts := r.contexts.erase ctx } ctx' = if ctx = ctx' then [] else r.stack ctx' := by
  simp only [stack, Std.ExtTreeMap.getElem?_erase, Std.compare_eq_iff_eq]
  split <;> rfl

end Recorder

namespace Session

variable {s : Session} {order order' : List ContextId}

theorem shutdown_of_closed (h : s.recorder.closed = true) (order : List ContextId) :
    s.shutdown order = (s, .error .shutDown) :=
  if_pos h

theorem shutdown_of_open (h : s.recorder.closed = false) (order : List ContextId) :
    s.shutdown order = (⟨{ s.recorder with contexts := ∅, closed := true },
      (foldAll s.store (s.recorder.inFlight order)).1⟩,
      (foldAll s.store (s.recorder.inFlight order)).2.map fun _ =>
        (foldAll s.store (s.recorder.inFlight order)).1.profile) :=
  if_neg (by simp [h])

theorem Valid.foldable_inFlight (hs : s.Valid) (order : List ContextId) :
    Store.Foldable (s.recorder.inFlight order) :=
  Program.foldable_of_runs fun _ => Recorder.runs_inFlight hs.hosts

/-- Two orders of the contexts may differ in the refusal that is reported, but in nothing else. -/
theorem shutdown_perm (hs : s.Valid) (horder : order.Perm order') :
    (s.shutdown order).1 = (s.shutdown order').1 ∧
      ∀ profile, (s.shutdown order).2 = .ok profile ↔ (s.shutdown order').2 = .ok profile := by
  cases hclosed : s.recorder.closed with
  | true =>
    rw [shutdown_of_closed hclosed, shutdown_of_closed hclosed]
    exact ⟨rfl, fun _ => Iff.rfl⟩
  | false =>
    have hcalls := s.recorder.inFlight_perm horder
    have hfoldable := hs.foldable_inFlight order
    have hok := Store.foldAll_ok_iff_of_perm hs.store hfoldable hcalls
    rw [shutdown_of_open hclosed, shutdown_of_open hclosed, Store.foldAll_perm hs.store hfoldable hcalls]
    refine ⟨rfl, fun profile => ?_⟩
    revert hok
    cases (foldAll s.store (s.recorder.inFlight order)).2 <;>
      cases (foldAll s.store (s.recorder.inFlight order')).2 <;> simp [Except.map]

namespace Edit

variable {stack : List CallFrame}

/-- Offers the calls on a stack to the store, innermost first. Those after a call that is refused are
offered all the same, and the first refusal is remembered. -/
def flush (first : Except Error Unit) : List CallFrame → Edit (Except Error Unit)
  | [] => pure first
  | frame :: rest => do
    let result ← attempt (finish frame)
    flush (first >>= fun _ => result) rest

def drain (first : Except Error Unit) : List ContextId → Edit (Except Error Unit)
  | [] => pure first
  | ctx :: later => do
    match (← get).recorder.contexts[ctx]? with
    | none => drain first later
    | some stack =>
      modify fun s => { s with
        recorder := { s.recorder with contexts := s.recorder.contexts.erase ctx } }
      let first ← flush first stack
      drain first later

def shutdown (order : List ContextId) : Edit Profile := do
  ensureOpen
  modify fun s => { s with recorder := { s.recorder with closed := true } }
  let first ← drain (.ok ()) order
  MonadExcept.ofExcept first
  return (← get).store.profile

theorem run_flush (hs : s.store.Sized) (hstack : ∀ call, .tracked call ∈ stack → call.Sized)
    (first : Except Error Unit) :
    (flush first stack).run s =
      .ok (first >>= fun _ => (foldAll s.store (stack.filterMap CallFrame.call?)).2)
        ⟨s.recorder, (foldAll s.store (stack.filterMap CallFrame.call?)).1⟩ := by
  induction stack generalizing s first with
  | nil => cases first <;> rfl
  | cons frame rest ih =>
    have hrest : ∀ call, .tracked call ∈ rest → call.Sized := fun call hcall =>
      hstack call (List.mem_cons_of_mem frame hcall)
    cases frame with
    | untracked name =>
      have hfinish : (attempt (finish (.untracked name))).run s = .ok (.ok ()) s := rfl
      rw [flush, run_bind_of_ok hfinish, ih hs hrest, bind_assoc]
      rfl
    | tracked call =>
      have hcall : call.Sized := hstack call List.mem_cons_self
      have hsized : (s.store.fold call).1.Sized := hs.fold hcall
      have hlater := ih (s := { s with store := (s.store.fold call).1 }) hsized hrest
        (first >>= fun _ => (s.store.fold call).2)
      rw [flush, finish, run_bind_of_ok (run_attempt (run_fold hs hcall)), hlater, bind_assoc]
      simp only [List.filterMap_cons, CallFrame.call?, Store.foldAll_cons, Store.foldAll_cons_result]

theorem run_drain (hs : s.store.Sized)
    (hstacks : ∀ ctx call, .tracked call ∈ s.recorder.stack ctx → call.Sized) (horder : order.Nodup)
    (first : Except Error Unit) :
    ∃ contexts : Std.ExtTreeMap ContextId (List CallFrame) compare,
      (∀ ctx : ContextId, contexts[ctx]? = if ctx ∈ order then none else s.recorder.contexts[ctx]?) ∧
      (drain first order).run s =
        .ok (first >>= fun _ => (foldAll s.store (s.recorder.inFlight order)).2)
          ⟨{ s.recorder with contexts }, (foldAll s.store (s.recorder.inFlight order)).1⟩ := by
  induction order generalizing s first with
  | nil =>
    refine ⟨s.recorder.contexts, fun ctx => by simp, ?_⟩
    cases first <;> rfl
  | cons ctx later ih =>
    obtain ⟨hctx, hlater⟩ := List.nodup_cons.mp horder
    have hcalls : s.recorder.inFlight (ctx :: later) =
        (s.recorder.stack ctx).filterMap CallFrame.call? ++ s.recorder.inFlight later := rfl
    rw [drain, run_bind_get, hcalls]
    cases hget : s.recorder.contexts[ctx]? with
    | none =>
      have hstack : s.recorder.stack ctx = [] := by rw [Recorder.stack, hget]; rfl
      obtain ⟨contexts, hcontexts, hrun⟩ := ih hs hstacks hlater first
      refine ⟨contexts, fun ctx' => ?_, by rw [hstack]; exact hrun⟩
      rw [hcontexts]
      by_cases heq : ctx' = ctx
      · simp [heq, hget]
      · simp [heq]
    | some stack =>
      have hstack : s.recorder.stack ctx = stack := by rw [Recorder.stack, hget]; rfl
      have hsized : ∀ call, .tracked call ∈ stack → call.Sized := hstack ▸ hstacks ctx
      -- the other stacks are still there when their turn comes
      have hothers : s.recorder.inFlight later = Recorder.inFlight
          { s.recorder with contexts := s.recorder.contexts.erase ctx } later := by
        refine Recorder.inFlight_congr fun ctx' hctx' => ?_
        rw [Recorder.stack_erase, if_neg]
        rintro rfl
        exact hctx hctx'
      have hflushed : (foldAll s.store (stack.filterMap CallFrame.call?)).1.Sized :=
        hs.foldAll fun call hcall => hsized call (CallFrame.mem_filterMap_call?.mp hcall)
      have hleft : ∀ ctx' call, .tracked call ∈ Recorder.stack
          { s.recorder with contexts := s.recorder.contexts.erase ctx } ctx' → call.Sized := by
        intro ctx' call hcall
        rw [Recorder.stack_erase] at hcall
        split at hcall
        · cases hcall
        · exact hstacks ctx' call hcall
      obtain ⟨contexts, hcontexts, hrun⟩ := ih
        (s := ⟨{ s.recorder with contexts := s.recorder.contexts.erase ctx }, _⟩) hflushed hleft hlater
        (first >>= fun _ => (foldAll s.store (stack.filterMap CallFrame.call?)).2)
      refine ⟨contexts, fun ctx' => ?_, ?_⟩
      · rw [hcontexts, Std.ExtTreeMap.getElem?_erase]
        by_cases heq : ctx' = ctx
        · simp [heq]
        · simp [heq, Ne.symm heq]
      · rw [← hothers, bind_assoc] at hrun
        rw [hstack, Store.foldAll_append, Store.foldAll_append_result, ← hrun]
        exact run_bind_of_ok (run_flush (s := ⟨{ s.recorder with
          contexts := s.recorder.contexts.erase ctx }, s.store⟩) hs hsized first)

theorem run_shutdown_of_closed (h : s.recorder.closed = true) (order : List ContextId) :
    (shutdown order).run s = .error .shutDown s :=
  run_bind_of_error (run_ensureOpen_of_closed h)

/-- Ending the calls in place, in whatever order, leaves what shutting down as a whole gives. -/
theorem run_shutdown (hs : s.Valid) (horder : order.Perm s.recorder.contexts.keys) :
    (shutdown order).run s = ended (s.shutdown order) := by
  cases hclosed : s.recorder.closed with
  | true =>
    rw [run_shutdown_of_closed hclosed, shutdown_of_closed hclosed]
    rfl
  | false =>
    obtain ⟨contexts, hcontexts, hrun⟩ := run_drain
      (s := ⟨{ s.recorder with closed := true }, s.store⟩) hs.store
      (fun ctx call hcall => (hs.hosts ctx call hcall).sized)
      (horder.nodup_iff.mpr Std.ExtTreeMap.nodup_keys) (.ok ())
    have hempty : contexts = ∅ := by
      refine Std.ExtTreeMap.ext_getElem? fun ctx => ?_
      rw [hcontexts, Std.ExtTreeMap.getElem?_empty, ite_eq_left_iff]
      intro hctx
      rw [horder.mem_iff, Std.ExtTreeMap.mem_keys] at hctx
      exact Std.ExtTreeMap.getElem?_eq_none hctx
    have hcalls : Recorder.inFlight { s.recorder with closed := true } order =
      s.recorder.inFlight order := rfl
    rw [hempty, hcalls] at hrun
    rw [shutdown, run_bind_of_ok (run_ensureOpen hclosed), shutdown_of_open hclosed]
    refine (run_bind_of_ok hrun).trans ?_
    cases (foldAll s.store (s.recorder.inFlight order)).2 <;> rfl

end Edit

end Session

end Dependence
