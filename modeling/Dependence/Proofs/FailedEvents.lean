import Dependence.Proofs.Drains

/-! What events leave behind that fail. Most are refused before anything happens. Only a call that ends can
be refused by the store, and then it is off its stack all the same, but nothing else has changed. -/

namespace Dependence

namespace Error

def isRefusal : Error → Bool
  | shutDown | noActiveCall _ | unbalancedExit .. | blockOutOfRange .. | unknownFunction _ => true
  | _ => false

def isMismatch : Error → Bool
  | identityMismatch .. | shapeMismatch .. => true
  | _ => false

end Error

theorem Aggregate.isMismatch_of_checkMergeable {a b : Aggregate} {e : Error}
    (h : a.checkMergeable b = .error e) : e.isMismatch = true := by
  unfold checkMergeable check at h
  split at h
  · exact Except.error.inj h ▸ rfl
  · split at h
    · exact Except.error.inj h ▸ rfl
    · cases h

namespace Store

variable {s : Store} {call : Call} {calls : List Call} {e : Error}

theorem isMismatch_of_verdict {a : Aggregate} (h : s.verdict a = .error e) : e.isMismatch = true := by
  unfold verdict at h
  split at h
  · cases h
  · exact Aggregate.isMismatch_of_checkMergeable h

theorem fold_cases (hs : s.Sized) (hcall : call.Sized) :
    (∃ e, s.fold call = (s, .error e) ∧ e.isMismatch = true) ∨
    ∃ s', s.fold call = (s', .ok ()) ∧ s'.Sized := by
  rw [fold_eq_merge hcall]
  cases hverdict : s.verdict (.ofCall call) with
  | error e => exact .inl ⟨e, merge_of_error hverdict, isMismatch_of_verdict hverdict⟩
  | ok =>
    obtain ⟨s', hmerge, hadds⟩ := merge_of_ok hs (Aggregate.sized_ofCall hcall) hverdict
    exact .inr ⟨s', hmerge, hadds.sized hs⟩

theorem isMismatch_of_foldAll (hs : s.Sized) (hcalls : ∀ call ∈ calls, call.Sized)
    (h : (Session.foldAll s calls).2 = .error e) : e.isMismatch = true := by
  induction calls generalizing s with
  | nil => cases h
  | cons call calls ih =>
    rw [List.forall_mem_cons] at hcalls
    unfold Session.foldAll at h
    rcases fold_cases hs hcalls.1 with ⟨e', hfold, he'⟩ | ⟨s', hfold, hs'⟩
    · simp only [hfold, Except.error.injEq] at h
      exact h ▸ he'
    · simp only [hfold] at h
      exact ih hs' hcalls.2 h

end Store

theorem Call.isRefusal_of_handle {c : Call} {event : BlockEvent} {e : Error} (hc : c.Sized)
    (h : c.handle event = .error e) : e.isRefusal = true := by
  rcases Nat.lt_or_ge event.block c.layout.nodeCount with hlt | hge
  · rw [Call.handle_of_lt hlt] at h
    rcases c.act_cases event with ⟨position, -, hact⟩ | ⟨regions, last, -, -, hact⟩
    · obtain ⟨c', henter, -⟩ := Call.enter_ok hc hlt position
      cases h.symm.trans (hact.trans henter)
    · cases h.symm.trans hact
  · rw [Call.handle_of_le hge] at h
    exact Except.error.inj h ▸ rfl

namespace Recorder

variable {r : Recorder} {ctx : ContextId} {stack : List CallFrame} {event : Event} {e : Error}
  {judge : Call → Except Error Unit}

theorem isRefusal_of_frame {name position : String} (h : r.frame name position = .error e) :
    e.isRefusal = true := by
  unfold Recorder.frame at h
  cases hget : r.program.get? name with
  | some l =>
    obtain ⟨c, hc, -⟩ := Call.start_ok l position
    simp only [hget, hc] at h
    cases h
  | none =>
    simp only [hget] at h
    split at h
    · cases h
    · exact Except.error.inj h ▸ rfl

inductive Moves (r : Recorder) (judge : Call → Except Error Unit) (stack : List CallFrame) :
    Event → Move → Prop
  | refuse {event : Event} {e : Error} (he : e.isRefusal = true) :
      Moves r judge stack event ⟨stack, none, .error e⟩
  | begin {name position : String} {frame : CallFrame} (h : r.frame name position = .ok frame) :
      Moves r judge stack (.call name position) ⟨frame :: stack, none, .ok ()⟩
  | leave {frame : CallFrame} {rest : List CallFrame} (h : stack = frame :: rest) :
      Moves r judge stack (.exit frame.name) ⟨rest, frame.call?, frame.call?.elim (.ok ()) judge⟩
  | ignore {event : BlockEvent} {name : String} {rest : List CallFrame}
      (h : stack = .untracked name :: rest) :
      Moves r judge stack (.block event) ⟨stack, none, .ok ()⟩
  | proceed {event : BlockEvent} {call call' : Call} {rest : List CallFrame}
      (h : stack = .tracked call :: rest) (hcall : call.handle event = .ok call') :
      Moves r judge stack (.block event) ⟨.tracked call' :: rest, none, .ok ()⟩

theorem moves_move (r : Recorder) (judge : Call → Except Error Unit) (ctx : ContextId) (event : Event)
    (hstack : ∀ call, .tracked call ∈ stack → call.Sized) :
    r.Moves judge stack event (r.move judge ctx stack event) := by
  unfold move
  split
  · exact .refuse rfl
  cases event with
  | call name position =>
    simp only [begin]
    cases hframe : r.frame name position with
    | ok frame => exact .begin hframe
    | error e => exact .refuse (isRefusal_of_frame hframe)
  | exit name =>
    cases stack with
    | nil => exact .refuse rfl
    | cons frame rest =>
      simp only [leave]
      split
      · next hname => exact hname ▸ .leave rfl
      · exact .refuse rfl
  | block event =>
    cases stack with
    | nil => exact .refuse rfl
    | cons frame rest =>
      cases frame with
      | untracked name => exact .ignore rfl
      | tracked call =>
        simp only [proceed]
        cases hcall : call.handle event with
        | ok call' => exact .proceed rfl hcall
        | error e => exact .refuse (Call.isRefusal_of_handle (hstack call List.mem_cons_self) hcall)

theorem Moves.mem_of_ended {m : Move} {call : Call} (h : r.Moves judge stack event m)
    (hcall : m.ended = some call) : .tracked call ∈ stack := by
  cases h with
  | refuse => cases hcall
  | begin => cases hcall
  | ignore => cases hcall
  | proceed => cases hcall
  | @leave frame rest h =>
    subst h
    cases frame with
    | untracked name => cases hcall
    | tracked c =>
      cases hcall
      exact List.mem_cons_self

theorem Moves.sound {m : Move} (h : r.Moves judge stack event m)
    (hstack : ∀ call, .tracked call ∈ stack → call.Sound) :
    ∀ call, .tracked call ∈ m.stack → call.Sound := by
  cases h with
  | refuse => exact hstack
  | ignore => exact hstack
  | @begin name position frame h =>
    intro call hcall
    rcases List.mem_cons.mp hcall with rfl | hcall
    · obtain ⟨l, c, -, hstart, hc⟩ | ⟨-, hc⟩ := frame_cases h
      · cases hc
        rw [Call.start_eq] at hstart
        exact Except.ok.inj hstart ▸ ((Call.sound_blank l position).observe _).1
      · cases hc
    · exact hstack call hcall
  | leave h =>
    subst h
    exact fun call hcall => hstack call (List.mem_cons_of_mem _ hcall)
  | proceed h hhandle =>
    subst h
    intro call hcall
    rcases List.mem_cons.mp hcall with hcall | hcall
    · cases hcall
      exact Call.observe_of_ok hhandle ▸ ((hstack _ List.mem_cons_self).observe _).1
    · exact hstack call (List.mem_cons_of_mem _ hcall)

end Recorder

theorem Program.checked_ofLayouts {layouts : List Layout} (h : ∀ l ∈ layouts, l.Accepted)
    (name : String) (l : Layout) (hget : (ofLayouts layouts).get? name = some l) : l.Checked := by
  have hempty : ∀ name l, empty.get? name = some l → l.Checked := by
    intro name l hl
    simp [get?, empty] at hl
  refine List.foldlRecOn (motive := fun p => ∀ name l, p.get? name = some l → l.Checked)
    layouts insert hempty (fun p hp l hl name l' hget => ?_) name l hget
  simp only [get?, insert, Std.ExtTreeMap.getElem?_insert] at hget
  split at hget
  · exact Option.some.inj hget ▸ (h l hl).checked
  · exact hp name l' hget

theorem Store.Consistent.foldAll {s : Store} {p : Program} {calls : List Call} (hs : s.Consistent)
    (hp : ∀ name l, p.get? name = some l → l.Checked) (hcalls : ∀ call ∈ calls, p.Runs call) :
    (Session.foldAll s calls).1.Consistent := by
  obtain ⟨hadds, -⟩ := foldAll_spec hs.sized (Program.foldable_of_runs hcalls)
  apply hadds.consistent hs
  intro a ha
  obtain ⟨call, hcall, rfl⟩ := List.mem_map.mp ha
  have hruns := hcalls call (List.mem_filter.mp hcall).1
  exact Aggregate.consistent_iff.mpr ⟨Aggregate.sized_ofCall hruns.sized, hp _ _ hruns.layout⟩

namespace Session

variable {s : Session} {store : Store} {ctx ctx' : ContextId} {event : Event} {e : Error}

/-- The sessions that can come about. The store is shared, so that others may change it between events. -/
inductive Reached : Session → Prop
  | new {layouts : List Layout} {store : Store} (hlayouts : ∀ l ∈ layouts, l.Accepted)
      (hstore : store.Built) (config : RecorderConfig) :
      Reached ⟨.new (.ofLayouts layouts) config, store⟩
  | handle {s : Session} (hs : Reached s) (ctx : ContextId) (event : Event) :
      Reached (s.handle ctx event).1
  | shutdown {s : Session} {order : List ContextId} (hs : Reached s)
      (horder : order.Perm s.recorder.contexts.keys) : Reached (s.shutdown order).1
  | shared {s : Session} {store : Store} (hs : Reached s) (h : s.store.Step store) :
      Reached { s with store }

theorem Kept.moves (hs : s.Kept) (ctx : ContextId) (event : Event) :
    ∃ m, s.recorder.Moves (fun call => (s.store.fold call).2) (s.recorder.stack ctx) event m ∧
      s.handle ctx event =
        (⟨s.recorder.setStack ctx m.stack, (foldAll s.store m.ended.toList).1⟩, m.result) :=
  ⟨_, s.recorder.moves_move _ ctx event fun call hcall => (hs.sound ctx call hcall).sized,
    handle_eq hs.valid.listed rfl⟩

theorem Kept.handle (hs : s.Kept) (ctx : ContextId) (event : Event) : (s.handle ctx event).1.Kept := by
  have hvalid : (s.handle ctx event).1.Valid := by
    obtain ⟨hhandle, hvalid, -⟩ := handle_spec hs.valid (fun _ _ => rfl) ctx event
    rw [hhandle]
    exact hvalid
  obtain ⟨m, hmoves, hhandle⟩ := hs.moves ctx event
  rw [hhandle] at hvalid ⊢
  refine ⟨hvalid, fun ctx' call hcall => ?_, hs.checked, ?_⟩
  · rw [Recorder.stack_setStack] at hcall
    split at hcall
    · exact hmoves.sound (hs.sound ctx) call hcall
    · exact hs.sound ctx' call hcall
  · apply hs.store.foldAll hs.checked
    intro call hcall
    exact hs.valid.hosts ctx call (hmoves.mem_of_ended (Option.mem_toList.mp hcall))

theorem Kept.shutdown (hs : s.Kept) (order : List ContextId) : (s.shutdown order).1.Kept := by
  unfold Session.shutdown
  split
  · exact hs
  have hstore : (foldAll s.store (s.recorder.inFlight order)).1.Consistent :=
    hs.store.foldAll hs.checked fun call => Recorder.runs_inFlight hs.valid.hosts
  have hstack : ∀ ctx : ContextId,
      Recorder.stack { s.recorder with contexts := ∅, closed := true } ctx = [] := by
    intro ctx
    simp [Recorder.stack]
  refine ⟨⟨hs.valid.named, fun ctx => by simp, fun ctx call hcall => ?_, hstore.sized⟩,
    fun ctx call hcall => ?_, hs.checked, hstore⟩
  · cases hstack ctx ▸ hcall
  · cases hstack ctx ▸ hcall

theorem Reached.kept (hs : s.Reached) : s.Kept := by
  induction hs with
  | new hlayouts hstore config =>
    exact ⟨valid_new (Program.named_ofLayouts _) config hstore.consistent.sized,
      fun ctx call hcall => by simp [Recorder.new, Recorder.stack] at hcall,
      Program.checked_ofLayouts hlayouts, hstore.consistent⟩
  | handle _ ctx event ih => exact ih.handle ctx event
  | @shutdown _ order _ _ ih => exact ih.shutdown order
  | shared _ h ih =>
    have hstore := h.consistent ih.store
    exact ⟨⟨ih.valid.named, ih.valid.listed, ih.valid.hosts, hstore.sized⟩, ih.sound, ih.checked, hstore⟩

theorem stack_handle_of_ne (hs : s.Kept) (event : Event) (hctx : ctx' ≠ ctx) :
    (s.handle ctx event).1.recorder.stack ctx' = s.recorder.stack ctx' := by
  obtain ⟨m, -, hhandle⟩ := hs.moves ctx event
  rw [hhandle]
  exact (Recorder.stack_setStack ..).trans (if_neg hctx.symm)

theorem handle_error_cases (hs : s.Kept) (h : (s.handle ctx event).2 = .error e) :
    (e.isRefusal = true ∧ (s.handle ctx event).1 = s) ∨
    (e.isMismatch = true ∧ ∃ frame rest, event = .exit frame.name ∧
      s.recorder.stack ctx = frame :: rest ∧ (s.handle ctx event).1 = s.withStack ctx rest) := by
  obtain ⟨m, hmoves, hhandle⟩ := hs.moves ctx event
  rw [hhandle] at h ⊢
  cases hmoves with
  | refuse he =>
    cases h
    refine .inl ⟨he, ?_⟩
    rw [hs.valid.listed.setStack_self ctx]
    rfl
  | begin => cases h
  | ignore => cases h
  | proceed => cases h
  | @leave frame rest hstack =>
    cases frame with
    | untracked name => cases h
    | tracked call =>
      have hcall : call.Sized := (hs.sound ctx call (by simp [hstack])).sized
      rcases Store.fold_cases hs.store.sized hcall with ⟨e', hfold, he'⟩ | ⟨store, hfold, -⟩
      · simp only [CallFrame.call?, Option.elim, hfold] at h
        obtain rfl := Except.error.inj h
        refine .inr ⟨he', .tracked call, rest, rfl, hstack, ?_⟩
        simp only [CallFrame.call?, Option.toList, foldAll, hfold]
        rfl
      · simp only [CallFrame.call?, Option.elim, hfold] at h
        cases h

theorem shutdown_of_refusal {order : List ContextId} (hs : s.Kept)
    (h : (s.shutdown order).2 = .error e) (he : e.isRefusal = true) : (s.shutdown order).1 = s := by
  cases hclosed : s.recorder.closed with
  | true => rw [shutdown_of_closed hclosed]
  | false =>
    -- what the store refuses has another cause
    rw [shutdown_of_open hclosed] at h
    have hruns : ∀ call ∈ s.recorder.inFlight order, call.Sized := fun call hcall =>
      (Recorder.runs_inFlight hs.valid.hosts hcall).sized
    cases hresult : (foldAll s.store (s.recorder.inFlight order)).2 with
    | ok => simp [hresult, Except.map] at h
    | error e' =>
      have hmismatch := Store.isMismatch_of_foldAll hs.store.sized hruns hresult
      simp only [hresult, Except.map, Except.error.injEq] at h
      subst h
      cases e' <;> simp_all [Error.isRefusal, Error.isMismatch]

/-- An event that is refused changes nothing. If the store refuses a call that ends, the call is off its
stack, and nothing else has changed. Either way, even where the changes are made in place, no change is left
over that was made before the failure; and no event changes the stack of another context. -/
theorem failed_event_leaves_rest (hs : s.Reached) (ctx : ContextId) (event : Event) :
    (Edit.perform ctx event).run s = ended (s.handle ctx event) ∧
    (∀ e, (s.handle ctx event).2 = .error e →
      (e.isRefusal = true ∧ (s.handle ctx event).1 = s) ∨
      (e.isMismatch = true ∧ ∃ frame rest, event = .exit frame.name ∧
        s.recorder.stack ctx = frame :: rest ∧ (s.handle ctx event).1 = s.withStack ctx rest ∧
        (s.handle ctx event).1.recorder.stack ctx = rest)) ∧
    (∀ ctx', ctx' ≠ ctx → (s.handle ctx event).1.recorder.stack ctx' = s.recorder.stack ctx') ∧
    ∀ order : List ContextId, order.Perm s.recorder.contexts.keys →
      (Edit.shutdown order).run s = ended (s.shutdown order) ∧
      ∀ e, (s.shutdown order).2 = .error e → e.isRefusal = true → (s.shutdown order).1 = s := by
  have hkept := hs.kept
  refine ⟨Edit.run_perform hkept ctx event, fun e he => ?_, fun ctx' => stack_handle_of_ne hkept event,
    fun order horder => ⟨Edit.run_shutdown hkept.valid horder, fun e => shutdown_of_refusal hkept⟩⟩
  rcases handle_error_cases hkept he with hrefused | ⟨hmismatch, frame, rest, hevent, hstack, hleft⟩
  · exact .inl hrefused
  · refine .inr ⟨hmismatch, frame, rest, hevent, hstack, hleft, ?_⟩
    rw [hleft]
    exact (Recorder.stack_setStack ..).trans (if_pos rfl)

/-- The store holds a function of the name at another address. A call of it in one context is refused when
it ends, while that in the other context goes on; a block that does not exist is refused before that. -/
theorem failed_event_leaves_rest_relocated :
    let relocated : Layout := { Layout.breakableLoop with id := ⟨"search", 1⟩ }
    let s := (run ⟨.new (.ofLayouts [.breakableLoop]) .strict, (Store.empty.getOrCreate relocated).1⟩
      [(1, .call "search" "a"), (2, .call "search" "b")]).1
    (s.handle 1 (.block (.enter 9 ""))).2 = .error (.blockOutOfRange "search" 9 6) ∧
      (s.handle 1 (.block (.enter 9 ""))).1 = s ∧
      (s.handle 1 (.exit "search")).2 = .error (.identityMismatch ⟨"search", 1⟩ ⟨"search", 0⟩) ∧
      (s.handle 1 (.exit "search")).1 = s.withStack 1 [] ∧
      (s.handle 1 (.exit "search")).1.recorder.stack 2 = s.recorder.stack 2 := by
  intro relocated s
  have hloop : Layout.breakableLoop.Accepted :=
    .parts (show Layout.ofParts Layout.breakableLoop.id Layout.breakableLoop.successors
      Layout.breakableLoop.postdominators = .ok .breakableLoop by decide +kernel)
  have hrelocated : (Operation.getOrCreate relocated).Made :=
    .parts (show Layout.ofParts relocated.id relocated.successors relocated.postdominators =
      .ok relocated by decide +kernel)
  have hlayouts : ∀ l ∈ [Layout.breakableLoop], l.Accepted := by simpa using hloop
  have hnew := Reached.new hlayouts (.step .empty (.perform hrelocated)) .strict
  have hs : s.Reached := (hnew.handle 1 (.call "search" "a")).handle 2 (.call "search" "b")
  have hblock : (s.handle 1 (.block (.enter 9 ""))).2 =
      .error (.blockOutOfRange "search" 9 6) := by decide +kernel
  have hexit : (s.handle 1 (.exit "search")).2 =
      .error (.identityMismatch ⟨"search", 1⟩ ⟨"search", 0⟩) := by decide +kernel
  have hstack : (s.recorder.stack 1).length = 1 := by decide +kernel
  obtain ⟨-, hblocks, -⟩ := failed_event_leaves_rest hs 1 (.block (.enter 9 ""))
  obtain ⟨-, hexits, hothers, -⟩ := failed_event_leaves_rest hs 1 (.exit "search")
  refine ⟨hblock, ?_, hexit, ?_, hothers 2 (by decide)⟩
  · rcases hblocks _ hblock with ⟨-, hsame⟩ | ⟨hmismatch, -⟩
    · exact hsame
    · cases hmismatch
  · rcases hexits _ hexit with ⟨hrefused, -⟩ | ⟨-, frame, rest, -, hframe, hleft, -⟩
    · cases hrefused
    · rw [hframe, List.length_cons, Nat.add_eq_right, List.length_eq_zero_iff] at hstack
      rw [hleft, hstack]

end Session

end Dependence
