import Dependence.Proofs.FailedEvents
import Dependence.Proofs.Reentries

/-! The end of a recording. Once a recorder is shut down, whether or not a call was refused by then, it refuses
whatever it is asked, so that nothing changes any more. -/

namespace Dependence

namespace Session

inductive Request where
  | event (ctx : ContextId) (event : Event)
  | shutdown (order : List ContextId)

def attend (s : Session) : Request → Session × Except Error (Option Profile)
  | .event ctx event =>
    let (s, result) := s.handle ctx event
    (s, result.map fun _ => none)
  | .shutdown order =>
    let (s, result) := s.shutdown order
    (s, result.map some)

def attendAll (s : Session) : List Request → Session × List (Except Error (Option Profile))
  | [] => (s, [])
  | request :: later =>
    let (s, answer) := s.attend request
    let (s, answers) := s.attendAll later
    (s, answer :: answers)

def Edit.attend : Request → Edit (Option Profile)
  | .event ctx event => do
    perform ctx event
    return none
  | .shutdown order => do
    return some (← shutdown order)

variable {s : Session} {order : List ContextId}

theorem attend_of_closed (h : s.recorder.closed = true) (request : Request) :
    s.attend request = (s, .error .shutDown) := by
  cases request with
  | event ctx event => rw [attend, handle, if_pos h]; rfl
  | shutdown order => rw [attend, shutdown_of_closed h]; rfl

theorem attendAll_of_closed (h : s.recorder.closed = true) (requests : List Request) :
    s.attendAll requests = (s, requests.map fun _ => .error .shutDown) := by
  induction requests with
  | nil => rfl
  | cons request later ih => simp only [attendAll, attend_of_closed h, ih, List.map_cons]

theorem Edit.run_attend_of_closed (h : s.recorder.closed = true) (request : Request) :
    (Edit.attend request).run s = .error .shutDown s := by
  cases request with
  | event ctx event => exact run_bind_of_error (run_perform_of_closed h ctx event)
  | shutdown order => exact run_bind_of_error (run_shutdown_of_closed h order)

theorem closed_shutdown (s : Session) (order : List ContextId) :
    (s.shutdown order).1.recorder.closed = true := by
  cases hclosed : s.recorder.closed with
  | true => rw [shutdown_of_closed hclosed, hclosed]
  | false => rw [shutdown_of_open hclosed]

theorem closed_handle (hs : s.Kept) (ctx : ContextId) (event : Event) :
    (s.handle ctx event).1.recorder.closed = s.recorder.closed := by
  obtain ⟨m, -, hhandle⟩ := hs.moves ctx event
  rw [hhandle]
  rfl

theorem Reached.stack_of_closed (hs : s.Reached) (hclosed : s.recorder.closed = true)
    (ctx : ContextId) : s.recorder.stack ctx = [] := by
  induction hs with
  | new => cases hclosed
  | shared _ _ ih => exact ih hclosed
  | handle hs ctx' event ih =>
    rw [closed_handle hs.kept] at hclosed
    rw [Session.handle, if_pos hclosed]
    exact ih hclosed
  | @shutdown s order hs _ ih =>
    cases h : s.recorder.closed with
    | true =>
      rw [shutdown_of_closed h]
      exact ih h
    | false =>
      rw [shutdown_of_open h]
      simp [Recorder.stack]

theorem store_shutdown (hs : s.Reached) (horder : order.Perm s.recorder.contexts.keys) :
    s.shutdown.1.store = (foldAll s.store (s.recorder.inFlight order)).1 := by
  rw [← (shutdown_perm hs.kept.valid horder).1]
  cases hclosed : s.recorder.closed with
  | false => rw [shutdown_of_open hclosed]
  | true =>
    have hnone : s.recorder.inFlight order = [] := by
      rw [Recorder.inFlight, List.flatMap_eq_nil_iff]
      intro ctx _
      rw [hs.stack_of_closed hclosed]
      rfl
    rw [hnone, shutdown_of_closed hclosed]
    rfl

/-- Shutting down offers each call that is active in any context to the store once, in whatever order the
contexts are listed and whether or not some calls are refused, and what is not refused is added. From then
on every request is refused, no context has an active call and the store stays as it is. -/
theorem shutdown_is_final (hs : s.Reached) (horder : order.Perm s.recorder.contexts.keys) :
    let offered := s.recorder.activeIn order
    let calls := offered.map (·.2)
    let final := (foldAll s.store calls).1
    (∀ ctx, valuesAt ctx offered = (s.recorder.stack ctx).filterMap CallFrame.call?) ∧
    s.shutdown.1.store = final ∧ s.store.Adds final ((s.store.taken calls).map .ofCall) ∧
    (s.recorder.closed = false → (Edit.shutdown order).run s =
      (MonadExcept.ofExcept ((foldAll s.store calls).2.map fun _ => final.profile) : Edit Profile).run
        s.shutdown.1) ∧
    (∀ requests, s.shutdown.1.attendAll requests =
      (s.shutdown.1, requests.map fun _ => .error .shutDown)) ∧
    (∀ request, (Edit.attend request).run s.shutdown.1 = .error .shutDown s.shutdown.1) ∧
    ∀ ctx, s.shutdown.1.recorder.activeCalls ctx = 0 := by
  intro offered calls final
  have hclosed := closed_shutdown s s.recorder.contexts.keys
  have hvalid := hs.kept.valid
  have hcalls : calls = s.recorder.inFlight order := s.recorder.map_activeIn order
  refine ⟨Recorder.valuesAt_activeIn horder, ?_, ?_, fun hopen => ?_,
    attendAll_of_closed hclosed, Edit.run_attend_of_closed hclosed, fun ctx => ?_⟩
  · rw [store_shutdown hs horder, ← hcalls]
  · exact (Store.foldAll_spec hvalid.store (hcalls ▸ hvalid.foldable_inFlight order)).1
  · rw [Edit.run_shutdown hvalid horder, Edit.run_ofExcept, ← (shutdown_perm hvalid horder).1,
      shutdown_of_open hopen, ← hcalls]
  · rw [Recorder.activeCalls, (hs.shutdown (.refl _)).stack_of_closed hclosed, List.length_nil]

/-- Of the calls in flight the innermost one is refused. The two others are added all the same, the one below
it and the one in the other context, and nothing can be recorded or ended after that. -/
theorem shutdown_is_final_relocated :
    let relocated : Layout := { Layout.breakableLoop with id := ⟨"search", 1⟩ }
    let s := (run ⟨.new (.ofLayouts [.breakableLoop, .oneArm]) .default,
        (Store.empty.getOrCreate relocated).1⟩
      [(1, .call "f" ""), (1, .call "log" ""), (1, .call "search" ""), (2, .call "f" "")]).1
    s.shutdown.2 = .error (.identityMismatch ⟨"search", 1⟩ ⟨"search", 0⟩) ∧
      (s.shutdown.1.store.get? "f").map (·.calls) = some 2 ∧
      s.shutdown.1.store = (foldAll s.store ((s.recorder.activeIn [2, 1]).map (·.2))).1 ∧
      valuesAt 1 (s.recorder.activeIn [2, 1]) = (s.recorder.stack 1).filterMap CallFrame.call? ∧
      s.shutdown.1.attendAll [.event 3 (.call "f" ""), .shutdown [1]] =
        (s.shutdown.1, [.error .shutDown, .error .shutDown]) ∧
      s.shutdown.1.recorder.activeCalls 1 = 0 := by
  intro relocated s
  have haccepted : ∀ l : Layout, Layout.ofParts l.id l.successors l.postdominators = .ok l → l.Accepted :=
    fun l => .parts
  have hloop := haccepted .breakableLoop (by decide +kernel)
  have harm := haccepted .oneArm (by decide +kernel)
  have hrelocated : (Operation.getOrCreate relocated).Made := haccepted relocated (by decide +kernel)
  have hlayouts : ∀ l ∈ [Layout.breakableLoop, Layout.oneArm], l.Accepted := by
    simpa using ⟨hloop, harm⟩
  have hnew := Reached.new hlayouts (.step .empty (.perform hrelocated)) .default
  have hs : s.Reached := (((hnew.handle 1 (.call "f" "")).handle 1 (.call "log" "")).handle 1
    (.call "search" "")).handle 2 (.call "f" "")
  have horder : [2, 1].Perm s.recorder.contexts.keys := by decide +kernel
  obtain ⟨hoffered, hstore, -, -, hlater, -, hactive⟩ := shutdown_is_final hs horder
  exact ⟨by decide +kernel, by decide +kernel, hstore, hoffered 1, hlater _, hactive 1⟩

end Session

end Dependence
