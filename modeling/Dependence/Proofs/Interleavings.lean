import Dependence.Proofs.Drains
import Dependence.Proofs.Reentries

/-! Contexts do not disturb each other. Two runs in which each context has the same events, in
whatever way those of different contexts are interleaved, cannot be told apart: not by the answers
that a context gets, not by the calls that are active, and not by what is in the store, even if the
contexts are listed in different orders when the recorder is shut down. -/

namespace Dependence

variable {s : Session} {es fs : List (ContextId × Event)}

theorem Session.run_eq_of_valuesAt (hs : s.Valid) (h : ∀ ctx, valuesAt ctx es = valuesAt ctx fs) :
    (s.run es).1 = (s.run fs).1 ∧
      ∀ ctx, valuesAt ctx (s.run es).2 = valuesAt ctx (s.run fs).2 := by
  have hjudge : ∀ call, s.recorder.program.Runs call →
      s.store.verdict (.ofCall call) = s.store.verdict (.ofCall call) := fun _ _ => rfl
  obtain ⟨ended, hes⟩ := exists_splits hs hjudge es
  obtain ⟨ended', hfs⟩ := exists_splits hs hjudge fs
  have hview := fun ctx => (hes.view ctx).trans ((h ctx ▸ hfs.view ctx).symm)
  simp only [Recorder.Play.mk.injEq] at hview
  have hended : ended.Perm ended' := perm_of_valuesAt fun ctx => by rw [(hview ctx).2.1]
  have hstore : (s.run es).1.store = (s.run fs).1.store := by
    rw [hes.store, hfs.store]
    refine Store.foldAll_perm hs.store (Program.foldable_of_runs (p := s.recorder.program) ?_)
      (hended.map _)
    intro call hcall
    obtain ⟨x, hx, rfl⟩ := List.mem_map.mp hcall
    exact hes.runs x hx
  have hcontexts := hes.valid.listed.contexts_eq hfs.valid.listed fun ctx => (hview ctx).1
  have hrecorder : (s.run es).1.recorder = (s.run fs).1.recorder := by
    rw [hes.recorder, hfs.recorder, hcontexts]
  exact ⟨congrArg₂ Session.mk hrecorder hstore, fun ctx => (hview ctx).2.2⟩

theorem Session.Valid.run (hs : s.Valid) (es : List (ContextId × Event)) : (s.run es).1.Valid := by
  obtain ⟨ended, hes⟩ := exists_splits hs (fun _ _ => rfl) es
  exact hes.valid

/-- Interleaving the events of contexts differently changes no answer, no stack and no aggregate. -/
theorem interleavings_agree (hs : s.Valid) (h : ∀ ctx, valuesAt ctx es = valuesAt ctx fs) :
    (∀ ctx, valuesAt ctx (s.run es).2 = valuesAt ctx (s.run fs).2) ∧
    (∀ ctx, (s.run es).1.recorder.stack ctx = (s.run fs).1.recorder.stack ctx) ∧
    ∀ order order' : List ContextId, order.Perm (s.run es).1.recorder.contexts.keys →
      order'.Perm (s.run fs).1.recorder.contexts.keys →
      let x := (s.run es).1.shutdown order
      let y := (s.run fs).1.shutdown order'
      (Session.Edit.shutdown order).run (s.run es).1 = ended x ∧
      (Session.Edit.shutdown order').run (s.run fs).1 = ended y ∧
      (∀ name, x.1.store.get? name = y.1.store.get? name) ∧
      ∀ profile, x.2 = .ok profile ↔ y.2 = .ok profile := by
  obtain ⟨hsession, hanswers⟩ := Session.run_eq_of_valuesAt hs h
  have hvalid : (s.run fs).1.Valid := hs.run fs
  rw [hsession]
  refine ⟨hanswers, fun _ => rfl, fun order order' horder horder' => ?_⟩
  obtain ⟨hsame, hok⟩ := Session.shutdown_perm hvalid (horder.trans horder'.symm)
  exact ⟨Session.Edit.run_shutdown hvalid horder, Session.Edit.run_shutdown hvalid horder',
    fun name => by rw [hsame], hok⟩

/-- The store holds other functions under two names, so that calls in both contexts are refused in the end.
Which refusal is reported depends on the order of the contexts, but the call below is added either way. -/
theorem interleavings_agree_conflict :
    let g : Layout := { Layout.oneArm with id := ⟨"g", 0⟩ }
    let s : Session := ⟨.new (.ofLayouts [.breakableLoop, .oneArm, g]) .default,
      (Store.empty.insert (.new { Layout.breakableLoop with id := ⟨"search", 1⟩ })).insert
        (.new { Layout.oneArm with id := ⟨"f", 1⟩ })⟩
    let es := crossedEvents ++ [(2, .call "g" ""), (2, .call "f" "")]
    let fs := es.filter (·.1 = 2) ++ es.filter (·.1 = 1)
    (s.run es).2 ≠ (s.run fs).2 ∧
      ((s.run es).1.shutdown [1, 2]).2 = .error (.identityMismatch ⟨"search", 1⟩ ⟨"search", 0⟩) ∧
      ((s.run fs).1.shutdown [2, 1]).2 = .error (.identityMismatch ⟨"f", 1⟩ ⟨"f", 16⟩) ∧
      (((s.run fs).1.shutdown [2, 1]).1.store.get? "g").map (·.calls) = some 1 ∧
      (∀ ctx, valuesAt ctx (s.run es).2 = valuesAt ctx (s.run fs).2) ∧
      (∀ ctx, (s.run es).1.recorder.stack ctx = (s.run fs).1.recorder.stack ctx) ∧
      (Session.Edit.shutdown [2, 1]).run (s.run fs).1 = ended ((s.run fs).1.shutdown [2, 1]) ∧
      (∀ name, ((s.run es).1.shutdown [1, 2]).1.store.get? name =
        ((s.run fs).1.shutdown [2, 1]).1.store.get? name) ∧
      ∀ profile, ((s.run es).1.shutdown [1, 2]).2 = .ok profile ↔
        ((s.run fs).1.shutdown [2, 1]).2 = .ok profile := by
  intro g s es fs
  have hs : s.Valid := Session.valid_new (Program.named_ofLayouts _) .default
    ((Store.sized_empty.insert (Aggregate.sized_new _)).insert (Aggregate.sized_new _))
  have hvalues : ∀ ctx, valuesAt ctx es = valuesAt ctx fs := by
    intro ctx
    by_cases hfirst : ctx = 1
    · subst hfirst
      decide
    by_cases hsecond : ctx = 2
    · subst hsecond
      decide
    · simp [es, fs, crossedEvents, Ne.symm hfirst, Ne.symm hsecond]
  obtain ⟨hanswers, hstacks, hshutdown⟩ := interleavings_agree hs hvalues
  obtain ⟨-, hrun, hstore, hprofile⟩ :=
    hshutdown [1, 2] [2, 1] (by decide +kernel) (by decide +kernel)
  exact ⟨by decide +kernel, by decide +kernel, by decide +kernel, by decide +kernel, hanswers, hstacks, hrun,
    hstore, hprofile⟩

end Dependence
