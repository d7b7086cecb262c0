import Dependence.Error

/-! Edits: something is changed in place and piece by piece, and a failure keeps the changes made before it. -/

namespace Dependence

section Runs

variable {σ α β : Type} {m : EStateM Error σ α} {f : α → EStateM Error σ β} {s s' : σ} {a : α}
  {e : Error} {result : Except Error α}

theorem run_bind_of_ok (h : m.run s = .ok a s') : (m >>= f).run s = (f a).run s' := by
  rw [EStateM.run_bind, h]

theorem run_bind_of_error (h : m.run s = .error e s') : (m >>= f).run s = .error e s' := by
  rw [EStateM.run_bind, h]

theorem run_bind_get (f : σ → EStateM Error σ β) (s : σ) : (get >>= f).run s = (f s).run s := rfl

theorem run_ofExcept_ok (h : result = .ok a) (s : σ) :
    (MonadExcept.ofExcept result : EStateM Error σ α).run s = .ok a s := by
  rw [h]
  rfl

theorem run_ofExcept_error (h : result = .error e) (s : σ) :
    (MonadExcept.ofExcept result : EStateM Error σ α).run s = .error e s := by
  rw [h]
  rfl

theorem run_fetch {xs : List α} {i : Nat} (h : xs[i]? = some a) (s : σ) :
    (MonadExcept.ofExcept (fetch xs i) : EStateM Error σ α).run s = .ok a s :=
  run_ofExcept_ok (fetch_of_getElem? h) s

end Runs

end Dependence
