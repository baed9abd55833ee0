import Mathlib

namespace StateRun
variable {ε σ α β : Type}

-- the state a run leaves behind, whether it finished or stopped
def ending : EStateM.Result ε σ α → σ
  | .ok _ s => s
  | .error _ s => s

def Keeps (R : σ → σ → Prop) (x : EStateM ε σ α) : Prop := ∀ s, R s (ending (x s))

section bind
variable {x : EStateM ε σ α} {f : α → EStateM ε σ β} {a : α} {s s' : σ}

theorem bind_ok (h : x s = .ok a s') : (x >>= f) s = f a s' := by
  change EStateM.bind x f s = _
  rw [EStateM.bind, h]

theorem bind_error {e : ε} (h : x s = .error e s') : (x >>= f) s = .error e s' := by
  change EStateM.bind x f s = _
  rw [EStateM.bind, h]

end bind

section rules
variable {R : σ → σ → Prop} {x : EStateM ε σ α}

theorem Keeps.ite {c : Prop} [Decidable c] {y : EStateM ε σ α} (hx : Keeps R x) (hy : Keeps R y) :
    Keeps R (if c then x else y) := by
  by_cases hc : c
  · rwa [if_pos hc]
  · rwa [if_neg hc]

theorem Keeps.bind [IsTrans σ R] {f : α → EStateM ε σ β} (hx : Keeps R x)
    (hf : ∀ a, Keeps R (f a)) : Keeps R (x >>= f) := fun s => by
  have h := hx s
  cases hs : x s with
  | ok a s' =>
    rw [hs] at h
    rw [bind_ok hs]
    exact trans_of R h (hf a s')
  | error e s' =>
    rw [hs] at h
    rw [bind_error hs]
    exact h

variable [Std.Refl R]

theorem Keeps.pure (a : α) : Keeps R (Pure.pure a : EStateM ε σ α) := fun s => refl_of R s

theorem Keeps.throw (e : ε) : Keeps R (MonadExcept.throw e : EStateM ε σ α) := fun s => refl_of R s

variable [IsTrans σ R]

theorem Keeps.forM {f : α → EStateM ε σ PUnit} (hf : ∀ a, Keeps R (f a)) (as : List α) :
    Keeps R (as.forM f) := by
  induction as with
  | nil => exact Keeps.pure _
  | cons a as ih => exact (hf a).bind fun _ => ih

end rules

end StateRun
