import Mathlib

namespace PartialRun
variable {σ α : Type*}

def run (step : σ → α → Option σ) : σ → List α → Option σ
  | s, [] => some s
  | s, a :: as => (step s a).bind fun s => run step s as

-- good is asked of every step, in the state before it
def throughout (step : σ → α → Option σ) (good : σ → α → Bool) : σ → List α → Bool
  | _, [] => true
  | s, a :: as => good s a &&
    match step s a with
    | none => true
    | some s => throughout step good s as

section rules
variable {step : σ → α → Option σ} {good : σ → α → Bool} {s t : σ} {a : α} {as bs : List α}

theorem run_cons : run step s (a :: as) = some t ↔
    ∃ u, step s a = some u ∧ run step u as = some t :=
  Option.bind_eq_some_iff

theorem run_append : run step s (as ++ bs) = (run step s as).bind fun t => run step t bs := by
  induction as generalizing s with
  | nil => rfl
  | cons a as ih =>
    rw [List.cons_append, run, run]
    cases step s a with
    | none => rfl
    | some u => exact ih

theorem throughout_cons {u : σ} (hs : step s a = some u) :
    throughout step good s (a :: as) = true ↔
      good s a = true ∧ throughout step good u as = true := by
  rw [throughout, hs, Bool.and_eq_true]

theorem invariant {I : σ → Prop}
    (hstep : ∀ s a t, I s → good s a = true → step s a = some t → I t)
    (hs : I s) (hrun : run step s as = some t) (hgood : throughout step good s as = true) : I t := by
  induction as generalizing s with
  | nil =>
    obtain rfl : s = t := Option.some.inj hrun
    exact hs
  | cons a as ih =>
    obtain ⟨u, hu, hrun⟩ := run_cons.mp hrun
    obtain ⟨hg, hgood⟩ := (throughout_cons hu).mp hgood
    exact ih (hstep s a u hs hg hu) hrun hgood

theorem preserved {I : σ → Prop} (hstep : ∀ s a t, I s → step s a = some t → I t)
    (hs : I s) (hrun : run step s as = some t) : I t := by
  induction as generalizing s with
  | nil =>
    obtain rfl : s = t := Option.some.inj hrun
    exact hs
  | cons a as ih =>
    obtain ⟨u, hu, hrun⟩ := run_cons.mp hrun
    exact ih (hstep s a u hs hu) hrun

theorem total {I : σ → Prop} (hstep : ∀ s a, I s → ∃ t, step s a = some t ∧ I t) (hs : I s)
    (as : List α) : ∃ t, run step s as = some t ∧ I t := by
  induction as generalizing s with
  | nil => exact ⟨s, rfl, hs⟩
  | cons a as ih =>
    obtain ⟨u, hu, hi⟩ := hstep s a hs
    obtain ⟨t, ht, hi'⟩ := ih hi
    exact ⟨t, run_cons.mpr ⟨u, hu, ht⟩, hi'⟩

theorem tracks {τ : Type*} {next : τ → α → τ} {R : σ → τ → Prop}
    (hstep : ∀ s u a t, R s u → step s a = some t → R t (next u a)) {u : τ} (hs : R s u)
    (hrun : run step s as = some t) : R t (as.foldl next u) := by
  induction as generalizing s u with
  | nil =>
    obtain rfl : s = t := Option.some.inj hrun
    exact hs
  | cons a as ih =>
    obtain ⟨v, hv, hrun⟩ := run_cons.mp hrun
    exact ih (hstep s u a v hs hv) hrun

theorem simulates {τ : Type*} {next : τ → α → τ} {R : σ → τ → Prop}
    (hstep : ∀ s u a, R s u → ∃ t, step s a = some t ∧ R t (next u a)) {u : τ} (hs : R s u) :
    ∃ t, run step s as = some t ∧ R t (as.foldl next u) := by
  induction as generalizing s u with
  | nil => exact ⟨s, rfl, hs⟩
  | cons a as ih =>
    obtain ⟨t, ht, hr⟩ := hstep s u a hs
    obtain ⟨t', hrun, hr'⟩ := ih hr
    exact ⟨t', run_cons.mpr ⟨t, ht, hrun⟩, hr'⟩

theorem follows {τ : Type*} {next : τ → α → Option τ} {R : σ → τ → Prop}
    (hstep : ∀ s u a v, R s u → next u a = some v → ∃ t, step s a = some t ∧ R t v) {u v : τ}
    (hs : R s u) (hrun : run next u as = some v) : ∃ t, run step s as = some t ∧ R t v := by
  induction as generalizing s u with
  | nil =>
    obtain rfl : u = v := Option.some.inj hrun
    exact ⟨s, rfl, hs⟩
  | cons a as ih =>
    obtain ⟨w, hw, hrun⟩ := run_cons.mp hrun
    obtain ⟨t, ht, hr⟩ := hstep s u a w hs hw
    obtain ⟨t', hrun', hr'⟩ := ih hr hrun
    exact ⟨t', run_cons.mpr ⟨t, ht, hrun'⟩, hr'⟩

end rules

end PartialRun
