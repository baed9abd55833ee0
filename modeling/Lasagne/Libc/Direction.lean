import Mathlib
import Lasagne.Library.PartialRun
import Lasagne.Libc.StringAsm

namespace Lasagne.Libc
open X86String PartialRun
open X86 (Machine Reg)

structure Entry where
  routine : Routine
  machine : Machine

-- the code between two calls may change everything but the direction flag
def enter (s : Machine) (e : Entry) : Option Machine :=
  call e.routine (setFlag e.machine .direction (flag s .direction))

def ClearAfterEach (s : Machine) (es : List Entry) : Prop :=
  ∀ n t, run enter s (es.take n) = some t → flag t .direction = false

def Entry.overlapsAbove (e : Entry) : Prop := e.routine = .memmove ∧ Backward e.machine

instance (e : Entry) : Decidable e.overlapsAbove := inferInstanceAs (Decidable (_ ∧ _))

section direction
variable {s t : Machine}

theorem flag_advance_movsb (s : Machine) : flag (movsb s) .direction = flag s .direction := rfl

theorem flag_advance_stosb (s : Machine) : flag (stosb s) .direction = flag s .direction := rfl

theorem flag_ret (s : Machine) : flag (s.drop.jump s.top) .direction = flag s .direction := rfl

theorem memset_direction : ∃ t, call .memset s = some t ∧ flag t .direction = false := by
  rw [call, fuel, Routine.entry, finish_next rfl rfl, finish_next rfl rfl, finish_next rfl rfl,
    finish_next rfl rfl, finish_next rfl rfl, finish_next rfl rfl, finish_ret rfl]
  refine ⟨_, rfl, ?_⟩
  rw [flag_ret, flag_set, flag_repeated flag_advance_stosb, flag_set, flag_set, flag_set,
    flag_setFlag]
  rfl

theorem memcpy_direction (k : Nat) :
    ∃ t, finish code (k + 5) 7 s = some t ∧ flag t .direction = false := by
  rw [finish_next rfl rfl, finish_next rfl rfl, finish_next rfl rfl, finish_next rfl rfl,
    finish_ret rfl]
  refine ⟨_, rfl, ?_⟩
  rw [flag_ret, flag_repeated flag_advance_movsb, flag_set, flag_set, flag_setFlag]
  rfl

theorem return_direction (k : Nat) :
    ∃ t, finish code (k + 2) 27 s = some t ∧ flag t .direction = flag s .direction := by
  rw [finish_next rfl rfl, finish_ret rfl]
  exact ⟨_, rfl, rfl⟩

-- std, and no cld before the return
theorem backward_direction (k : Nat) :
    ∃ t, finish code (k + 9) 20 s = some t ∧ flag t .direction = true := by
  rw [finish_next rfl rfl, finish_next rfl rfl, finish_next rfl rfl, finish_next rfl rfl,
    finish_next rfl rfl, finish_next rfl rfl]
  obtain ⟨t, ht, hf⟩ := return_direction k
  rw [finish_next rfl rfl]
  refine ⟨t, ht, ?_⟩
  rw [hf, flag_repeated flag_advance_movsb]
  simp [flag_setFlag]

theorem memmove_direction (s : Machine) : ∃ t, call .memmove s = some t ∧
    (flag s .direction = false → flag t .direction = decide (Backward s)) := by
  obtain ⟨w, hp, hways⟩ := memmove_ways s
  obtain ⟨hforward, -, k, hcall⟩ | ⟨heq, -, k, hcall⟩ | ⟨hback, -, k, hcall⟩ := hways
  · rw [hcall, decide_eq_false hforward]
    obtain ⟨t, ht, hf⟩ := memcpy_direction (s := w) k
    exact ⟨t, ht, fun _ => hf⟩
  · have hforward : ¬ Backward s := fun hb => by
      rw [Backward, heq] at hb
      exact absurd hb.1 (by simp)
    obtain ⟨t, ht, hf⟩ := return_direction (s := w) k
    refine ⟨t, hcall.trans ht, fun h => ?_⟩
    rw [hf, hp.direction, h, decide_eq_false hforward]
  · rw [hcall, decide_eq_true hback]
    obtain ⟨t, ht, hf⟩ := backward_direction (s := w) k
    exact ⟨t, ht, fun _ => hf⟩

theorem enter_direction (s : Machine) (e : Entry) : ∃ t, enter s e = some t ∧
    (flag s .direction = false → flag t .direction = decide e.overlapsAbove) := by
  obtain ⟨r, m⟩ := e
  cases r with
  | memset =>
    obtain ⟨t, ht, hf⟩ := memset_direction (s := setFlag m .direction (flag s .direction))
    exact ⟨t, ht, fun _ => by rw [hf, decide_eq_false (by simp [Entry.overlapsAbove])]⟩
  | memcpy =>
    obtain ⟨t, ht, hf⟩ := memcpy_direction (s := setFlag m .direction (flag s .direction)) 27
    exact ⟨t, ht, fun _ => by rw [hf, decide_eq_false (by simp [Entry.overlapsAbove])]⟩
  | memmove =>
    obtain ⟨t, ht, hf⟩ := memmove_direction (setFlag m .direction (flag s .direction))
    refine ⟨t, ht, fun h => ?_⟩
    rw [flag_setFlag, if_pos rfl] at hf
    exact (hf h).trans (decide_eq_decide.mpr ⟨fun hb => ⟨rfl, hb⟩, fun hb => hb.2⟩)

theorem ClearAfterEach.cons {e : Entry} {es : List Entry} (h : ClearAfterEach s (e :: es))
    (hu : enter s e = some t) : flag t .direction = false ∧ ClearAfterEach t es := by
  constructor
  · exact h 1 t (run_cons.mpr ⟨t, hu, rfl⟩)
  · intro n v hrun
    exact h (n + 1) v (run_cons.mpr ⟨t, hu, hrun⟩)

theorem none_above_of_clear (h : flag s .direction = false) {es : List Entry}
    (hclear : ClearAfterEach s es) : ∀ e ∈ es, ¬ e.overlapsAbove := by
  induction es generalizing s with
  | nil => simp
  | cons e es ih =>
    obtain ⟨u, hu, hf⟩ := enter_direction s e
    obtain ⟨hu', hrest⟩ := hclear.cons hu
    intro e' he'
    rcases List.mem_cons.mp he' with rfl | he'
    · exact of_decide_eq_false ((hf h).symm.trans hu')
    · exact ih hu' hrest e' he'

theorem clear_of_none_above (h : flag s .direction = false) {es : List Entry}
    (hes : ∀ e ∈ es, ¬ e.overlapsAbove) (hrun : run enter s es = some t) :
    flag t .direction = false := by
  induction es generalizing s with
  | nil =>
    obtain rfl := Option.some.inj hrun
    exact h
  | cons e es ih =>
    obtain ⟨u, hu, hrun⟩ := run_cons.mp hrun
    obtain ⟨u', hu', hf⟩ := enter_direction s e
    obtain rfl := Option.some.inj (hu'.symm.trans hu)
    refine ih ((hf h).trans (decide_eq_false (hes e (by simp)))) (fun e' he' => ?_) hrun
    exact hes e' (List.mem_cons_of_mem _ he')

theorem direction_clear_iff (h : flag s .direction = false) (es : List Entry) :
    (∃ t, run enter s es = some t) ∧
      (ClearAfterEach s es ↔ ∀ e ∈ es, ¬ e.overlapsAbove) := by
  refine ⟨?_, fun hclear => none_above_of_clear h hclear, fun hes n t hrun => ?_⟩
  · obtain ⟨t, ht, -⟩ := total (I := fun _ => True)
      (fun u e _ => (enter_direction u e).imp fun _ hv => ⟨hv.1, trivial⟩) trivial es
    exact ⟨t, ht⟩
  · exact clear_of_none_above h (fun e he => hes e (List.mem_of_mem_take he)) hrun

def start : Machine := setFlag overlapping .direction false

theorem direction_clear_sample :
    ClearAfterEach start [⟨.memcpy, overlapping⟩, ⟨.memset, overlapping⟩] ∧
      ¬ ClearAfterEach start [⟨.memcpy, overlapping⟩, ⟨.memmove, overlapping⟩] := by
  have hflag : flag start .direction = false := by decide
  constructor
  · exact (direction_clear_iff hflag [⟨.memcpy, overlapping⟩, ⟨.memset, overlapping⟩]).2.mpr (by decide)
  · rw [(direction_clear_iff hflag [⟨.memcpy, overlapping⟩, ⟨.memmove, overlapping⟩]).2]
    decide

theorem direction_not_clear : ¬ ∀ (s : Machine) (es : List Entry),
    flag s .direction = false → ClearAfterEach s es := by
  intro hall
  have hclear := hall start [⟨.memmove, overlapping⟩] (by decide)
  exact none_above_of_clear (by decide) hclear ⟨.memmove, overlapping⟩ (by simp) (by decide)

end direction

end Lasagne.Libc
