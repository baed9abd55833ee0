import Mathlib
import Lasagne.Switch.Run

namespace Lasagne.Switch
open ByteMemory X86 PartialRun

def calleeSaved : List Reg := [.rbx, .rbp, .r12, .r13, .r14, .r15]

-- what the C callers rely on, from the call to its return
def KeepsCalleeSaved (before after : Cpu) : Prop := ∀ r ∈ calleeSaved, after.reg r = before.reg r

def Agree (before after : Cpu) : Prop :=
  ∀ r ∈ [Reg.rbx, .r12, .r13, .r14, .r15], after.reg r = before.reg r

instance (before after : Cpu) : Decidable (Agree before after) :=
  inferInstanceAs (Decidable (∀ r ∈ _, after.reg r = before.reg r))

section callee
variable {p : Placement code} {w₀ u v w w' : World} {kind kind' : Kind} {ret ret' : BitVec 64}
  {target : Nat}

theorem resumes_int (h : Coherent p w) {before : Reg → BitVec 64}
    (hc : w.CanSwitch p kind ret target) (hne : target ≠ w.current)
    (hsaved : (w.thread target).saved = .suspended .int ret' before)
    (hs : step p w (.switch kind ret target) = some w') : Agree w.machine.toCpu w'.machine.toCpu := by
  obtain ⟨n, hn, t, ht, hrip, hrsp, hpark, -, hreg⟩ := h.suspend hc
  have htarget := hpark target hc.1
  rw [Function.update_of_ne hne] at htarget
  have hframe : frame p (w.thread target) = [before .rbp, ret'] := by
    rw [frame, hsaved]
    rfl
  have hbase : (w.thread target).base ≤ (w.thread target).stackTop := htarget.high
  have hlow := htarget.low
  have hbound := (h.bound target hc.1).2
  have hsp : t.sp = savedSp p (w.thread target) := by
    rw [Machine.sp, hrsp]
    exact (h.parked target hc.1 hne).slot
  have hwords := htarget.words
  rw [← hsp, hframe] at hwords
  rw [savedSp, hframe, List.length_cons, List.length_singleton] at hsp
  rw [hframe, List.length_cons, List.length_singleton] at hlow
  obtain ⟨x, hx, hxrip, -, -, -, hxreg⟩ := restore_spec hrip hwords (by omega)
  have hout : outside p x.rip := by
    rw [hxrip]
    have := htarget.outside
    rwa [hsaved] at this
  have hfin : finish p fuel (w.called p kind ret target) = some x :=
    finish_steps (steps_trans ht hx) hout (by rw [fuel]; omega)
  rw [step, if_pos hc, hfin, Option.map_some, Option.some.injEq] at hs
  subst hs
  intro r hr
  have hkept (hbp : r ≠ .rbp) (hout : r ∉ [Reg.rdi, .rsi, .rsp]) : x.reg r = w.machine.reg r :=
    (hxreg r hbp fun h => hout (by simp [h])).trans (hreg r hout)
  simp only [List.mem_cons, List.not_mem_nil, or_false] at hr
  rcases hr with rfl | rfl | rfl | rfl | rfl <;> exact hkept (by decide) (by decide)

theorem agree_iff {a b c : Cpu} (h : Agree b c) (hbp : c.reg .rbp = a.reg .rbp) :
    KeepsCalleeSaved a c ↔ Agree a b := by
  simp only [Agree, KeepsCalleeSaved, calleeSaved, List.forall_mem_cons, List.not_mem_nil,
    false_implies, implies_true, and_true] at *
  simp only [h, hbp, true_and]

theorem resumes_suspended (h : Coherent p w) {before : Reg → BitVec 64}
    (hc : w.CanSwitch p kind' ret' target) (hne : target ≠ w.current)
    (hsaved : (w.thread target).saved = .suspended kind ret before) :
    ∃ w', step p w (.switch kind' ret' target) = some w' ∧ w'.machine.rip = ret ∧
      w'.machine.reg .rbp = before .rbp ∧
      match kind with
      | .int => Agree w.machine.toCpu w'.machine.toCpu
      | .sys => ∀ r ∈ [Reg.rbx, .r12, .r13, .r14, .r15], w'.machine.reg r = before r := by
  obtain ⟨w', hs, -, -, -, hres, -⟩ := h.switch hc hne
  rw [Resumed, hsaved] at hres
  refine ⟨w', hs, hres.1, hres.2.2.1, ?_⟩
  cases kind with
  | int => exact resumes_int h hc hne hsaved hs
  | sys => exact hres.2.2.2 rfl

theorem callee_saved_iff (p : Placement code) {acts acts' : List Action} (h₀ : Start w₀)
    (hrun : run (step p) w₀ acts = some u) (hother : throughout (step p) toOther w₀ acts = true)
    (hne : target ≠ u.current) (hcall : step p u (.switch kind ret target) = some v)
    (hrun' : run (step p) v acts' = some w)
    (hother' : throughout (step p)
      (fun w a => toOther w a && decide (u.current ≠ w.current)) v acts' = true)
    (hback : w.CanSwitch p kind' ret' u.current) (hw : u.current ≠ w.current) :
    ∃ w', step p w (.switch kind' ret' u.current) = some w' ∧ w'.machine.rip = ret ∧
      (KeepsCalleeSaved u.machine.toCpu w'.machine.toCpu ↔
        kind = .sys ∨ Agree u.machine.toCpu w.machine.toCpu) := by
  have hu : Coherent p u :=
    invariant (fun s a t hs ha ht => hs.step ha ht) h₀.coherent hrun hother
  obtain ⟨hco, heq⟩ := suspended_kept hu hne hcall hrun' hother'
  obtain ⟨w', hs, hrip, hbp, hregs⟩ := resumes_suspended hco hback hw (congrArg Thread.saved heq)
  refine ⟨w', hs, hrip, ?_⟩
  cases kind with
  | int => simpa using agree_iff hregs hbp
  | sys =>
    refine ⟨fun _ => .inl rfl, fun _ r hr => ?_⟩
    rcases List.mem_cons.mp hr with rfl | hr
    · exact hregs _ (by decide)
    · rcases List.mem_cons.mp hr with rfl | hr
      · exact hbp
      · exact hregs _ (List.mem_cons_of_mem _ hr)

end callee

section sample

def sampleCpu (x : BitVec 64) : Cpu where
  reg r := if r = .rsp then 0xb000 else x
  rip := 0x300000
  rflags := 0
  cs := 8
  ss := 16

theorem sampleCreated_coherent : Coherent samplePlacement sampleCreated :=
  invariant (fun _ _ _ hs ha ht => hs.step ha ht)
    (Start.coherent ⟨rfl, by decide, by decide⟩) run_sampleCreated rfl

theorem sample_switch (x : BitVec 64) : ∃ v w,
    step samplePlacement sampleCreated (.switch .int 0x300000 0x2000) = some v ∧
      run (step samplePlacement) v [.compute (sampleCpu x)] = some w ∧
      throughout (step samplePlacement) (fun w a => toOther w a &&
        decide (sampleCreated.current ≠ w.current)) v [.compute (sampleCpu x)] = true ∧
      w.CanSwitch samplePlacement .int 0x300000 0x1000 ∧ w.current = 0x2000 ∧
      w.machine.toCpu = sampleCpu x := by
  have hc : sampleCreated.CanSwitch samplePlacement .int 0x300000 0x2000 := by decide
  obtain ⟨v, hv, -⟩ := sampleCreated_coherent.switch hc (by decide)
  obtain ⟨hcur, hthreads, hthreads'⟩ := switch_world hv
  have hthread : v.thread 0x2000 = Thread.new 0xa000 0x200000 8 16 0 := by
    rw [hthreads']
    rfl
  refine ⟨v, { v with machine := ⟨sampleCpu x, v.machine.mem⟩ }, hv, rfl, ?_, ?_, hcur, rfl⟩
  · rw [throughout, hcur]
    rfl
  · refine ⟨?_, by decide, ?_⟩
    · rw [hthreads]
      decide
    · rw [hcur, hthread]
      exact ⟨Nat.le_of_ble_eq_true rfl, Nat.le_of_ble_eq_true rfl⟩

theorem callee_saved_iff_sample : ∃ v w w',
    step samplePlacement sampleCreated (.switch .int 0x300000 0x2000) = some v ∧
      run (step samplePlacement) v [.compute (sampleCpu 0x7000)] = some w ∧
      step samplePlacement w (.switch .int 0x300000 0x1000) = some w' ∧
      w'.machine.rip = 0x300000 ∧ KeepsCalleeSaved sampleCreated.machine.toCpu w'.machine.toCpu := by
  obtain ⟨v, w, hcall, hrun, hother, hback, hcur, hcpu⟩ := sample_switch 0x7000
  obtain ⟨w', hs, hrip, hiff⟩ := callee_saved_iff samplePlacement ⟨rfl, by decide, by decide⟩
    run_sampleCreated rfl (by decide) hcall hrun hother hback (by rw [hcur]; decide)
  refine ⟨v, w, w', hcall, hrun, hs, hrip, hiff.mpr (.inr ?_)⟩
  rw [hcpu]
  decide

-- rbx was 0x7000 at the call of preempt_int
theorem callee_saved_lost : ¬ ∀ (p : Placement code) (w₀ u v w w' : World)
    (acts acts' : List Action) (kind kind' : Kind) (ret ret' : BitVec 64) (target : Nat), Start w₀ →
    run (step p) w₀ acts = some u → throughout (step p) toOther w₀ acts = true →
    target ≠ u.current → step p u (.switch kind ret target) = some v →
    run (step p) v acts' = some w →
    throughout (step p) (fun w a => toOther w a && decide (u.current ≠ w.current)) v acts' = true →
    u.current ≠ w.current → step p w (.switch kind' ret' u.current) = some w' →
    KeepsCalleeSaved u.machine.toCpu w'.machine.toCpu := by
  intro h
  obtain ⟨v, w, hcall, hrun, hother, hback, hcur, hcpu⟩ := sample_switch 1
  obtain ⟨hco, heq⟩ := suspended_kept sampleCreated_coherent (by decide) hcall hrun hother
  obtain ⟨w', hs, -, -, hregs⟩ := resumes_suspended hco hback (by rw [hcur]; decide)
    (congrArg Thread.saved heq)
  have hkeeps := h samplePlacement sampleBoot sampleCreated v w w' _ _ .int .int _ _ 0x2000
    ⟨rfl, by decide, by decide⟩ run_sampleCreated rfl (by decide) hcall hrun hother
    (by rw [hcur]; decide) hs
  have hbx := (hregs .rbx (by decide)).symm.trans (hkeeps .rbx (by decide))
  rw [hcpu] at hbx
  exact absurd hbx (by decide)

end sample

end Lasagne.Switch
