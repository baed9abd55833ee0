import Mathlib
import Lasagne.Switch.Preempt

namespace Lasagne.Switch
open ByteMemory X86 PartialRun

def World.shrink (w : World) : World :=
  let running := w.thread w.current
  let size := w.machine.sp - running.stack
  { w with thread := Function.update w.thread w.current { running with size } }

section switch
variable {p : Placement code} {w w' : World} {kind : Kind} {ret : BitVec 64} {target : Nat}

theorem shrink_thread (w : World) (x : Nat) : (w.shrink.thread x).stack = (w.thread x).stack ∧
    (w.machine.sp ≤ (w.thread w.current).stackTop →
      (w.shrink.thread x).size ≤ (w.thread x).size) := by
  rw [World.shrink, Thread.stackTop]
  by_cases hx : x = w.current
  · subst hx
    simp only [Function.update_self]
    exact ⟨trivial, fun h => by omega⟩
  · simp only [Function.update_of_ne hx]
    exact ⟨trivial, fun _ => le_rfl⟩

theorem Coherent.shrink (h : Coherent p w) (hsp : w.machine.sp ≤ (w.thread w.current).stackTop) :
    Coherent p w.shrink := by
  have hstack (x : Nat) := (shrink_thread w x).1
  have hsize (x : Nat) := (shrink_thread w x).2 hsp
  refine ⟨h.running, fun x hx => ?_, fun x hx => ?_, fun x hx y hy hxy => ?_, fun x hx hne => ?_⟩
  · have hb := h.bound x hx
    have := hsize x
    rw [Thread.stackTop] at hb ⊢
    rw [hstack]
    exact ⟨hb.1, by omega⟩
  · have ho := h.own x hx
    have := hsize x
    rw [Apart] at ho ⊢
    rw [hstack]
    omega
  · have hs := h.separate x hx y hy hxy
    have := hsize x
    have := hsize y
    simp only [Separate, Apart] at hs ⊢
    rw [hstack, hstack]
    omega
  · have hth : w.shrink.thread x = w.thread x := Function.update_of_ne hne _ _
    rw [hth]
    exact h.parked x hx hne

theorem savedSp_shrink (x : Nat) :
    savedSp p (w.shrink.suspended kind ret x) = savedSp p (w.suspended kind ret x) := by
  by_cases hx : x = w.current
  · subst hx
    have h₁ : w.shrink.suspended kind ret w.current = { w.shrink.thread w.current with
      saved := .suspended kind ret w.machine.reg } := Function.update_self _ _ _
    have h₂ : w.suspended kind ret w.current = { w.thread w.current with
      saved := .suspended kind ret w.machine.reg } := Function.update_self _ _ _
    rw [h₁, h₂]
    rfl
  · have h₁ : w.shrink.suspended kind ret x = w.shrink.thread x := Function.update_of_ne hx _ _
    have h₂ : w.shrink.thread x = w.thread x := Function.update_of_ne hx _ _
    have h₃ : w.suspended kind ret x = w.thread x := Function.update_of_ne hx _ _
    rw [h₁, h₂, h₃]

theorem Coherent.switch_mem (h : Coherent p w) (hc : w.CanSwitch p kind ret target)
    (hslot : (loadWord w.machine.mem (target + rspField)).toNat =
      savedSp p (w.suspended kind ret target))
    (hs : Switch.step p w (.switch kind ret target) = some w') :
    (∀ x, x < (w.thread w.current).stack ∨ w.machine.sp ≤ x →
      x < w.current + rspField ∨ w.current + rspField + 8 ≤ x →
      w'.machine.mem x = w.machine.mem x) ∧
      w'.threads = w.threads ∧
      ∀ x, (w'.thread x).stack = (w.thread x).stack ∧ (w'.thread x).size = (w.thread x).size := by
  obtain ⟨htarget, hret, hlow, hhigh⟩ := id hc
  have h₁ := h.shrink hhigh
  have hstack := (shrink_thread w w.current).1
  have hc₁ : w.shrink.CanSwitch p kind ret target := by
    refine ⟨htarget, hret, ?_, ?_⟩
    · change (w.shrink.thread w.current).stack + _ ≤ _
      rw [hstack]
      exact hlow
    · change w.machine.sp ≤ (w.shrink.thread w.current).stackTop
      rw [Thread.stackTop, hstack]
      simp only [World.shrink, Function.update_self]
      omega
  obtain ⟨n, hn, t, ht, hrip, hrsp, hpark, hout, -⟩ := h₁.suspend hc₁
  have hparked := hpark target htarget
  change Parked p t.mem target (w.shrink.suspended kind ret target) at hparked
  have hsp : t.sp = savedSp p (w.shrink.suspended kind ret target) := by
    rw [savedSp_shrink, ← hslot, Machine.sp, hrsp]
    rfl
  have hpl := hparked.low
  have hph := hparked.high
  have hbound := (h₁.bound target htarget).2
  simp only [Thread.stackTop, suspended_stack] at hph hbound
  obtain ⟨k, hk, u, hu, hres, hurip, humem, -⟩ := resume_spec (w.shrink.suspended kind ret target)
    hrip (hsp ▸ hparked.words) (by rw [hsp, savedSp]; omega) (by omega)
  have hfin : finish p fuel (w.called p kind ret target) = some u :=
    finish_steps (steps_trans ht hu) (hurip ▸ hparked.outside) (by rw [fuel]; omega)
  rw [Switch.step, if_pos hc, hfin, Option.map_some, Option.some.injEq] at hs
  subst hs
  refine ⟨fun x hx hx' => ?_, rfl, fun x => suspended_stack kind ret x⟩
  rw [humem]
  refine hout x ?_ hx'
  change x < (w.shrink.thread w.current).stack ∨ (w.shrink.thread w.current).stackTop ≤ x
  rw [Thread.stackTop, hstack]
  simp only [World.shrink, Function.update_self]
  omega

theorem Coherent.writes (h : Coherent p w) {m : Machine}
    (hm : ∀ a, ¬ w.MayWrite a → m.mem a = w.machine.mem a) : Coherent p { w with machine := m } := by
  refine ⟨h.running, h.bound, h.own, h.separate, fun x hx hne => ?_⟩
  refine (h.parked x hx hne).congr (fun a ha ha' => hm a fun hw => ?_)
    fun a ha ha' => hm a fun hw => ?_
  · have := (hw x hx).1
    omega
  · have := (hw x hx).2
    exact absurd this (by rintro (heq | hout); exacts [hne heq, by omega])

end switch

section computer
variable {p : Placement code} {rounds : Nat} {b : Scheduler.Boot} {c c' : Computer} {kind : Kind}
  {ret : BitVec 64}

theorem Joined.preempt_mem (h : Joined p rounds b c) (hgood : c.staysSaved rounds kind = true)
    (hs : c.preempt p rounds kind ret = some c') :
    c.world.machine.sp ≤ (c.world.thread c.world.current).stackTop ∧
      (∀ x, x < (c.world.thread c.world.current).stack ∨ c.world.machine.sp ≤ x →
        x < c.world.current + rspField ∨ c.world.current + rspField + 8 ≤ x →
        c'.world.machine.mem x = c.world.machine.mem x) ∧
      c'.world.threads = c.world.threads ∧
      ∀ x, (c'.world.thread x).stack = (c.world.thread x).stack ∧
        (c'.world.thread x).size = (c.world.thread x).size := by
  obtain ⟨system, hsys, hs⟩ := Option.bind_eq_some_iff.mp hs
  obtain ⟨world, hw, rfl⟩ := Option.map_eq_some_iff.mp hs
  have hw' := hw
  rw [Switch.step, Option.ite_none_right_eq_some] at hw'
  refine ⟨hw'.1.2.2.2, h.coherent.switch_mem hw'.1 ?_ hw⟩
  by_cases hcur : system.kernel.currentThread = c.world.current
  · have hsaved := staysSaved_self hgood hsys (hcur.trans h.current)
    have hth : c.world.suspended kind ret c.world.current = { c.world.thread c.world.current with
        saved := .suspended kind ret c.world.machine.reg } := Function.update_self _ _ _
    have hsp : savedSp p (c.world.suspended kind ret c.world.current) =
        c.world.machine.sp - 8 * World.frameLength kind := by
      rw [hth]
      cases kind <;> rfl
    rw [World.SavedHere] at hsaved
    rw [hcur, hsp]
    omega
  · have hth : c.world.suspended kind ret system.kernel.currentThread =
        c.world.thread system.kernel.currentThread := Function.update_of_ne hcur _ _
    rw [hth]
    exact (h.coherent.parked _ hw'.1.1 hcur).slot

theorem Joined.entered (h : Joined p rounds b c) {e : Event} (hs : c.step p rounds e = some c')
    (he : c.system.kernel.currentThread = b.kernelMainThread ∨ Scheduler.Entered c.system) :
    (c'.system.kernel.currentThread = b.kernelMainThread ∨ Scheduler.Entered c'.system) ∧
      (Scheduler.Entered c.system → Scheduler.Entered c'.system) := by
  have hrule {s : Scheduler.System}
      (hsame : s.kernel.currentThread = c.system.kernel.currentThread →
        Scheduler.Entered c.system → Scheduler.Entered s)
      (hother : s.kernel.currentThread ≠ c.system.kernel.currentThread → Scheduler.Entered s) :
      (s.kernel.currentThread = b.kernelMainThread ∨ Scheduler.Entered s) ∧
        (Scheduler.Entered c.system → Scheduler.Entered s) := by
    by_cases hcur : s.kernel.currentThread = c.system.kernel.currentThread
    · exact ⟨he.imp (fun hmain => hcur.trans hmain) (hsame hcur), hsame hcur⟩
    · exact ⟨.inr (hother hcur), fun _ => hother hcur⟩
  have hpreempt {kind : Kind} {ret : BitVec 64} (hs : c.preempt p rounds kind ret = some c') :
      (c'.system.kernel.currentThread = b.kernelMainThread ∨ Scheduler.Entered c'.system) ∧
        (Scheduler.Entered c.system → Scheduler.Entered c'.system) := by
    obtain ⟨system, hsys, hs⟩ := Option.bind_eq_some_iff.mp hs
    obtain ⟨world, -, rfl⟩ := Option.map_eq_some_iff.mp hs
    obtain ⟨s, hs', -, hsame, hother⟩ := h.steady.reschedule
    obtain rfl := Option.some.inj (hs'.symm.trans hsys)
    exact hrule hsame hother
  cases e with
  | compute cpu =>
    obtain rfl := Option.some.inj hs
    exact ⟨he, id⟩
  | write a v =>
    obtain ⟨world, -, rfl⟩ := Option.map_eq_some_iff.mp hs
    exact ⟨he, id⟩
  | setState thread state =>
    obtain rfl := Option.some.inj hs
    obtain ⟨s, hs', -, hsame, hother⟩ := h.steady.step (.setState thread state)
    obtain rfl := Option.some.inj hs'
    exact hrule hsame hother
  | preemptInt ret => exact hpreempt hs
  | preemptSyscall ret => exact hpreempt hs

end computer

end Lasagne.Switch
