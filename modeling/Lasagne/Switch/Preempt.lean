import Mathlib
import Lasagne.Switch.Run
import Lasagne.Task.Current

namespace Lasagne.Switch
open ByteMemory X86 PartialRun

structure Computer where
  system : Scheduler.System
  world : World

section computer
variable (p : Placement code) (rounds : Nat)

-- ret is where the call of switch_task_int or switch_task_sys returns to
def Computer.preempt (kind : Kind) (c : Computer) (ret : BitVec 64) : Option Computer :=
  (Scheduler.reschedule rounds c.system).bind fun system =>
    (step p c.world (.switch kind ret system.kernel.currentThread)).map fun world =>
      { system, world }

def Computer.preemptInt (c : Computer) (ret : BitVec 64) : Option Computer :=
  c.preempt p rounds .int ret

def Computer.preemptSyscall (c : Computer) (ret : BitVec 64) : Option Computer :=
  c.preempt p rounds .sys ret

inductive Event where
  | compute (cpu : Cpu)
  | write (a : Nat) (b : BitVec 8)
  | setState (thread : Nat) (state : Scheduler.ThreadState)
  | preemptInt (ret : BitVec 64)
  | preemptSyscall (ret : BitVec 64)

def Computer.step (c : Computer) : Event → Option Computer
  | .compute cpu => (Switch.step p c.world (.compute cpu)).map fun world => { c with world }
  | .write a b => (Switch.step p c.world (.write a b)).map fun world => { c with world }
  | .setState thread state =>
    (Scheduler.step rounds c.system (.setState thread state)).map fun system => { c with system }
  | .preemptInt ret => c.preemptInt p rounds ret
  | .preemptSyscall ret => c.preemptSyscall p rounds ret

def Action.created : Action → Option (Nat × Nat)
  | .create self stack _ _ _ _ => some (self, stack)
  | _ => none

def Action.isSwitch : Action → Bool
  | .switch _ _ _ => true
  | _ => false

-- initialize_tasks has run: the main thread has created the others and has not been suspended
structure Booted (b : Scheduler.Boot) (c : Computer) : Prop where
  system : c.system = b.initializeTasks
  world : ∃ w₀ acts, Start w₀ ∧ w₀.current = b.kernelMainThread ∧ run (Switch.step p) w₀ acts = some c.world ∧
    acts.any Action.isSwitch = false ∧
    acts.filterMap Action.created = [(b.idle.thread, b.idle.stack), (b.sth.thread, b.sth.stack),
      (b.user₁.thread, b.user₁.stack), (b.user₀.thread, b.user₀.stack)]

-- the stack pointer the thread structure holds is the one the routine is going to store
def World.SavedHere (w : World) (kind : Kind) : Prop :=
  (loadWord w.machine.mem (w.current + rspField)).toNat + 8 * World.frameLength kind = w.machine.sp

instance (w : World) (kind : Kind) : Decidable (w.SavedHere kind) :=
  inferInstanceAs (Decidable (_ = _))

def Computer.staysSaved (c : Computer) (kind : Kind) : Bool :=
  match Scheduler.reschedule rounds c.system with
  | none => true
  | some system =>
    system.kernel.currentThread ≠ c.system.kernel.currentThread || c.world.SavedHere kind

-- a thread that is its own successor has last been suspended at this very place
def savedHere (c : Computer) : Event → Bool
  | .preemptInt _ => c.staysSaved rounds .int
  | .preemptSyscall _ => c.staysSaved rounds .sys
  | _ => true

end computer

section switch
variable {p : Placement code} {w w' : World} {kind : Kind} {ret : BitVec 64}

theorem Coherent.switch_self (h : Coherent p w) (hc : w.CanSwitch p kind ret w.current)
    (hsaved : w.SavedHere kind) :
    ∃ w', Switch.step p w (.switch kind ret w.current) = some w' ∧ Coherent p w' ∧
      w'.current = w.current ∧ w'.threads = w.threads ∧ w'.machine.rip = ret ∧
      w'.machine.reg .rsp = w.machine.reg .rsp ∧ w'.machine.reg .rbp = w.machine.reg .rbp := by
  have hth : w.suspended kind ret w.current = { w.thread w.current with
      saved := .suspended kind ret w.machine.reg } := Function.update_self _ _ _
  have hsp : savedSp p (w.suspended kind ret w.current) =
      w.machine.sp - 8 * World.frameLength kind := by
    rw [hth]
    cases kind <;> rfl
  obtain ⟨w', hs, hco, hcur, hthreads, hres, -⟩ := h.exchange hc (by rw [hsp, ← hsaved]; omega)
  rw [hth] at hres
  exact ⟨w', hs, hco, hcur, hthreads, hres.1, hres.2.1, hres.2.2.1⟩

theorem Coherent.saved_here (h : Coherent p w) {target : Nat} {kind' : Kind} {ret' : BitVec 64}
    {reg : Reg → BitVec 64} (hc : w.CanSwitch p kind ret target) (hne : target ≠ w.current)
    (hsaved : (w.thread target).saved = .suspended kind' ret' reg)
    (hs : Switch.step p w (.switch kind ret target) = some w') : w'.SavedHere kind' := by
  obtain ⟨u, hu, -, hcur, -, hres, -, hparked⟩ := h.switch hc hne
  obtain rfl := Option.some.inj (hu.symm.trans hs)
  have hslot := hparked.slot
  have hlow := hparked.low
  have hlen : 8 * (saves p reg kind' ++ [ret']).length = 8 * World.frameLength kind' := by
    cases kind' <;> rfl
  rw [savedSp] at hslot
  simp only [Resumed, Thread.base, frame, hsaved] at hres hslot hlow
  rw [World.SavedHere, hcur, hslot, Machine.sp, hres.2.1]
  omega

theorem step_created {a : Action} (ha : a.isSwitch = false) (hs : Switch.step p w a = some w') :
    w'.current = w.current ∧
      ∀ x, x ∈ w.threads ∨ x ∈ a.created.toList.map Prod.fst → x ∈ w'.threads := by
  cases a with
  | compute cpu =>
    obtain rfl := Option.some.inj hs
    exact ⟨rfl, by simp [Action.created]⟩
  | write a b =>
    rw [Switch.step, Option.ite_none_right_eq_some] at hs
    obtain rfl := Option.some.inj hs.2
    exact ⟨rfl, by simp [Action.created]⟩
  | create self stack main cs ss usermodeStack =>
    simp only [Switch.step, Option.ite_none_right_eq_some] at hs
    obtain rfl := Option.some.inj hs.2
    exact ⟨rfl, fun x hx => by simp [Action.created] at hx ⊢; tauto⟩
  | switch kind ret target => cases ha

theorem Coherent.created {acts : List Action} (h : Coherent p w)
    (hrun : run (Switch.step p) w acts = some w') (hacts : acts.any Action.isSwitch = false) :
    Coherent p w' ∧ w'.current = w.current ∧
      ∀ x, x ∈ w.threads ∨ x ∈ (acts.filterMap Action.created).map Prod.fst → x ∈ w'.threads := by
  induction acts generalizing w with
  | nil =>
    obtain rfl : w = w' := Option.some.inj hrun
    exact ⟨h, rfl, by simp⟩
  | cons a acts ih =>
    obtain ⟨u, hu, hrun⟩ := run_cons.mp hrun
    rw [List.any_cons, Bool.or_eq_false_iff] at hacts
    have hother : toOther w a = true := by
      cases a with
      | switch kind ret target => cases hacts.1
      | _ => rfl
    obtain ⟨hcur, hthreads⟩ := step_created hacts.1 hu
    obtain ⟨hco, hcur', hthreads'⟩ := ih (h.step hother hu) hrun hacts.2
    refine ⟨hco, hcur'.trans hcur, fun x hx => hthreads' x ?_⟩
    rw [List.filterMap_cons] at hx
    have hsplit : x ∈ w.threads ∨ x ∈ a.created.toList.map Prod.fst ∨
        x ∈ (acts.filterMap Action.created).map Prod.fst := by
      cases ha : a.created <;> rw [ha] at hx <;> simpa using hx
    rcases hsplit with hx | hx | hx
    · exact .inl (hthreads x (.inl hx))
    · exact .inl (hthreads x (.inr hx))
    · exact .inr hx

end switch

section runs
variable {p : Placement code} {rounds : Nat} {b : Scheduler.Boot} {c c' : Computer}

structure Joined (p : Placement code) (rounds : Nat) (b : Scheduler.Boot) (c : Computer) : Prop where
  steady : Scheduler.Steady rounds b.owned c.system
  coherent : Coherent p c.world
  current : c.world.current = c.system.kernel.currentThread
  threads : ∀ x ∈ b.owned, x ∈ c.world.threads

theorem Booted.joined (h : Booted p b c) (hr : 3 ≤ rounds) : Joined p rounds b c := by
  obtain ⟨w₀, acts, hstart, hmain, hrun, hacts, hcreated⟩ := h.world
  obtain ⟨hco, hcur, hthreads⟩ := hstart.coherent.created hrun hacts
  have hch := b.initializeTasks_chosen
  refine ⟨h.system ▸ b.steady hr, hco, ?_, fun x hx => hthreads x ?_⟩
  · rw [hcur, hmain, h.system]
    exact (Prod.mk.inj hch).1.symm
  · rw [hstart.threads, hmain, hcreated]
    simp only [Scheduler.Boot.owned, List.mem_cons, List.not_mem_nil, or_false] at hx
    simp
    tauto

theorem staysSaved_self {kind : Kind} {system : Scheduler.System}
    (hgood : c.staysSaved rounds kind = true) (hs : Scheduler.reschedule rounds c.system = some system)
    (hself : system.kernel.currentThread = c.system.kernel.currentThread) :
    c.world.SavedHere kind := by
  rw [Computer.staysSaved, hs] at hgood
  simpa [hself] using hgood

theorem Joined.switch (h : Joined p rounds b c) {kind : Kind} {ret : BitVec 64} {target : Nat}
    {world : World} (hself : target = c.world.current → c.world.SavedHere kind)
    (hs : Switch.step p c.world (.switch kind ret target) = some world) :
    Coherent p world ∧ world.current = target ∧ world.threads = c.world.threads := by
  have hs' := hs
  rw [Switch.step, Option.ite_none_right_eq_some] at hs'
  by_cases hcur : target = c.world.current
  · obtain ⟨w, hw, hco, hwcur, hthreads, -⟩ :=
      h.coherent.switch_self (hcur ▸ hs'.1) (hself hcur)
    rw [← hcur] at hw hwcur
    obtain rfl := Option.some.inj (hw.symm.trans hs)
    exact ⟨hco, hwcur, hthreads⟩
  · obtain ⟨w, hw, hco, hwcur, hthreads, -⟩ := h.coherent.switch hs'.1 hcur
    obtain rfl := Option.some.inj (hw.symm.trans hs)
    exact ⟨hco, hwcur, hthreads⟩

theorem Joined.preempt (h : Joined p rounds b c) {kind : Kind} {ret : BitVec 64}
    (hgood : c.staysSaved rounds kind = true) (hs : c.preempt p rounds kind ret = some c') :
    Joined p rounds b c' := by
  obtain ⟨system, hsys, hs⟩ := Option.bind_eq_some_iff.mp hs
  obtain ⟨world, hw, rfl⟩ := Option.map_eq_some_iff.mp hs
  obtain ⟨s, hs', hsteady, -⟩ := h.steady.reschedule
  obtain rfl := Option.some.inj (hs'.symm.trans hsys)
  obtain ⟨hco, hcur, hthreads⟩ := h.switch (fun hself => staysSaved_self hgood hsys
    (hself.trans h.current)) hw
  exact ⟨hsteady, hco, hcur, fun x hx => hthreads ▸ h.threads x hx⟩

theorem Joined.step (h : Joined p rounds b c) {e : Event} (hgood : savedHere rounds c e = true)
    (hs : c.step p rounds e = some c') : Joined p rounds b c' := by
  cases e with
  | compute cpu =>
    obtain rfl := Option.some.inj hs
    exact ⟨h.steady, h.coherent.step (a := .compute cpu) rfl rfl, h.current, h.threads⟩
  | write a v =>
    obtain ⟨world, hw, rfl⟩ := Option.map_eq_some_iff.mp hs
    have hco := h.coherent.step (a := .write a v) rfl hw
    rw [Switch.step, Option.ite_none_right_eq_some] at hw
    obtain rfl := Option.some.inj hw.2
    exact ⟨h.steady, hco, h.current, h.threads⟩
  | setState thread state =>
    obtain rfl := Option.some.inj hs
    obtain ⟨s, hs', hsteady, -⟩ := h.steady.step (.setState thread state)
    obtain rfl := Option.some.inj hs'
    exact ⟨hsteady, h.coherent, h.current, h.threads⟩
  | preemptInt ret => exact h.preempt hgood hs
  | preemptSyscall ret => exact h.preempt hgood hs

end runs

def Kind.preempts (ret : BitVec 64) : Kind → Event
  | .int => .preemptInt ret
  | .sys => .preemptSyscall ret

section event
variable {p : Placement code} {rounds : Nat} {c : Computer} {system : Scheduler.System}

theorem preempt_eq (kind : Kind) {ret : BitVec 64} {world : World}
    (hs : Scheduler.reschedule rounds c.system = some system)
    (hw : Switch.step p c.world (.switch kind ret system.kernel.currentThread) = some world) :
    c.step p rounds (kind.preempts ret) = some ⟨system, world⟩ := by
  have hpre : c.preempt p rounds kind ret = some ⟨system, world⟩ := by
    rw [Computer.preempt, hs, Option.bind_some, hw, Option.map_some]
  cases kind <;> exact hpre

theorem savedHere_of_other (kind : Kind) {ret : BitVec 64}
    (hs : Scheduler.reschedule rounds c.system = some system)
    (hne : system.kernel.currentThread ≠ c.system.kernel.currentThread) :
    savedHere rounds c (kind.preempts ret) = true := by
  have hstay : c.staysSaved rounds kind = true := by
    rw [Computer.staysSaved, hs]
    simp [hne]
  cases kind <;> exact hstay

theorem savedHere_of_saved {kind : Kind} {ret : BitVec 64} (h : c.world.SavedHere kind) :
    savedHere rounds c (kind.preempts ret) = true := by
  have hstay : c.staysSaved rounds kind = true := by
    rw [Computer.staysSaved]
    split
    · rfl
    · simp [h]
  cases kind <;> exact hstay

end event

theorem self_preempt_returns (p : Placement code) (b : Scheduler.Boot) {rounds : Nat}
    (hr : 3 ≤ rounds) {c₀ c : Computer} (h₀ : Booted p b c₀) {events : List Event}
    (hrun : run (Computer.step p rounds) c₀ events = some c)
    (hgood : throughout (Computer.step p rounds) (savedHere rounds) c₀ events = true) {kind : Kind}
    {ret : BitVec 64} (hc : c.world.CanSwitch p kind ret c.world.current)
    {system : Scheduler.System} (hs : Scheduler.reschedule rounds c.system = some system)
    (hself : system.kernel.currentThread = c.system.kernel.currentThread)
    (hsaved : savedHere rounds c (kind.preempts ret) = true) :
    ∃ c', c.step p rounds (kind.preempts ret) = some c' ∧ c'.system = system ∧
      c'.world.machine.rip = ret ∧ c'.world.machine.reg .rsp = c.world.machine.reg .rsp ∧
      c'.world.machine.reg .rbp = c.world.machine.reg .rbp := by
  have hj : Joined p rounds b c :=
    invariant (fun s a t hs ha ht => hs.step ha ht) (h₀.joined hr) hrun hgood
  have hstay : c.staysSaved rounds kind = true := by
    cases kind <;> exact hsaved
  obtain ⟨w, hw, -, -, -, hrip, hrsp, hrbp⟩ :=
    hj.coherent.switch_self hc (staysSaved_self hstay hs hself)
  rw [hj.current, ← hself] at hw
  exact ⟨⟨system, w⟩, preempt_eq kind hs hw, rfl, hrip, hrsp, hrbp⟩

section stale
variable {p : Placement code} {w w' : World} {ret : BitVec 64}

theorem Coherent.switch_stale (h : Coherent p w) (hc : w.CanSwitch p .int ret w.current) {v : Nat}
    (hslot : (loadWord w.machine.mem (w.current + rspField)).toNat = v)
    (hstack : v + 16 ≤ (w.thread w.current).stack) (hown : v + 16 ≤ w.current)
    (hout : outside p (loadWord w.machine.mem (v + 8))) :
    ∃ w', Switch.step p w (.switch .int ret w.current) = some w' ∧
      w'.machine.rip = loadWord w.machine.mem (v + 8) ∧ w'.machine.sp = v + 16 := by
  obtain ⟨n, hn, t, ht, hrip, hrsp, -, hmem, -⟩ := h.suspend hc
  have hbound := (h.bound w.current hc.1).1
  rw [threadSize] at hbound
  have hsp : t.sp = v := by rw [Machine.sp, hrsp, hslot]
  have hsame (x : Nat) (hx : x < v + 16) : t.mem x = w.machine.mem x :=
    hmem x (.inl (by omega)) (.inl (by omega))
  have hret : loadWord t.mem (v + 8) = loadWord w.machine.mem (v + 8) :=
    loadWord_congr fun x _ hx => hsame x (by omega)
  have hwords : Holds t.mem t.sp [loadWord t.mem v, loadWord t.mem (v + 8)] :=
    hsp ▸ ⟨rfl, rfl, trivial⟩
  obtain ⟨u, hu, hurip, husp, -⟩ := restore_spec hrip hwords (by omega)
  have hfin : finish p fuel (w.called p .int ret w.current) = some u :=
    finish_steps (steps_trans ht hu) (by rw [hurip, hret]; exact hout) (by rw [fuel]; omega)
  exact ⟨_, by rw [Switch.step, if_pos hc, hfin]; rfl, hurip.trans hret, by rw [← hsp]; exact husp⟩

theorem create_available (self stack : Nat) (main cs ss usermodeStack : BitVec 64)
    (hav : w.Available self (Thread.new stack main cs ss usermodeStack)) (hmain : outside p main) :
    ∃ w', Switch.step p w (.create self stack main cs ss usermodeStack) = some w' ∧
      w'.machine.toCpu = w.machine.toCpu ∧ w'.threads = self :: w.threads ∧
      w'.thread = Function.update w.thread self (Thread.new stack main cs ss usermodeStack) ∧
      loadWord w'.machine.mem (self + stackTopField) = BitVec.ofNat 64 (stack + defaultStackSize) ∧
      ∀ x, x < self ∨ self + threadSize ≤ x → x < stack → w'.machine.mem x = w.machine.mem x := by
  obtain ⟨-, hout⟩ := createThread_spec (p := p) w.machine.mem cs ss usermodeStack
    hav.2.1 hav.2.2.1 hmain
  have htop := createThread_top (p := p) w.machine.mem main cs ss usermodeStack hav.2.1 hav.2.2.1
  exact ⟨_, if_pos ⟨hav, hmain⟩, rfl, rfl, rfl, htop, fun x hx hx' => hout x hx (.inl hx')⟩

end stale

def sampleStart (m : Memory) : World where
  machine := ⟨⟨fun _ => 0xb000, 0x300000, 0, 8, 16⟩, m⟩
  threads := [0x200]
  thread _ := ⟨0x8000, 0x4000, .fresh 0 0 0 0⟩
  current := 0x200

def sampleCreates : List Action :=
  [.create 0x300 0x10000 0x200000 8 16 0, .create 0x400 0x20000 0x201000 8 16 0,
    .create 0x500 0x30000 0x100000 0x23 0x1b 0x201000,
    .create 0x700 0x40000 0x100000 0x23 0x1b 0x201000]

def sampleEvents : List Event :=
  [.setState 0x400 .waiting, .setState 0x500 .waiting, .setState 0x700 .waiting]

def withState (s : Scheduler.System) (thread : Nat) (state : Scheduler.ThreadState) :
    Scheduler.System :=
  { s with kernel := Scheduler.setState s.kernel thread state }

def sampleSystem : Scheduler.System :=
  withState (withState (withState Scheduler.sampleBoot.initializeTasks 0x400 .waiting) 0x500
    .waiting) 0x700 .waiting

def kernelPlacement : Placement code where
  addr i := BitVec.ofNat 64 (0xFFFFFFFF80100000 + 16 * i)
  distinct i hi j hj h := by
    have hlen : code.length = 45 := rfl
    have := congrArg BitVec.toNat h
    rw [BitVec.toNat_ofNat, BitVec.toNat_ofNat, Nat.mod_eq_of_lt (by omega),
      Nat.mod_eq_of_lt (by omega)] at this
    omega

theorem sampleCreates_run (m : Memory) :
    ∃ w, run (Switch.step kernelPlacement) (sampleStart m) sampleCreates = some w ∧
      w.machine.toCpu = (sampleStart m).machine.toCpu ∧ (∀ x < 0x300, w.machine.mem x = m x) ∧
      w.thread 0x200 = (sampleStart m).thread 0x200 ∧
      w.thread 0x400 = Thread.new 0x20000 0x201000 8 16 0 ∧
      w.thread 0x500 = Thread.new 0x30000 0x100000 0x23 0x1b 0x201000 ∧
      loadWord w.machine.mem 0x508 = 0x32000#64 := by
  obtain ⟨w₁, h₁, hcpu₁, hthreads₁, hthread₁, -, hmem₁⟩ := create_available (p := kernelPlacement)
    (w := sampleStart m) 0x300 0x10000 0x200000 8 16 0
    (by rw [World.Available]; simp only [sampleStart]; decide) (by decide)
  obtain ⟨w₂, h₂, hcpu₂, hthreads₂, hthread₂, -, hmem₂⟩ := create_available (p := kernelPlacement)
    (w := w₁) 0x400 0x20000 0x201000 8 16 0
    (by rw [World.Available, hthreads₁, hthread₁]; simp only [sampleStart]; decide) (by decide)
  obtain ⟨w₃, h₃, hcpu₃, hthreads₃, hthread₃, htop, hmem₃⟩ := create_available
    (p := kernelPlacement) (w := w₂) 0x500 0x30000 0x100000 0x23 0x1b 0x201000
    (by rw [World.Available, hthreads₂, hthread₂, hthreads₁, hthread₁]; simp only [sampleStart]; decide)
    (by decide)
  obtain ⟨w₄, h₄, hcpu₄, -, hthread₄, -, hmem₄⟩ := create_available (p := kernelPlacement)
    (w := w₃) 0x700 0x40000 0x100000 0x23 0x1b 0x201000
    (by
      rw [World.Available, hthreads₃, hthread₃, hthreads₂, hthread₂, hthreads₁, hthread₁]
      simp only [sampleStart]
      decide)
    (by decide)
  refine ⟨w₄, run_cons.mpr ⟨w₁, h₁, run_cons.mpr ⟨w₂, h₂, run_cons.mpr ⟨w₃, h₃,
    run_cons.mpr ⟨w₄, h₄, rfl⟩⟩⟩⟩, by rw [hcpu₄, hcpu₃, hcpu₂, hcpu₁], fun x hx => ?_, ?_, ?_, ?_, ?_⟩
  · rw [hmem₄ x (.inl (by omega)) (by omega), hmem₃ x (.inl (by omega)) (by omega),
      hmem₂ x (.inl (by omega)) (by omega), hmem₁ x (.inl (by omega)) (by omega)]
    rfl
  · rw [hthread₄, hthread₃, hthread₂, hthread₁]
    rfl
  · rw [hthread₄, hthread₃, hthread₂]
    rfl
  · rw [hthread₄, hthread₃]
    rfl
  · rw [loadWord_congr fun x hx hx' => hmem₄ x (.inl (by omega)) (by omega)]
    exact htop

structure SampleBooted (m : Memory) (c : Computer) : Prop where
  booted : Booted kernelPlacement Scheduler.sampleBoot c
  system : c.system = Scheduler.sampleBoot.initializeTasks
  coherent : Coherent kernelPlacement c.world
  current : c.world.current = 0x200
  threads : ∀ x ∈ [0x200, 0x300, 0x400, 0x500, 0x700], x ∈ c.world.threads
  cpu : c.world.machine.toCpu = (sampleStart m).machine.toCpu
  mem : ∀ x < 0x300, c.world.machine.mem x = m x
  main : c.world.thread 0x200 = (sampleStart m).thread 0x200
  sth : c.world.thread 0x400 = Thread.new 0x20000 0x201000 8 16 0
  user : c.world.thread 0x500 = Thread.new 0x30000 0x100000 0x23 0x1b 0x201000
  top : loadWord c.world.machine.mem 0x508 = 0x32000#64

theorem sampleBooted (m : Memory) : ∃ c, SampleBooted m c := by
  obtain ⟨w, hrun, hcpu, hmem, hmain, hsth, huser, htop⟩ := sampleCreates_run m
  have hstart : Start (sampleStart m) := ⟨rfl, by simp only [sampleStart]; decide,
    by simp only [sampleStart]; decide⟩
  obtain ⟨hco, hcur, hthreads⟩ := (hstart.coherent (p := kernelPlacement)).created hrun rfl
  refine ⟨⟨Scheduler.sampleBoot.initializeTasks, w⟩, ⟨rfl, sampleStart m, sampleCreates, hstart, rfl,
    hrun, rfl, rfl⟩, rfl, hco, hcur, fun x hx => hthreads x ?_, hcpu, hmem, hmain, hsth, huser, htop⟩
  simp only [List.mem_cons, List.not_mem_nil, or_false] at hx
  rcases hx with rfl | rfl | rfl | rfl | rfl
  · exact .inl (by simp [sampleStart])
  all_goals exact .inr (by decide)

section sample
variable {m : Memory} {c : Computer} (h : SampleBooted m c)
include h

theorem SampleBooted.eq_mk : c = ⟨Scheduler.sampleBoot.initializeTasks, c.world⟩ := by
  rw [← h.system]

theorem SampleBooted.sp : c.world.machine.sp = 0xb000 := by
  rw [Machine.sp, h.cpu]
  rfl

theorem SampleBooted.canSwitch {kind : Kind} {target : Nat}
    (ht : target ∈ [0x200, 0x300, 0x400, 0x500, 0x700]) :
    c.world.CanSwitch kernelPlacement kind 0x300000 target := by
  refine ⟨h.threads target ht, by decide, ?_, ?_⟩
  · rw [h.current, h.main, h.sp]
    simp only [sampleStart]
    cases kind <;> decide
  · rw [h.current, h.main, h.sp]
    simp only [sampleStart]
    decide

theorem SampleBooted.there_and_back :
    ∃ w₁ w₂, Switch.step kernelPlacement c.world (.switch .int 0x300000 0x400) = some w₁ ∧
      Switch.step kernelPlacement w₁ (.switch .int 0x201010 0x200) = some w₂ ∧ w₂.current = 0x200 ∧
      w₂.SavedHere .int ∧ w₂.machine.reg .rsp = 0xb000 ∧
      w₂.CanSwitch kernelPlacement .int 0x300000 w₂.current := by
  have hne₁ : 0x400 ≠ c.world.current := by rw [h.current]; decide
  have hc₁ : c.world.CanSwitch kernelPlacement .int 0x300000 0x400 := h.canSwitch (by decide)
  obtain ⟨w₁, hw₁, hco₁, -, -, hres₁, -⟩ := h.coherent.switch hc₁ hne₁
  obtain ⟨hcur, hthreads, hthread⟩ := switch_world hw₁
  rw [h.sth] at hres₁
  obtain ⟨-, -, -, -, hrsp₁, -⟩ := hres₁
  have hsth : w₁.thread 0x400 = Thread.new 0x20000 0x201000 8 16 0 := by
    rw [hthread, ← h.sth]
    exact Function.update_of_ne hne₁ _ _
  have hmain : w₁.thread 0x200 = { (sampleStart m).thread 0x200 with
      saved := .suspended .int 0x300000 c.world.machine.reg } := by
    rw [hthread, World.suspended, h.current, Function.update_self, h.main]
  have hc₂ : w₁.CanSwitch kernelPlacement .int 0x201010 0x200 := by
    rw [World.CanSwitch, hthreads, hcur, hsth, Machine.sp, hrsp₁]
    exact ⟨h.threads _ (by decide), by decide, by decide, by decide⟩
  have hne₂ : 0x200 ≠ w₁.current := by rw [hcur]; decide
  obtain ⟨w₂, hw₂, -, -, -, hres₂, -⟩ := hco₁.switch hc₂ hne₂
  obtain ⟨hcur', hthreads', hthread'⟩ := switch_world hw₂
  have hsaved := hco₁.saved_here hc₂ hne₂ (congrArg Thread.saved hmain) hw₂
  rw [hmain] at hres₂
  obtain ⟨hrip₂, hrsp₂, -⟩ := hres₂
  have hmain₂ : w₂.thread 0x200 = w₁.thread 0x200 := by
    rw [hthread']
    exact Function.update_of_ne hne₂ _ _
  have hrsp : w₂.machine.reg .rsp = 0xb000 := by
    rw [hrsp₂, h.cpu]
    rfl
  have hc₃ : w₂.CanSwitch kernelPlacement .int 0x300000 w₂.current := by
    rw [World.CanSwitch, hthreads', hthreads, hcur', hmain₂, hmain, Machine.sp, hrsp]
    simp only [sampleStart, Thread.stackTop]
    exact ⟨h.threads _ (by decide), by decide, by decide, by decide⟩
  exact ⟨w₁, w₂, hw₁, hw₂, hcur', hsaved, hrsp, hc₃⟩

end sample

theorem sampleSystem_self : ∃ s, Scheduler.reschedule 3 sampleSystem = some s ∧
    s.kernel.currentThread = 0x200 :=
  Option.map_eq_some_iff.mp (show (Scheduler.reschedule 3 sampleSystem).map
    (fun s => s.kernel.currentThread) = some 0x200 by decide)

def sampleReturn : List Event :=
  [.setState 0x500 .waiting, .setState 0x700 .waiting, .preemptInt 0x300000,
    .setState 0x400 .waiting, .preemptInt 0x201010]

def sampleAway : Scheduler.System :=
  withState (withState Scheduler.sampleBoot.initializeTasks 0x500 .waiting) 0x700 .waiting

theorem sampleReturn_schedule : ∃ s₁ s₂ s₃, Scheduler.reschedule 3 sampleAway = some s₁ ∧
    Scheduler.reschedule 3 (withState s₁ 0x400 .waiting) = some s₂ ∧
    Scheduler.reschedule 3 s₂ = some s₃ ∧ s₁.kernel.currentThread = 0x400 ∧
    s₂.kernel.currentThread = 0x200 ∧ s₃.kernel.currentThread = 0x200 := by
  have hobs : ((Scheduler.reschedule 3 sampleAway).bind fun s₁ =>
      (Scheduler.reschedule 3 (withState s₁ 0x400 .waiting)).bind fun s₂ =>
      (Scheduler.reschedule 3 s₂).map fun s₃ =>
        [s₁, s₂, s₃].map fun s => s.kernel.currentThread) = some [0x400, 0x200, 0x200] := by
    decide +kernel
  obtain ⟨s₁, h₁, hobs⟩ := Option.bind_eq_some_iff.mp hobs
  obtain ⟨s₂, h₂, hobs⟩ := Option.bind_eq_some_iff.mp hobs
  obtain ⟨s₃, h₃, hobs⟩ := Option.map_eq_some_iff.mp hobs
  simp only [List.map_cons, List.map_nil, List.cons.injEq, and_true] at hobs
  exact ⟨s₁, s₂, s₃, h₁, h₂, h₃, hobs⟩

theorem self_preempt_returns_sample :
    ∃ c₀ c c', Booted kernelPlacement Scheduler.sampleBoot c₀ ∧
      loadWord c₀.world.machine.mem (0x200 + rspField) = 0 ∧
      run (Computer.step kernelPlacement 3) c₀ sampleReturn = some c ∧ c.world.current = 0x200 ∧
      c.step kernelPlacement 3 (.preemptInt 0x300000) = some c' ∧
      c'.system.kernel.currentThread = 0x200 ∧
      c'.world.machine.rip = 0x300000 ∧ c'.world.machine.reg .rsp = 0xb000 ∧
      c'.world.machine.reg .rbp = c.world.machine.reg .rbp := by
  obtain ⟨c₀, h⟩ := sampleBooted fun _ => 0
  obtain ⟨s₁, s₂, s₃, hs₁, hs₂, hs₃, hcur₁, hcur₂, hcur₃⟩ := sampleReturn_schedule
  obtain ⟨w₁, w₂, hw₁, hw₂, hcur, hsaved, hrsp, hc₃⟩ := h.there_and_back
  have hstep₁ : Computer.step kernelPlacement 3 ⟨sampleAway, c₀.world⟩ (.preemptInt 0x300000) =
      some ⟨s₁, w₁⟩ := preempt_eq .int hs₁ (hcur₁ ▸ hw₁)
  have hstep₂ : Computer.step kernelPlacement 3 ⟨withState s₁ 0x400 .waiting, w₁⟩
      (.preemptInt 0x201010) = some ⟨s₂, w₂⟩ := preempt_eq .int hs₂ (hcur₂ ▸ hw₂)
  have hset (c : Computer) (x : Nat) (state : Scheduler.ThreadState) :
      Computer.step kernelPlacement 3 c (.setState x state) =
        some ⟨withState c.system x state, c.world⟩ := rfl
  have hrun : run (Computer.step kernelPlacement 3) c₀ sampleReturn = some ⟨s₂, w₂⟩ := by
    rw [h.eq_mk, sampleReturn]
    exact run_cons.mpr ⟨_, hset _ _ _, run_cons.mpr ⟨_, hset _ _ _, run_cons.mpr ⟨_, hstep₁,
      run_cons.mpr ⟨_, hset _ _ _, run_cons.mpr ⟨_, hstep₂, rfl⟩⟩⟩⟩⟩
  have hgood : throughout (Computer.step kernelPlacement 3) (savedHere 3) c₀ sampleReturn = true := by
    rw [h.eq_mk, sampleReturn]
    refine (throughout_cons (hset _ _ _)).mpr ⟨rfl, (throughout_cons (hset _ _ _)).mpr ⟨rfl,
      (throughout_cons hstep₁).mpr ⟨savedHere_of_other .int hs₁ ?_,
        (throughout_cons (hset _ _ _)).mpr ⟨rfl, (throughout_cons hstep₂).mpr
          ⟨savedHere_of_other .int hs₂ ?_, rfl⟩⟩⟩⟩⟩
    · change s₁.kernel.currentThread ≠ sampleAway.kernel.currentThread
      rw [hcur₁]
      decide
    · change s₂.kernel.currentThread ≠ s₁.kernel.currentThread
      rw [hcur₁, hcur₂]
      decide
  obtain ⟨c', hstep, hsys, hret, hrsp', hrbp⟩ := self_preempt_returns kernelPlacement
    Scheduler.sampleBoot le_rfl h.booted hrun hgood hc₃ hs₃ (hcur₃.trans hcur₂.symm)
    (savedHere_of_saved hsaved)
  have hzero : loadWord c₀.world.machine.mem (0x200 + rspField) = 0 :=
    loadWord_zero fun x hx => h.mem _ (by rw [rspField]; omega)
  exact ⟨c₀, _, c', h.booted, hzero, hrun, hcur, hstep,
    (congrArg (fun s : Scheduler.System => s.kernel.currentThread) hsys).trans hcur₃, hret,
    hrsp'.trans hrsp, hrbp⟩

-- the main thread is the only runnable one and has never been suspended
theorem self_preempt_lost :
    ¬ ∀ (p : Placement code) (b : Scheduler.Boot) (rounds : Nat), 3 ≤ rounds →
      ∀ c₀ c, Booted p b c₀ → ∀ events, run (Computer.step p rounds) c₀ events = some c →
      ∀ kind ret, c.world.CanSwitch p kind ret c.world.current →
      ∀ system, Scheduler.reschedule rounds c.system = some system →
      system.kernel.currentThread = c.system.kernel.currentThread →
      ∃ c', c.step p rounds (kind.preempts ret) = some c' ∧ c'.system = system ∧
        c'.world.machine.rip = ret ∧ c'.world.machine.reg .rsp = c.world.machine.reg .rsp ∧
        c'.world.machine.reg .rbp = c.world.machine.reg .rbp := by
  intro hall
  obtain ⟨c₀, h⟩ := sampleBooted fun _ => 0
  obtain ⟨s, hs, hself⟩ := sampleSystem_self
  have hrun : run (Computer.step kernelPlacement 3) c₀ sampleEvents = some ⟨sampleSystem, c₀.world⟩ := by
    rw [h.eq_mk]
    rfl
  have hc : c₀.world.CanSwitch kernelPlacement .int 0x300000 c₀.world.current := by
    rw [h.current]
    exact h.canSwitch (by decide)
  obtain ⟨c', hstep, -, -, hrsp, -⟩ := hall kernelPlacement Scheduler.sampleBoot 3 le_rfl c₀
    ⟨sampleSystem, c₀.world⟩ h.booted sampleEvents hrun .int 0x300000 hc s hs hself
  have hzero {a : Nat} (ha : a + 8 ≤ 0x300) : loadWord c₀.world.machine.mem a = 0 :=
    loadWord_zero fun i hi => h.mem _ (by omega)
  obtain ⟨w', hw, -, hw'⟩ := h.coherent.switch_stale (v := 0) hc
    (by rw [h.current, hzero (by decide)]; rfl)
    (by rw [h.current, h.main]; simp only [sampleStart]; decide)
    (by rw [h.current]; decide) (by rw [hzero (by decide)]; decide)
  have hpre : Computer.step kernelPlacement 3 ⟨sampleSystem, c₀.world⟩ (Kind.preempts 0x300000 .int) =
      some ⟨s, w'⟩ := preempt_eq .int hs (by rw [hself, ← h.current]; exact hw)
  obtain rfl := Option.some.inj (hstep.symm.trans hpre)
  have hlost : (0 : Nat) + 16 = 0xb000 := by
    rw [← hw', ← h.sp]
    exact congrArg BitVec.toNat hrsp
  exact absurd hlost (by decide)

end Lasagne.Switch
