import Mathlib
import Lasagne.Switch.Untouched
import Lasagne.Syscall.Fast

namespace Lasagne.Syscall
open ByteMemory X86 Switch PartialRun

-- the processor of the computer; msr are the registers that switch_environment does not write
def coreOf (msr : Msrs) (c : Computer) : Core where
  toMachine := c.world.machine
  msr := Function.update msr ia32KernelGsBase (BitVec.ofNat 64 c.system.kernelGsBase)

def resume (c : Computer) (m : Machine) : Computer :=
  { c with world := { c.world with machine := m } }

-- what the way back reads
def words (x : Nat) (k : Machine) (a : Nat) : Prop :=
  x + userRspField ≤ a ∧ a < x + userRspField + 8 ∨ k.sp + 8 ≤ a ∧ a < k.sp + 24

-- k called the function of the system call that thread x has made: until this returns, nobody writes
-- to what the way back reads, and x does not give up the stack above its call
def spares (x : Nat) (k : Machine) (c : Computer) : Event → Bool
  | .write a _ => ¬ (x + userRspField ≤ a ∧ a < x + userRspField + 8) ∧
      (c.world.current = x → ¬ (k.sp + 8 ≤ a ∧ a < k.sp + 24))
  | .preemptInt _ => c.world.current = x → c.world.machine.sp ≤ k.sp + 8
  | .preemptSyscall _ => c.world.current = x → c.world.machine.sp ≤ k.sp + 8
  | _ => true

-- thread x is in its system call, whether it runs or not
structure Pending (p : Placement code) (rounds : Nat) (b : Scheduler.Boot) (x stack : Nat)
    (k : Machine) (c : Computer) : Prop where
  joined : Joined p rounds b c
  entered : Scheduler.Entered c.system
  thread : x ∈ c.world.threads
  stack : (c.world.thread x).stack = stack ∧ (c.world.thread x).size = defaultStackSize
  kept : ∀ a, words x k a → c.world.machine.mem a = k.mem a

section run
variable {p : Placement code} {rounds : Nat} {b : Scheduler.Boot} {x stack : Nat} {k : Machine}
  {c c' : Computer}

theorem Pending.preempt {kind : Kind} {ret : BitVec 64} (h : Pending p rounds b x stack k c)
    (hk : k.sp + 24 = stack + defaultStackSize) (hentered : Scheduler.Entered c'.system)
    (hgood : c.staysSaved rounds kind = true)
    (hspares : c.world.current = x → c.world.machine.sp ≤ k.sp + 8)
    (hs : c.preempt p rounds kind ret = some c') : Pending p rounds b x stack k c' := by
  obtain ⟨hsp, hmem, hthreads, hstacks⟩ := h.joined.preempt_mem hgood hs
  refine ⟨h.joined.preempt hgood hs, hentered, hthreads ▸ h.thread, ?_, fun a ha => ?_⟩
  · rw [(hstacks x).1, (hstacks x).2]
    exact h.stack
  · rw [← h.kept a ha]
    have hown := h.joined.coherent.own x h.thread
    simp only [words, userRspField, Apart, threadSize, Thread.stackTop, h.stack.1, h.stack.2,
      defaultStackSize] at ha hk hown hsp
    by_cases hcur : c.world.current = x
    · have := hspares hcur
      rw [hcur, h.stack.1] at hmem
      rw [hcur, h.stack.1, h.stack.2] at hsp
      exact hmem a (by omega) (by rw [rspField]; omega)
    · have hsep := h.joined.coherent.separate x h.thread _ h.joined.coherent.running (Ne.symm hcur)
      simp only [Separate, Apart, threadSize, h.stack.1, h.stack.2, defaultStackSize] at hsep
      exact hmem a (by omega) (by rw [rspField]; omega)

theorem Pending.step {e : Event} (h : Pending p rounds b x stack k c)
    (hk : k.sp + 24 = stack + defaultStackSize) (hgood : savedHere rounds c e = true)
    (hspares : spares x k c e = true) (hs : c.step p rounds e = some c') :
    Pending p rounds b x stack k c' := by
  have hj := h.joined.step hgood hs
  have hentered := (h.joined.entered hs (.inr h.entered)).2 h.entered
  cases e with
  | compute cpu =>
    obtain rfl := Option.some.inj hs
    exact ⟨hj, hentered, h.thread, h.stack, h.kept⟩
  | write a v =>
    obtain ⟨world, hw, rfl⟩ := Option.map_eq_some_iff.mp hs
    rw [Switch.step, Option.ite_none_right_eq_some] at hw
    obtain ⟨hmay, hw⟩ := hw
    obtain rfl := Option.some.inj hw
    refine ⟨hj, hentered, h.thread, h.stack, fun i hi => ?_⟩
    rw [← h.kept i hi]
    refine storeByte_other _ _ fun heq => ?_
    obtain ⟨huser, hframe⟩ := of_decide_eq_true hspares
    subst heq
    have hin := hi.resolve_left huser
    rcases (hmay x h.thread).2 with hcur | hout
    · exact hframe hcur.symm hin
    · simp only [Thread.stackTop, h.stack.1, h.stack.2] at hout
      rw [defaultStackSize] at hk hout
      omega
  | setState thread state =>
    obtain rfl := Option.some.inj hs
    exact ⟨hj, hentered, h.thread, h.stack, h.kept⟩
  | preemptInt ret =>
    exact h.preempt hk hentered hgood (of_decide_eq_true hspares) hs
  | preemptSyscall ret =>
    exact h.preempt hk hentered hgood (of_decide_eq_true hspares) hs

theorem touched_mayWrite {img : Image} {a : Nat} (h : Coherent p c.world)
    (hthread : img.thread = c.world.current)
    (hstack : img.stack = (c.world.thread c.world.current).stack)
    (hsize : (c.world.thread c.world.current).size = defaultStackSize) (ha : Touched img a) :
    c.world.MayWrite a := by
  intro y hy
  have hown := h.own _ h.running
  simp only [Touched, userRspField, syscallTypeField, hthread, hstack, defaultStackSize] at ha
  by_cases hcur : y = c.world.current
  · subst hcur
    simp only [Apart, threadSize, hsize, defaultStackSize] at hown
    refine ⟨?_, .inl rfl⟩
    rw [rspField]
    omega
  · have hsep := h.separate y hy _ h.running hcur
    simp only [Separate, Apart, threadSize, hsize, defaultStackSize] at hsep hown
    rw [rspField, Thread.stackTop]
    omega

theorem Pending.start {img : Image} {l : Addresses} {msr : Msrs} {k : Core} (h : Joined p rounds b c)
    (he : Scheduler.Entered c.system) (hmem : img.mem = c.world.machine.mem)
    (hthread : img.thread = c.world.current)
    (hstack : img.stack = (c.world.thread c.world.current).stack)
    (hsize : (c.world.thread c.world.current).size = defaultStackSize)
    (hk : Called img l (coreOf msr c) k) :
    Pending p rounds b c.world.current img.stack k.toMachine (resume c k.toMachine) := by
  have hco : Coherent p (resume c k.toMachine).world := h.coherent.writes fun a ha => by
    rw [hk.kernel.mem a fun ht => ha (touched_mayWrite h.coherent hthread hstack hsize ht), hmem]
  exact ⟨⟨h.steady, hco, h.current, h.threads⟩, he, h.coherent.running, ⟨hstack.symm, hsize⟩,
    fun _ _ => rfl⟩

theorem Pending.run {events : List Event} (h : Pending p rounds b x stack k c)
    (hk : k.sp + 24 = stack + defaultStackSize)
    (hrun : PartialRun.run (Computer.step p rounds) c events = some c')
    (hgood : throughout (Computer.step p rounds)
      (fun c e => savedHere rounds c e && spares x k c e) c events = true) :
    Pending p rounds b x stack k c' := by
  refine invariant (fun s e t hs he ht => ?_) h hrun hgood
  rw [Bool.and_eq_true] at he
  exact hs.step hk he.1 he.2 ht

end run

theorem entered_of_run (p : Placement code) (b : Scheduler.Boot) {rounds : Nat} (hr : 3 ≤ rounds)
    {c₀ c : Computer} (h₀ : Booted p b c₀) {events : List Event}
    (hrun : run (Computer.step p rounds) c₀ events = some c)
    (hgood : throughout (Computer.step p rounds) (savedHere rounds) c₀ events = true)
    (hx : c.world.current ≠ b.kernelMainThread) :
    Joined p rounds b c ∧ Scheduler.Entered c.system := by
  have hmain : c₀.system.kernel.currentThread = b.kernelMainThread := by
    rw [h₀.system]
    exact (Prod.mk.inj b.initializeTasks_chosen).1
  have hboth : Joined p rounds b c ∧
      (c.system.kernel.currentThread = b.kernelMainThread ∨ Scheduler.Entered c.system) := by
    refine invariant (I := fun c => Joined p rounds b c ∧
      (c.system.kernel.currentThread = b.kernelMainThread ∨ Scheduler.Entered c.system))
      (fun s e t hs he ht => ⟨hs.1.step he ht, (hs.1.entered ht hs.2).1⟩) ⟨h₀.joined hr, .inl hmain⟩
      hrun hgood
  exact ⟨hboth.1, hboth.2.resolve_left fun h => hx (hboth.1.current.trans h)⟩

theorem syscall_comes_back (p : Placement code) (b : Scheduler.Boot) {rounds : Nat} (hr : 3 ≤ rounds)
    {c₀ c : Computer} (h₀ : Booted p b c₀) {events : List Event}
    (hrun : run (Computer.step p rounds) c₀ events = some c)
    (hgood : throughout (Computer.step p rounds) (savedHere rounds) c₀ events = true)
    (hx : c.world.current ≠ b.kernelMainThread)
    (hsize : (c.world.thread c.world.current).size = defaultStackSize) (img : Image)
    (hmem : img.mem = c.world.machine.mem) (hthread : img.thread = c.world.current)
    (hstack : img.stack = (c.world.thread c.world.current).stack) (l : Addresses)
    (entry : BitVec 64) (msr msr₀ : Msrs)
    (hmsr : ∀ r ∈ fastRegisters, msr r = initializeFastHandler msr₀ entry r)
    (hcanon : canonical c.world.machine.rip) :
    ∃ k, enterFast entry img l (coreOf msr c) = some k ∧ Called img l (coreOf msr c) k ∧
      ∀ (events' : List Event) (d : Computer),
        run (Computer.step p rounds) (resume c k.toMachine) events' = some d →
        throughout (Computer.step p rounds) (fun d e => savedHere rounds d e &&
          spares c.world.current k.toMachine d e) (resume c k.toMachine) events' = true →
        d.world.current = c.world.current →
        d.world.machine.reg .rsp = k.reg .rsp + 8 →
        ∃ u, fastExit (coreOf msr d) = some u ∧ GoesOn (coreOf msr c) (coreOf msr d) u := by
  obtain ⟨hj, he⟩ := entered_of_run p b hr h₀ hrun hgood hx
  have hready (d : Computer) : Ready entry (coreOf msr d).msr := by
    refine (initialize_ready entry msr₀).congr fun r hr => ?_
    rw [← hmsr r hr]
    exact Function.update_of_ne (ne_of_mem_of_not_mem hr (by decide)) _ _
  have hbound := (hj.coherent.bound _ hj.coherent.running).1
  have howned (d : Computer) (hcur : d.world.current = c.world.current)
      (hcurrent : d.world.current = d.system.kernel.currentThread)
      (he : Scheduler.Entered d.system) : Owned img (coreOf msr d) := by
    have hgs : (coreOf msr d).msr ia32KernelGsBase = BitVec.ofNat 64 d.system.kernelGsBase :=
      Function.update_self ia32KernelGsBase _ msr
    exact ⟨by rw [hgs, he.2, hthread, ← hcur, hcurrent], hthread ▸ hbound⟩
  obtain ⟨k, hk, hcalled⟩ := fast_called l (hready c) hmem.symm (howned c rfl hj.current he)
  refine ⟨k, hk, hcalled, fun events' d hrun' hgood' hcur hrsp => ?_⟩
  have hd := (Pending.start hj he hmem hthread hstack hsize hcalled).run hcalled.kernel.sp hrun' hgood'
  have hb := img.bounds.1
  have htop := hcalled.kernel.sp
  have hframe := hcalled.kernel.frame
  rw [show img.stack + defaultStackSize - 16 = k.sp + 8 by omega] at hframe
  have hsp : (coreOf msr d).sp = k.sp + 8 := by
    change d.world.machine.sp = _
    rw [Machine.sp, hrsp]
    exact drop_sp (s := k.toMachine) (by omega)
  refine fastExit_spec (hready d) (howned d hcur hd.joined.current hd.entered) (by omega) ?_ ?_ hcanon
  · rw [hsp]
    exact hframe.congr fun a ha ha' => hd.kept a (.inr ⟨ha, by simpa using ha'⟩)
  · rw [← hcalled.kernel.userRsp]
    exact loadWord_congr fun a ha ha' => hd.kept a (.inl ⟨hthread ▸ ha, hthread ▸ ha'⟩)

section sample

def countMemory : Memory := storeWord (fun _ => 0) 0x180 2

theorem sampleUser : ∃ c₀ c, Booted kernelPlacement Scheduler.sampleBoot c₀ ∧
    run (Computer.step kernelPlacement 3) c₀ [.preemptInt 0x300000] = some c ∧
    throughout (Computer.step kernelPlacement 3) (savedHere 3) c₀ [.preemptInt 0x300000] = true ∧
    c.world.current = 0x500 ∧ (c.world.thread 0x500).stack = 0x30000 ∧
    (c.world.thread 0x500).size = defaultStackSize ∧ c.world.machine.rip = 0x100000 ∧
    c.world.machine.reg .rsp = 0x201000 ∧ (∀ x < 0x200, c.world.machine.mem x = countMemory x) ∧
    loadWord c.world.machine.mem 0x508 = 0x32000#64 := by
  obtain ⟨c₀, h⟩ := sampleBooted countMemory
  obtain ⟨s, hs, hsys⟩ := Option.map_eq_some_iff.mp (show (Scheduler.reschedule 3
    Scheduler.sampleBoot.initializeTasks).map (fun s => s.kernel.currentThread) = some 0x500 by
    decide)
  have hc : c₀.world.CanSwitch kernelPlacement .int 0x300000 0x500 := h.canSwitch (by decide)
  have hne : 0x500 ≠ c₀.world.current := by rw [h.current]; decide
  obtain ⟨w', hw', -, hcurrent, -, hres, -⟩ := h.coherent.switch hc hne
  have hsus : c₀.world.suspended .int 0x300000 0x500 = c₀.world.thread 0x500 :=
    Function.update_of_ne hne _ _
  obtain ⟨hkept, -, hstacks⟩ :=
    h.coherent.switch_mem hc (by rw [hsus]; exact (h.coherent.parked _ hc.1 hne).slot) hw'
  have hstack : ((sampleStart countMemory).thread 0x200).stack = 0x8000 := rfl
  rw [h.current, h.main, h.sp, hstack] at hkept
  rw [h.user] at hres
  have hsystem : Scheduler.reschedule 3 c₀.system = some s := h.system ▸ hs
  have hstep : Computer.step kernelPlacement 3 c₀ (.preemptInt 0x300000) = some ⟨s, w'⟩ :=
    preempt_eq .int hsystem (hsys.symm ▸ hw')
  refine ⟨c₀, ⟨s, w'⟩, h.booted, run_cons.mpr ⟨_, hstep, rfl⟩, ?_, hcurrent, ?_, ?_, hres.1,
    hres.2.2.2.2.1, fun x hx => ?_, ?_⟩
  · refine (throughout_cons hstep).mpr ⟨savedHere_of_other .int hsystem ?_, rfl⟩
    rw [hsys, h.system]
    decide
  · rw [(hstacks 0x500).1, h.user]
    rfl
  · rw [(hstacks 0x500).2, h.user]
    rfl
  · rw [hkept x (.inl (by omega)) (.inl (by rw [rspField]; omega)), h.mem x (by omega)]
  · rw [← h.top]
    exact loadWord_congr fun x hx hx' => hkept x (.inl (by omega)) (.inr (by rw [rspField]; omega))

def userImage (m : Memory) (hm : ∀ x < 0x200, m x = countMemory x)
    (htop : loadWord m 0x508 = 0x32000#64) : Image where
  mem := m
  syscallCount := 0x180
  syscallTable := 0x1a0
  idtHandler := 0x100000
  interruptReturn := 0x101000
  sysYield := 0
  sysPrintk := 0
  thread := 0x500
  stack := 0x30000
  count := by
    have hcount : loadWord countMemory 0x180 = 2#64 := loadWord_storeWord _ _ _
    rw [loadWord_congr fun x _ hx => hm x (by omega), hcount]
    rfl
  table := by
    have hzero (a : Nat) (ha : 0x188 ≤ a) (ha' : a + 8 ≤ 0x200) : loadWord m a = 0#64 := by
      have hold : loadWord countMemory a = 0#64 :=
        (loadWord_storeWord_apart _ _ (by omega)).trans (loadWord_zero fun _ _ => rfl)
      rw [loadWord_congr fun x _ hx => hm x (by omega), hold]
    exact ⟨hzero _ (by decide) (by decide), hzero _ (by decide) (by decide), trivial⟩
  top := htop
  bounds := by decide
  threadApart := by decide
  countApart := by decide
  tableApart := by decide

theorem syscall_comes_back_sample : ∃ c₀ c img k d u,
    Booted kernelPlacement Scheduler.sampleBoot c₀ ∧
      run (Computer.step kernelPlacement 3) c₀ [.preemptInt 0x300000] = some c ∧
      enterFast 0xffffffff80101000 img sampleAddresses (coreOf sampleMsrs c) = some k ∧
      d.world.machine.reg .rsp = k.reg .rsp + 8 ∧ fastExit (coreOf sampleMsrs d) = some u ∧
      u.rip = 0x100000 ∧ u.reg .rsp = 0x201000 ∧ u.cs = 0x23 := by
  obtain ⟨c₀, c, hboot, hrun, hgood, hcur, hstack, hsize, hrip, hrsp, hmem, htop⟩ := sampleUser
  obtain ⟨k, hk, -, hback⟩ := syscall_comes_back kernelPlacement Scheduler.sampleBoot le_rfl hboot hrun
    hgood (by rw [hcur]; decide) (by rw [hcur]; exact hsize) (userImage c.world.machine.mem hmem htop)
    rfl hcur.symm (by rw [hcur]; exact hstack.symm) sampleAddresses 0xffffffff80101000 sampleMsrs
    (fun _ => 0) (fun _ _ => rfl) (by rw [hrip]; decide)
  obtain ⟨cpu, hcpu⟩ : ∃ cpu : Cpu, cpu = (k.drop).toCpu := ⟨_, rfl⟩
  have hreg : cpu.reg .rsp = k.reg .rsp + 8 := by
    rw [hcpu, Machine.drop, set_reg, Function.update_self]
  obtain ⟨u, hu, hon⟩ := hback [.compute cpu] (resume c ⟨cpu, k.mem⟩) rfl rfl rfl hreg
  exact ⟨c₀, c, _, k, _, u, hboot, hrun, hk, hreg, hu, hon.rip.trans hrip, hon.rsp.trans hrsp,
    hon.segments.1⟩

end sample

end Lasagne.Syscall
