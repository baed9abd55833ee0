import Mathlib
import Lasagne.Task.Fairness
import Lasagne.Task.Rings

namespace Lasagne.Scheduler
open CyclicList Ds PartialRun

section chosen

def chosen (k : Kernel) : Nat × Nat := (k.currentThread, k.kernelIdleThread)

theorem createThread_chosen (s : System) (t thread stack : Nat) :
    chosen (createThread s t thread stack).kernel = chosen s.kernel := by
  simp only [createThread, ne_eq, ite_not]
  split <;> rfl

theorem createUsermodeTask_chosen (s : System) (new : NewTask) :
    chosen (createUsermodeTask s new).kernel = chosen s.kernel := by
  refine Eq.trans ?_ (createThread_chosen { newAddressSpace s with
    root := new.mapped
    kernel := { s.kernel with task := Function.update s.kernel.task new.task ⟨0, 0, 0⟩ }
    memory := Function.update s.memory new.task new.mapped } new.task new.thread new.stack)
  simp only [createUsermodeTask, ne_eq, ite_not]
  split <;> rfl

end chosen

structure Built (k : Kernel) (ts : List Nat) (ths : Nat → List Nat) : Prop where
  linked : Linked (taskLinks k).next (taskLinks k).prev k.currentTask ts
  nonzero : 0 ∉ ts
  owns : ∀ t ∈ ts, Owns k t (ths t)

theorem Built.rings {k : Kernel} {ts : List Nat} {ths : Nat → List Nat} (h : Built k ts ths) :
    Rings k ts ths :=
  ⟨h.linked.toAround, fun t ht => (h.owns t ht).linked.toAround, fun t ht => (h.owns t ht).owner⟩

theorem Built.mono {k : Kernel} {ts : List Nat} {ths ths' : Nat → List Nat} (h : Built k ts ths)
    (hths : ∀ t ∈ ts, ths' t = ths t) : Built k ts ths' :=
  ⟨h.linked, h.nonzero, fun t ht => by rw [hths t ht]; exact h.owns t ht⟩

section built
variable {s : System} {k : Kernel} {t x : Nat} {ts xs : List Nat} {ths : Nat → List Nat}

theorem Built.shown (h : Built k ts ths) : Shown k ⟨ts, ts, ths⟩ where
  tasks := h.linked
  known := List.Subset.refl _
  nonzero := h.nonzero
  first t ht hnil := absurd hnil (h.owns t ht).linked.ne_nil
  owns t ht _ := h.owns t ht

theorem Shown.built {ls : Lists} (h : Shown k ls) (hne : ∀ t ∈ ls.tasks, ls.threads t ≠ []) :
    Built k ls.tasks ls.threads :=
  ⟨h.tasks, fun h0 => h.nonzero (h.known h0), fun t ht => h.owns t (h.known ht) (hne t ht)⟩

theorem Built.ne_nil (h : Built k ts ths) {u : Nat} (hu : u ∈ ts) : ths u ≠ [] :=
  (h.owns u hu).linked.ne_nil

theorem Built.createThread (thread stack : Nat) (h : Built s.kernel ts ths) (ht : t ∈ ts) (hths : ths t = xs ++ [x])
    (h0 : thread ≠ 0) (hnew : ∀ u ∈ ts, thread ∉ ths u) :
    Built (createThread s t thread stack).kernel ts (Function.update ths t (xs ++ [thread, x])) := by
  have hs := h.shown.createThread ht ⟨h0, hnew⟩ stack
  simp only [hths, joined_concat] at hs
  refine hs.built fun u hu => ?_
  by_cases hut : u = t
  · rw [hut, Lists.setThreads_self]
    simp
  · rw [Lists.setThreads_other _ hut]
    exact h.ne_nil hu

theorem Built.createUsermodeTask (ss : List Nat) (new : NewTask) (h : Built s.kernel (ss ++ [t]) ths)
    (h0 : new.thread ≠ 0) (hnew : ∀ u ∈ ss ++ [t], new.thread ∉ ths u)
    (htask : new.task ∉ 0 :: (ss ++ [t])) :
    Built (createUsermodeTask s new).kernel (ss ++ [new.task, t])
      (Function.update ths new.task [new.thread]) := by
  rw [List.mem_cons, not_or] at htask
  have hs := h.shown.createUsermodeTask htask ⟨h0, hnew⟩
  simp only [joined_concat] at hs
  refine hs.built fun u hu => ?_
  by_cases hut : u = new.task
  · rw [hut, Lists.setThreads_self]
    simp
  · rw [Lists.setThreads_other _ hut]
    exact h.ne_nil ((mem_inserted.mp hu).resolve_left hut)

end built

namespace Boot
variable (b : Boot)

theorem initKernelTask_built :
    Built (b.initKernelTask b.before).kernel [b.kernelTask]
        (fun _ => [b.idle.thread, b.kernelMainThread]) ∧
      (b.initKernelTask b.before).kernel.kernelIdleThread = b.idle.thread := by
  obtain ⟨hs, hidle⟩ := b.initKernelTask_shown
  exact ⟨hs.built fun t _ => by simp [world], hidle⟩

def bootTasks : List Nat := [b.user₁.task, b.user₀.task, b.kernelTask]

def bootThreads (t : Nat) : List Nat :=
  if t = b.user₀.task then [b.user₀.thread]
  else if t = b.user₁.task then [b.user₁.thread]
  else [b.idle.thread, b.sth.thread, b.kernelMainThread]

theorem initializeTasks_built : Built b.initializeTasks.kernel b.bootTasks b.bootThreads := by
  have hthreads := b.threads
  have htasks := b.tasks
  simp only [List.nodup_cons, List.mem_cons, List.not_mem_nil, or_false, not_or] at hthreads htasks
  obtain ⟨⟨-, -, hs0, h10, h00⟩, ⟨-, hms, hm1, hm0⟩, ⟨his, hi1, hi0⟩, ⟨hs1, hs0'⟩, h10', -⟩ := hthreads
  obtain ⟨⟨-, hu10, hu00⟩, ⟨hk1, hk0⟩, hu, -⟩ := htasks
  have h₀ := b.initKernelTask_built.1
  have h₁ : Built { (b.initKernelTask b.before).kernel with currentThread := b.kernelMainThread }
      [b.kernelTask] fun _ => [b.idle.thread, b.kernelMainThread] :=
    ⟨h₀.linked, h₀.nonzero, fun t ht => (h₀.owns t ht).congr rfl fun _ _ => rfl⟩
  have h₂ := Built.createThread (s := { b.initKernelTask b.before with
    kernel := { (b.initKernelTask b.before).kernel with currentThread := b.kernelMainThread } })
    b.sth.thread b.sth.stack h₁ (List.mem_singleton_self _)
    (show _ = [b.idle.thread] ++ [b.kernelMainThread] from rfl) (Ne.symm hs0)
    (by simp [Ne.symm his, Ne.symm hms])
  have h₃ := Built.createUsermodeTask [] b.user₁ h₂ (Ne.symm h10)
    (by simp [Ne.symm hi1, Ne.symm hs1, Ne.symm hm1]) (by simp [Ne.symm hu10, Ne.symm hk1])
  have h₄ := Built.createUsermodeTask [b.user₁.task] b.user₀ h₃ (Ne.symm h00) (fun u hu => ?_)
    (by simp [Ne.symm hu00, Ne.symm hu, Ne.symm hk0])
  · refine h₄.mono fun t ht => ?_
    rcases (show t = b.user₁.task ∨ t = b.user₀.task ∨ t = b.kernelTask by simpa [bootTasks] using ht)
      with rfl | rfl | rfl
    · simp [bootThreads, hu]
    · simp [bootThreads]
    · simp [bootThreads, hk0, hk1]
  · rcases (show u = b.user₁.task ∨ u = b.kernelTask by simpa using hu) with rfl | rfl
    · simp [Ne.symm h10']
    · simp [Function.update_of_ne hk1, Ne.symm hi0, Ne.symm hs0', Ne.symm hm0]

theorem initializeTasks_chosen :
    chosen b.initializeTasks.kernel = (b.kernelMainThread, b.idle.thread) := by
  rw [initializeTasks, createUsermodeTask_chosen, createUsermodeTask_chosen, createThread_chosen]
  exact congrArg (Prod.mk _) b.initKernelTask_built.2

def owned : List Nat :=
  [b.kernelMainThread, b.idle.thread, b.sth.thread, b.user₁.thread, b.user₀.thread]

end Boot

structure Scheduled (fuel : Nat) (owned : List Nat) (k : Kernel) (ts : List Nat)
    (ths : Nat → List Nat) : Prop where
  rings : Rings k ts ths
  bounded : Bounded fuel ts ths
  idleTask : (k.thread k.kernelIdleThread).task ∈ ts
  idle : k.kernelIdleThread ∈ ths (k.thread k.kernelIdleThread).task
  owned : ∀ t ∈ ts, ∀ x ∈ ths t, x ∈ owned
  current : k.currentTask = (k.thread k.currentThread).task

theorem Boot.scheduled (b : Boot) {fuel : Nat} (hf : 3 ≤ fuel) :
    Scheduled fuel b.owned b.initializeTasks.kernel b.bootTasks b.bootThreads := by
  have h := b.initializeTasks_built
  have hch := b.initializeTasks_chosen
  rw [chosen, Prod.mk.injEq] at hch
  have htasks := b.tasks
  simp only [List.nodup_cons, List.mem_cons, List.not_mem_nil, or_false, not_or] at htasks
  have hk : b.bootThreads b.kernelTask = [b.idle.thread, b.sth.thread, b.kernelMainThread] := by
    rw [bootThreads, if_neg htasks.2.1.2, if_neg htasks.2.1.1]
  have hkt : b.kernelTask ∈ b.bootTasks := by simp [bootTasks]
  have hidle : (b.initializeTasks.kernel.thread b.idle.thread).task = b.kernelTask :=
    (h.owns _ hkt).owner _ (by simp [hk])
  have hmain : (b.initializeTasks.kernel.thread b.kernelMainThread).task = b.kernelTask :=
    (h.owns _ hkt).owner _ (by simp [hk])
  have hcur : b.initializeTasks.kernel.currentTask = b.kernelTask :=
    (Option.some.inj h.linked.last).symm
  refine ⟨h.rings, ⟨hf, fun t _ => ?_⟩, ?_, ?_, fun t _ x hx => ?_, ?_⟩
  · rw [bootThreads]
    split_ifs <;> simp <;> omega
  · rw [hch.2, hidle]
    exact hkt
  · rw [hch.2, hidle, hk]
    simp
  · rw [bootThreads] at hx
    rw [owned]
    split_ifs at hx
    · simp [List.mem_singleton.mp hx]
    · simp [List.mem_singleton.mp hx]
    · rcases (show x = b.idle.thread ∨ x = b.sth.thread ∨ x = b.kernelMainThread by simpa using hx)
        with rfl | rfl | rfl <;> simp
  · rw [hcur, hch.1, hmain]

section run
variable {s s' : System} {fuel : Nat} {owned ts : List Nat} {ths : Nat → List Nat}

theorem Scheduled.setState {k : Kernel} (h : Scheduled fuel owned k ts ths) (x : Nat)
    (state : ThreadState) : Scheduled fuel owned (setState k x state) ts ths := by
  have hnext (y : Nat) : ((Scheduler.setState k x state).thread y).next = (k.thread y).next :=
    congrFun (congrArg Links.next setState_links) y
  refine ⟨⟨h.rings.tasks, fun t ht => (h.rings.threads t ht).congr fun y _ => hnext y,
    fun t ht y hy => setState_owner.trans (h.rings.owner t ht y hy)⟩, h.bounded, ?_, ?_, h.owned, ?_⟩
  · exact setState_owner.symm ▸ h.idleTask
  · exact setState_owner.symm ▸ h.idle
  · exact h.current.trans setState_owner.symm

theorem Scheduled.preempt {k : Kernel} (h : Scheduled fuel owned k ts ths) :
    ∃ k' ts' ths', preempt fuel k = some (k'.currentThread, k') ∧ Scheduled fuel owned k' ts' ths' ∧
      k'.currentThread ∈ owned ∧ k'.thread = k.thread := by
  obtain ⟨k', ts', ths', hp, hr, hthread, hidle, hcur, ht, hx, hts, hths⟩ :=
    h.rings.preempt_total h.bounded.tasks h.bounded.threads h.idle h.idleTask
  refine ⟨k', ts', ths', hp, ⟨hr, ⟨?_, fun t ht => ?_⟩, ?_, ?_, fun t ht x hx => ?_, hcur⟩,
    h.owned _ ht _ hx, hthread⟩
  · exact hts.length_eq.trans_le h.bounded.tasks
  · exact (hths t).length_eq.trans_le (h.bounded.threads t (hts.mem_iff.mp ht))
  · rw [hthread, hidle]
    exact hts.mem_iff.mpr h.idleTask
  · rw [hthread, hidle]
    exact (hths _).mem_iff.mpr h.idle
  · exact h.owned t (hts.mem_iff.mp ht) x ((hths t).mem_iff.mp hx)

def Mapped (s : System) : Prop :=
  s.memory (s.kernel.thread s.kernel.currentThread).task ≠ 0 →
    s.root = s.memory (s.kernel.thread s.kernel.currentThread).task

def Entered (s : System) : Prop :=
  s.rsp0 = s.stackTop s.kernel.currentThread ∧ s.kernelGsBase = s.kernel.currentThread

theorem switchEnvironment_same {x : Nat} : switchEnvironment s x x = s := if_pos rfl

theorem switchEnvironment_kernel {x y : Nat} : (switchEnvironment s x y).kernel = s.kernel := by
  simp only [switchEnvironment, setCurrentKernelStack, setAddressSpace, ne_eq, ite_not]
  split_ifs <;> rfl

theorem switchEnvironment_other {x : Nat} (hx : x ≠ s.kernel.currentThread) :
    Mapped (switchEnvironment s x s.kernel.currentThread) ∧
      Entered (switchEnvironment s x s.kernel.currentThread) := by
  simp only [switchEnvironment, if_neg hx, setCurrentKernelStack, setAddressSpace, ne_eq, ite_not]
  split_ifs with h0 hroot
  · exact ⟨fun h => absurd h0 h, rfl, rfl⟩
  · exact ⟨fun _ => hroot, rfl, rfl⟩
  · exact ⟨fun _ => rfl, rfl, rfl⟩

-- the work that is left out when the thread stays is work done at an earlier switch
theorem reschedule_spec (h : Scheduled fuel owned s.kernel ts ths) (hm : Mapped s) :
    ∃ s' ts' ths', reschedule fuel s = some s' ∧ Scheduled fuel owned s'.kernel ts' ths' ∧
      s'.kernel.currentThread ∈ owned ∧ Mapped s' ∧
      (s'.kernel.currentThread = s.kernel.currentThread → Entered s → Entered s') ∧
      (s'.kernel.currentThread ≠ s.kernel.currentThread → Entered s') := by
  obtain ⟨k', ts', ths', hp, hs, hmem, hthread⟩ := h.preempt
  have heq : reschedule fuel s =
      some (switchEnvironment { s with kernel := k' } s.kernel.currentThread k'.currentThread) := by
    rw [reschedule, hp, Option.map_some]
  refine ⟨_, ts', ths', heq, by rwa [switchEnvironment_kernel], by rwa [switchEnvironment_kernel], ?_⟩
  rw [switchEnvironment_kernel]
  by_cases hcur : s.kernel.currentThread = k'.currentThread
  · rw [hcur, switchEnvironment_same]
    have hm' : Mapped { s with kernel := k' } := by
      rw [Mapped, hcur, ← hthread] at hm
      exact hm
    refine ⟨hm', fun _ he => ?_, fun hne => absurd rfl hne⟩
    rw [Entered, hcur] at he
    exact he
  · obtain ⟨hm', he⟩ := switchEnvironment_other (s := { s with kernel := k' }) hcur
    exact ⟨hm', fun hc => absurd hc.symm hcur, fun _ => he⟩

structure Steady (fuel : Nat) (owned : List Nat) (s : System) : Prop where
  scheduled : ∃ ts ths, Scheduled fuel owned s.kernel ts ths
  mapped : Mapped s

theorem Steady.reschedule (h : Steady fuel owned s) :
    ∃ s', reschedule fuel s = some s' ∧ Steady fuel owned s' ∧
      (s'.kernel.currentThread = s.kernel.currentThread → Entered s → Entered s') ∧
      (s'.kernel.currentThread ≠ s.kernel.currentThread → Entered s') := by
  obtain ⟨ts, ths, hs⟩ := h.scheduled
  obtain ⟨s', ts', ths', hr, hs', -, hm, he⟩ := reschedule_spec hs h.mapped
  exact ⟨s', hr, ⟨⟨ts', ths', hs'⟩, hm⟩, he⟩

theorem Steady.step (h : Steady fuel owned s) (a : Action) :
    ∃ s', step fuel s a = some s' ∧ Steady fuel owned s' ∧
      (s'.kernel.currentThread = s.kernel.currentThread → Entered s → Entered s') ∧
      (s'.kernel.currentThread ≠ s.kernel.currentThread → Entered s') := by
  cases a with
  | setState x state =>
    obtain ⟨ts, ths, hs⟩ := h.scheduled
    have hm := h.mapped
    refine ⟨_, rfl, ⟨⟨ts, ths, hs.setState x state⟩, ?_⟩, fun _ he => he, fun hne => absurd rfl hne⟩
    have howner : ((Scheduler.setState s.kernel x state).thread s.kernel.currentThread).task =
        (s.kernel.thread s.kernel.currentThread).task := setState_owner
    rw [Mapped, ← howner] at hm
    exact hm
  | preemptInt => exact h.reschedule
  | preemptSyscall => exact h.reschedule

theorem Steady.entered (h : Steady fuel owned s) (he : Entered s) {acts : List Action}
    (hrun : run (Scheduler.step fuel) s acts = some s') : Entered s' := by
  have hboth : Steady fuel owned s' ∧ Entered s' := by
    refine preserved (I := fun s => Steady fuel owned s ∧ Entered s) (fun s a t hs ht => ?_) ⟨h, he⟩
      hrun
    obtain ⟨u, hu, hsteady, hsame, hother⟩ := hs.1.step a
    obtain rfl := Option.some.inj (hu.symm.trans ht)
    refine ⟨hsteady, ?_⟩
    by_cases hc : u.kernel.currentThread = s.kernel.currentThread
    · exact hsame hc hs.2
    · exact hother hc
  exact hboth.2

theorem Boot.steady (b : Boot) (hf : 3 ≤ fuel) : Steady fuel b.owned b.initializeTasks := by
  have hs := b.scheduled hf
  have htasks := b.tasks
  simp only [List.nodup_cons, List.mem_cons, List.not_mem_nil, or_false, not_or] at htasks
  have hcur : b.initializeTasks.kernel.currentTask = b.kernelTask :=
    (Option.some.inj b.initializeTasks_built.linked.last).symm
  have hmemory : b.initializeTasks.memory =
      Function.update (Function.update (Function.update b.before.memory b.kernelTask 0)
        b.user₁.task b.user₁.mapped) b.user₀.task b.user₀.mapped := rfl
  refine ⟨⟨_, _, hs⟩, fun hne => absurd ?_ hne⟩
  rw [← hs.current, hcur, hmemory, Function.update_of_ne htasks.2.1.2, Function.update_of_ne htasks.2.1.1,
    Function.update_self]

end run

def Switched (fuel : Nat) (s : System) (acts : List Action) : Prop :=
  ∃ before a after s₁ s₂, acts = before ++ a :: after ∧ run (step fuel) s before = some s₁ ∧
    step fuel s₁ a = some s₂ ∧ s₂.kernel.currentThread ≠ s₁.kernel.currentThread

theorem environment_follows (b : Boot) {fuel : Nat} (hf : 3 ≤ fuel) (acts : List Action) :
    ∃ s, run (step fuel) b.initializeTasks acts = some s ∧
      s.kernel.currentTask = (s.kernel.thread s.kernel.currentThread).task ∧
      (Switched fuel b.initializeTasks acts →
        s.rsp0 = s.stackTop s.kernel.currentThread ∧ s.kernelGsBase = s.kernel.currentThread) ∧
      (s.memory (s.kernel.thread s.kernel.currentThread).task ≠ 0 →
        s.root = s.memory (s.kernel.thread s.kernel.currentThread).task) := by
  have hstep (s : System) (a : Action) (hs : Steady fuel b.owned s) :
      ∃ t, step fuel s a = some t ∧ Steady fuel b.owned t := by
    obtain ⟨t, ht, hsteady, -⟩ := hs.step a
    exact ⟨t, ht, hsteady⟩
  obtain ⟨s, hrun, hs⟩ := total hstep (b.steady hf) acts
  obtain ⟨ts, ths, hsch⟩ := hs.scheduled
  refine ⟨s, hrun, hsch.current, ?_, hs.mapped⟩
  rintro ⟨before, a, after, s₁, s₂, rfl, hbefore, ha, hne⟩
  have hs₁ : Steady fuel b.owned s₁ := by
    obtain ⟨t, ht, hsteady⟩ := total hstep (b.steady hf) before
    obtain rfl := Option.some.inj (ht.symm.trans hbefore)
    exact hsteady
  obtain ⟨u, hu, hs₂, -, he⟩ := hs₁.step a
  obtain rfl := Option.some.inj (hu.symm.trans ha)
  rw [run_append, hbefore, Option.bind_some, run, ha, Option.bind_some] at hrun
  exact hs₂.entered (he hne) hrun

def sampleActions : List Action :=
  [.preemptInt, .setState 0x200 .waiting, .setState 0x400 .waiting, .setState 0x500 .waiting,
    .setState 0x700 .waiting, .preemptSyscall, .setState 0x700 .running, .preemptInt]

theorem environment_follows_sample :
    ∃ s, run (step 3) sampleBoot.initializeTasks sampleActions = some s ∧
      s.kernel.currentThread = 0x700 ∧ s.rsp0 = 0x42000 ∧ s.kernelGsBase = 0x700 ∧
      s.root = 0x9007 := by
  obtain ⟨s, hrun, -, henter, hroot⟩ := environment_follows sampleBoot le_rfl sampleActions
  have hobs : (run (step 3) sampleBoot.initializeTasks sampleActions).map (fun s =>
      (s.kernel.currentThread, s.stackTop 0x700, s.memory (s.kernel.thread 0x700).task)) =
        some (0x700, 0x42000, 0x9007) := by
    decide
  rw [hrun, Option.map_some, Option.some_inj, Prod.mk.injEq, Prod.mk.injEq] at hobs
  obtain ⟨hcur, htop, hmemory⟩ := hobs
  rw [hcur, htop] at henter
  rw [hcur, hmemory] at hroot
  obtain ⟨s₂, hs₂, hne⟩ : ∃ s₂, step 3 sampleBoot.initializeTasks .preemptInt = some s₂ ∧
      s₂.kernel.currentThread = 0x500 :=
    Option.map_eq_some_iff.mp (show (step 3 sampleBoot.initializeTasks .preemptInt).map
      (fun s => s.kernel.currentThread) = some 0x500 by decide)
  have hswitched : Switched 3 sampleBoot.initializeTasks sampleActions :=
    ⟨[], .preemptInt, _, _, s₂, rfl, rfl, hs₂, by rw [hne]; decide⟩
  obtain ⟨hrsp0, hgs⟩ := henter hswitched
  exact ⟨s, hrun, hcur, hrsp0, hgs, hroot (by decide)⟩

end Lasagne.Scheduler
