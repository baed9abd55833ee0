import Mathlib
import Lasagne.Library.PartialRun
import Lasagne.Task.Scheduler
import Lasagne.Util.Ds

namespace Lasagne.Scheduler
open CyclicList Ds

def defaultStackSize : Nat := 8192

-- stackTop and memory are fields of the threads and of the tasks, root is entry 0 of the PML4
structure System where
  kernel : Kernel
  stackTop : Nat → Nat
  memory : Nat → Nat
  rsp0 : Nat
  kernelGsBase : Nat
  root : Nat

def threadLinks (k : Kernel) : Links := ⟨fun x => (k.thread x).next, fun x => (k.thread x).prev⟩

def taskLinks (k : Kernel) : Links := ⟨fun t => (k.task t).next, fun t => (k.task t).prev⟩

def linkThreads (k : Kernel) (l : Links) : Kernel :=
  { k with thread := fun x => { k.thread x with next := l.next x, prev := l.prev x } }

def linkTasks (k : Kernel) (l : Links) : Kernel :=
  { k with task := fun t => { k.task t with next := l.next t, prev := l.prev t } }

def setState (k : Kernel) (thread : Nat) (state : ThreadState) : Kernel :=
  { k with thread := Function.update k.thread thread { k.thread thread with state } }

def setTask (k : Kernel) (thread task : Nat) : Kernel :=
  { k with thread := Function.update k.thread thread { k.thread thread with task } }

-- thread and stack are what kalloc returned
def createThread (s : System) (task thread stack : Nat) : System :=
  let k := setTask (setState s.kernel thread .running) thread task
  let tmp := (k.task task).threads
  { s with
    stackTop := Function.update s.stackTop thread (stack + defaultStackSize)
    kernel :=
      if tmp ≠ 0 then linkThreads k (clistAdd (threadLinks k) tmp thread).1
      else
        let r := clistAdd (threadLinks k) (k.task task).threads thread
        setThreads (linkThreads k r.1) task r.2 }

def newAddressSpace (s : System) : System := { s with root := 0 }

def setAddressSpace (s : System) (pdpt : Nat) : System :=
  if s.root ≠ pdpt then { s with root := pdpt } else s

structure NewThread where
  thread : Nat
  stack : Nat

-- mapped is the entry of the root once map_range has mapped the code and the stack
structure NewTask extends NewThread where
  task : Nat
  mapped : Nat

def createUsermodeTask (s : System) (new : NewTask) : System :=
  let s := newAddressSpace s
  let s := { s with root := new.mapped }
  let s := { s with
    kernel := { s.kernel with task := Function.update s.kernel.task new.task ⟨0, 0, 0⟩ }
    memory := Function.update s.memory new.task s.root }
  let s := createThread s new.task new.thread new.stack
  let k := s.kernel
  let tmp := k.currentTask
  { s with
    kernel :=
      if tmp ≠ 0 then linkTasks k (clistAdd (taskLinks k) tmp new.task).1
      else
        let r := clistAdd (taskLinks k) k.currentTask new.task
        { linkTasks k r.1 with currentTask := r.2 } }

-- where the linker and kalloc put the threads and the tasks
structure Boot where
  before : System
  kernelTask : Nat
  kernelMainThread : Nat
  idle : NewThread
  sth : NewThread
  user₁ : NewTask
  user₀ : NewTask
  threads : [0, kernelMainThread, idle.thread, sth.thread, user₁.thread, user₀.thread].Nodup
  tasks : [0, kernelTask, user₁.task, user₀.task].Nodup
  kernelThreads : (before.kernel.task kernelTask).threads = 0
  currentTask : before.kernel.currentTask = 0

namespace Boot
variable (b : Boot)

def initKernelMainThread (s : System) : System :=
  { s with
    kernel := setTask (setState s.kernel b.kernelMainThread .running) b.kernelMainThread b.kernelTask }

def initKernelIdleThread (s : System) : System :=
  let s := createThread s b.kernelTask b.idle.thread b.idle.stack
  { s with
    kernel := setState { s.kernel with kernelIdleThread := b.idle.thread } b.idle.thread .waiting }

def initKernelTask (s : System) : System :=
  let s := { s with memory := Function.update s.memory b.kernelTask 0 }
  let s := b.initKernelIdleThread (b.initKernelMainThread s)
  let k := s.kernel
  let r := clistAdd (threadLinks k) (k.task b.kernelTask).threads b.kernelMainThread
  let k := setThreads (linkThreads k r.1) b.kernelTask r.2
  let r := clistAdd (taskLinks k) k.currentTask b.kernelTask
  { s with kernel := { linkTasks k r.1 with currentTask := r.2 } }

def initializeTasks : System :=
  let s := b.initKernelTask b.before
  let s := { s with kernel := { s.kernel with currentThread := b.kernelMainThread } }
  let s := createThread s b.kernelTask b.sth.thread b.sth.stack
  let s := createUsermodeTask s b.user₁
  createUsermodeTask s b.user₀

end Boot

def setCurrentKernelStack (s : System) (stack : Nat) : System := { s with rsp0 := stack }

def switchEnvironment (s : System) (oldThread newThread : Nat) : System :=
  if oldThread = newThread then s
  else
    let s := { s with kernelGsBase := newThread }
    let memory := s.memory (s.kernel.thread newThread).task
    let s := if memory ≠ 0 then setAddressSpace s memory else s
    setCurrentKernelStack s (s.stackTop newThread)

-- preempt_int and preempt_syscall up to the routine that changes the stack
def reschedule (fuel : Nat) (s : System) : Option System :=
  (preempt fuel s.kernel).map fun (thread, kernel) =>
    switchEnvironment { s with kernel } s.kernel.currentThread thread

inductive Action where
  | setState (thread : Nat) (state : ThreadState)
  | preemptInt
  | preemptSyscall

def step (fuel : Nat) (s : System) : Action → Option System
  | .setState thread state => some { s with kernel := setState s.kernel thread state }
  | .preemptInt => reschedule fuel s
  | .preemptSyscall => reschedule fuel s

end Lasagne.Scheduler
