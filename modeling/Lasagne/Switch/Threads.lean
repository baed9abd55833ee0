import Mathlib
import Lasagne.Library.PartialRun
import Lasagne.Library.X86

namespace Lasagne.Switch
open ByteMemory X86

def switchTaskInt : List Instr :=
  [.push .rbp, .store .rdi .rsp, .mov .rsp .rsi, .pop .rbp, .ret]

def switchTaskSys : List Instr :=
  [.push .rbx, .push .r12, .push .r13, .push .r14, .push .r15,
    .call 0,
    .pop .r15, .pop .r14, .pop .r13, .pop .r12, .pop .rbx,
    .xorDword .rax .rax, .xorDword .rcx .rcx, .xorDword .rdx .rdx, .xorDword .rsi .rsi,
    .xor .r8 .r8, .xor .r9 .r9, .xor .r10 .r10, .xor .r11 .r11,
    .ret]

def leaveInterruptHandler : List Instr :=
  [.xor .rax .rax,
    .pop .rax, .pop .rbx, .pop .rcx, .pop .rdx, .pop .rsi, .pop .rdi, .pop .rbp, .pop .r8,
    .pop .r9, .pop .r10, .pop .r11, .pop .r12, .pop .r13, .pop .r14, .pop .r15,
    .jz 43,
    .add .rsp 8,
    .add .rsp 8,
    .iretq]

def code : List Instr := switchTaskInt ++ switchTaskSys ++ leaveInterruptHandler

def leaveEntry : Nat := 25

-- the instruction after the call in switchTaskSys
def sysReturn : Nat := 11

inductive Kind where
  | int
  | sys
  deriving DecidableEq, Repr

def Kind.entry : Kind → Nat
  | .int => 0
  | .sys => 5

-- what a thread that does not run waits for: its first run, or the return of its call
inductive Saved where
  | fresh (main cs ss usermodeStack : BitVec 64)
  | suspended (kind : Kind) (ret : BitVec 64) (reg : Reg → BitVec 64)

structure Thread where
  stack : Nat
  size : Nat
  saved : Saved

def threadSize : Nat := 72

def stackTopField : Nat := 8

def rspField : Nat := 32

def defaultStackSize : Nat := 8192

def rflagsIf : BitVec 64 := 1 <<< 9

def Thread.stackTop (th : Thread) : Nat := th.stack + th.size

def Thread.new (stack : Nat) (main cs ss usermodeStack : BitVec 64) : Thread :=
  ⟨stack, defaultStackSize, .fresh main cs ss usermodeStack⟩

-- *(--thread->rsp) = v
def pushWord (self : Nat) (m : Memory) (v : BitVec 64) : Memory :=
  let sp := loadWord m (self + rspField) - 8
  storeWord (storeWord m (self + rspField) sp) sp.toNat v

section world
variable (p : Placement code)

-- self and stack are what kalloc returned
def createThread (m : Memory) (self stack : Nat) (main cs ss usermodeStack : BitVec 64) : Memory :=
  let stackTop := BitVec.ofNat 64 (stack + defaultStackSize)
  let m := storeWord m (self + rspField) stackTop
  let m := storeWord m (self + stackTopField) stackTop
  let m := pushWord self m ss
  let m := if usermodeStack = 0 then pushWord self m stackTop else pushWord self m usermodeStack
  let m := pushWord self m rflagsIf
  let m := pushWord self m cs
  let m := pushWord self m main
  let m := pushWord self m 0
  let m := (List.replicate 15 0).foldl (pushWord self) m
  let m := pushWord self m (p.addr leaveEntry)
  pushWord self m 0

structure World where
  machine : Machine
  threads : List Nat
  thread : Nat → Thread
  current : Nat

def Apart (a n b m : Nat) : Prop := a + n ≤ b ∨ b + m ≤ a

instance (a n b m : Nat) : Decidable (Apart a n b m) :=
  inferInstanceAs (Decidable (a + n ≤ b ∨ b + m ≤ a))

def Separate (x : Nat) (a : Thread) (y : Nat) (b : Thread) : Prop :=
  Apart x threadSize y threadSize ∧ Apart a.stack a.size b.stack b.size ∧
    Apart x threadSize b.stack b.size ∧ Apart y threadSize a.stack a.size

instance (x : Nat) (a : Thread) (y : Nat) (b : Thread) : Decidable (Separate x a y b) :=
  inferInstanceAs (Decidable (_ ∧ _ ∧ _ ∧ _))

namespace World
variable (w : World)

-- a thread writes its own stack, and no saved stack pointer
def MayWrite (a : Nat) : Prop :=
  ∀ x ∈ w.threads, (a < x + rspField ∨ x + rspField + 8 ≤ a) ∧
    (x = w.current ∨ a < (w.thread x).stack ∨ (w.thread x).stackTop ≤ a)

instance (a : Nat) : Decidable (w.MayWrite a) := inferInstanceAs (Decidable (∀ _ ∈ w.threads, _))

-- kalloc returns memory that nothing else uses
def Available (self : Nat) (th : Thread) : Prop :=
  self + threadSize ≤ 2 ^ 64 ∧ th.stackTop < 2 ^ 64 ∧ Apart self threadSize th.stack th.size ∧
    ∀ x ∈ w.threads, Separate self th x (w.thread x)

instance (self : Nat) (th : Thread) : Decidable (w.Available self th) :=
  inferInstanceAs (Decidable (_ ∧ _ ∧ _ ∧ ∀ _ ∈ w.threads, _))

def frameLength : Kind → Nat
  | .int => 2
  | .sys => 8

def CanSwitch (kind : Kind) (ret : BitVec 64) (target : Nat) : Prop :=
  target ∈ w.threads ∧ outside p ret ∧
    (w.thread w.current).stack + 8 * frameLength kind ≤ w.machine.sp ∧
    w.machine.sp ≤ (w.thread w.current).stackTop

instance (kind : Kind) (ret : BitVec 64) (target : Nat) : Decidable (w.CanSwitch p kind ret target) :=
  inferInstanceAs (Decidable (_ ∧ _ ∧ _ ∧ _))

-- switch_task_*(&old_thread->rsp, current_thread->rsp)
def called (kind : Kind) (ret : BitVec 64) (target : Nat) : Machine :=
  (((w.machine.set .rdi (BitVec.ofNat 64 (w.current + rspField))).set .rsi
    (loadWord w.machine.mem (target + rspField))).push ret).jump (p.addr kind.entry)

end World

inductive Action where
  | compute (cpu : Cpu)
  | write (a : Nat) (b : BitVec 8)
  | create (self stack : Nat) (main cs ss usermodeStack : BitVec 64)
  | switch (kind : Kind) (ret : BitVec 64) (target : Nat)

def fuel : Nat := 64

def step (w : World) : Action → Option World
  | .compute cpu => some { w with machine := ⟨cpu, w.machine.mem⟩ }
  | .write a b =>
    if w.MayWrite a then
      some { w with machine := ⟨w.machine.toCpu, storeByte w.machine.mem a b⟩ }
    else none
  | .create self stack main cs ss usermodeStack =>
    let th := Thread.new stack main cs ss usermodeStack
    if w.Available self th ∧ outside p main then
      some { w with
        machine := ⟨w.machine.toCpu,
          createThread p w.machine.mem self stack main cs ss usermodeStack⟩
        threads := self :: w.threads
        thread := Function.update w.thread self th }
    else none
  | .switch kind ret target =>
    if w.CanSwitch p kind ret target then
      (finish p fuel (w.called p kind ret target)).map fun machine =>
        { w with
          machine
          thread := Function.update w.thread w.current { w.thread w.current with
            saved := .suspended kind ret w.machine.reg }
          current := target }
    else none

-- switches to the running thread itself are left out
def toOther (w : World) : Action → Bool
  | .switch _ _ target => target ≠ w.current
  | _ => true

end world

structure Start (w : World) : Prop where
  threads : w.threads = [w.current]
  bound : w.current + threadSize ≤ 2 ^ 64 ∧ (w.thread w.current).stackTop < 2 ^ 64
  apart : Apart w.current threadSize (w.thread w.current).stack (w.thread w.current).size

end Lasagne.Switch
