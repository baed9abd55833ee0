import Mathlib
import Lasagne.Irq.Idt
import Lasagne.Switch.Run

namespace Lasagne.Irq
open ByteMemory PartialRun X86

-- the stacks the task state segment names
structure TaskState where
  rsp0 : Word
  ist : Nat → Word

def rflagsTf : Word := 1 <<< 8

def rflagsNt : Word := 1 <<< 14

def rflagsRf : Word := 1 <<< 16

def rflagsVm : Word := 1 <<< 17

section delivery
variable (tss : TaskState) (g : Gate)

def privilege (selector : Nat) : Nat := selector % 4

def TaskState.select (s : Machine) : Word :=
  if g.ist ≠ 0 then tss.ist g.ist
  else if privilege s.cs.toNat = privilege g.selector then s.reg .rsp else tss.rsp0

-- what the processor stores, the last word first
def stackFrame (errorCode : Option Word) (s : Machine) : List Word :=
  errorCode.toList ++ [s.rip, s.cs.setWidth 64, s.rflags, s.reg .rsp, s.ss.setWidth 64]

-- an interrupt gate, unlike a trap gate, also disables interrupts
def Gate.clears : Word :=
  rflagsTf ||| rflagsNt ||| rflagsRf ||| rflagsVm |||
    if g.type = 0xE then Switch.rflagsIf else 0

def deliver (errorCode : Option Word) (s : Machine) : Machine :=
  let t := (stackFrame errorCode s).reverse.foldl Machine.push
    (s.set .rsp (tss.select g s &&& ~~~15))
  { t with
    rip := BitVec.ofNat 64 g.offset
    cs := BitVec.ofNat 16 g.selector
    ss := if privilege s.cs.toNat = privilege g.selector then s.ss else 0
    rflags := s.rflags &&& ~~~g.clears }

end delivery

def sizeofIdtHandler : Word := 16

section source
variable (wrapper idtHandler : Word)

-- the stub at rip: push i
def interruptWrapper (s : Machine) : Option Machine :=
  ((List.range intVectorsNumber).find? fun i =>
    wrapper + BitVec.ofNat 64 (intWrapperAlign * i) = s.rip).map fun i => s.push (BitVec.ofNat 64 i)

def handlerRegs : List Reg :=
  [.r15, .r14, .r13, .r12, .r11, .r10, .r9, .r8, .rbp, .rdi, .rsi, .rdx, .rcx, .rbx, .rax]

-- up to the call, which leaves the address of the instruction after it
def handler (ret : Word) (s : Machine) : Machine :=
  let s := handlerRegs.foldl (fun s r => s.push (s.reg r)) s
  let s := s.set .rbx (loadWord s.mem (s.reg .rsp + 8 * 15).toNat)
  let s := s.set .rbx (s.reg .rbx * sizeofIdtHandler)
  let s := s.set .rdi (s.reg .rsp)
  let s := s.set .rsi (loadWord s.mem (s.reg .rsp + 8 * 16).toNat)
  (s.push ret).jump (loadWord s.mem (idtHandler + s.reg .rbx).toNat)

def notTaskSwitch : Nat := 26

-- from the return of the call to the jump
def handlerReturn (p : Placement Switch.code) (s : Machine) : Machine :=
  let flags (s : Machine) := loadWord s.mem (idtHandler + s.reg .rbx + 8).toNat
  let s := s.setZero (flags s &&& intHandlerRetval)
  let s := if s.rflags.getLsbD 6 then s
    else { s with mem := storeWord s.mem (s.reg .rsp).toNat (s.reg .rax) }
  (s.setZero (flags s &&& intHandlerErrorcode)).jump (p.addr notTaskSwitch)

end source

-- struct irq_state and what lies behind it
def irqState (s : Machine) (irq : Word) (errorCode : Option Word) : List Word :=
  Switch.frameRegs.map s.reg ++ irq :: stackFrame errorCode s

def Stored (m : Memory) (idtHandler : Word) (t : Tables) : Prop :=
  ∀ i < intVectorsNumber,
    loadWord m (idtHandler + BitVec.ofNat 64 (16 * i)).toNat = (t.handler i).address ∧
      loadWord m (idtHandler + BitVec.ofNat 64 (16 * i) + 8).toNat = (t.handler i).flags

section entry
variable {e : Option Word} {s u : Machine} {wrapper idtHandler : Word}

theorem stackFrame_length (e : Option Word) (s : Machine) :
    (stackFrame e s).length = e.toList.length + 5 := by
  rw [stackFrame, List.length_append]
  rfl

theorem toList_length (e : Option Word) : e.toList.length ≤ 1 := by
  cases e with
  | none => decide
  | some v => exact le_rfl

theorem aligned_toNat (v : Word) : (v &&& ~~~15#64).toNat = v.toNat / 16 * 16 := by
  have hv : v &&& ~~~15#64 = v >>> 4 <<< 4 := by
    ext i hi
    have h15 : (15#64)[i] = decide (i < 4) := Nat.testBit_two_pow_sub_one 4 i
    simp only [BitVec.getElem_and, BitVec.getElem_not, BitVec.getElem_shiftLeft, h15]
    by_cases h4 : i < 4
    · simp [h4]
    · simp only [h4, decide_false, Bool.not_false, Bool.and_true, Bool.true_and]
      rw [BitVec.getElem_ushiftRight, show 4 + (i - 4) = i by omega, BitVec.getLsbD_eq_getElem hi]
  rw [hv]
  have := v.isLt
  simp only [BitVec.toNat_shiftLeft, BitVec.toNat_ushiftRight, Nat.shiftLeft_eq, Nat.shiftRight_eq_div_pow]
  omega

theorem deliver_spec (tss : TaskState) (g : Gate) (e : Option Word) (s : Machine)
    (h : 8 * (stackFrame e s).length ≤ (tss.select g s).toNat / 16 * 16) :
    (deliver tss g e s).sp = (tss.select g s).toNat / 16 * 16 - 8 * (stackFrame e s).length ∧
      Holds (deliver tss g e s).mem (deliver tss g e s).sp (stackFrame e s) ∧
      (∀ r, r ≠ .rsp → (deliver tss g e s).reg r = s.reg r) ∧
      ∀ x, x < (deliver tss g e s).sp ∨ (tss.select g s).toNat / 16 * 16 ≤ x →
        (deliver tss g e s).mem x = s.mem x := by
  set u := s.set .rsp (tss.select g s &&& ~~~15#64) with hu
  have husp : u.sp = (tss.select g s).toNat / 16 * 16 := by
    rw [hu, Machine.sp, set_reg, Function.update_self, aligned_toNat]
  have hlen : (stackFrame e s).reverse.length = (stackFrame e s).length := List.length_reverse
  obtain ⟨hsp, hv, hreg, hmem⟩ := pushes_spec (stackFrame e s).reverse (s := u) (by omega)
  rw [hlen, husp] at hsp hv hmem
  rw [List.reverse_reverse] at hv
  have hdsp : (deliver tss g e s).sp = _ := hsp
  refine ⟨hdsp, hdsp ▸ hv, fun r hr => ?_, fun x hx => hmem x (hdsp ▸ hx)⟩
  exact (hreg r hr).trans (by rw [hu, set_reg, Function.update_of_ne hr])

theorem wrapper_eq {i j : Nat} (hi : i < intVectorsNumber) (hj : j < intVectorsNumber)
    (h : wrapper + BitVec.ofNat 64 (intWrapperAlign * i) =
      wrapper + BitVec.ofNat 64 (intWrapperAlign * j)) : i = j := by
  have hnat := congrArg BitVec.toNat (BitVec.add_right_inj _ |>.mp h)
  rw [intVectorsNumber] at hi hj
  rw [intWrapperAlign, BitVec.toNat_ofNat, BitVec.toNat_ofNat] at hnat
  omega

theorem interruptWrapper_eq {i : Nat} (hi : i < intVectorsNumber)
    (hrip : s.rip = wrapper + BitVec.ofNat 64 (intWrapperAlign * i)) :
    interruptWrapper wrapper s = some (s.push (BitVec.ofNat 64 i)) := by
  have hfind : (List.range intVectorsNumber).find? (fun i =>
      wrapper + BitVec.ofNat 64 (intWrapperAlign * i) = s.rip) = some i := by
    rw [List.find?_range_eq_some]
    refine ⟨by simp [hrip], List.mem_range.mpr hi, fun j hj => ?_⟩
    have hne : wrapper + BitVec.ofNat 64 (intWrapperAlign * j) ≠ s.rip := fun h =>
      hj.ne (wrapper_eq (hj.trans hi) hi (h.trans hrip))
    simpa using hne
  rw [interruptWrapper, hfind]
  rfl

theorem handler_eq (idtHandler ret : Word) (u : Machine) : ∃ w irq v,
    w = (handlerRegs.map u.reg).foldl Machine.push u ∧
    irq = loadWord w.mem (w.reg .rsp + 8 * 15).toNat ∧
    v = loadWord w.mem (w.reg .rsp + 8 * 16).toNat ∧
    handler idtHandler ret u = (((((w.set .rbx irq).set .rbx (irq * 16)).set .rdi
      (w.reg .rsp)).set .rsi v).push ret).jump (loadWord w.mem (idtHandler + irq * 16).toNat) := by
  refine ⟨_, _, _, rfl, rfl, rfl, ?_⟩
  rw [handler, pushRegs_eq handlerRegs (by decide)]
  simp only [set_reg, set_mem, Function.update_self, ne_eq, reduceCtorEq, not_false_eq_true,
    Function.update_of_ne, sizeofIdtHandler]

theorem handler_saves (idtHandler ret : Word) {u : Machine} (hsp : 128 ≤ u.sp) :
    (handler idtHandler ret u).sp = u.sp - 128 ∧ (handler idtHandler ret u).top = ret ∧
      ((handler idtHandler ret u).reg .rdi).toNat = u.sp - 120 ∧
      Holds (handler idtHandler ret u).mem (u.sp - 120) (Switch.frameRegs.map u.reg) ∧
      ∀ x, x < u.sp - 128 ∨ u.sp ≤ x → (handler idtHandler ret u).mem x = u.mem x := by
  obtain ⟨w, irq, v, hw, -, -, heq⟩ := handler_eq idtHandler ret u
  have hlen : 8 * (handlerRegs.map u.reg).length = 120 := rfl
  obtain ⟨hwsp, hstate, -, hmem⟩ := pushes_spec (handlerRegs.map u.reg) (s := u) (by omega)
  rw [hlen] at hwsp hstate hmem
  rw [← hw] at hwsp hstate hmem
  obtain ⟨t, ht⟩ : ∃ t, t = (((w.set .rbx irq).set .rbx (irq * 16)).set .rdi
    (w.reg .rsp)).set .rsi v := ⟨_, rfl⟩
  rw [← ht] at heq
  have htsp : t.sp = u.sp - 120 := by rw [ht]; exact hwsp
  have htmem : t.mem = w.mem := by rw [ht]; rfl
  have hpush : (t.push ret).sp = u.sp - 128 := (push_sp (by omega)).trans (by omega)
  have hpmem : (t.push ret).mem = storeWord w.mem (u.sp - 128) ret := by
    rw [push_mem (by omega), htsp, Nat.sub_sub, htmem]
  rw [heq, jump_sp, jump_reg, jump_mem]
  refine ⟨hpush, ?_, ?_, ?_, fun x hx => ?_⟩
  · rw [Machine.top, jump_sp, jump_mem, hpush, hpmem, loadWord_storeWord]
  · rw [push_reg (by decide), ht, set_reg, Function.update_of_ne (by decide), set_reg,
      Function.update_self]
    exact hwsp
  · rw [hpmem]
    exact Holds.congr hstate fun x hx hx' => storeWord_outside _ _ (by omega)
  · rw [hpmem, storeWord_outside _ _ (by omega), hmem x (by omega)]

theorem handler_spec (ret : Word) {irq v : Word} {vs : List Word} (hv : Holds u.mem u.sp (irq :: v :: vs))
    (hsp : 128 ≤ u.sp) (hend : u.sp + 16 ≤ 2 ^ 64)
    (htable : Switch.Apart (idtHandler + irq * 16).toNat 8 (u.sp - 128) 128) :
    (handler idtHandler ret u).rip = loadWord u.mem (idtHandler + irq * 16).toNat ∧
      (handler idtHandler ret u).reg .rsi = v ∧ (handler idtHandler ret u).reg .rbx = irq * 16 := by
  obtain ⟨w, irq', v', hw, hirq, herror, heq⟩ := handler_eq idtHandler ret u
  have hlen : 8 * (handlerRegs.map u.reg).length = 120 := rfl
  obtain ⟨hwsp, -, -, hmem⟩ := pushes_spec (handlerRegs.map u.reg) (s := u) (by omega)
  rw [hlen] at hwsp hmem
  rw [← hw] at hwsp hmem
  have hrsp (n : Nat) (hn : 120 ≤ n) (hn' : n ≤ 128) :
      (w.reg .rsp + BitVec.ofNat 64 n).toNat = u.sp + (n - 120) := by
    rw [Machine.sp] at hwsp
    rw [BitVec.toNat_add, BitVec.toNat_ofNat, hwsp]
    omega
  have habove (a : Nat) (ha : u.sp ≤ a) : loadWord w.mem a = loadWord u.mem a :=
    loadWord_congr fun x hx _ => hmem x (by omega)
  obtain rfl : irq' = irq := hirq.trans ((congrArg (loadWord w.mem) (hrsp 120 le_rfl
    (by decide))).trans ((habove _ le_rfl).trans hv.1))
  obtain rfl : v' = v := herror.trans ((congrArg (loadWord w.mem) (hrsp 128 (by decide)
    le_rfl)).trans ((habove _ (Nat.le_add_right _ _)).trans hv.2.1))
  rw [heq, jump_rip, jump_reg]
  refine ⟨loadWord_congr fun x hx hx' => hmem x ?_, ?_, ?_⟩
  · rw [Switch.Apart] at htable
    omega
  · rw [push_reg (by decide), set_reg, Function.update_self]
  · rw [push_reg (by decide)]
    rfl

end entry

section exit
variable {p : Placement Switch.code} {s : Machine} {e : Option Word}

theorem setZero_zero (s : Machine) (v : Word) :
    (s.setZero v).rflags.getLsbD 6 = decide (v = 0) := by
  by_cases hv : v = 0#64 <;> simp [Machine.setZero, hv]

theorem skip_errorCode (hs : s.rip = p.addr 41) (hz : s.rflags.getLsbD 6 = e.isNone)
    (ha : s.sp + 8 < 2 ^ 64) :
    ∃ n u, steps p n s = some u ∧ u.rip = p.addr 43 ∧ u.sp = s.sp + 8 * e.toList.length ∧
      u.mem = s.mem ∧ ∀ r, r ≠ .rsp → u.reg r = s.reg r := by
  cases e with
  | none =>
    have hjz : exec p 41 s (.jz 43) = s.jump (p.addr 43) := by rw [exec, hz]; rfl
    exact ⟨1, _, steps_at hs rfl, by rw [hjz]; rfl, by rw [hjz]; rfl, by rw [hjz]; rfl,
      fun r _ => by rw [hjz]; rfl⟩
  | some v =>
    have hjz : exec p 41 s (.jz 43) = s.jump (p.addr 42) := by rw [exec, hz]; rfl
    have hjump : steps p 1 s = some (s.jump (p.addr 42)) := by rw [← hjz]; exact steps_at hs rfl
    refine ⟨2, _, steps_trans (m := 1) (n := 1) hjump (steps_at rfl rfl), rfl, ?_, rfl, fun r hr => ?_⟩
    · exact drop_sp (s := s) ha
    · rw [exec, jump_reg, assign_reg, Function.update_of_ne hr, jump_reg]

theorem notTaskSwitch_spec {regs : List Word} {irq rip cs flags sp ss : Word}
    (hs : s.rip = p.addr notTaskSwitch) (hz : s.rflags.getLsbD 6 = e.isNone)
    (hv : Holds s.mem s.sp (regs ++ irq :: (e.toList ++ [rip, cs, flags, sp, ss])))
    (hlen : regs.length = 15) (ha : s.sp + 136 < 2 ^ 64) :
    ∃ n u, steps p n s = some u ∧ u.rip = rip ∧ u.cs = cs.setWidth 16 ∧ u.ss = ss.setWidth 16 ∧
      u.rflags = flags ∧ u.reg .rsp = sp ∧ u.mem = s.mem ∧ Switch.frameRegs.map u.reg = regs := by
  obtain ⟨hregs, hrest⟩ := (holds_append _ _ _ _).mp hv
  rw [hlen] at hrest
  have hcount : Switch.frameRegs.length = 15 := rfl
  obtain ⟨t, ht, hrip, htsp, htmem, hsame, hin, -⟩ := steps_pops Switch.frameRegs regs (i := 26) hs
    (by decide) (by decide) (by decide) hregs hlen (by omega)
  rw [hcount] at htsp hrip
  obtain ⟨m, u, hu, hurip, husp, humem, hureg⟩ := skip_errorCode (e := e) hrip
    (by rw [hsame.rflags, hz]) (by omega)
  have hcodes := toList_length e
  have hadd : steps p 1 u = some (exec p 43 u (.add .rsp 8)) := steps_at hurip rfl
  have hasp : (exec p 43 u (.add .rsp 8)).sp = s.sp + 8 * 15 + 8 + 8 * e.toList.length :=
    (drop_sp (s := u) (by omega)).trans (by omega)
  have hamem : (exec p 43 u (.add .rsp 8)).mem = s.mem := humem.trans htmem
  have hareg (r : Reg) (hr : r ≠ .rsp) : (exec p 43 u (.add .rsp 8)).reg r = t.reg r := by
    rw [exec, jump_reg, assign_reg, Function.update_of_ne hr, hureg r hr]
  have harip : (exec p 43 u (.add .rsp 8)).rip = p.addr 44 := rfl
  generalize exec p 43 u (.add .rsp 8) = v at *
  obtain ⟨x, hx, hxrip, hxcs, hxss, hxflags, hxsp, hxmem, hxreg⟩ := steps_iretq harip rfl
    (by rw [hamem, hasp]; exact ((holds_append _ _ _ _).mp hrest.2).2)
  refine ⟨_, x, steps_trans ht (steps_trans hu (steps_trans hadd hx)), hxrip, hxcs, hxss, hxflags,
    hxsp, hxmem.trans hamem, ?_⟩
  rw [← hin]
  refine List.map_congr_left fun r hr => ?_
  have hne : r ≠ .rsp := ne_of_mem_of_not_mem hr (by decide)
  rw [hxreg r hne, hareg r hne]

end exit

-- an interrupt, up to the first instruction of the function that handles it
def enter (tss : TaskState) (wrapper idtHandler ret : Word) (t : Tables) (irq : Nat)
    (errorCode : Option Word) (s : Machine) : Option Machine := do
  let g ← Gate.read (t.idt irq).packed
  let s ← interruptWrapper wrapper (deliver tss g errorCode s)
  return handler idtHandler ret s

structure Called (h : IdtHandler) (ret irq : Word) (errorCode : Option Word) (s c : Machine) : Prop where
  rip : c.rip = h.address
  ret : c.top = ret
  interruptsOff : c.rflags.getLsbD 9 = false
  regs : Holds c.mem (c.reg .rdi).toNat (irqState s irq errorCode)
  errorCode : ∀ v ∈ errorCode, c.reg .rsi = v

-- what the handler relies on when the function has returned
structure Returned (idtHandler : Word) (c r : Machine) : Prop where
  rsp : r.reg .rsp = c.reg .rsp + 8
  rbx : r.reg .rbx = c.reg .rbx
  flags : loadWord r.mem (idtHandler + r.reg .rbx + 8).toNat =
    loadWord c.mem (idtHandler + c.reg .rbx + 8).toNat

def resumed (h : IdtHandler) (result : Word) (s : Machine) : Cpu :=
  { s.toCpu with
    reg := if h.flags &&& intHandlerRetval ≠ 0 then Function.update s.reg .rax result else s.reg }

-- the stack the interrupt uses lies apart from the table
structure Room (tss : TaskState) (idtHandler : Word) (g : Gate) (s : Machine) : Prop where
  stack : 184 ≤ (tss.select g s).toNat / 16 * 16
  table : idtHandler.toNat + 16 * intVectorsNumber ≤ 2 ^ 64
  apart : Switch.Apart idtHandler.toNat (16 * intVectorsNumber)
    ((tss.select g s).toNat / 16 * 16 - 184) 184

section interrupts
variable {tss : TaskState} {wrapper idtHandler ret : Word} {t : Tables} {h : IdtHandler} {i : Nat}
  {e : Option Word} {s c r : Machine}

theorem entry_address (hi : i < intVectorsNumber)
    (htable : idtHandler.toNat + 16 * intVectorsNumber ≤ 2 ^ 64) :
    (idtHandler + BitVec.ofNat 64 (16 * i)).toNat = idtHandler.toNat + 16 * i := by
  rw [intVectorsNumber] at hi htable
  rw [BitVec.toNat_add, BitVec.toNat_ofNat]
  omega

theorem flags_address (hi : i < intVectorsNumber)
    (htable : idtHandler.toNat + 16 * intVectorsNumber ≤ 2 ^ 64) :
    (idtHandler + BitVec.ofNat 64 (16 * i) + 8).toNat = idtHandler.toNat + 16 * i + 8 := by
  rw [intVectorsNumber] at hi htable
  have hword : (8 : Word).toNat = 8 := rfl
  rw [BitVec.toNat_add, BitVec.toNat_add, BitVec.toNat_ofNat, hword]
  omega

theorem scaled (i : Nat) : BitVec.ofNat 64 i * 16 = BitVec.ofNat 64 (16 * i) := by
  rw [Nat.mul_comm, BitVec.ofNat_mul]
  rfl

theorem stackFrame_cons (e : Option Word) (s : Machine) :
    ∃ v vs, stackFrame e s = v :: vs ∧ ∀ w ∈ e, v = w := by
  cases e with
  | none => exact ⟨_, _, rfl, fun w hw => absurd hw (by simp)⟩
  | some v => exact ⟨v, _, rfl, fun w hw => Option.some.inj hw⟩

theorem interruptsOff {g : Gate} (hg : g.type = 0xE) :
    (deliver tss g e s).rflags.getLsbD 9 = false := by
  have hbit : g.clears.getLsbD 9 = true := by
    rw [Gate.clears, if_pos hg]
    decide
  have hflags : (deliver tss g e s).rflags = s.rflags &&& ~~~g.clears := rfl
  rw [hflags, BitVec.getLsbD_and, BitVec.getLsbD_not, hbit, Bool.not_true, Bool.and_false,
    Bool.and_false]

theorem enter_spec (e : Option Word) (ret : Word) {inst : Installed}
    (hr : Reflects wrapper t inst i) (hf : inst i = some h) (hi : i < intVectorsNumber)
    (htable : Stored s.mem idtHandler t)
    (hroom : Room tss idtHandler (gateOf wrapper i h) s) :
    ∃ c, enter tss wrapper idtHandler ret t i e s = some c ∧
      Called h ret (BitVec.ofNat 64 i) e s c ∧ c.reg .rbx = BitVec.ofNat 64 (16 * i) ∧
      c.sp + 8 * (e.toList.length + 22) = (tss.select (gateOf wrapper i h) s).toNat / 16 * 16 ∧
      (c.reg .rdi).toNat = c.sp + 8 ∧
      ∀ x, x < c.sp ∨ (tss.select (gateOf wrapper i h) s).toNat / 16 * 16 ≤ x →
        c.mem x = s.mem x := by
  obtain ⟨hstack, hend, hapart⟩ := hroom
  have hcodes := toList_length e
  have htop : (tss.select (gateOf wrapper i h) s).toNat / 16 * 16 < 2 ^ 64 :=
    (Nat.div_mul_le_self _ _).trans_lt (tss.select (gateOf wrapper i h) s).isLt
  have hlen := stackFrame_length e s
  obtain ⟨hdsp, hdv, hdreg, hdmem⟩ := deliver_spec tss (gateOf wrapper i h) e s (by omega)
  have hoff : (deliver tss (gateOf wrapper i h) e s).rflags.getLsbD 9 = false := interruptsOff rfl
  have hrip : (deliver tss (gateOf wrapper i h) e s).rip =
      wrapper + BitVec.ofNat 64 (intWrapperAlign * i) := BitVec.ofNat_toNat _ _
  have henter : enter tss wrapper idtHandler ret t i e s =
      some (handler idtHandler ret ((deliver tss (gateOf wrapper i h) e s).push (BitVec.ofNat 64 i))) := by
    rw [enter, hr.gate, hf, Option.map_some]
    simp only [Option.bind_eq_bind, Option.bind_some, interruptWrapper_eq hi hrip]
    rfl
  have haddr := entry_address hi hend
  generalize (tss.select (gateOf wrapper i h) s).toNat / 16 * 16 = top at *
  generalize deliver tss (gateOf wrapper i h) e s = d at *
  rw [intVectorsNumber] at hend hapart
  rw [hlen] at hdsp
  have husp : (d.push (BitVec.ofNat 64 i)).sp = d.sp - 8 := push_sp (by omega)
  have humem : (d.push (BitVec.ofNat 64 i)).mem = storeWord d.mem (d.sp - 8) (BitVec.ofNat 64 i) :=
    push_mem (by omega)
  have hureg (r : Reg) (hne : r ≠ .rsp) : (d.push (BitVec.ofNat 64 i)).reg r = s.reg r :=
    (push_reg hne).trans (hdreg r hne)
  have huoff : (d.push (BitVec.ofNat 64 i)).rflags.getLsbD 9 = false := hoff
  obtain ⟨v, vs, hvs, hv⟩ := stackFrame_cons e s
  have hframe : Holds (d.push (BitVec.ofNat 64 i)).mem (d.sp - 8)
      (BitVec.ofNat 64 i :: stackFrame e s) := by
    refine ⟨by rw [humem, loadWord_storeWord], ?_⟩
    rw [humem, Nat.sub_add_cancel (by omega)]
    exact hdv.congr fun x hx _ => storeWord_outside _ _ (by omega)
  rw [← husp] at hframe
  generalize d.push (BitVec.ofNat 64 i) = u at *
  obtain ⟨hcsp, hctop, hcdi, hcregs, hcmem⟩ :=
    handler_saves idtHandler ret (u := u) (by omega)
  obtain ⟨hcrip, hcsi, hcbx⟩ := handler_spec ret
    (hvs ▸ hframe) (by omega) (by omega) (by
      rw [scaled, haddr]
      rw [Switch.Apart] at hapart ⊢
      rw [intVectorsNumber] at hi
      omega)
  have hout (x : Nat) (hx : x < u.sp - 128 ∨ top ≤ x) : u.mem x = s.mem x := by
    rw [humem, storeWord_outside _ _ (by omega), hdmem x (by omega)]
  have hmap : Switch.frameRegs.map u.reg = Switch.frameRegs.map s.reg :=
    List.map_congr_left fun r hr => hureg r (ne_of_mem_of_not_mem hr (by decide))
  refine ⟨_, henter, ⟨?_, hctop, ?_, ?_, fun w hw => hcsi.trans (hv w hw)⟩, ?_, ?_, ?_,
    fun x hx => ?_⟩
  · rw [hcrip, scaled, haddr, loadWord_congr fun x hx hx' => hout x ?_, ← haddr, (htable i hi).1]
    · exact congrArg IdtHandler.address (hr.inForce h hf).2.1
    · rw [Switch.Apart] at hapart
      rw [intVectorsNumber] at hi
      omega
  · exact huoff
  · rw [hcdi, irqState, ← hmap]
    refine (holds_append _ _ _ _).mpr ⟨hcregs, ?_⟩
    rw [List.length_map, show u.sp - 120 + 8 * Switch.frameRegs.length = u.sp from by
      rw [show Switch.frameRegs.length = 15 from rfl]; omega]
    exact hframe.congr fun x hx _ => hcmem x (.inr hx)
  · rw [hcbx, scaled]
  · omega
  · omega
  · rw [hcmem x (by omega), hout x (by omega)]

theorem handlerReturn_spec (p : Placement Switch.code) {flags : Word}
    (hflags : loadWord r.mem (idtHandler + r.reg .rbx + 8).toNat = flags)
    (hapart : Switch.Apart (idtHandler + r.reg .rbx + 8).toNat 8 r.sp 8) :
    (handlerReturn idtHandler p r).rip = p.addr notTaskSwitch ∧
      (handlerReturn idtHandler p r).reg = r.reg ∧
      (handlerReturn idtHandler p r).rflags.getLsbD 6 = decide (flags &&& intHandlerErrorcode = 0) ∧
      (handlerReturn idtHandler p r).mem =
        if flags &&& intHandlerRetval ≠ 0 then storeWord r.mem r.sp (r.reg .rax) else r.mem := by
  have hbit : (r.setZero (flags &&& intHandlerRetval)).rflags.getLsbD 6 =
      decide (flags &&& intHandlerRetval = 0) := setZero_zero r _
  have hload : loadWord (storeWord r.mem r.sp (r.reg .rax)) (idtHandler + r.reg .rbx + 8).toNat = flags :=
    (loadWord_storeWord_apart _ _ (by rw [Switch.Apart] at hapart; omega)).trans hflags
  let mask (w : Word) := decide (w &&& intHandlerErrorcode = 0)
  rw [handlerReturn]
  simp only [hflags, hbit, decide_eq_true_eq]
  by_cases hret : flags &&& intHandlerRetval = 0
  · rw [if_pos hret, if_neg (not_not.mpr hret)]
    exact ⟨rfl, rfl, (setZero_zero _ _).trans (congrArg mask hflags), rfl⟩
  · rw [if_neg hret, if_pos hret]
    exact ⟨rfl, rfl, (setZero_zero _ _).trans (congrArg mask hload), rfl⟩

theorem resumed_reg (h : IdtHandler) (v : Word) (s : Machine) :
    (resumed h v s).reg =
      if h.flags &&& intHandlerRetval ≠ 0 then Function.update s.reg .rax v else s.reg := rfl

theorem stored_result {m : Memory} {a : Nat} {irq v : Word} (h : IdtHandler)
    (hv : Holds m a (irqState s irq e)) :
    Holds (if h.flags &&& intHandlerRetval ≠ 0 then storeWord m a v else m) a
      (Switch.frameRegs.map (resumed h v s).reg ++ irq :: stackFrame e s) := by
  rw [resumed_reg]
  by_cases hret : h.flags &&& intHandlerRetval ≠ 0
  · rw [if_pos hret, if_pos hret]
    refine ⟨loadWord_storeWord _ _ _, ?_⟩
    exact hv.2.congr fun x hx _ => storeWord_outside _ _ (.inr hx)
  · rw [if_neg hret, if_neg hret]
    exact hv

theorem cpu_eq {u : Machine} {c : Cpu} (hreg : u.reg = c.reg) (hrip : u.rip = c.rip)
    (hflags : u.rflags = c.rflags) (hcs : u.cs = c.cs) (hss : u.ss = c.ss) : u.toCpu = c := by
  obtain ⟨reg, rip, rflags, cs, ss⟩ := c
  obtain ⟨⟨reg', rip', rflags', cs', ss'⟩, mem⟩ := u
  simp only at hreg hrip hflags hcs hss
  subst hreg hrip hflags hcs hss
  rfl

theorem selector_back (v : BitVec 16) : (v.setWidth 64).setWidth 16 = v := by
  rw [BitVec.setWidth_setWidth_of_le _ (by decide), BitVec.setWidth_eq]

theorem return_spec (p : Placement Switch.code) {irq : Word}
    (hflags : loadWord r.mem (idtHandler + r.reg .rbx + 8).toNat = h.flags)
    (hapart : Switch.Apart (idtHandler + r.reg .rbx + 8).toNat 8 r.sp 8)
    (he : e.isSome = decide (h.flags &&& intHandlerErrorcode ≠ 0)) (hsp : r.sp + 136 < 2 ^ 64)
    (hv : Holds r.mem r.sp (irqState s irq e)) :
    ∃ n u, steps p n (handlerReturn idtHandler p r) = some u ∧
      u.toCpu = resumed h (r.reg .rax) s ∧ ∀ x, x < r.sp ∨ r.sp + 8 ≤ x → u.mem x = r.mem x := by
  obtain ⟨hrip, hreg, hzero, hmem⟩ := handlerReturn_spec p hflags hapart
  have hz : decide (h.flags &&& intHandlerErrorcode = 0) = e.isNone := by
    rw [← Option.not_isSome, he, decide_not, Bool.not_not]
  have hrsp : (handlerReturn idtHandler p r).sp = r.sp := by rw [Machine.sp, hreg, Machine.sp]
  obtain ⟨n, u, hu, hurip, hucs, huss, huflags, husp, humem, huregs⟩ := notTaskSwitch_spec hrip
    (hzero.trans hz) (hrsp ▸ hmem ▸ stored_result h hv) (by rw [List.length_map]; rfl)
    (hrsp ▸ hsp)
  refine ⟨n, u, hu, cpu_eq (funext fun q => ?_) hurip huflags (hucs.trans (selector_back _))
    (huss.trans (selector_back _)), fun x hx => ?_⟩
  · by_cases hq : q = .rsp
    · rw [hq, husp, resumed_reg]
      split
      · exact (Function.update_of_ne (by decide) _ _).symm
      · rfl
    · exact List.map_inj_left.mp huregs q (Switch.mem_frameRegs q hq)
  · rw [humem, hmem]
    split
    · exact storeWord_outside _ _ hx
    · rfl

end interrupts

theorem interrupt_returns (p : Placement Switch.code) (tss : TaskState)
    (wrapper idtHandler ret : Word) (t₀ t : Tables) (ops : List Op)
    (hrun : run Tables.step (createIdt wrapper t₀) ops = some t) (i : Nat)
    (hi : i < intVectorsNumber) (h : IdtHandler) (hh : installed ops i = some h)
    (e : Option Word) (he : e.isSome = decide (h.flags &&& intHandlerErrorcode ≠ 0)) (s : Machine)
    (htable : Stored s.mem idtHandler t) (hroom : Room tss idtHandler (gateOf wrapper i h) s) :
    ∃ c, enter tss wrapper idtHandler ret t i e s = some c ∧
      Called h ret (BitVec.ofNat 64 i) e s c ∧
      (∀ x, x < c.sp ∨ (tss.select (gateOf wrapper i h) s).toNat / 16 * 16 ≤ x →
        c.mem x = s.mem x) ∧
      ∀ (r s' : Machine) (e' : Option Word), Returned idtHandler c r → e'.isSome = e.isSome →
        Holds r.mem (c.reg .rdi).toNat (irqState s' (BitVec.ofNat 64 i) e') →
        ∃ n u, steps p n (handlerReturn idtHandler p r) = some u ∧
          u.toCpu = resumed h (r.reg .rax) s' ∧
          ∀ x, x < (c.reg .rdi).toNat ∨ (c.reg .rdi).toNat + 8 ≤ x → u.mem x = r.mem x := by
  have hr := reflects_run wrapper hrun hi
  obtain ⟨c, hc, hcalled, hbx, hsp, hdi, hmem⟩ := enter_spec e ret hr hh hi htable hroom
  refine ⟨c, hc, hcalled, hmem, fun r s' e' hret he' hv => ?_⟩
  obtain ⟨hstack, hend, hapart⟩ := hroom
  have hcodes := toList_length e
  have htop : (tss.select (gateOf wrapper i h) s).toNat / 16 * 16 < 2 ^ 64 :=
    (Nat.div_mul_le_self _ _).trans_lt (tss.select (gateOf wrapper i h) s).isLt
  have haddr := flags_address hi hend
  have hrsp : r.sp = (c.reg .rdi).toNat := by
    rw [hdi, Machine.sp, hret.rsp]
    exact drop_sp (s := c) (by omega)
  rw [Switch.Apart] at hapart
  rw [intVectorsNumber] at hi hend hapart
  have hflags : loadWord r.mem (idtHandler + r.reg .rbx + 8).toNat = h.flags := by
    rw [hret.flags, hbx, haddr, loadWord_congr fun x hx hx' => hmem x (by omega), ← haddr,
      (htable i hi).2]
    exact congrArg IdtHandler.flags (hr.inForce h hh).2.1
  rw [← hrsp] at hv ⊢
  exact return_spec p hflags (by rw [hret.rbx, hbx, haddr, Switch.Apart]; omega)
    (he'.trans he) (by omega) hv

section sample

def sampleTables : Tables := ⟨fun _ => compileIdt ⟨0, 0, 0, 0, 0, 0⟩, fun _ => ⟨0, 0⟩⟩

def sampleHandler : IdtHandler := ⟨0xffffffff80103000, intHandlerErrorcode⟩

def sampleMachine : Machine where
  reg := fun _ => 7
  rip := 0x100010
  rflags := 0x202
  cs := 0x23
  ss := 0x1b
  mem := storeWord (storeWord (fun _ => 0) 0x100e0 sampleHandler.address) 0x100e8 sampleHandler.flags

theorem sample_stored {t : Tables}
    (hrun : run Tables.step (createIdt 0xffffffff80100000 sampleTables)
      [.set 14 sampleHandler.address sampleHandler.flags] = some t) :
    Stored sampleMachine.mem 0x10000 t := by
  obtain rfl := Option.some.inj hrun
  intro i hi
  have hnat : (0x10000 : Word).toNat = 0x10000 := rfl
  have hend : (0x10000 : Word).toNat + 16 * intVectorsNumber ≤ 2 ^ 64 := by decide
  rw [entry_address hi hend, flags_address hi hend, hnat]
  by_cases h14 : i = 14
  · subst h14
    exact ⟨(loadWord_storeWord_apart _ _ (by decide)).trans (loadWord_storeWord _ _ _),
      loadWord_storeWord _ _ _⟩
  · have hzero (a : Nat) (ha : a + 8 ≤ 0x100e0 ∨ 0x100f0 ≤ a) : loadWord sampleMachine.mem a = 0 :=
      (loadWord_storeWord_apart _ _ (by omega)).trans
        ((loadWord_storeWord_apart _ _ (by omega)).trans (loadWord_zero fun _ _ => rfl))
    rw [hzero _ (by omega), hzero _ (by omega)]
    simp only [Function.update_of_ne h14]
    exact ⟨rfl, rfl⟩

theorem interrupt_returns_sample : ∃ t c n u,
    run Tables.step (createIdt 0xffffffff80100000 sampleTables)
      [.set 14 sampleHandler.address sampleHandler.flags] = some t ∧
    enter ⟨0x90000, fun _ => 0⟩ 0xffffffff80100000 0x10000 0xffffffff80100400 t 14 (some 6)
      sampleMachine = some c ∧ c.rip = 0xffffffff80103000 ∧ c.reg .rsi = 6 ∧
    steps Switch.samplePlacement n (handlerReturn 0x10000 Switch.samplePlacement c.drop) = some u ∧
      u.toCpu = sampleMachine.toCpu := by
  obtain ⟨t, ht⟩ := run_total [.set 14 sampleHandler.address sampleHandler.flags]
    (by decide) (createIdt 0xffffffff80100000 sampleTables)
  obtain ⟨c, hc, hcalled, -, hback⟩ := interrupt_returns Switch.samplePlacement
    ⟨0x90000, fun _ => 0⟩ 0xffffffff80100000 0x10000 0xffffffff80100400 _ t _ ht 14 (by decide)
    sampleHandler rfl (some 6) rfl sampleMachine (sample_stored ht)
    ⟨by decide, by decide, by decide⟩
  have hbx : c.drop.reg .rbx = c.reg .rbx := drop_reg (by decide)
  obtain ⟨n, u, hu, hcpu, -⟩ := hback c.drop sampleMachine (some 6)
    ⟨by rw [Machine.drop, set_reg, Function.update_self], hbx, by rw [hbx]; rfl⟩ rfl hcalled.regs
  exact ⟨t, c, n, u, ht, hc, hcalled.rip, hcalled.errorCode 6 rfl, hu, hcpu⟩

end sample

end Lasagne.Irq
