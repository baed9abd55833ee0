import Mathlib
import Lasagne.Switch.Callee
import Lasagne.Syscall.Entries

namespace Lasagne.Syscall
open ByteMemory X86 Switch

def ia32Efer : BitVec 32 := 0xC0000080

def ia32Star : BitVec 32 := 0xC0000081

def ia32Lstar : BitVec 32 := 0xC0000082

def ia32Fmask : BitVec 32 := 0xC0000084

def ia32GsBase : BitVec 32 := 0xC0000101

def ia32KernelGsBase : BitVec 32 := 0xC0000102

def codeSegment : BitVec 64 := 0x08

def userDataSegment : BitVec 64 := 0x1b

abbrev Msrs := BitVec 32 → BitVec 64

section registers
variable (msr : Msrs)

-- the instruction leaves the two halves in edx and eax
def rdmsr (register : BitVec 32) : BitVec 64 :=
  let rax := ((msr register).setWidth 32).setWidth 64
  let rdx := ((msr register >>> 32).setWidth 32).setWidth 64
  rax ||| rdx <<< 32

def wrmsr (register : BitVec 32) (data : BitVec 64) : Msrs :=
  let eax := data.setWidth 32
  let edx := (data >>> 32).setWidth 32
  Function.update msr register (edx ++ eax)

def initializeFastHandler (syscallFastHandler : BitVec 64) : Msrs :=
  let star := rdmsr msr ia32Star
  let star := star &&& 0xFFFFFFFF
  let star := star ||| codeSegment <<< 32
  let star := star ||| (userDataSegment - 8) <<< 48
  let msr := wrmsr msr ia32Star star
  let msr := wrmsr msr ia32Lstar syscallFastHandler
  let msr := wrmsr msr ia32Fmask rflagsIf
  let efer := rdmsr msr ia32Efer
  let efer := efer ||| 1
  wrmsr msr ia32Efer efer

end registers

structure Core extends Machine where
  msr : Msrs

namespace Core
variable (c : Core)

def on (f : Machine → Machine) : Core := { c with toMachine := f c.toMachine }

def store (a : Nat) (v : BitVec 64) : Core := { c with mem := storeWord c.mem a v }

def swapgs : Core :=
  let msr := Function.update c.msr ia32GsBase (c.msr ia32KernelGsBase)
  { c with msr := Function.update msr ia32KernelGsBase (c.msr ia32GsBase) }

def gs (field : Nat) : Nat := (c.msr ia32GsBase + BitVec.ofNat 64 field).toNat

def selector (shift : Nat) : BitVec 16 := (c.msr ia32Star >>> shift).setWidth 16

-- rip is the address of the instruction after this one
def syscall : Option Core :=
  if (c.msr ia32Efer).getLsbD 0 then
    some { c with
      toMachine := { (c.set .rcx c.rip).set .r11 c.rflags with
        rip := c.msr ia32Lstar
        rflags := c.rflags &&& ~~~c.msr ia32Fmask
        cs := c.selector 32 &&& 0xFFFC
        ss := c.selector 32 + 8 } }
  else none

-- the bits that sysret loads
def sysretFlags : BitVec 64 := 0x3C7FD7

def sysret : Option Core :=
  if (c.msr ia32Efer).getLsbD 0 ∧ canonical (c.reg .rcx) then
    some { c with
      toMachine := { c.toMachine with
        rip := c.reg .rcx
        rflags := c.reg .r11 &&& sysretFlags ||| 2
        cs := (c.selector 48 + 16) ||| 3
        ss := (c.selector 48 + 8) ||| 3 } }
  else none

end Core

-- where the linker puts bad_syscall and what the two calls push
structure Addresses where
  badSyscall : BitVec 64
  badReturn : BitVec 64
  handlerReturn : BitVec 64

section handler
variable (img : Image) (l : Addresses)

-- syscall_fast_handler up to the second swapgs
def saveUserStack (c : Core) : Core :=
  let c := c.swapgs
  let c := c.store (c.gs userRspField) (c.reg .rsp)
  let c := c.on (·.set .rsp (loadWord c.mem (c.gs stackTopField)))
  let c := c.store (c.gs syscallTypeField) syscallBySyscall
  c.swapgs

-- up to the first instruction of bad_syscall or of the handler
def fastCall (c : Core) : Core :=
  let c := saveUserStack c
  let c := c.on fun s => s.push (s.reg .rcx)
  let c := c.on fun s => s.push (s.reg .r11)
  let c := c.on fun s => s.set .rcx (s.reg .r10)
  if c.reg .rax < loadWord c.mem img.syscallCount then
    let c := c.on fun s => s.set .rax (s.reg .rax <<< 3)
    let c := c.on fun s =>
      s.set .rax (loadWord s.mem (BitVec.ofNat 64 img.syscallTable + s.reg .rax).toNat)
    c.on fun s => (s.push l.handlerReturn).jump (s.reg .rax)
  else
    let c := c.on fun s => s.set .rdi (s.reg .rax)
    c.on fun s => (s.push l.badReturn).jump l.badSyscall

-- from the return of the call to the processor in user mode
def fastExit (c : Core) : Option Core :=
  let c := c.on (·.pop .r11)
  let c := c.on (·.pop .rcx)
  let c := c.swapgs
  let c := c.on (·.set .rsp (loadWord c.mem (c.gs userRspField)))
  let c := c.swapgs
  c.sysret

end handler

-- what initialize_fast_handler leaves, and nothing writes later
def fastRegisters : List (BitVec 32) := [ia32Efer, ia32Star, ia32Lstar, ia32Fmask]

structure Ready (entry : BitVec 64) (msr : Msrs) : Prop where
  enabled : (msr ia32Efer).getLsbD 0 = true
  entry : msr ia32Lstar = entry
  mask : msr ia32Fmask = rflagsIf
  kernel : (msr ia32Star >>> 32).setWidth 16 = 0x08#16
  user : (msr ia32Star >>> 48).setWidth 16 = 0x13#16

section ready
variable {msr : Msrs} {entry : BitVec 64}

theorem halves (v : BitVec 64) : (v >>> 32).setWidth 32 ++ v.setWidth 32 = v := by
  ext i hi
  rw [BitVec.getElem_append]
  by_cases h32 : i < 32
  · simp [h32, BitVec.getLsbD_eq_getElem hi]
  · have hback : 32 + (i - 32) = i := by omega
    simp [h32, hback, BitVec.getLsbD_eq_getElem hi]

theorem wrmsr_eq (msr : Msrs) (register : BitVec 32) (data : BitVec 64) :
    wrmsr msr register data = Function.update msr register data := by
  rw [wrmsr, halves]

theorem rdmsr_eq (msr : Msrs) (register : BitVec 32) : rdmsr msr register = msr register := by
  rw [rdmsr]
  ext i hi
  by_cases h32 : i < 32
  · simp [h32, BitVec.getLsbD_eq_getElem hi]
  · have hback : 32 + (i - 32) = i := by omega
    simp [h32, hi, hback]
    omega

theorem star_shift (v : BitVec 64) {n : Nat} (hn : 32 ≤ n) :
    (v &&& 0xFFFFFFFF#64 ||| codeSegment <<< 32 ||| (userDataSegment - 8) <<< 48) >>> n =
      (codeSegment <<< 32 ||| (userDataSegment - 8) <<< 48) >>> n := by
  have hmask : 0xFFFFFFFF#64 >>> n = 0#64 := by
    refine BitVec.eq_of_toNat_eq ?_
    rw [BitVec.toNat_ushiftRight, Nat.shiftRight_eq_zero]
    · rfl
    · exact lt_of_lt_of_le (by decide) (Nat.pow_le_pow_right (by decide) hn)
  rw [BitVec.or_assoc, BitVec.ushiftRight_or_distrib, BitVec.ushiftRight_and_distrib, hmask,
    BitVec.and_zero, BitVec.zero_or]

theorem initialize_ready (entry : BitVec 64) (msr : Msrs) :
    Ready entry (initializeFastHandler msr entry) := by
  simp only [initializeFastHandler, wrmsr_eq, rdmsr_eq]
  refine ⟨?_, rfl, rfl, ?_, ?_⟩
  · rw [Function.update_self, BitVec.getLsbD_or]
    simp
  · rw [Function.update_of_ne (by decide), Function.update_of_ne (by decide),
      Function.update_of_ne (by decide), Function.update_self]
    exact (congrArg _ (star_shift _ le_rfl)).trans (by decide)
  · rw [Function.update_of_ne (by decide), Function.update_of_ne (by decide),
      Function.update_of_ne (by decide), Function.update_self]
    exact (congrArg _ (star_shift _ (by decide))).trans (by decide)

theorem Ready.congr {msr' : Msrs} (h : Ready entry msr) (hmsr : ∀ r ∈ fastRegisters, msr' r = msr r) :
    Ready entry msr' := by
  simp only [fastRegisters, List.forall_mem_cons] at hmsr
  obtain ⟨hefer, hstar, hlstar, hfmask, -⟩ := hmsr
  exact ⟨by rw [hefer, h.enabled], by rw [hlstar, h.entry], by rw [hfmask, h.mask],
    by rw [hstar, h.kernel], by rw [hstar, h.user]⟩

end ready

section gs
variable {c d : Core} {img : Image}

theorem swapgs_gs (c : Core) (field : Nat) :
    c.swapgs.gs field = (c.msr ia32KernelGsBase + BitVec.ofNat 64 field).toNat := by
  simp [Core.swapgs, Core.gs, ia32GsBase, ia32KernelGsBase]

theorem swapgs_twice (c : Core) (m : Machine) : (⟨m, c.swapgs.msr⟩ : Core).swapgs = ⟨m, c.msr⟩ := by
  refine congrArg (Core.mk m) (funext fun r => ?_)
  simp only [Core.swapgs]
  by_cases hk : r = ia32KernelGsBase
  · rw [hk, Function.update_self, Function.update_of_ne (by decide), Function.update_self]
  · by_cases hg : r = ia32GsBase
    · rw [hg, Function.update_of_ne (by decide), Function.update_self, Function.update_self]
    · simp [hk, hg]

-- KERNEL_GS_BASE holds the thread
def Owned (img : Image) (c : Core) : Prop :=
  c.msr ia32KernelGsBase = BitVec.ofNat 64 img.thread ∧ img.thread + threadSize ≤ 2 ^ 64

theorem Owned.gs (h : Owned img c) (hd : d.msr = c.swapgs.msr) {field : Nat}
    (hf : field < threadSize) : d.gs field = img.thread + field := by
  obtain ⟨hbase, hbound⟩ := h
  rw [threadSize] at hbound hf
  have hgs : d.gs field = c.swapgs.gs field := by rw [Core.gs, Core.gs, hd]
  rw [hgs, swapgs_gs, hbase, BitVec.toNat_add, BitVec.toNat_ofNat, BitVec.toNat_ofNat]
  omega

theorem saveUserStack_eq (h : Owned img c) :
    (((saveUserStack c).on fun s => s.push (s.reg .rcx)).on fun s => s.push (s.reg .r11)).on
      (fun s => s.set .rcx (s.reg .r10)) = c.on (changeStack img) := by
  have hback := swapgs_twice c
  have huser := h.gs (d := c.swapgs) rfl (show userRspField < threadSize by decide)
  have htop (m : Machine) :=
    h.gs (d := ⟨m, c.swapgs.msr⟩) rfl (show stackTopField < threadSize by decide)
  have htype (m : Machine) :=
    h.gs (d := ⟨m, c.swapgs.msr⟩) rfl (show syscallTypeField < threadSize by decide)
  simp only [saveUserStack, Core.store, Core.on, huser, htop, htype, hback]
  rfl

end gs

def Touched (img : Image) (x : Nat) : Prop :=
  img.thread + userRspField ≤ x ∧ x < img.thread + userRspField + 8 ∨
    img.thread + syscallTypeField ≤ x ∧ x < img.thread + syscallTypeField + 8 ∨
    img.stack + defaultStackSize ≤ x + 24 ∧ x < img.stack + defaultStackSize

section stack
variable {img : Image} {s : Machine}

theorem changeStack_frame (img : Image) (hs : s.mem = img.mem) :
    (changeStack img s).sp + 16 = img.stack + defaultStackSize ∧
      Holds (changeStack img s).mem (changeStack img s).sp [s.reg .r11, s.reg .rcx] ∧
      loadWord (changeStack img s).mem (img.thread + userRspField) = s.reg .rsp ∧
      ∀ x, ¬ Touched img x → (changeStack img s).mem x = img.mem x := by
  have hb := img.bounds
  have hta := img.threadApart
  simp only [Apart, threadSize, defaultStackSize] at hta hb
  obtain ⟨m, hm⟩ : ∃ m, m = storeWord (storeWord img.mem (img.thread + userRspField) (s.reg .rsp))
    (img.thread + syscallTypeField) syscallBySyscall := ⟨_, rfl⟩
  have htop : loadWord (storeWord img.mem (img.thread + userRspField) (s.reg .rsp))
      (img.thread + stackTopField) = BitVec.ofNat 64 (img.stack + defaultStackSize) := by
    rw [← img.top]
    exact loadWord_storeWord_apart _ _ (by simp only [userRspField, stackTopField]; omega)
  obtain ⟨t, ht⟩ : ∃ t : Machine, t =
    { s.set .rsp (BitVec.ofNat 64 (img.stack + defaultStackSize)) with mem := m } := ⟨_, rfl⟩
  have htsp : t.sp = img.stack + defaultStackSize := by
    rw [ht]
    simp only [Machine.sp, set_reg, Function.update_self, BitVec.toNat_ofNat]
    exact Nat.mod_eq_of_lt img.bounds.1
  have heq : changeStack img s =
      ([s.reg .rcx, s.reg .r11].foldl Machine.push t).set .rcx (s.reg .r10) := by
    simp only [changeStack, set_mem, hs, htop, ht, hm]
    rfl
  obtain ⟨hsp, hv, -, hmem⟩ := pushes_spec [s.reg .rcx, s.reg .r11] (s := t)
    (by rw [htsp]; simp [defaultStackSize])
  have hlen : 8 * [s.reg .rcx, s.reg .r11].length = 16 := rfl
  rw [htsp, hlen] at hsp hv hmem
  have hcsp : (changeStack img s).sp = img.stack + defaultStackSize - 16 := by
    rw [heq, set_sp (by decide), hsp]
  have hcmem : (changeStack img s).mem = ([s.reg .rcx, s.reg .r11].foldl Machine.push t).mem := by
    rw [heq, set_mem]
  have htmem : t.mem = m := by rw [ht]
  rw [htmem] at hmem
  rw [hcsp, hcmem]
  rw [defaultStackSize] at *
  refine ⟨by omega, hv, ?_, fun x hx => ?_⟩
  · rw [userRspField, loadWord_congr fun x hx hx' => hmem x (by omega), hm,
      loadWord_storeWord_apart _ _ (by rw [syscallTypeField]; omega), userRspField,
      loadWord_storeWord]
  · simp only [Touched, userRspField, syscallTypeField, defaultStackSize] at hx hm
    rw [hmem x (by omega), hm, storeWord_outside _ _ (by omega), storeWord_outside _ _ (by omega)]

theorem fastCall_eq {c : Core} (l : Addresses) (h : Owned img c) : fastCall img l c =
    c.on fun s => match syscallFastHandler img s with
      | (s, .called handler _) => (s.push l.handlerReturn).jump handler
      | (s, .rejected _) => (s.push l.badReturn).jump l.badSyscall := by
  simp only [fastCall]
  rw [saveUserStack_eq h]
  by_cases hlt : (changeStack img c.toMachine).reg .rax <
      loadWord (changeStack img c.toMachine).mem img.syscallCount
  · simp only [Core.on, syscallFastHandler, if_pos hlt]
    exact if_pos hlt
  · simp only [Core.on, syscallFastHandler, if_neg hlt]
    exact if_neg hlt

end stack

-- from the instruction of the user program s to the handler
def enterFast (entry : BitVec 64) (img : Image) (l : Addresses) (s : Core) : Option Core := do
  let c ← s.syscall
  if c.rip = entry then some (fastCall img l c) else none

-- depth bytes of the stack are in use
structure InKernel (img : Image) (s : Core) (depth : Nat) (c : Machine) : Prop where
  segments : c.cs = 0x08 ∧ c.ss = 0x10
  interruptsOff : c.rflags.getLsbD 9 = false
  sp : c.sp + depth = img.stack + defaultStackSize
  frame : Holds c.mem (img.stack + defaultStackSize - 16) [s.rflags, s.rip]
  userRsp : loadWord c.mem (img.thread + userRspField) = s.reg .rsp
  others : ∀ r ∈ calleeSaved, c.reg r = s.reg r
  mem : ∀ x, ¬ Touched img x → c.mem x = img.mem x

structure Called (img : Image) (l : Addresses) (s c : Core) : Prop where
  kernel : InKernel img s 24 c.toMachine
  msr : c.msr = s.msr
  handler : s.reg .rax < 2#64 →
    c.rip = loadWord img.mem (img.syscallTable + 8 * (s.reg .rax).toNat) ∧
      c.top = l.handlerReturn ∧ argumentRegs.map c.reg = requested s.toCpu
  rejected : loadWord img.mem img.syscallCount ≤ s.reg .rax →
    c.rip = l.badSyscall ∧ c.top = l.badReturn ∧ c.reg .rdi = s.reg .rax

structure Returned (img : Image) (c r : Core) : Prop where
  rsp : r.reg .rsp = c.reg .rsp + 8
  msr : ∀ q ∈ ia32KernelGsBase :: fastRegisters, r.msr q = c.msr q
  frame : ∀ x, c.sp + 8 ≤ x → x < c.sp + 24 → r.mem x = c.mem x
  userRsp : ∀ x, img.thread + userRspField ≤ x → x < img.thread + userRspField + 8 → r.mem x = c.mem x

structure GoesOn (s r u : Core) : Prop where
  rip : u.rip = s.rip
  rsp : u.reg .rsp = s.reg .rsp
  rflags : u.rflags = s.rflags &&& Core.sysretFlags ||| 2
  segments : u.cs = 0x23 ∧ u.ss = 0x1b
  clobbered : u.reg .rcx = s.rip ∧ u.reg .r11 = s.rflags
  others : ∀ q, q ∉ [Reg.rsp, .rcx, .r11] → u.reg q = r.reg q
  mem : u.mem = r.mem
  msr : u.msr = r.msr

section call
variable {img : Image} {l : Addresses} {entry : BitVec 64} {s c r : Core}

theorem syscall_eq (h : Ready entry s.msr) : ∃ t : Machine, s.syscall = some ⟨t, s.msr⟩ ∧
    t.rip = entry ∧ t.cs = 0x08 ∧ t.ss = 0x10 ∧ t.rflags = s.rflags &&& ~~~rflagsIf ∧
    t.reg = (syscallInstruction s.toMachine).reg ∧ t.mem = s.mem := by
  have hcs : s.selector 32 = 0x08#16 := h.kernel
  refine ⟨_, if_pos h.enabled, h.entry, ?_, ?_, ?_, rfl, rfl⟩
  · change s.selector 32 &&& 0xFFFC = 0x08
    rw [hcs]
    rfl
  · change s.selector 32 + 8 = 0x10
    rw [hcs]
    rfl
  · rw [h.mask]

theorem InKernel.set {m : Machine} {n : Nat} (h : InKernel img s n m) {r : Reg}
    (hr : r ∉ .rsp :: calleeSaved) (v : BitVec 64) : InKernel img s n (m.set r v) := by
  rw [List.mem_cons, not_or] at hr
  refine ⟨h.segments, h.interruptsOff, by rw [set_sp hr.1, h.sp], h.frame, h.userRsp, fun q hq => ?_,
    h.mem⟩
  rw [set_reg, Function.update_of_ne (ne_of_mem_of_not_mem hq hr.2), h.others q hq]

theorem InKernel.call {m : Machine} (h : InKernel img s 16 m) (ret a : BitVec 64) :
    InKernel img s 24 ((m.push ret).jump a) ∧ ((m.push ret).jump a).top = ret ∧
      ∀ r, r ≠ .rsp → ((m.push ret).jump a).reg r = m.reg r := by
  have hb := img.bounds
  have hta := img.threadApart
  have htop := h.sp
  simp only [Apart, threadSize, defaultStackSize] at hta hb htop
  have hsp : (m.push ret).sp = m.sp - 8 := push_sp (by omega)
  have hmem : (m.push ret).mem = storeWord m.mem (m.sp - 8) ret := push_mem (by omega)
  have hreg (r : Reg) (hr : r ≠ .rsp) : ((m.push ret).jump a).reg r = m.reg r := by
    rw [jump_reg, push_reg hr]
  have hout (x : Nat) (hx : x + 8 < m.sp ∨ m.sp ≤ x) : ((m.push ret).jump a).mem x = m.mem x := by
    rw [jump_mem, hmem, storeWord_outside _ _ (by omega)]
  refine ⟨⟨h.segments, h.interruptsOff, ?_, ?_, ?_, fun r hr => ?_, fun x hx => ?_⟩, ?_, hreg⟩
  · rw [jump_sp, hsp, defaultStackSize]
    omega
  · exact h.frame.congr fun x hx _ => hout x (.inr (by rw [defaultStackSize] at hx; omega))
  · rw [← h.userRsp]
    exact loadWord_congr fun x hx hx' => hout x (by rw [userRspField] at hx hx'; omega)
  · rw [hreg r (ne_of_mem_of_not_mem hr (by decide)), h.others r hr]
  · rw [hout x, h.mem x hx]
    simp only [Touched, defaultStackSize] at hx
    omega
  · rw [Machine.top, jump_sp, jump_mem, hsp, hmem, loadWord_storeWord]

theorem changeStack_inKernel {t : Machine} (ht : t.mem = img.mem) (hcs : t.cs = 0x08)
    (hss : t.ss = 0x10) (hflags : t.rflags = s.rflags &&& ~~~rflagsIf)
    (hreg : t.reg = (syscallInstruction s.toMachine).reg) :
    InKernel img s 16 (changeStack img t) := by
  obtain ⟨hsp, hv, huser, hout⟩ := changeStack_frame img ht
  obtain ⟨-, -, hother⟩ := changeStack_spec img ht
  have hrsp : t.reg .rsp = s.reg .rsp := by rw [hreg]; rfl
  have hr11 : t.reg .r11 = s.rflags := by rw [hreg]; rfl
  have hrcx : t.reg .rcx = s.rip := by rw [hreg]; rfl
  rw [hr11, hrcx, show (changeStack img t).sp = img.stack + defaultStackSize - 16 by omega] at hv
  refine ⟨⟨hcs, hss⟩, ?_, hsp, hv, huser.trans hrsp, fun r hr => ?_, hout⟩
  · change t.rflags.getLsbD 9 = false
    rw [hflags, BitVec.getLsbD_and]
    simp [rflagsIf]
  · have hne : r ≠ .rcx ∧ r ≠ .rsp ∧ r ≠ .r11 :=
      ⟨ne_of_mem_of_not_mem hr (by decide), ne_of_mem_of_not_mem hr (by decide),
        ne_of_mem_of_not_mem hr (by decide)⟩
    rw [hother r hne.1 hne.2.1, hreg]
    exact (Function.update_of_ne hne.2.2 _ _).trans (Function.update_of_ne hne.1 _ _)

theorem table_address (img : Image) {v : BitVec 64} (h : v < 2#64) :
    (BitVec.ofNat 64 img.syscallTable + v <<< 3).toNat = img.syscallTable + 8 * v.toNat := by
  have hb := img.bounds.2
  have hv : v.toNat < 2 := h
  rw [BitVec.toNat_add, BitVec.toNat_ofNat, BitVec.toNat_shiftLeft, Nat.shiftLeft_eq]
  omega

theorem fast_called (l : Addresses) (hready : Ready entry s.msr) (hs : s.mem = img.mem)
    (howned : Owned img s) : ∃ c, enterFast entry img l s = some c ∧ Called img l s c := by
  obtain ⟨t, ht, hrip, hcs, hss, hflags, hreg, hmem⟩ := syscall_eq hready
  have hown : Owned img ⟨t, s.msr⟩ := howned
  have htmem : t.mem = img.mem := hmem.trans hs
  have hkernel := changeStack_inKernel htmem hcs hss hflags hreg
  obtain ⟨hkept, hcx, hother⟩ := changeStack_spec img htmem
  have hrax : (changeStack img t).reg .rax = s.reg .rax := by
    rw [hother .rax (by decide) (by decide), hreg]
    rfl
  have henter : enterFast entry img l s = some (fastCall img l ⟨t, s.msr⟩) := by
    rw [enterFast, ht, Option.bind_eq_bind, Option.bind_some, if_pos hrip]
  have hsreg (r : Reg) (hr : r ∈ [Reg.rdi, .rsi, .rdx, .r8, .r9]) :
      (changeStack img t).reg r = s.reg r := by
    have hne : r ≠ .rcx ∧ r ≠ .rsp ∧ r ≠ .r11 :=
      ⟨ne_of_mem_of_not_mem hr (by decide), ne_of_mem_of_not_mem hr (by decide),
        ne_of_mem_of_not_mem hr (by decide)⟩
    rw [hother r hne.1 hne.2.1, hreg]
    exact (Function.update_of_ne hne.2.2 _ _).trans (Function.update_of_ne hne.1 _ _)
  have hr10 : (changeStack img t).reg .rcx = s.reg .r10 := by
    rw [hcx, hreg]
    rfl
  refine ⟨_, henter, ?_⟩
  rw [fastCall_eq l hown]
  simp only [Core.on, syscallFastHandler, hrax, hkept.1]
  by_cases hlt : s.reg .rax < loadWord img.mem img.syscallCount
  · simp only [if_pos hlt]
    obtain ⟨hc, htop, hcreg⟩ := ((hkernel.set (r := .rax) (by decide) _).set (r := .rax)
      (by decide) _).call l.handlerReturn _
    refine ⟨hc, rfl, fun h2 => ⟨?_, htop, ?_⟩, fun hle => absurd hlt (BitVec.not_lt.mpr hle)⟩
    · have hax : (s.reg .rax).toNat < 2 := h2
      rw [jump_rip, set_reg, Function.update_self, set_reg, Function.update_self,
        table_address img h2]
      exact hkept.entry hax
    · have hargs : ∀ r ∈ argumentRegs, _ := fun r hr =>
        hcreg r (ne_of_mem_of_not_mem hr (by decide))
      rw [List.map_congr_left hargs]
      simp [argumentRegs, requested, hsreg, hr10]
  · simp only [if_neg hlt]
    obtain ⟨hc, htop, hcreg⟩ := (hkernel.set (r := .rdi) (by decide) _).call l.badReturn l.badSyscall
    refine ⟨hc, rfl, fun h2 => absurd ?_ hlt, fun _ => ⟨rfl, htop, ?_⟩⟩
    · have hcount := two_le_count img
      rw [BitVec.lt_def] at h2 ⊢
      rw [BitVec.le_def] at hcount
      omega
    · rw [hcreg .rdi (by decide), set_reg, Function.update_self]

theorem fastExit_spec (hready : Ready entry r.msr) (howned : Owned img r) (hsp : r.sp + 16 < 2 ^ 64)
    (hframe : Holds r.mem r.sp [s.rflags, s.rip])
    (huser : loadWord r.mem (img.thread + userRspField) = s.reg .rsp)
    (hcanon : canonical s.rip) : ∃ u, fastExit r = some u ∧ GoesOn s r u := by
  obtain ⟨hflags, hrip, -⟩ := hframe
  obtain ⟨m, hm⟩ : ∃ m, m = (r.pop .r11).pop .rcx := ⟨_, rfl⟩
  have hdrop : (r.pop .r11).sp = r.sp + 8 :=
    (set_sp (s := r.drop) (by decide)).trans (drop_sp (by omega))
  have hmcx : m.reg .rcx = s.rip := by
    rw [hm, Machine.pop, set_reg, Function.update_self, Machine.top, hdrop]
    exact hrip
  have hm11 : m.reg .r11 = s.rflags := by
    rw [hm, Machine.pop, set_reg, Function.update_of_ne (by decide), drop_reg (by decide),
      Machine.pop, set_reg, Function.update_self, Machine.top]
    exact hflags
  have hmreg (q : Reg) (hq : q ∉ [Reg.rsp, .rcx, .r11]) : m.reg q = r.reg q := by
    simp only [List.mem_cons, List.not_mem_nil, or_false, not_or] at hq
    rw [hm, Machine.pop, set_reg, Function.update_of_ne hq.2.1, drop_reg hq.1, Machine.pop, set_reg,
      Function.update_of_ne hq.2.2, drop_reg hq.1]
  have hgs (m : Machine) : (⟨m, r.swapgs.msr⟩ : Core).gs userRspField = img.thread + userRspField :=
    howned.gs (d := ⟨m, r.swapgs.msr⟩) rfl (by decide)
  have hexit : fastExit r = (⟨m.set .rsp (s.reg .rsp), r.msr⟩ : Core).sysret := by
    have hpops : fastExit r = (((⟨m, r.swapgs.msr⟩ : Core).on (·.set .rsp
        (loadWord m.mem ((⟨m, r.swapgs.msr⟩ : Core).gs userRspField)))).swapgs).sysret := by
      rw [hm]
      rfl
    have hmmem : m.mem = r.mem := hm ▸ rfl
    rw [hpops, hgs, hmmem, huser, Core.on, swapgs_twice]
  have hncx : (m.set .rsp (s.reg .rsp)).reg .rcx = s.rip := by
    rw [set_reg, Function.update_of_ne (by decide), hmcx]
  have hn11 : (m.set .rsp (s.reg .rsp)).reg .r11 = s.rflags := by
    rw [set_reg, Function.update_of_ne (by decide), hm11]
  have hcond : (r.msr ia32Efer).getLsbD 0 = true ∧
      canonical ((m.set .rsp (s.reg .rsp)).reg .rcx) := ⟨hready.enabled, hncx ▸ hcanon⟩
  have huserSelector : (⟨m.set .rsp (s.reg .rsp), r.msr⟩ : Core).selector 48 = 0x13#16 := hready.user
  refine ⟨_, hexit.trans (if_pos hcond), ?_, ?_, ?_, ⟨?_, ?_⟩, ⟨hncx, hn11⟩, fun q hq => ?_, ?_, rfl⟩
  · exact hncx
  · change (m.set .rsp (s.reg .rsp)).reg .rsp = s.reg .rsp
    rw [set_reg, Function.update_self]
  · change (m.set .rsp (s.reg .rsp)).reg .r11 &&& Core.sysretFlags ||| 2 = _
    rw [hn11]
  · simp only [huserSelector]
    rfl
  · simp only [huserSelector]
    rfl
  · have hne : q ≠ .rsp := ne_of_mem_of_not_mem (by decide) hq |>.symm
    exact (Function.update_of_ne hne _ _).trans (hmreg q hq)
  · exact hm ▸ rfl

theorem Called.returns (hc : Called img l s c) (hready : Ready entry s.msr) (howned : Owned img s)
    (hcanon : canonical s.rip) (hr : Returned img c r) :
    ∃ u, fastExit r = some u ∧ GoesOn s r u := by
  have hb := img.bounds.1
  have htop := hc.kernel.sp
  have hstack : c.sp + 24 < 2 ^ 64 := htop ▸ hb
  have hmsr (q : BitVec 32) (hq : q ∈ ia32KernelGsBase :: fastRegisters) : r.msr q = s.msr q :=
    (hr.msr q hq).trans (congrFun hc.msr q)
  have hsp : r.sp = c.sp + 8 := by
    rw [Machine.sp, hr.rsp]
    exact drop_sp (s := c.toMachine) (by omega)
  have hframe := hc.kernel.frame
  rw [show img.stack + defaultStackSize - 16 = c.sp + 8 by omega] at hframe
  refine fastExit_spec (hready.congr fun q hq => hmsr q (List.mem_cons_of_mem _ hq))
    ⟨(hmsr _ List.mem_cons_self).trans howned.1, howned.2⟩ (by omega) ?_ ?_ hcanon
  · rw [hsp]
    exact hframe.congr fun x hx hx' => hr.frame x hx (by simpa using hx')
  · rw [← hc.kernel.userRsp]
    exact loadWord_congr hr.userRsp

end call

theorem syscall_returns (img : Image) (l : Addresses) (entry : BitVec 64) (msr : Msrs) (s : Core)
    (hs : s.mem = img.mem) (howned : Owned img s)
    (hmsr : ∀ r ∈ fastRegisters, s.msr r = initializeFastHandler msr entry r)
    (hcanon : canonical s.rip) :
    ∃ c, enterFast entry img l s = some c ∧ Called img l s c ∧
      ∀ r, Returned img c r → ∃ u, fastExit r = some u ∧ GoesOn s r u := by
  have hready := (initialize_ready entry msr).congr hmsr
  obtain ⟨c, hc, hcalled⟩ := fast_called l hready hs howned
  exact ⟨c, hc, hcalled, fun r hr => hcalled.returns hready howned hcanon hr⟩

def sampleMsrs : Msrs := initializeFastHandler (fun _ => 0) 0xffffffff80101000

def sampleCore : Core where
  reg := fun _ => 1
  rip := 0x100002
  rflags := 0x202
  cs := 0x23
  ss := 0x1b
  mem := sampleMemory 0
  msr := Function.update sampleMsrs ia32KernelGsBase 0x5000

def sampleAddresses : Addresses := ⟨0xffffffff80102000, 0xffffffff80101040, 0xffffffff80101060⟩

theorem syscall_returns_sample : ∃ c u,
    enterFast 0xffffffff80101000 (sampleImage 0) sampleAddresses sampleCore = some c ∧
      c.rip = 0x4000 ∧ fastExit ⟨c.drop, c.msr⟩ = some u ∧ u.rip = 0x100002 ∧ u.rflags = 0x202 ∧
      u.cs = 0x23 := by
  obtain ⟨c, hc, hcalled, hback⟩ := syscall_returns (sampleImage 0) sampleAddresses 0xffffffff80101000
    (fun _ => 0) sampleCore rfl ⟨rfl, by decide⟩
    (fun r hr => Function.update_of_ne (ne_of_mem_of_not_mem hr (by decide)) _ _) (by decide)
  obtain ⟨u, hu, hon⟩ := hback ⟨c.drop, c.msr⟩
    ⟨by rw [Machine.drop, set_reg, Function.update_self], fun _ _ => rfl, fun _ _ _ => rfl,
      fun _ _ _ => rfl⟩
  have hentry : c.rip = 0x4000 := (hcalled.handler (by decide)).1.trans (sampleMemory_table 0).2.1
  exact ⟨c, u, hc, hentry, hu, hon.rip, hon.rflags.trans (by decide), hon.segments.1⟩

end Lasagne.Syscall
